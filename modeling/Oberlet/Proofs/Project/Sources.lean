import Oberlet.Project.Load
import Oberlet.Proofs.Glob.Expand
import Oberlet.Proofs.Host.Path

/-!
# The sources of a project

The names that lead to the root of a project are part of each pattern. So what lies below the root
is found only if these names stand for themselves.
-/

namespace Oberlet.Project

def elementsOf (glob : String) : List String := (Path.split glob).filter (· != "")

/-- A pattern whose names are well formed and lead only downwards. -/
def WellFormed (glob : String) : Prop :=
  ∀ element ∈ elementsOf glob, element ≠ "." ∧ element ≠ ".." ∧
    (Glob.Pattern.ofText? element).isSome

instance (glob : String) : Decidable (WellFormed glob) :=
  inferInstanceAs (Decidable (∀ element ∈ elementsOf glob, _))

/-- An entry matches a pattern below a root. The names of the root are taken for patterns too. -/
def Chosen (files : FileTree) (root : Path) (glob : String) (path : Path) : Prop :=
  path.absolute = root.absolute ∧
    List.Forall₂ Glob.Matches (root.parts ++ elementsOf glob) path.parts ∧ files.Has path

/-- The sources of a project, in groups: in the group of a pattern there is what matches it and none
of the patterns before it, and all of this is ordered by text. -/
structure Resolved (files : FileTree) (root : Path) (globs : List String) (found : List Path)
    (groups : List (List Path)) : Prop where
  nodup : (found ++ groups.flatten).Nodup
  length_eq : groups.length = globs.length
  ordered : ∀ group ∈ groups, group.Pairwise fun path path' => path.text ≤ path'.text
  mem_iff : ∀ (i : Nat) (glob : String) (group : List Path), globs[i]? = some glob →
    groups[i]? = some group → ∀ path, path ∈ group ↔ Chosen files root glob path ∧ path ∉ found ∧
      ∀ (j : Nat) (before : String), j < i → globs[j]? = some before →
        ¬ Chosen files root before path

variable {found : List Path} {glob : String} {root : Path} {globs : List String}

/-- Each path is added once, behind those that are there. -/
theorem exists_addNew_eq (new : List Path) (hfound : found.Nodup) :
    ∃ fresh, addNew found new = found ++ fresh ∧ fresh.Sublist new ∧ (found ++ fresh).Nodup ∧
      ∀ path, path ∈ fresh ↔ path ∈ new ∧ path ∉ found := by
  induction new generalizing found with
  | nil => exact ⟨[], by simp [addNew], .slnil, by simpa using hfound, by simp⟩
  | cons path new ih =>
    by_cases hmem : path ∈ found
    · obtain ⟨fresh, heq, hsublist, hnodup, hfresh⟩ := ih hfound
      refine ⟨fresh, by simpa [addNew, hmem] using heq, hsublist.cons _, hnodup, fun other => ?_⟩
      rw [hfresh, List.mem_cons]
      refine and_congr_left fun hother => (or_iff_right ?_).symm
      rintro rfl
      exact hother hmem
    · have hnodup' : (found ++ [path]).Nodup := by
        simpa [List.nodup_append, hfound] using fun other h => ne_of_mem_of_not_mem h hmem
      obtain ⟨fresh, heq, hsublist, hnodup, hfresh⟩ := ih hnodup'
      rw [List.append_assoc] at heq hnodup
      refine ⟨path :: fresh, by simpa [addNew, hmem] using heq, hsublist.cons_cons _, hnodup,
        fun other => ?_⟩
      rw [List.mem_cons, hfresh, List.mem_cons]
      by_cases hother : other = path
      · simp [hother, hmem]
      · simp [hother]

theorem join_eq (hroot : ∀ name ∈ root.parts, Path.IsName name) (hglob : WellFormed glob) :
    root.join glob = ⟨root.absolute, root.parts ++ elementsOf glob⟩ := by
  have hclean : Path.normalize root.absolute ([] ++ root.parts) = _ :=
    Path.normalize_append _ _ fun name hname _ =>
      ⟨(hroot name hname).ne_here, (hroot name hname).ne_above⟩
  rw [Path.filter_names hroot] at hclean
  have helements : ∀ name ∈ Path.split glob, name ≠ "" → name ≠ "." ∧ name ≠ ".." := by
    intro name hname hne
    have h := hglob name (List.mem_filter.mpr ⟨hname, bne_iff_ne.mpr hne⟩)
    exact ⟨h.1, h.2.1⟩
  rw [Path.join, Path.normalize_append _ _ helements]
  exact congrArg (fun parts => Path.mk root.absolute (parts ++ elementsOf glob)) hclean

theorem pairwise_mergeSort (paths : List Path) :
    (paths.mergeSort textLe).Pairwise fun path path' => path.text ≤ path'.text := by
  have hle (path path' : Path) : textLe path path' = true ↔ path.text ≤ path'.text := by
    rw [textLe, Bool.not_eq_true', decide_eq_false_iff_not, String.not_lt]
  refine (List.pairwise_mergeSort (fun p q r => ?_) (fun p q => ?_) paths).imp
    fun h => (hle _ _).mp h
  · simpa only [hle] using String.le_trans
  · simpa only [Bool.or_eq_true, hle] using String.le_total _ _

theorem Resolved.cons {files : FileTree} {fresh : List Path} {groups : List (List Path)}
    (h : Resolved files root globs (found ++ fresh) groups)
    (hordered : fresh.Pairwise fun path path' => path.text ≤ path'.text)
    (hfresh : ∀ path, path ∈ fresh ↔ Chosen files root glob path ∧ path ∉ found) :
    Resolved files root (glob :: globs) found (fresh :: groups) := by
  refine ⟨by simpa using h.nodup, by simpa using h.length_eq,
    List.forall_mem_cons.mpr ⟨hordered, h.ordered⟩, fun i glob' group hglob hgroup path => ?_⟩
  cases i with
  | zero =>
    cases hglob
    cases hgroup
    simp [hfresh]
  | succ i =>
    rw [h.mem_iff i glob' group hglob hgroup path, List.mem_append, hfresh]
    refine and_congr_right fun _ => ?_
    constructor
    · rintro ⟨hnot, hbefore⟩
      refine ⟨fun hpath => hnot (.inl hpath), fun j before hj hget hpath => ?_⟩
      cases j with
      | zero =>
        cases hget
        exact hnot (.inr ⟨hpath, fun hmem => hnot (.inl hmem)⟩)
      | succ j => exact hbefore j before (Nat.lt_of_succ_lt_succ hj) hget hpath
    · rintro ⟨hnot, hbefore⟩
      refine ⟨?_, fun j before hj hget => hbefore (j + 1) before (Nat.succ_lt_succ hj) hget⟩
      rintro (hpath | ⟨hpath, -⟩)
      · exact hnot hpath
      · exact hbefore 0 glob (Nat.succ_pos i) rfl hpath

/-- The sources come in the order of the patterns, and of their texts for one pattern. -/
theorem run_resolveSources {m : Machine} (h : m.files.Rooted)
    (hroot : ∀ name ∈ root.parts, Path.IsName name ∧ (Glob.Pattern.ofText? name).isSome)
    (hglobs : ∀ glob ∈ globs, WellFormed glob) (hfound : found.Nodup) :
    (∃ groups, (resolveSources root found globs).run m =
        (.value (.ok (found ++ groups.flatten)), m) ∧ Resolved m.files root globs found groups ∧
        ∀ glob ∈ globs, ∃ path, Chosen m.files root glob path) ∨
      ∃ glob ∈ globs, (∀ path, ¬ Chosen m.files root glob path) ∧
        (resolveSources root found globs).run m = (.value (.error (.noMatch glob)), m) := by
  induction globs generalizing found with
  | nil =>
    refine .inl ⟨[], ?_, ⟨by simpa using hfound, rfl, by simp, by simp⟩, by simp⟩
    rw [List.flatten_nil, List.append_nil]
    rfl
  | cons glob globs ih =>
    rw [List.forall_mem_cons] at hglobs
    have hjoin := join_eq (fun name hname => (hroot name hname).1) hglobs.1
    have hvalid : ∀ element ∈ (root.join glob).parts, (Glob.Pattern.ofText? element).isSome := by
      rw [hjoin]
      exact List.forall_mem_append.mpr ⟨fun name hname => (hroot name hname).2,
        fun name hname => (hglobs.1 name hname).2.2⟩
    obtain ⟨paths, hexpand, hpaths⟩ := Glob.run_expand? h hvalid
    have hchosen (path : Path) : path ∈ paths ↔ Chosen m.files root glob path := by
      rw [hpaths, hjoin, Chosen]
    have hrun : (resolveSources root found (glob :: globs)).run m =
      _ := Job.run_bind_of_value hexpand
    cases paths with
    | nil =>
      refine .inr ⟨glob, List.mem_cons_self, fun path hpath => ?_, hrun⟩
      exact List.not_mem_nil ((hchosen path).mpr hpath)
    | cons first paths =>
      obtain ⟨fresh, heq, hsublist, hnodup, hfresh⟩ :=
        exists_addNew_eq ((first :: paths).mergeSort textLe) hfound
      simp only [List.mem_mergeSort, hchosen] at hfresh
      have hrun : (resolveSources root found (glob :: globs)).run m =
        (resolveSources root (found ++ fresh) globs).run m := heq ▸ hrun
      rw [hrun]
      rcases ih hglobs.2 hnodup with ⟨groups, hrun, hresolved, hall⟩ | ⟨other, hother, hnone, hrun⟩
      · refine .inl ⟨fresh :: groups, ?_, ?_, ?_⟩
        · rw [hrun, List.flatten_cons, List.append_assoc]
        · exact hresolved.cons ((pairwise_mergeSort _).sublist hsublist) hfresh
        · exact List.forall_mem_cons.mpr ⟨⟨first, (hchosen first).mp List.mem_cons_self⟩, hall⟩
      · exact .inr ⟨other, List.mem_cons_of_mem _ hother, hnone, hrun⟩

/-- The sources of a project are the entries that match one of its patterns, each of them once, in
the order of the first pattern that they match and then of their texts, unless nothing matches one
of the patterns. The names of the root are part of the patterns; if they stand for themselves, all
of this is about what lies below the root. -/
theorem sources_match_patterns {m : Machine} (h : m.files.Rooted) {root : Path}
    (hroot : ∀ name ∈ root.parts, Path.IsName name ∧ (Glob.Pattern.ofText? name).isSome)
    {globs : List String} (hglobs : ∀ glob ∈ globs, WellFormed glob) :
    ((∃ glob ∈ globs, ∀ path, ¬ Chosen m.files root glob path) →
      ∃ glob ∈ globs, (∀ path, ¬ Chosen m.files root glob path) ∧
        (resolveSources root [] globs).run m = (.value (.error (.noMatch glob)), m)) ∧
    ((∀ glob ∈ globs, ∃ path, Chosen m.files root glob path) →
      ∃ groups, (resolveSources root [] globs).run m = (.value (.ok groups.flatten), m) ∧
        Resolved m.files root globs [] groups) ∧
    ((∀ name ∈ root.parts, Glob.hasMeta name = false) → ∀ glob path,
      Chosen m.files root glob path ↔ ∃ names, path = ⟨root.absolute, root.parts ++ names⟩ ∧
        List.Forall₂ Glob.Matches (elementsOf glob) names ∧ m.files.Has path) := by
  refine ⟨?_, ?_, fun hplain glob path => ?_⟩
  · rintro ⟨glob, hglob, hnone⟩
    rcases run_resolveSources h hroot hglobs List.nodup_nil with ⟨-, -, -, hall⟩ | hfails
    · obtain ⟨path, hpath⟩ := hall glob hglob
      exact (hnone path hpath).elim
    · exact hfails
  · intro hall
    rcases run_resolveSources h hroot hglobs List.nodup_nil with
      ⟨groups, hrun, hresolved, -⟩ | ⟨glob, hglob, hnone, -⟩
    · exact ⟨groups, hrun, hresolved⟩
    · obtain ⟨path, hpath⟩ := hall glob hglob
      exact (hnone path hpath).elim
  · obtain ⟨absolute, parts⟩ := path
    rw [Chosen, Glob.forall₂_matches_append hplain]
    simp only [Path.mk.injEq]
    constructor
    · rintro ⟨rfl, ⟨names, rfl, hnames⟩, hpath⟩
      exact ⟨names, ⟨rfl, rfl⟩, hnames, hpath⟩
    · rintro ⟨names, ⟨rfl, rfl⟩, hnames, hpath⟩
      exact ⟨rfl, ⟨names, rfl, hnames⟩, hpath⟩

/-- A machine with sources in two directories. -/
def twinMachine : Machine := .holding ⟨[
  (["p[1]"], .directory), (["p[1]", "a.beb"], .file [] false),
  (["p1"], .directory), (["p1", "a.beb"], .file [] false), (["p1", "b.beb"], .file [] false),
  (["p1", "c"], .directory), (["p1", "c", "b.beb"], .file [] false)]⟩

/-- What lies below a root, by overlapping patterns. -/
theorem twin_sources_match :
    ∃ groups, (resolveSources ⟨true, ["p1"]⟩ [] ["*/?.beb", "b*", "[a-c].beb"]).run twinMachine =
        (.value (.ok groups.flatten), twinMachine) ∧
      Resolved twinMachine.files ⟨true, ["p1"]⟩ ["*/?.beb", "b*", "[a-c].beb"] [] groups := by
  have hchosen (glob : String) (path : Path) (h : path.absolute = true ∧
      List.Forall₂ Glob.Matches (["p1"] ++ elementsOf glob) path.parts ∧
        twinMachine.files.Has path) :
      ∃ path, Chosen twinMachine.files ⟨true, ["p1"]⟩ glob path := ⟨path, h⟩
  refine (sources_match_patterns (by decide +kernel) (by decide +kernel) (by decide +kernel)).2.1 ?_
  rw [List.forall_mem_cons, List.forall_mem_cons, List.forall_mem_singleton]
  exact ⟨hchosen _ ⟨true, ["p1", "c", "b.beb"]⟩ (by decide +kernel),
    hchosen _ ⟨true, ["p1", "b.beb"]⟩ (by decide +kernel),
    hchosen _ ⟨true, ["p1", "a.beb"]⟩ (by decide +kernel)⟩

/-- The root may be taken for the pattern of a directory beside it. -/
theorem twin_root_missed : twinMachine.files.Rooted ∧
    twinMachine.files.Has ⟨true, ["p[1]", "a.beb"]⟩ ∧ Glob.Matches "a*" "a.beb" ∧
    ((resolveSources ⟨true, ["p[1]"]⟩ [] ["a*"]).run twinMachine).1 =
      .value (.ok [⟨true, ["p1", "a.beb"]⟩]) := by
  refine ⟨by decide +kernel, ⟨.file [] false, by decide +kernel⟩, by decide +kernel, ?_⟩
  decide +kernel

end Oberlet.Project
