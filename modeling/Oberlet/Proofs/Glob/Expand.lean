import Mathlib.Data.List.Forall2
import Mathlib.Data.List.Induction
import Oberlet.Glob.Expand
import Oberlet.Proofs.Host.FileTree
import Oberlet.Proofs.Host.Job
import Oberlet.Proofs.Text.Utf8

/-!
# Entries that match a pattern

Each name of a pattern for paths is a pattern for one name of a path.
-/

namespace Oberlet

/-! ## Entries -/

namespace FileTree

variable {t : FileTree}

/-- Every entry lies in a directory. -/
def Rooted (t : FileTree) : Prop :=
  ∀ names name, (t.entry? (names ++ [name])).isSome → t.entry? names = some .directory

def Has (t : FileTree) (path : Path) : Prop := ∃ entry, t.resolve path = .ok entry

instance (t : FileTree) (path : Path) : Decidable (t.Has path) :=
  decidable_of_iff ((t.resolve path).toOption.isSome = true) (by
    cases h : t.resolve path <;> simp [Has, h, Except.toOption])

instance (t : FileTree) : Decidable t.Rooted :=
  decidable_of_iff (∀ entry ∈ t.entries, entry.1 ≠ [] → t.entry? entry.1.dropLast = some .directory)
    ⟨fun h names name hsome => by
      rw [entry?_of_ne_nil t (by simp), List.lookup_isSome_iff] at hsome
      obtain ⟨entry, hentry, hparts⟩ := hsome
      have hdirectory := h entry hentry
      rw [← beq_iff_eq.mp hparts] at hdirectory
      simpa using hdirectory,
    fun h entry hentry hne => h _ (entry.1.getLast hne) (by
      rw [List.dropLast_concat_getLast hne, entry?_of_ne_nil t hne, List.lookup_isSome_iff]
      exact ⟨entry, hentry, beq_self_eq_true _⟩)⟩

namespace Rooted

/-- What has an entry below it is a directory. -/
theorem directory (h : t.Rooted) {front back : List String} (hback : back ≠ [])
    (hentry : (t.entry? (front ++ back)).isSome) : t.entry? front = some .directory := by
  induction back using List.reverseRecOn with
  | nil => exact (hback rfl).elim
  | append_singleton back name ih =>
    rw [← List.append_assoc] at hentry
    have hparent := h _ _ hentry
    by_cases hnil : back = []
    · rwa [hnil, List.append_nil] at hparent
    · exact ih hnil (by rw [hparent]; rfl)

theorem has_iff (h : t.Rooted) {path : Path} : t.Has path ↔ (t.entry? path.parts).isSome := by
  constructor
  · rintro ⟨entry, hentry⟩
    rw [← List.nil_append path.parts, (entries_of_walk hentry).1]
    rfl
  · intro hsome
    have hwalk (names : List String) (hsome : (t.entry? names).isSome) :
        ∃ entry, t.walk [] names = .ok entry ∧ t.entry? names = some entry := by
      obtain ⟨entry, hentry⟩ := Option.isSome_iff_exists.mp hsome
      refine ⟨entry, ?_, hentry⟩
      induction names using List.reverseRecOn generalizing entry with
      | nil =>
        cases hentry
        rfl
      | append_singleton names name ih =>
        have hparent := h _ _ hsome
        exact walk_concat (ih (by rw [hparent]; rfl) _ hparent) hentry
    obtain ⟨entry, hentry, -⟩ := hwalk _ hsome
    exact ⟨entry, hentry⟩

end Rooted

theorem mem_names {dir : Path} {name : String} :
    name ∈ t.names dir ↔ (t.entry? (dir.parts ++ [name])).isSome := by
  have hparts (parts : List String) :
      ((parts != [] && parts.dropLast == dir.parts) = true ∧ parts.getLast? = some name) ↔
        dir.parts ++ [name] = parts := by
    rw [Bool.and_eq_true, bne_iff_ne, beq_iff_eq]
    refine ⟨fun h => ?_, fun h => by simp [← h]⟩
    rw [← h.1.2, List.dropLast_append_getLast? name h.2]
  rw [entry?_of_ne_nil t (by simp), List.lookup_isSome_iff, names, List.mem_filterMap]
  simp only [Option.ite_none_right_eq_some, hparts, beq_iff_eq]

end FileTree

/-! ## Names -/

namespace Glob

def Matches (element name : String) : Prop :=
  ∃ pattern, Pattern.ofText? element = some pattern ∧ pattern.matches (Text.Utf8.encode name) = true

instance (element name : String) : Decidable (Matches element name) :=
  decidable_of_iff ((Pattern.ofText? element).any (·.matches (Text.Utf8.encode name)) = true) (by
    simp [Matches, Option.any_eq_true])

theorem parts?_of_plain {cs : List Char} (h : cs.any isMeta = false) {fuel : Nat}
    (hfuel : cs.length < fuel) : parts? fuel cs =
      some ((Text.Utf8.encode (.ofList cs)).map fun b => some (.byte b)) := by
  induction cs generalizing fuel with
  | nil =>
    cases fuel with
    | zero => cases hfuel
    | succ fuel => rw [Text.Utf8.encode_eq]; rfl
  | cons c cs ih =>
    cases fuel with
    | zero => cases hfuel
    | succ fuel =>
      rw [List.any_cons, Bool.or_eq_false_iff] at h
      have hrest := ih h.2 (Nat.lt_of_succ_lt_succ hfuel)
      have htext : String.ofList (c :: cs) = c.toString ++ .ofList cs := by
        simp
      simp only [isMeta, Bool.or_eq_false_iff, beq_eq_false_iff_ne] at h
      rw [parts?, htext, Text.Utf8.encode_append, List.map_append, hrest] <;> simp_all

theorem chunks_of_items (items : List Item) : chunks (items.map some) = (items, []) := by
  induction items with
  | nil => rfl
  | cons item items ih => rw [List.map_cons, chunks, ih]

theorem after?_of_bytes (bytes name remains : Bytes) :
    Chunk.after? (bytes.map .byte) name = some remains ↔ name = bytes ++ remains := by
  induction bytes generalizing name with
  | nil => simp [Chunk.after?]
  | cons b bytes ih =>
    change ((Item.byte b).after? name).bind (Chunk.after? (bytes.map .byte)) = _ ↔ _
    cases name with
    | nil => simp [Item.after?]
    | cons c name =>
      by_cases hb : b = c
      · simpa [Item.after?, hb] using ih name
      · simp [Item.after?, hb, Ne.symm hb]

/-- A name without special characters is a pattern for itself. -/
theorem matches_of_plain {element name : String} (h : hasMeta element = false) :
    Matches element name ↔ name = element := by
  have hparts := parts?_of_plain h (Nat.lt_succ_self _)
  rw [String.ofList_toList] at hparts
  have hpattern : Pattern.ofText? element =
      some ⟨(Text.Utf8.encode element).map .byte, []⟩ := by
    have hchunks := chunks_of_items ((Text.Utf8.encode element).map .byte)
    rw [List.map_map] at hchunks
    rw [Pattern.ofText?]
    dsimp only
    rw [hparts]
    exact congrArg (fun c : Chunk × List Chunk => some (Pattern.mk c.1 c.2)) hchunks
  have hmatches : Matches element name ↔
      (Pattern.mk ((Text.Utf8.encode element).map .byte) []).matches
      (Text.Utf8.encode name) = true := by
    simp [Matches, hpattern]
  rw [hmatches, Pattern.matches]
  constructor
  · intro h
    split at h
    · rename_i remains hremains
      rw [after?_of_bytes] at hremains
      rw [matchesStarred, List.isEmpty_iff] at h
      rw [h, List.append_nil] at hremains
      exact Text.Utf8.encode_injective hremains
    · cases h
  · rintro rfl
    rw [(after?_of_bytes _ _ []).mpr (List.append_nil _).symm]
    rfl

theorem forall₂_matches_append {front back names : List String}
    (h : ∀ element ∈ front, hasMeta element = false) :
    List.Forall₂ Matches (front ++ back) names ↔
      ∃ rest, names = front ++ rest ∧ List.Forall₂ Matches back rest := by
  induction front generalizing names with
  | nil => simp
  | cons element front ih =>
    rw [List.forall_mem_cons] at h
    rw [List.cons_append, List.forall₂_cons_left_iff]
    constructor
    · rintro ⟨name, rest, hname, hrest, rfl⟩
      obtain ⟨rest, rfl, hback⟩ := (ih h.2).mp hrest
      exact ⟨rest, by rw [(matches_of_plain h.1).mp hname]; rfl, hback⟩
    · rintro ⟨rest, rfl, hback⟩
      exact ⟨element, front ++ rest, (matches_of_plain h.1).mpr rfl,
        (ih h.2).mpr ⟨rest, rfl, hback⟩, rfl⟩

/-! ## Paths -/

variable {m : Machine} {elements : List String}

theorem run_searchAll (pattern : Pattern) (dirs : List Path) :
    (searchAll pattern dirs).run m = (.value (dirs.flatMap fun dir => ((m.files.names dir).filter
      fun name => pattern.matches (Text.Utf8.encode name)).map dir.child), m) := by
  induction dirs with
  | nil => rfl
  | cons dir dirs ih =>
    have hsearch : (search pattern dir).run m = (.value (((m.files.names dir).filter
      fun name => pattern.matches (Text.Utf8.encode name)).map dir.child), m) := rfl
    rw [searchAll, Job.run_bind_of_value hsearch, Job.run_bind_of_value ih]
    rfl

/-- The entries that are found match the names of the pattern, one by one. -/
theorem run_follow (h : m.files.Rooted) {patterns : List Pattern}
    (hpatterns : elements.mapM Pattern.ofText? = some patterns) (dirs : List Path) :
    ∃ found, (follow patterns dirs).run m = (.value found, m) ∧ ∀ path, path ∈ found ↔
      ∃ dir ∈ dirs, ∃ names, path = ⟨dir.absolute, dir.parts ++ names⟩ ∧
        List.Forall₂ Matches elements names ∧
        (names ≠ [] → (m.files.entry? (dir.parts ++ names)).isSome) := by
  induction elements generalizing patterns dirs with
  | nil =>
    cases hpatterns
    refine ⟨dirs, rfl, fun path => ?_⟩
    simp [List.forall₂_nil_left_iff]
  | cons element elements ih =>
    rw [List.mapM_cons] at hpatterns
    obtain ⟨pattern, hpattern, hpatterns⟩ := Option.bind_eq_some_iff.mp hpatterns
    obtain ⟨rest, hrest, heq⟩ := Option.bind_eq_some_iff.mp hpatterns
    cases heq
    obtain ⟨found, hrun, hfound⟩ := ih hrest _
    refine ⟨found, (Job.run_bind_of_value (run_searchAll pattern dirs)).trans hrun, fun path => ?_⟩
    have hmatches (name : String) :
        Matches element name ↔ pattern.matches (Text.Utf8.encode name) = true := by
      simp [Matches, hpattern]
    rw [hfound]
    constructor
    · rintro ⟨_, hnext, names, rfl, hnames, hentry⟩
      obtain ⟨dir, hdir, hchild⟩ := List.mem_flatMap.mp hnext
      obtain ⟨name, hfilter, rfl⟩ := List.mem_map.mp hchild
      obtain ⟨hmem, hname⟩ := List.mem_filter.mp hfilter
      refine ⟨dir, hdir, name :: names, by simp [Path.child],
        .cons ((hmatches name).mpr hname) hnames,
        fun _ => ?_⟩
      cases names with
      | nil => exact FileTree.mem_names.mp hmem
      | cons next names => simpa [Path.child] using hentry
    · rintro ⟨dir, hdir, _, rfl, hall, hentry⟩
      obtain ⟨name, names, hname, hnames, rfl⟩ := List.forall₂_cons_left_iff.mp hall
      have hentry := hentry (List.cons_ne_nil _ _)
      rw [List.append_cons] at hentry
      refine ⟨dir.child name, List.mem_flatMap.mpr ⟨dir, hdir,
        List.mem_map_of_mem (List.mem_filter.mpr
        ⟨FileTree.mem_names.mpr ?_, (hmatches name).mp hname⟩)⟩,
          names, by simp [Path.child], hnames,
        fun _ => hentry⟩
      by_cases hnil : names = []
      · rwa [hnil, List.append_nil] at hentry
      · rw [h.directory hnil hentry]
        rfl

theorem exists_mapM (h : ∀ element ∈ elements, (Pattern.ofText? element).isSome) :
    ∃ patterns, elements.mapM Pattern.ofText? = some patterns := by
  induction elements with
  | nil => exact ⟨[], rfl⟩
  | cons element elements ih =>
    rw [List.forall_mem_cons] at h
    obtain ⟨pattern, hpattern⟩ := Option.isSome_iff_exists.mp h.1
    obtain ⟨patterns, hpatterns⟩ := ih h.2
    exact ⟨pattern :: patterns, by simp [List.mapM_cons, hpattern, hpatterns]⟩

theorem run_isDirectory (start : Path) :
    ∃ found, (do match ← Job.isDirectory start with
      | .ok _ => return some [start]
      | .error _ => return some [] : Job (Option (List Path))).run m = (.value (some found), m) ∧
      ∀ path, path ∈ found ↔ path = start ∧ m.files.Has path := by
  have hrun : (Job.isDirectory start).run m = (.value (m.files.isDirectory start), m) := rfl
  rw [Job.run_bind_of_value hrun, FileTree.isDirectory]
  cases hresolve : m.files.resolve start with
  | error reason =>
    refine ⟨[], rfl, fun path => ?_⟩
    simp +contextual [FileTree.Has, hresolve]
  | ok entry =>
    refine ⟨[start], by cases entry <;> rfl, fun path => ?_⟩
    simp +contextual [FileTree.Has, hresolve]

/-- All entries that match are found, and nothing else. -/
theorem run_expand? (h : m.files.Rooted) {pattern : Path}
    (hpattern : ∀ element ∈ pattern.parts, (Pattern.ofText? element).isSome) :
    ∃ found, (expand? pattern).run m = (.value (some found), m) ∧ ∀ path, path ∈ found ↔
      path.absolute = pattern.absolute ∧ List.Forall₂ Matches pattern.parts path.parts ∧
        m.files.Has path := by
  have hsplit : pattern.parts.takeWhile (!hasMeta ·) ++ pattern.parts.dropWhile (!hasMeta ·) =
      pattern.parts := List.takeWhile_append_dropWhile
  have hplain := List.all_eq_true.mp (List.all_takeWhile (p := (!hasMeta ·)) (l := pattern.parts))
  rw [expand?]
  generalize pattern.parts.takeWhile (!hasMeta ·) = front at hsplit hplain ⊢
  generalize pattern.parts.dropWhile (!hasMeta ·) = back at hsplit ⊢
  have hmatches (names : List String) : List.Forall₂ Matches pattern.parts names ↔
      ∃ rest, names = front ++ rest ∧ List.Forall₂ Matches back rest := by
    rw [← hsplit]
    exact forall₂_matches_append fun element helement => by simpa using hplain element helement
  obtain ⟨patterns, hpatterns⟩ : ∃ patterns, back.mapM Pattern.ofText? = some patterns :=
    exists_mapM fun element helement =>
      hpattern element (hsplit ▸ List.mem_append_right _ helement)
  cases back with
  | nil =>
    obtain ⟨found, hrun, hfound⟩ := run_isDirectory (m := m) ⟨pattern.absolute, front⟩
    refine ⟨found, hrun, fun path => (hfound path).trans ?_⟩
    obtain ⟨absolute, parts⟩ := path
    rw [hmatches, Path.mk.injEq, and_assoc]
    simp only [List.forall₂_nil_left_iff, exists_eq_right, List.append_nil]
  | cons element back =>
    obtain ⟨found, hrun, hfound⟩ := run_follow h hpatterns [⟨pattern.absolute, front⟩]
    refine ⟨found, ?_, fun path => ?_⟩
    · rw [hpatterns]
      cases patterns with
      | nil =>
        rw [List.mapM_cons] at hpatterns
        obtain ⟨_, -, hrest⟩ := Option.bind_eq_some_iff.mp hpatterns
        obtain ⟨_, -, heq⟩ := Option.bind_eq_some_iff.mp hrest
        cases heq
      | cons first rest => exact Job.run_bind_of_value hrun
    · obtain ⟨absolute, parts⟩ := path
      rw [hfound, h.has_iff, hmatches]
      simp only [List.mem_singleton, exists_eq_left, Path.mk.injEq]
      constructor
      · rintro ⟨names, ⟨rfl, rfl⟩, hnames, hentry⟩
        refine ⟨rfl, ⟨names, rfl, hnames⟩, hentry ?_⟩
        rintro rfl
        cases hnames
      · rintro ⟨rfl, ⟨names, rfl, hnames⟩, hentry⟩
        exact ⟨names, ⟨rfl, rfl⟩, hnames, fun _ => hentry⟩

end Glob

end Oberlet
