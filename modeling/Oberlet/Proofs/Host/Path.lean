import Oberlet.Host.Path

/-!
# Names in paths
-/

namespace Oberlet.Path

/-- A text that is the name of an entry. -/
structure IsName (part : String) : Prop where
  ne_empty : part ≠ ""
  ne_here : part ≠ "."
  ne_above : part ≠ ".."
  no_slash : '/' ∉ part.toList

instance (part : String) : Decidable (IsName part) :=
  decidable_of_iff (part ≠ "" ∧ part ≠ "." ∧ part ≠ ".." ∧ '/' ∉ part.toList)
    ⟨fun h => ⟨h.1, h.2.1, h.2.2.1, h.2.2.2⟩, fun h => ⟨h.1, h.2, h.3, h.4⟩⟩

variable {names : List String}

theorem foldl_push (absolute : Bool) (h : ∀ name ∈ names, name ≠ "" → name ≠ "." ∧ name ≠ "..")
    (read : List String) :
    names.foldl (push absolute) read = (names.filter (· != "")).reverse ++ read := by
  induction names generalizing read with
  | nil => rfl
  | cons name rest ih =>
    rw [List.forall_mem_cons] at h
    rw [List.foldl_cons, ih h.2]
    by_cases hname : name = ""
    · simp [push, hname]
    · simp [push, hname, h.1 hname]

/-- Names behind a path are not changed when it is brought into its clean form. -/
theorem normalize_append (absolute : Bool) (parts : List String)
    (h : ∀ name ∈ names, name ≠ "" → name ≠ "." ∧ name ≠ "..") :
    normalize absolute (parts ++ names) = normalize absolute parts ++ names.filter (· != "") := by
  rw [normalize, List.foldl_append, foldl_push absolute h, List.reverse_append,
    List.reverse_reverse, normalize]

theorem filter_names (h : ∀ name ∈ names, IsName name) : names.filter (· != "") = names :=
  List.filter_eq_self.mpr fun name hname => bne_iff_ne.mpr (h name hname).ne_empty

/-- The text of names has these names between its slashes. -/
theorem split_intercalate (hne : names ≠ []) (h : ∀ name ∈ names, IsName name) :
    split ("/".intercalate names) = names := by
  have hslash : ∀ name ∈ names.map String.toList, '/' ∉ name :=
    List.forall_mem_map.mpr fun name hname => (h name hname).no_slash
  have hsplit := List.splitOn_intercalate '/' hslash (by simpa using hne)
  rw [split, String.toList_intercalate]
  change List.map String.ofList ((['/'].intercalate _).splitOn '/') = names
  rw [hsplit, List.map_map]
  simp [Function.comp_def]

theorem join_intercalate (p : Path) (hne : names ≠ []) (h : ∀ name ∈ names, IsName name) :
    p.join ("/".intercalate names) = ⟨p.absolute, normalize p.absolute p.parts ++ names⟩ := by
  rw [join, split_intercalate hne h, normalize_append p.absolute p.parts fun name hname _ =>
    ⟨(h name hname).ne_here, (h name hname).ne_above⟩, filter_names h]

theorem dropCommon_append (parts names : List String) :
    dropCommon parts (parts ++ names) = ([], names) := by
  induction parts with
  | nil => cases names <;> rfl
  | cons part rest ih => simpa [dropCommon] using ih

/-- A path below another is seen from there by its further names. -/
theorem relativeTo?_append {base target : Path} (habsolute : target.absolute = base.absolute)
    (hparts : target.parts = base.parts ++ names) :
    target.relativeTo? base = some ⟨false, names⟩ := by
  simp [relativeTo?, habsolute, hparts, dropCommon_append]

theorem prefix_intercalate {start first : String} {rest : List String} (h : '/' ∉ start.toList) :
    start.toList <+: ("/".intercalate (first :: rest)).toList ↔ start.toList <+: first.toList := by
  cases rest with
  | nil => simp
  | cons second rest =>
    rw [String.intercalate_cons_cons, String.append_assoc, String.toList_append]
    refine ⟨fun hstart => ?_, fun hstart => hstart.trans (List.prefix_append _ _)⟩
    rcases List.prefix_or_prefix_of_prefix hstart (List.prefix_append _ _) with hle | hge
    · exact hle
    -- otherwise the slash behind the first name would belong to the text
    · obtain ⟨more, hmore⟩ := hge
      rw [← hmore, List.prefix_append_right_inj, String.toList_append] at hstart
      cases more with
      | nil => exact ⟨[], by rw [← hmore, List.append_nil, List.append_nil]⟩
      | cons c more =>
        obtain ⟨rfl, -⟩ := List.cons_prefix_cons.mp hstart
        exact (h (hmore ▸ List.mem_append_right _ List.mem_cons_self)).elim

theorem exists_of_intercalate_eq (hne : names ≠ []) {stem ending : String} (h : '/' ∉ ending.toList)
    (heq : "/".intercalate names = stem ++ ending) : ∃ init last, names = init ++ [last ++ ending] ∧
      ∀ other, stem ++ other = "/".intercalate (init ++ [last ++ other]) := by
  have hnames := List.dropLast_concat_getLast hne
  -- all before the last name ends in a slash
  have htext : ∃ before : String, (∀ c, before.toList.getLast? = some c → c = '/') ∧
      ∀ last, "/".intercalate (names.dropLast ++ [last]) = before ++ last := by
    cases names.dropLast with
    | nil => exact ⟨"", by simp, fun last => by simp⟩
    | cons first rest =>
      refine ⟨"/".intercalate (first :: rest) ++ "/", fun c hc => ?_, fun last => ?_⟩
      · rw [String.toList_append] at hc
        simpa using hc.symm
      · rw [String.intercalate_append_of_ne_nil (by simp) (by simp), String.intercalate_singleton]
  obtain ⟨before, hlast, htext⟩ := htext
  have hchars : before.toList ++ (names.getLast hne).toList = stem.toList ++ ending.toList := by
    rw [← String.toList_append, ← String.toList_append, ← htext, hnames, heq]
  obtain ⟨last, hstem, hend⟩ : ∃ last : String, stem = before ++ last ∧
      names.getLast hne = last ++ ending := by
    rcases List.append_eq_append_iff.mp hchars with ⟨more, hmore, hrest⟩ | ⟨more, hmore, hrest⟩
    · exact ⟨.ofList more, String.toList_injective (by simp [hmore]),
        String.toList_injective (by simp [hrest])⟩
    · cases hc : more.getLast? with
      | none =>
        obtain rfl := List.getLast?_eq_none_iff.mp hc
        exact ⟨"", String.toList_injective (by simpa using hmore.symm),
          String.toList_injective (by simpa using hrest.symm)⟩
      | some c =>
        have hslash := hlast c (by simp [hmore, hc])
        exact (h (hrest ▸ List.mem_append_left _ (hslash ▸ List.mem_of_getLast? hc))).elim
  refine ⟨names.dropLast, last, by rw [← hend, hnames], fun other => ?_⟩
  rw [htext, hstem, String.append_assoc]

end Oberlet.Path
