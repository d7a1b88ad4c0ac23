import Oberlet.Proofs.Build.Outputs
import Oberlet.Proofs.Host.Path

/-!
# Where outputs are placed

The exception is a source in a directory below the root whose name begins with two dots. It is taken
for one outside, and its output can be in the way of another.
-/

namespace Oberlet.Build

def namesOf (b : Build) (source : Path) : List String := source.parts.drop b.root.parts.length

/-- A source lies below the root, and its name has the ending of sources. -/
structure Covers (b : Build) (source : Path) : Prop where
  absolute : source.absolute = true
  below : b.root.parts <+: source.parts
  names_ne_nil : b.namesOf source ≠ []
  isName : ∀ name ∈ b.namesOf source, Path.IsName name
  ending : sourceEnding.toList <:+ ("/".intercalate (b.namesOf source)).toList

/-- A source lies in a directory below the root, and the first name on the way to it begins with two
dots. -/
def Misplaced (b : Build) (source : Path) : Prop :=
  (b.namesOf source).length ≠ 1 ∧ ∀ name ∈ (b.namesOf source).head?, "..".toList <+: name.toList

instance (b : Build) (source : Path) : Decidable (b.Covers source) :=
  decidable_of_iff (source.absolute = true ∧ b.root.parts <+: source.parts ∧ b.namesOf source ≠ [] ∧
      (∀ name ∈ b.namesOf source, Path.IsName name) ∧
      sourceEnding.toList <:+ ("/".intercalate (b.namesOf source)).toList)
    ⟨fun h => ⟨h.1, h.2.1, h.2.2.1, h.2.2.2.1, h.2.2.2.2⟩, fun h => ⟨h.1, h.2, h.3, h.4, h.5⟩⟩

instance (b : Build) (source : Path) : Decidable (b.Misplaced source) :=
  inferInstanceAs (Decidable (_ ∧ _))

theorem dropEnding_append (stem ending : String) : dropEnding ending (stem ++ ending) = stem := by
  simp [dropEnding, ← String.length_toList]

theorem isName_output {stem : String} (h : Path.IsName (stem ++ sourceEnding)) :
    Path.IsName (stem ++ OutputKind.text.ending) := by
  have hlength (short : String) (hshort : short.length < 3) :
      stem ++ OutputKind.text.ending ≠ short := by
    rintro rfl
    rw [String.length_append] at hshort
    exact absurd hshort (Nat.not_lt.mpr (Nat.le_add_left _ _))
  refine ⟨hlength "" (by decide), hlength "." (by decide), hlength ".." (by decide), fun hmem => ?_⟩
  rw [String.toList_append] at hmem
  rcases List.mem_append.mp hmem with hmem | hmem
  · exact h.no_slash (by rw [String.toList_append]; exact List.mem_append_left _ hmem)
  · exact absurd hmem (by decide)

namespace Covers

variable {b : Build} {source : Path}

theorem parts_eq (h : b.Covers source) : source.parts = b.root.parts ++ b.namesOf source := by
  obtain ⟨names, hnames⟩ := h.below
  rw [namesOf, ← hnames, List.drop_left]

/-- A source is shown as it is seen from the root, unless it is taken for one outside. -/
theorem shownPath_eq (hroot : b.root.absolute = true) (h : b.Covers source) : b.shownPath source =
    if ∀ name ∈ (b.namesOf source).head?, "..".toList <+: name.toList then source.text
    else "/".intercalate (b.namesOf source) := by
  rw [shownPath, Path.relativeTo?_append (h.absolute.trans hroot.symm) h.parts_eq]
  cases hnames : b.namesOf source with
  | nil => exact (h.names_ne_nil hnames).elim
  | cons first rest =>
    have hdots : "..".toList <+: ("/".intercalate (first :: rest)).toList ↔ _ :=
      Path.prefix_intercalate (by decide)
    simp only [Path.text, List.isEmpty_cons, Bool.false_eq_true, if_false,
      List.isPrefixOf_iff_prefix, hdots, List.head?_cons, Option.mem_some_iff, forall_eq']

theorem outputPath_eq (hroot : b.root.absolute = true) (h : b.Covers source) :
    b.outputPath source = b.outputDir.join (dropEnding sourceEnding
      (if b.Misplaced source then source.name else "/".intercalate (b.namesOf source)) ++
        OutputKind.text.ending) := by
  have habsolute : Path.isAbsoluteText source.text = true := by
    simp [Path.isAbsoluteText, Path.text, h.absolute]
  rw [outputPath, h.shownPath_eq hroot]
  congr 3
  cases hnames : b.namesOf source with
  | nil => exact (h.names_ne_nil hnames).elim
  | cons first rest =>
    have hrelative : Path.isAbsoluteText ("/".intercalate (first :: rest)) = false := by
      have hfirst := h.isName first (by rw [hnames]; exact List.mem_cons_self)
      cases hchars : first.toList with
      | nil => exact (hfirst.ne_empty (String.toList_injective hchars)).elim
      | cons c cs =>
        have hc : c ≠ '/' := fun heq => hfirst.no_slash (by simp [hchars, heq])
        cases rest <;> simp [Path.isAbsoluteText, hchars, hc]
    by_cases hdots : ∀ name ∈ (first :: rest).head?, "..".toList <+: name.toList
    · rw [if_pos hdots, if_pos habsolute]
      cases rest with
      | nil =>
        have hplaced : ¬ b.Misplaced source := fun h => h.1 (by rw [hnames]; rfl)
        rw [if_neg hplaced]
        simp [Path.name, h.parts_eq, hnames]
      | cons second rest =>
        have hmisplaced : b.Misplaced source := ⟨by simp [hnames], hnames ▸ hdots⟩
        rw [if_pos hmisplaced]
    · have hplaced : ¬ b.Misplaced source := fun h => hdots (hnames ▸ h.2)
      rw [if_neg hdots, if_neg hplaced, hrelative]
      rfl

/-- An output stands where its source stands, with another ending. -/
theorem exists_outputPath_eq (hroot : b.root.absolute = true) (h : b.Covers source) :
    ∃ init last, b.namesOf source = init ++ [last ++ sourceEnding] ∧
      (∀ stem, "/".intercalate (b.namesOf source) = stem ++ sourceEnding →
        b.outputDir.join (stem ++ OutputKind.text.ending) = ⟨b.outputDir.absolute,
          Path.normalize b.outputDir.absolute b.outputDir.parts ++
            (init ++ [last ++ OutputKind.text.ending])⟩) ∧
      b.outputPath source = ⟨b.outputDir.absolute,
        Path.normalize b.outputDir.absolute b.outputDir.parts ++
          ((if b.Misplaced source then [] else init) ++ [last ++ OutputKind.text.ending])⟩ := by
  obtain ⟨stem, hstem⟩ : ∃ stem, "/".intercalate (b.namesOf source) = stem ++ sourceEnding := by
    obtain ⟨stem, hstem⟩ := h.ending
    exact ⟨.ofList stem, String.toList_injective (by simp [hstem])⟩
  obtain ⟨init, last, hnames, hother⟩ := Path.exists_of_intercalate_eq h.names_ne_nil
    (by decide) hstem
  have hisName := h.isName
  rw [hnames] at hisName
  have hlast : Path.IsName (last ++ OutputKind.text.ending) := isName_output (hisName _ (by simp))
  have hall : ∀ name ∈ init ++ [last ++ OutputKind.text.ending], Path.IsName name :=
    List.forall_mem_append.mpr ⟨fun name hname => hisName name (List.mem_append_left _ hname),
      List.forall_mem_singleton.mpr hlast⟩
  have hjoin := Path.join_intercalate b.outputDir (by simp) hall
  refine ⟨init, last, hnames, fun stem' hstem' => ?_, ?_⟩
  · rw [← (String.append_left_inj _).mp (hstem.symm.trans hstem'), hother, hjoin]
  · rw [h.outputPath_eq hroot]
    split
    · have hname : source.name = last ++ sourceEnding := by simp [Path.name, h.parts_eq, hnames]
      have hflat := Path.join_intercalate b.outputDir (by simp)
        (List.forall_mem_singleton.mpr hlast)
      rw [hname, dropEnding_append]
      rwa [String.intercalate_singleton] at hflat
    · rw [hstem, dropEnding_append, hother, hjoin]

end Covers

/-- The output of a source below the root is where its source is, below the output directory and
with another ending, unless the source lies in a directory and the first name on the way to it
begins with two dots; then it is directly in the output directory. If there is no such source, all
outputs differ and nothing is told about them. -/
theorem outputs_mirror_sources (b : Build) (hroot : b.root.absolute = true)
    (hsources : ∀ source ∈ b.sources, b.Covers source) (hnodup : b.sources.Nodup) :
    (∀ (i : Nat) (source : Path) (stem : String), b.sources[i]? = some source →
      "/".intercalate (b.namesOf source) = stem ++ sourceEnding →
      (b.outputPaths[i]? = some (b.outputDir.join (stem ++ OutputKind.text.ending)) ↔
        ¬ b.Misplaced source)) ∧
    (∀ (i : Nat) (source : Path) (stem : String), b.sources[i]? = some source → b.Misplaced source →
      source.name = stem ++ sourceEnding →
      b.outputPaths[i]? = some (b.outputDir.join (stem ++ OutputKind.text.ending))) ∧
    ((∀ source ∈ b.sources, ¬ b.Misplaced source) →
      b.outputPaths.Nodup ∧ b.conflicts [] b.sources = []) := by
  refine ⟨fun i source stem hi hstem => ?_, fun i source stem hi hmisplaced hstem => ?_,
    fun hplaced => ?_⟩
  · have h := hsources source (List.mem_of_getElem? hi)
    obtain ⟨init, last, hnames, hjoin, houtput⟩ := h.exists_outputPath_eq hroot
    rw [outputPaths, List.getElem?_map, hi, Option.map_some, Option.some_inj, hjoin stem hstem,
      houtput]
    by_cases hmisplaced : b.Misplaced source
    · have hinit : init ≠ [] := by
        rintro rfl
        exact hmisplaced.1 (by rw [hnames]; rfl)
      simp [hmisplaced, hinit]
    · simp [hmisplaced]
  · have h := hsources source (List.mem_of_getElem? hi)
    rw [outputPaths, List.getElem?_map, hi, Option.map_some, h.outputPath_eq hroot,
      if_pos hmisplaced, hstem, dropEnding_append]
  · have hinjective : ∀ source ∈ b.sources, ∀ other ∈ b.sources,
        b.outputPath source = b.outputPath other → source = other := by
      intro source hsource other hother heq
      have h := hsources source hsource
      have h' := hsources other hother
      obtain ⟨init, last, hnames, -, houtput⟩ := h.exists_outputPath_eq hroot
      obtain ⟨init', last', hnames', -, houtput'⟩ := h'.exists_outputPath_eq hroot
      rw [houtput, houtput', if_neg (hplaced source hsource), if_neg (hplaced other hother)] at heq
      obtain ⟨rfl, hlast⟩ := List.append_inj' (List.append_cancel_left (Path.mk.inj heq).2) rfl
      have hsame : last = last' := (String.append_left_inj _).mp (List.singleton_inj.mp hlast)
      have hparts : source.parts = other.parts := by
        rw [h.parts_eq, h'.parts_eq, hnames, hnames', hsame]
      cases source
      cases other
      exact congr (congrArg Path.mk (h.absolute.trans h'.absolute.symm)) hparts
    have houtputs : b.outputPaths.Nodup := hnodup.map_on hinjective
    exact ⟨houtputs, (b.conflicts_eq_nil_iff [] b.sources).mpr ⟨fun _ _ => List.forall_mem_nil _,
      houtputs⟩⟩

/-- A build of two sources of one name, one of them in a directory below the root. -/
def twinBuild (directory : String) : Build where
  root := ⟨true, ["p"]⟩
  sources := [⟨true, ["p", directory, "..x.beb"]⟩, ⟨true, ["p", "..x.beb"]⟩]
  outputDir := ⟨false, ["..", "out"]⟩
  profile := .default

/-- Dots before the name of a source or behind the first of a directory do not matter. -/
theorem twins_mirrored :
    (twinBuild ".a.").outputPaths[0]? = some (Path.join ⟨false, ["..", "out"]⟩ ".a./..x.ll") ∧
    (twinBuild ".a.").outputPaths[1]? = some (Path.join ⟨false, ["..", "out"]⟩ "..x.ll") ∧
    (twinBuild ".a.").outputPaths.Nodup ∧
    (twinBuild ".a.").conflicts [] (twinBuild ".a.").sources = [] := by
  have hplaced : ∀ source ∈ (twinBuild ".a.").sources, ¬ (twinBuild ".a.").Misplaced source := by
    decide +kernel
  obtain ⟨hmirrored, -, hfine⟩ := outputs_mirror_sources (twinBuild ".a.") rfl (by decide +kernel)
    (by decide +kernel)
  exact ⟨(hmirrored 0 _ ".a./..x" rfl (by decide +kernel)).mpr (hplaced _ (by decide +kernel)),
    (hmirrored 1 _ "..x" rfl (by decide +kernel)).mpr (hplaced _ (by decide +kernel)),
    hfine hplaced⟩

/-- If the name of the directory begins with two dots, the sources are in the way of each other,
although both are below the root. -/
theorem twins_collide : (∀ source ∈ (twinBuild "..a").sources, (twinBuild "..a").Covers source) ∧
    (twinBuild "..a").sources.Nodup ∧
    (twinBuild "..a").outputPaths =
      [⟨false, ["..", "out", "..x.ll"]⟩, ⟨false, ["..", "out", "..x.ll"]⟩] ∧
    (twinBuild "..a").conflicts [] (twinBuild "..a").sources ≠ [] := by
  decide +kernel

end Oberlet.Build
