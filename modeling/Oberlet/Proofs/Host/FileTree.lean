import Oberlet.Host.FileTree

/-!
# Files that are written
-/

namespace Oberlet.FileTree

variable {t t' : FileTree}

/-! ## Entries -/

variable {parts reached names : List String} {entry : Entry} {content : Bytes} {path q : Path}

theorem entry?_of_ne_nil (t : FileTree) (h : parts ≠ []) :
    t.entry? parts = List.lookup parts t.entries := by
  cases parts with
  | nil => exact (h rfl).elim
  | cons name rest => rfl

theorem lookup_map_replace (entries : List (List String × Entry)) (parts q : List String)
    (entry : Entry) :
    List.lookup q (entries.map fun (p, e) => if p == parts then (p, entry) else (p, e)) =
      if q = parts then (List.lookup q entries).map fun _ => entry else List.lookup q entries := by
  induction entries with
  | nil => simp
  | cons first rest ih =>
    obtain ⟨p, e⟩ := first
    rw [List.map_cons]
    by_cases hp : p = parts
    · subst hp
      by_cases hq : q = p
      · simp [hq]
      · rw [if_neg hq] at ih ⊢
        simpa [List.lookup_cons, beq_false_of_ne hq] using ih
    · by_cases hq : q = p
      · subst hq
        simp [hp]
      · simpa [hp, List.lookup_cons, beq_false_of_ne hq] using ih

theorem entry?_put (t : FileTree) (hparts : parts ≠ []) (entry : Entry) (q : List String) :
    FileTree.entry? (t.put parts entry) q = if q = parts then some entry else t.entry? q := by
  by_cases hq : q = []
  · subst hq
    rw [if_neg hparts.symm]
    rfl
  rw [entry?_of_ne_nil _ hq, entry?_of_ne_nil _ hq, put]
  split
  · rename_i hsome
    obtain ⟨old, hold⟩ := Option.isSome_iff_exists.mp hsome
    rw [lookup_map_replace]
    split
    · rename_i heq
      rw [heq, hold]
      rfl
    · rfl
  · rename_i hnone
    rw [Option.not_isSome_iff_eq_none] at hnone
    rw [List.lookup_append]
    split
    · rename_i heq
      rw [heq, hnone]
      simp
    · rename_i hne
      simp [List.lookup_cons, beq_false_of_ne hne]

/-! ## Paths -/

theorem walk_congr
    (h : ∀ front, front <+: names → t'.entry? (reached ++ front) = t.entry? (reached ++ front)) :
    t'.walk reached names = t.walk reached names := by
  have hhere := h [] (List.nil_prefix)
  rw [List.append_nil] at hhere
  induction names generalizing reached with
  | nil => rw [walk, walk, hhere]
  | cons name rest ih =>
    have hrest (front : List String) (hfront : front <+: rest) :
        t'.entry? (reached ++ [name] ++ front) = t.entry? (reached ++ [name] ++ front) := by
      rw [List.append_assoc]
      exact h (name :: front) (List.cons_prefix_cons.mpr ⟨rfl, hfront⟩)
    have hnext := hrest [] (List.nil_prefix)
    rw [List.append_nil] at hnext
    rw [walk, walk, hhere, ih hrest hnext]

theorem entries_of_walk (h : t.walk reached names = .ok entry) :
    t.entry? (reached ++ names) = some entry ∧
      ∀ front, front <+: names → front ≠ names → t.entry? (reached ++ front) = some .directory := by
  induction names generalizing reached with
  | nil =>
    refine ⟨?_, fun front hfront hne => (hne (List.prefix_nil.mp hfront)).elim⟩
    rw [walk] at h
    split at h
    · rename_i hentry
      cases h
      rw [List.append_nil, hentry]
    · cases h
  | cons name rest ih =>
    rw [walk] at h
    split at h
    · rename_i hdirectory
      obtain ⟨hlast, hway⟩ := ih h
      rw [List.append_assoc] at hlast
      refine ⟨hlast, fun front hfront hne => ?_⟩
      cases front with
      | nil => rw [List.append_nil, hdirectory]
      | cons first front =>
        obtain ⟨rfl, hrest⟩ := List.cons_prefix_cons.mp hfront
        rw [← hway front hrest (fun heq => hne (by rw [heq])), List.append_assoc]
        rfl
    · cases h
    · cases h

theorem walk_concat {name : String} (h : t.walk reached names = .ok .directory)
    (hentry : t.entry? (reached ++ (names ++ [name])) = some entry) :
    t.walk reached (names ++ [name]) = .ok entry := by
  induction names generalizing reached with
  | nil =>
    have hdirectory := (entries_of_walk h).1
    rw [List.append_nil] at hdirectory
    rw [List.nil_append, walk, hdirectory]
    dsimp only
    rw [walk]
    rw [List.nil_append] at hentry
    rw [hentry]
    rfl
  | cons first rest ih =>
    rw [List.cons_append, walk]
    rw [walk] at h
    split at h
    · exact ih h (by rw [List.append_assoc]; exact hentry)
    · cases h
    · cases h

theorem entries_of_read (h : t.read path = .ok content) :
    (∃ executable, t.resolve path = .ok (.file content executable)) ∧
      ∀ front, front <+: path.parts → front ≠ path.parts → t.entry? front = some .directory := by
  rw [read] at h
  split at h
  · rename_i content' executable hresolve
    cases h
    exact ⟨⟨executable, hresolve⟩, (entries_of_walk hresolve).2⟩
  · cases h
  · cases h

/-! ## Changes -/

theorem read_of_put (hparts : t.entry? parts ≠ some .directory) (entry : Entry)
    (h : t.read q = .ok content) (hne : parts ≠ q.parts) :
    (t.put parts entry).read q = .ok content := by
  obtain ⟨⟨executable, hresolve⟩, hway⟩ := entries_of_read h
  have hnil : parts ≠ [] := by
    rintro rfl
    exact hparts rfl
  have hsame : (t.put parts entry).resolve q = t.resolve q := by
    refine walk_congr fun front hfront => ?_
    rw [List.nil_append, entry?_put t hnil, if_neg]
    rintro rfl
    exact hparts (hway _ hfront hne)
  rw [read, hsame, hresolve]
  rfl

theorem read_of_makeDirectoriesFrom (h : t.makeDirectoriesFrom reached names = .ok t')
    (hq : t.read q = .ok content) :
    t'.read q = .ok content := by
  induction names generalizing t reached with
  | nil =>
    cases h
    exact hq
  | cons name rest ih =>
    rw [makeDirectoriesFrom] at h
    split at h
    · exact ih h hq
    · cases h
    · rename_i hnone
      refine ih h (read_of_put (by simp [hnone]) .directory hq ?_)
      rintro heq
      obtain ⟨⟨executable, hresolve⟩, -⟩ := entries_of_read hq
      have hentry := (entries_of_walk hresolve).1
      rw [List.nil_append, ← heq, hnone] at hentry
      cases hentry

/-- Directories can be made without a change to any file. -/
theorem read_of_makeDirectories (h : t.makeDirectories path = .ok t')
    (hq : t.read q = .ok content) : t'.read q = .ok content :=
  read_of_makeDirectoriesFrom h hq

theorem of_write (h : t.write path content = .ok t') :
    t.resolve path.parent = .ok .directory ∧ t.entry? path.parts ≠ some .directory ∧
      ∃ executable, t' = t.put path.parts (.file content executable) := by
  rw [write] at h
  split at h
  · cases h
  · cases h
  · rename_i hparent
    split at h
    · cases h
    · rename_i old executable hentry
      cases h
      exact ⟨hparent, by simp [hentry], executable, rfl⟩
    · rename_i hentry
      cases h
      exact ⟨hparent, by simp [hentry], false, rfl⟩

/-- All other files that can be read keep their contents. -/
theorem read_of_write {written : Bytes} (h : t.write path written = .ok t')
    (hq : t.read q = .ok content) (hne : path.parts ≠ q.parts) : t'.read q = .ok content := by
  obtain ⟨-, hentry, executable, rfl⟩ := of_write h
  exact read_of_put hentry _ hq hne

/-- A file that was written has the content that it was given. -/
theorem read_write (h : t.write path content = .ok t') : t'.read path = .ok content := by
  obtain ⟨hparent, hentry, executable, rfl⟩ := of_write h
  have hnil : path.parts ≠ [] := by
    intro heq
    rw [heq] at hentry
    exact hentry rfl
  have hparts : path.parent.parts ++ [path.parts.getLast hnil] = path.parts :=
    List.dropLast_concat_getLast hnil
  -- the directory of the file is reached as before, since the file is not on the way
  have hway : (t.put path.parts (.file content executable)).walk [] path.parent.parts =
      .ok .directory := by
    rw [← hparent]
    refine walk_congr fun front hfront => ?_
    rw [List.nil_append, entry?_put t hnil, if_neg]
    rintro rfl
    have hlength := hfront.length_le
    rw [← hparts, List.length_append] at hlength
    exact absurd hlength (Nat.not_succ_le_self _)
  have hlast : FileTree.entry? (t.put path.parts (.file content executable))
      ([] ++ (path.parent.parts ++ [path.parts.getLast hnil])) =
        some (.file content executable) := by
    rw [List.nil_append, hparts, entry?_put t hnil, if_pos rfl]
  have hresolve : (t.put path.parts (.file content executable)).resolve path = _ :=
    hparts ▸ walk_concat hway hlast
  rw [read, hresolve]
  rfl

end Oberlet.FileTree
