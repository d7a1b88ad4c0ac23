import Oberlet.Console.Excerpt
import Oberlet.Proofs.Analysis.Located
import Oberlet.Proofs.Text.Utf8

/-!
# Carets under a span

Below each line that a span touches, the carets begin where the span does, or at the beginning of
the line.
-/

namespace Oberlet

/-- The number of columns of a line: a tab has four. -/
def columns : List Char → Nat
  | [] => 0
  | c :: rest => (if c = '\t' then 4 else 1) + columns rest

theorem columns_append (front back : List Char) :
    columns (front ++ back) = columns front + columns back := by
  induction front with
  | nil => simp [columns]
  | cons c front ih => simp [columns, ih, Nat.add_assoc]

/-- The column of a place is the width of what is before it in its line. -/
theorem exists_front (before rest : List Char) : ∃ front back lines,
    (Position.origin.afterAll before).column = columns front ∧
      rest.splitOn '\n' = back :: lines ∧
      ((before ++ rest).splitOn '\n').drop (Position.origin.afterAll before).line =
        (front ++ back) :: lines := by
  induction before using List.reverseRecOn generalizing rest with
  | nil =>
    obtain ⟨back, lines, h⟩ := List.exists_cons_of_ne_nil (List.splitOn_ne_nil '\n' rest)
    exact ⟨[], back, lines, rfl, h, h⟩
  | append_singleton before c ih =>
    obtain ⟨back, lines, hrest⟩ := List.exists_cons_of_ne_nil (List.splitOn_ne_nil '\n' rest)
    obtain ⟨front, back', lines', hcolumn, hsplit, hdrop⟩ := ih (c :: rest)
    rw [List.splitOn_cons_eq_if_modifyHead, hrest] at hsplit
    rw [Position.afterAll_append, Position.afterAll_cons, Position.afterAll_nil, Position.after,
      List.append_assoc, List.singleton_append]
    split
    · rename_i hnewline
      rw [if_pos hnewline] at hsplit
      cases hsplit
      refine ⟨[], back, lines, rfl, hrest, ?_⟩
      rw [← List.drop_drop, hdrop]
      rfl
    · rename_i hnewline
      rw [if_neg hnewline] at hsplit
      cases hsplit
      refine ⟨front ++ [c], back, lines, ?_, hrest, ?_⟩
      · rw [columns_append, ← hcolumn]
        split <;> simp_all [columns]
      · split <;> simpa using hdrop

namespace Excerpt

/-- Where the carets of a row end. -/
def reach (span : Span) (lines : List Bytes) (line : Bytes) (i : Nat) : Nat :=
  if i + 1 < lines.length ∧ (i : Int) < span.endLine then (expandTabs line).length
  else span.endCol.toNat

/-- The row of a line of which the columns from the first one of the span to another are underlined,
or one column if there are none. -/
def underlined (span : Span) (indent stop : Nat) (line : Bytes) (i : Nat) : Row :=
  let first := if (i : Int) = span.startLine then span.startCol.toNat - indent else 0
  ⟨i + 1, (expandTabs line).drop indent, first, max 1 (stop - indent - first)⟩

theorem filter_zipIdx (lines : List Bytes) (n s e : Nat) :
    (lines.zipIdx n).filter (fun x => decide (s ≤ x.2 ∧ x.2 ≤ e)) =
      ((lines.take (e + 1 - n)).drop (s - n)).zipIdx (max n s) := by
  induction lines generalizing n with
  | nil => simp
  | cons line lines ih =>
    rw [List.zipIdx_cons, List.filter_cons, ih]
    by_cases hend : n ≤ e
    · rw [show e + 1 - n = (e + 1 - (n + 1)) + 1 by omega, List.take_succ_cons]
      by_cases hstart : s ≤ n
      · rw [if_pos (by simpa using ⟨hstart, hend⟩), Nat.sub_eq_zero_of_le hstart,
          Nat.sub_eq_zero_of_le (by omega : s ≤ n + 1), max_eq_left hstart,
          max_eq_left (by omega : s ≤ n + 1)]
        rfl
      · rw [if_neg (by simp [hstart]), show s - n = (s - (n + 1)) + 1 by omega, List.drop_succ_cons,
          max_eq_right (by omega), max_eq_right (by omega)]
    · rw [if_neg (by simp [hend]), Nat.sub_eq_zero_of_le (by omega : e + 1 ≤ n),
        Nat.sub_eq_zero_of_le (by omega : e + 1 ≤ n + 1)]
      simp

variable {line : Bytes}

theorem commonIndent_le {lines : List Bytes} (h : line ∈ lines) :
    commonIndent lines ≤ indentOf line :=
  List.min?_getD_le_of_mem (List.mem_map_of_mem h)

variable {source : Bytes} {lines : List Bytes} {p q : Position} {back rest : List Char}

/-- On the last row the carets end by column, on the others by the number of bytes. -/
theorem row_eq_underlined {indent k count : Nat} (hfirst : k = 0 → indent ≤ p.column)
    (hlast : k + 1 = count ↔ ¬(p.line + k + 1 < lines.length ∧ p.line + k < q.line)) :
    row (.between p q) indent (k + 1 == count) k (expandTabs line) =
      underlined (.between p q) indent (reach (.between p q) lines line (p.line + k)) line
        (p.line + k) := by
  have hstart : ((p.line + k : Nat) : Int) = p.line ↔ k = 0 := by omega
  have hend : ((p.line + k : Nat) : Int) < q.line ↔ p.line + k < q.line := by omega
  simp only [row, underlined, reach, Span.between, Row.mk.injEq, hstart, hend, Int.toNat_natCast,
    beq_iff_eq, hlast]
  refine ⟨by omega, trivial, ?_, ?_⟩
  · split <;> omega
  · by_cases hmore : p.line + k + 1 < lines.length ∧ p.line + k < q.line
    · rw [if_neg (not_not.mpr hmore), if_pos hmore]
      split <;> omega
    · rw [if_pos hmore, if_neg hmore]
      split <;> omega

theorem rows_between (hlines : lines? source = some lines)
    (hindent : ∀ line, lines[p.line]? = some line → indentOf (expandTabs line) ≤ p.column) :
    rows source (.between p q) =
      (lines.zipIdx.filter fun x => decide ((p.line : Int) ≤ x.2 ∧ (x.2 : Int) ≤ q.line)).map
        fun x => underlined (.between p q)
          (commonIndent ((touched lines (.between p q)).map expandTabs))
          (reach (.between p q) lines x.1 x.2) x.1 x.2 := by
  have hfilter : lines.zipIdx.filter
      (fun x => decide ((p.line : Int) ≤ x.2 ∧ (x.2 : Int) ≤ q.line)) =
      ((lines.take (q.line + 1)).drop p.line).zipIdx p.line := by
    simpa using filter_zipIdx lines 0 p.line q.line
  have htouched : touched lines (.between p q) = (lines.take (q.line + 1)).drop p.line :=
    (congrArg (List.map Prod.fst) hfilter).trans (List.zipIdx_map_fst _ _)
  rw [rows, hlines]
  dsimp only
  rw [htouched, hfilter]
  refine List.ext_getElem? fun k => ?_
  simp only [List.getElem?_map, List.getElem?_zipIdx, Nat.zero_add]
  cases hk : ((lines.take (q.line + 1)).drop p.line)[k]? with
  | none => rfl
  | some line =>
    have hlength := List.length_drop (i := p.line) (l := lines.take (q.line + 1))
    have hlt := (List.getElem?_eq_some_iff.mp hk).1
    rw [List.length_take] at hlength
    have hfirst : k = 0 →
        commonIndent (((lines.take (q.line + 1)).drop p.line).map expandTabs) ≤ p.column := by
      rintro rfl
      have hline : lines[p.line]? = some line := by
        rw [List.getElem?_drop, List.getElem?_take_of_lt (by omega)] at hk
        exact hk
      exact (commonIndent_le (List.mem_map_of_mem (List.mem_of_getElem? hk))).trans
        (hindent line hline)
    have hlast : k + 1 = (((lines.take (q.line + 1)).drop p.line).map expandTabs).length ↔
        ¬(p.line + k + 1 < lines.length ∧ p.line + k < q.line) := by
      rw [List.length_map]
      omega
    exact congrArg some (row_eq_underlined hfirst hlast)

/-! ## Lines of bytes and of characters -/

open Text.Utf8 (decode decode_append decode_cons splitOn_decode toNat_of_ofNat_eq)

theorem length_expandTabs (h : ∀ b ∈ line, b.toNat < 0x80) :
    (expandTabs line).length = columns (decode line) := by
  induction line with
  | nil => rfl
  | cons b line ih =>
    obtain ⟨hb, hline⟩ := List.forall_mem_cons.mp h
    have htab : Char.ofNat b.toNat = '\t' ↔ b = 9 :=
      ⟨fun heq => UInt8.toNat_inj.mp (toNat_of_ofNat_eq heq (by decide)), fun heq => heq ▸ rfl⟩
    rw [decode_cons hb, columns, ← ih hline, expandTabs, List.flatMap_cons, List.length_append]
    by_cases hnine : b = 9 <;> simp [htab, hnine, expandTabs]

theorem dropReturn_append (raw : Bytes) : ∃ tail, raw = dropReturn raw ++ tail ∧
    columns (decode raw) ≤ columns (decode (dropReturn raw)) + 1 := by
  unfold dropReturn
  split
  · rename_i hlast
    obtain ⟨front, rfl⟩ := List.getLast?_eq_some_iff.mp (beq_iff_eq.mp hlast)
    rw [List.dropLast_concat, decode_append (by decide), columns_append]
    exact ⟨[13], rfl, Nat.le_refl _⟩
  · exact ⟨[], by simp, Nat.le_succ _⟩

/-- A place before no blank is not in the indentation. -/
theorem indent_le_columns {tail : Bytes} {front : List Char}
    (h : decode (line ++ tail) = front ++ back)
    (hback : ∀ c ∈ back.head?, Lexer.isBlank c = false) :
    indentOf (expandTabs line) ≤ columns front := by
  induction line generalizing front with
  | nil => exact Nat.zero_le _
  | cons b line ih =>
    rw [List.cons_append] at h
    -- A blank is a part of what is in front, and adds its columns.
    have step (hb : b = 32 ∨ b = 9) : ∃ rest, front = Char.ofNat b.toNat :: rest ∧
        indentOf (expandTabs line) ≤ columns rest := by
      rw [decode_cons (by obtain rfl | rfl := hb <;> decide)] at h
      obtain ⟨-, rfl⟩ | ⟨rest, rfl, hrest⟩ := List.cons_eq_append_iff.mp h
      · exact absurd (hback _ rfl) (by obtain rfl | rfl := hb <;> decide)
      · exact ⟨rest, rfl, ih hrest⟩
    by_cases hspace : b = 32
    · obtain ⟨rest, rfl, hrest⟩ := step (.inl hspace)
      subst hspace
      simp [indentOf, expandTabs, columns] at hrest ⊢
      omega
    · by_cases htab : b = 9
      · obtain ⟨rest, rfl, hrest⟩ := step (.inr htab)
        subst htab
        simp [indentOf, expandTabs, columns] at hrest ⊢
        omega
      · simp [indentOf, expandTabs, hspace, htab]

theorem rawLines_append (source : Bytes) :
    ∃ tail, source.splitOn 10 = rawLines source ++ tail ∧ ∀ raw ∈ tail, raw = [] := by
  unfold rawLines
  dsimp only
  split
  · rename_i hlast
    obtain ⟨front, hfront⟩ := List.getLast?_eq_some_iff.mp (beq_iff_eq.mp hlast)
    exact ⟨[[]], by rw [hfront, List.dropLast_concat], by simp⟩
  · exact ⟨[], by simp, by simp⟩

theorem head?_of_splitOn {tail : List (List Char)} (h : rest.splitOn '\n' = back :: tail) :
    ∀ c ∈ back.head?, c ∈ rest.head? := by
  cases rest with
  | nil =>
    cases h
    simp
  | cons d rest =>
    obtain ⟨back', tail', hrest⟩ := List.exists_cons_of_ne_nil (List.splitOn_ne_nil '\n' rest)
    rw [List.splitOn_cons_eq_if_modifyHead, hrest] at h
    split at h <;> cases h <;> simp

/-- Every place of a text is in one of its lines. -/
theorem exists_line {before : List Char} (hlines : lines? source = some lines)
    (hsource : decode source = before ++ rest) : ∃ raw front back,
      decode raw = front ++ back ∧ (∀ c ∈ back.head?, c ∈ rest.head?) ∧
      (Position.origin.afterAll before).column = columns front ∧
      (∀ line, lines[(Position.origin.afterAll before).line]? = some line → line = dropReturn raw) ∧
      (lines.length ≤ (Position.origin.afterAll before).line → raw = []) := by
  obtain ⟨front, back, others, hcolumn, hrest, hdrop⟩ := exists_front before rest
  obtain ⟨tail, hparts, htail⟩ := rawLines_append source
  have hmap : lines = (rawLines source).map dropReturn := by
    unfold lines? at hlines
    dsimp only at hlines
    split at hlines <;> cases hlines
    rfl
  generalize (Position.origin.afterAll before).line = i at hdrop ⊢
  rw [← hsource, splitOn_decode, hparts] at hdrop
  have hi := congrArg List.head? hdrop
  rw [List.head?_drop, List.getElem?_map, List.head?_cons] at hi
  obtain ⟨raw, hraw, hdecode⟩ := Option.map_eq_some_iff.mp hi
  refine ⟨raw, front, back, hdecode, head?_of_splitOn hrest, hcolumn, fun line hline => ?_,
    fun hle => ?_⟩
  · rw [hmap, List.getElem?_map] at hline
    obtain ⟨raw', hraw', rfl⟩ := Option.map_eq_some_iff.mp hline
    rw [List.getElem?_append_left (List.getElem?_eq_some_iff.mp hraw').1, hraw'] at hraw
    cases hraw
    rfl
  · rw [hmap, List.length_map] at hle
    rw [List.getElem?_append_right hle] at hraw
    exact htail raw (List.mem_of_getElem? hraw)

/-- Below the lines of a text that the span of a diagnostic touches, the carets begin at the first
column of the span on the line. On the last line of the span they end with it; only a carriage
return at the end of the line may be covered and not shown. On the lines before, they reach to the
end of the line, as long as every character is a byte. Where the span ends behind the last line of
the text, there is one caret below that line. -/
theorem carets_underline_span {compilation : Compilation} {d : Diagnostic} {span : Span}
    (hlines : lines? source = some lines)
    (hcompilation : Compilation.ofSource (decode source) = .ok compilation)
    (hd : d ∈ compilation.errors) (hspan : d.span = some span ∨ d.related = some span) :
    rows source span =
        (lines.zipIdx.filter fun x =>
          decide (span.startLine ≤ x.2 ∧ (x.2 : Int) ≤ span.endLine)).map
          (fun x => underlined span (commonIndent ((touched lines span).map expandTabs))
            (reach span lines x.1 x.2) x.1 x.2) ∧
      ∀ (i : Nat) (line : Bytes), lines[i]? = some line →
        ((i : Int) = span.endLine → (reach span lines line i : Int) = span.endCol ∧
          reach span lines line i ≤ columns (decode line) + 1) ∧
        ((i : Int) < span.endLine →
          (i + 1 < lines.length → (∀ b ∈ line, b.toNat < 0x80) →
            reach span lines line i = columns (decode line)) ∧
          (i + 1 = lines.length → reach span lines line i = 0)) := by
  obtain ⟨_, hcompilation', hsited⟩ := Compilation.exists_sited (decode source)
  obtain rfl := Except.ok.inj (hcompilation'.symm.trans hcompilation)
  have hplace : span.Sited .origin (decode source) := by
    obtain ⟨other, hother, hplace⟩ := (hsited d hd).span
    obtain hspan | hspan := hspan
    · exact Option.some.inj (hother.symm.trans hspan) ▸ hplace
    · exact (hsited d hd).related span hspan
  obtain ⟨before, text, behind, hsource, hstart, rfl⟩ := hplace
  obtain ⟨raw, front, back, hraw, hback, hcolumn, hline, -⟩ := exists_line hlines hsource
  obtain ⟨raw', front', back', hraw', -, hcolumn', hline', hbehind⟩ :=
    exists_line hlines (hsource.trans (List.append_assoc before text behind).symm)
  rw [Position.afterAll_append] at hcolumn' hline' hbehind
  refine ⟨rows_between hlines fun line hat => ?_, fun i line hat => ⟨fun hi => ?_, fun hi => ?_⟩⟩
  · obtain ⟨tail, htail, -⟩ := dropReturn_append raw
    rw [hline line hat, hcolumn]
    exact indent_le_columns (htail ▸ hraw) fun c hc => hstart c (hback c hc)
  · obtain rfl := Int.ofNat_inj.mp hi
    have hreach : reach (.between _ _) lines line _ = _ := if_neg fun hmore => hmore.2.ne hi
    obtain ⟨-, -, hreturn⟩ := dropReturn_append raw'
    rw [hreach, hline' line hat]
    refine ⟨rfl, Nat.le_trans ?_ hreturn⟩
    rw [hraw', columns_append]
    exact hcolumn'.le.trans (Nat.le_add_right _ _)
  · refine ⟨fun hmore hascii => ?_, fun hlast => ?_⟩
    · exact (if_pos ⟨hmore, hi⟩).trans (length_expandTabs hascii)
    · have hfront : front' = [] := by
        have hnil := hbehind (by rw [← hlast]; exact Int.ofNat_lt.mp hi)
        rw [hnil] at hraw'
        exact (List.append_eq_nil_iff.mp hraw'.symm).1
      refine (if_neg fun hmore => hmore.1.ne hlast).trans ?_
      rw [hfront] at hcolumn'
      exact congrArg Int.toNat (congrArg Nat.cast hcolumn')

/-- A comment over three lines that is not closed. It begins behind a word, and the lines are
indented by tabs. -/
def tabbedComment : Bytes :=
  [9, 77, 79, 68, 85, 76, 69, 32, 40, 42, 32, 97, 10, 9, 32, 32, 98, 10, 9, 32, 99]

def tabbedLines : List Bytes :=
  [[9, 77, 79, 68, 85, 76, 69, 32, 40, 42, 32, 97], [9, 32, 32, 98], [9, 32, 99]]

theorem tabbedComment_refused : Compilation.ofSource (decode tabbedComment) =
    .ok (.unreadable ⟨.unclosedComment, some ⟨0, 11, 2, 6⟩, none⟩) := by
  have hparse : Program.parse (decode tabbedComment) =
      .error ⟨.unclosedComment, some ⟨0, 11, 2, 6⟩, none⟩ := rfl
  exact Compilation.ofSource_of_error hparse

/-- Without the tab that the lines have in common, seven blanks and four carets are below the first
line. The carets reach to the end of the second line, and on the third one to that of the span. -/
theorem tabbedComment_underlined :
    rows tabbedComment ⟨0, 11, 2, 6⟩ =
        [⟨1, [77, 79, 68, 85, 76, 69, 32, 40, 42, 32, 97], 7, 4⟩, ⟨2, [32, 32, 98], 0, 3⟩,
          ⟨3, [32, 99], 0, 2⟩] ∧
      reach ⟨0, 11, 2, 6⟩ tabbedLines [9, 32, 32, 98] 1 = columns (decode [9, 32, 32, 98]) ∧
      (reach ⟨0, 11, 2, 6⟩ tabbedLines [9, 32, 99] 2 : Int) = 6 := by
  have hlines : lines? tabbedComment = some tabbedLines := by decide
  obtain ⟨hrows, hreach⟩ := carets_underline_span hlines tabbedComment_refused
    (List.mem_singleton_self _) (.inl rfl)
  refine ⟨hrows.trans (by decide), ?_, ((hreach 2 _ rfl).1 rfl).1⟩
  exact ((hreach 1 _ rfl).2 (by decide)).1 (by decide) (by simp)

/-- A comment that is not closed, with a line feed at the end. -/
def openComment : Bytes := [40, 42, 32, 97, 98, 99, 10]

theorem openComment_refused : Compilation.ofSource (decode openComment) =
    .ok (.unreadable ⟨.unclosedComment, some ⟨0, 0, 1, 0⟩, none⟩) := by
  have hparse : Program.parse (decode openComment) =
      .error ⟨.unclosedComment, some ⟨0, 0, 1, 0⟩, none⟩ := rfl
  exact Compilation.ofSource_of_error hparse

/-- All of the comment is wrong, and all of its line is shown, but there is one caret. -/
theorem openComment_caret :
    Compilation.ofSource (decode openComment) =
        .ok (.unreadable ⟨.unclosedComment, some ⟨0, 0, 1, 0⟩, none⟩) ∧
      columns (decode [40, 42, 32, 97, 98, 99]) = 6 ∧
      rows openComment ⟨0, 0, 1, 0⟩ = [⟨1, [40, 42, 32, 97, 98, 99], 0, 1⟩] :=
  ⟨openComment_refused, rfl, rfl⟩

end Excerpt

end Oberlet
