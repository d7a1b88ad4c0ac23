import Oberlet.Proofs.Host.Job
import Oberlet.Proofs.Tree.Earliest
import Oberlet.Repl

/-!
# Entering a module line by line

A session takes up a module at the first line, from that of its final dot on, at whose end no
comment is open.
-/

namespace Oberlet

open TokenStream Program

/-! ## Modules that are cut off -/

namespace TokenStream

/-- The tokens of a stream up to where its text was cut off: there the text ends, or it is faulty
because it ends too early. -/
def CutBehind (stream : TokenStream) (kept : List Token) : Prop :=
  (∃ eof, eof.kind = .eof ∧ stream = ⟨kept ++ [eof], none⟩) ∨
    ∃ d, d.isIncomplete = true ∧ stream = ⟨kept, some d⟩

/-- What is read is a module, or it ends too early. -/
def Begins (stream : TokenStream) : Prop :=
  (∃ p, ofTokens stream = .ok p) ∨
    ∃ d, ofTokens stream = .error d ∧ d.isIncomplete = true

end TokenStream

namespace Program

variable {source front back : List Char} {ts : List Token} {p : Program}

theorem ofSource_of_openComment (h : Lexed OpenComment source .origin ts) :
    ∃ d, d.isIncomplete = true ∧ ofSource source = ⟨ts, some d⟩ := by
  obtain ⟨d, hread, hcause⟩ :=
    read_of_openComment h (Nat.lt_succ_of_le h.length_le)
  refine ⟨d, ?_, hread⟩
  rw [Diagnostic.isIncomplete, Diagnostic.kind, hcause]
  rfl

theorem parse_ne_ok_of_openComment (h : Lexed OpenComment source .origin ts) :
    parse source ≠ .ok p := by
  intro hp
  obtain ⟨us, t, hlexed, -⟩ := parse_ok_iff.mp ⟨p, hp⟩
  obtain ⟨d, -, hfaulty⟩ := ofSource_of_openComment h
  cases (ofSource_of_lexed hlexed).symm.trans hfaulty

theorem begins_of_cut {kept gone : List Token}
    (hfront : (ofSource front).CutBehind kept)
    (hwhole : (ofSource source).tokens = kept ++ gone) (hgone : gone ≠ [])
    (h : parse source = .ok p) : (ofSource front).Begins := by
  cases hparse : parse front with
  | ok q => exact .inl ⟨q, hparse⟩
  | error d =>
    refine .inr ⟨d, hparse, ?_⟩
    obtain hfault | ⟨used, t, back, htokens, hblames, hsame⟩ := stopped hparse
    · obtain ⟨eof, -, hstream⟩ | ⟨d', hd', hstream⟩ := hfront
      all_goals
        rw [hstream] at hfault
        cases hfault
      exact hd'
    · -- the parser would have stopped at a token before the end in the whole text, too
      have hpassed (rest : List Token) : kept ≠ used ++ t :: rest := by
        rintro rfl
        have herror := hsame source (rest ++ gone) (fun _ => by simp [hgone])
          (by simpa using hwhole)
        cases h.symm.trans herror
      obtain ⟨eof, heof, hstream⟩ | ⟨d', -, hstream⟩ := hfront
      · rw [hstream] at htokens
        obtain ⟨-, rfl⟩ | ⟨rest, hrest⟩ := split_end htokens
        · exact hblames.incomplete heof
        · exact absurd hrest (hpassed rest)
      · rw [hstream] at htokens
        exact absurd htokens (hpassed back)

/-- Whole lines of a module are a module themselves or end too early. -/
theorem begins_of_parse (h : parse (front ++ '\n' :: back) = .ok p) :
    (ofSource front).Begins := by
  obtain ⟨ts, t, hlexed, -⟩ := parse_ok_iff.mp ⟨p, h⟩
  obtain ⟨kept, gone, rfl, hcut⟩ := hlexed.cut rfl
  have hwhole := congrArg tokens (ofSource_of_lexed hlexed)
  rw [List.append_assoc] at hwhole
  refine begins_of_cut ?_ hwhole (by simp) h
  obtain ⟨hfront, -⟩ | hopen := hcut
  · exact .inl ⟨_, rfl, ofSource_of_lexed hfront⟩
  · exact .inr (ofSource_of_openComment hopen)

/-- Only spacing can be left behind a part that is a module. -/
theorem spacing_of_parse {q : Program} (h : parse (front ++ '\n' :: back) = .ok p)
    (hfront : parse front = .ok q) : Spacing back := by
  obtain ⟨ts, -, hlexed, -⟩ := parse_ok_iff.mp ⟨p, h⟩
  obtain ⟨kept, gone, rfl, hcut⟩ := hlexed.cut rfl
  obtain ⟨hkept, hgone⟩ | hopen := hcut
  · obtain ⟨us, t, hus, hprogram⟩ := parse_ok_iff.mp ⟨q, hfront⟩
    cases tokens_unique hkept hus
    obtain ⟨c, c', hc, hrun⟩ := ofTokens_ok_iff.mp h
    have htokens := (cursor_ok hc).1
    rw [ofSource_of_lexed hlexed, List.append_assoc] at htokens
    have heof := Parser.eof_of_program hprogram htokens (by simp) hrun
    cases hgone with
    | done hspacing => exact hspacing
    | token _ hmunches _ _ => exact absurd heof hmunches.lexeme.kind_ne_eof
  · exact absurd hfront (parse_ne_ok_of_openComment hopen)

end Program

/-! ## The final dot -/

variable {R : List Token → Node → Prop} {p : Program} {ts : List Token}

theorem IsProgram.first (h : IsProgram R ts p) : ∃ t us, ts = t :: us ∧ t.kind = .moduleKw := by
  cases h with
  | mk hmodule => exact ⟨_, _, rfl, hmodule⟩

theorem IsProgram.last (h : IsProgram R ts p) : ∃ us t, ts = us ++ [t] ∧ t.kind = .dot := by
  cases h with
  | @mk t name t₁ t₂ closing t₃ ts us vs _ _ _ _ _ _ _ _ _ _ _ _ _ _ hdot =>
    exact ⟨t :: name :: t₁ :: (ts ++ (us ++ (vs ++ [t₂, closing]))), t₃, by simp, hdot⟩

/-- The first text is a module without its final dot, and the second is the spacing behind it. -/
structure EndsModule (before tail : List Char) : Prop where
  spacing : Spacing tail
  lexed : ∃ ts t, IsProgram (fun _ _ => True) ts t ∧
    ∀ {Tail : List Char → Prop} {gap : List Char}, gap <+: tail → Tail gap →
      Lexed Tail (before ++ '.' :: gap) .origin ts

theorem Program.exists_endsModule {source : List Char} (h : parse source = .ok p) :
    ∃ before tail, source = before ++ '.' :: tail ∧ EndsModule before tail := by
  obtain ⟨ts, t, hlexed, hprogram⟩ := parse_ok_iff.mp ⟨p, h⟩
  obtain ⟨front, last, hts, hdot⟩ := hprogram.last
  obtain ⟨text, tail, rfl, htail, hword, hcut⟩ := hlexed.ending hts
  obtain ⟨before, rfl⟩ := hword "." (by rw [hdot]; rfl)
  refine ⟨before, tail, by simp, htail, ts, t, hprogram, fun hgap hTail => ?_⟩
  simpa using hcut hgap hTail

namespace EndsModule

variable {before tail gap front back : List Char}

theorem parse_ok (h : EndsModule before tail) (hinitial : gap <+: tail) (hgap : Spacing gap) :
    ∃ p, parse (before ++ '.' :: gap) = .ok p := by
  obtain ⟨ts, t, hprogram, hlexed⟩ := h.lexed
  exact parse_ok_iff.mpr ⟨ts, t, hlexed hinitial hgap, hprogram⟩

theorem parse_front_iff (h : EndsModule before tail)
    (heq : before ++ '.' :: tail = front ++ '\n' :: back) :
    (∃ p, parse front = .ok p) ↔ ∃ gap, front = before ++ '.' :: gap ∧ Spacing gap := by
  rw [List.append_cons] at heq
  constructor
  · rintro ⟨p, hp⟩
    obtain ⟨more, hmore, -⟩ | ⟨gap, rfl, rfl⟩ := cut_append heq
    · -- the final dot would be part of the spacing behind the module
      obtain ⟨q, hq⟩ := h.parse_ok List.nil_prefix .nil
      rw [hmore] at hq
      have hspacing : Spacing ('\n' :: more) := .blank rfl (spacing_of_parse hq hp)
      have hlast := congrArg List.getLast? hmore
      rw [List.getLast?_concat, List.getLast?_append, List.getLast?_cons, Option.some_or] at hlast
      exact absurd (by rw [List.getLast?_cons, ← hlast]) hspacing.getLast?_ne_dot
    · obtain ⟨hgap, -⟩ | hopen := h.spacing.split_at_newline
      · exact ⟨gap, by simp, hgap⟩
      · obtain ⟨ts, -, -, hlexed⟩ := h.lexed
        have hcomment : OpenComment gap := hopen
        rw [List.append_assoc] at hp
        exact absurd hp
          (parse_ne_ok_of_openComment (hlexed (List.prefix_append _ _) hcomment))
  · rintro ⟨gap, rfl, hgap⟩
    rw [List.append_assoc, List.append_assoc] at heq
    have htail : tail = gap ++ '\n' :: back := by simpa using heq
    exact h.parse_ok ⟨'\n' :: back, htail.symm⟩ hgap

end EndsModule

/-! ## Lines -/

namespace Repl

def linesOf (source : List Char) : List (List Char) := source.splitOn '\n'

/-- What has been entered after so many lines. -/
def entered (lines : List (List Char)) (n : Nat) : List Char := ['\n'].intercalate (lines.take n)

section

variable {lines : List (List Char)} {n : Nat}

theorem entered_length : entered lines lines.length = ['\n'].intercalate lines := by
  rw [entered, List.take_length]

theorem intercalate_append {front back : List (List Char)} (hfront : front ≠ [])
    (hback : back ≠ []) : ['\n'].intercalate (front ++ back) =
      ['\n'].intercalate front ++ '\n' :: ['\n'].intercalate back := by
  induction front with
  | nil => exact absurd rfl hfront
  | cons line front ih =>
    cases front with
    | nil => simp [List.intercalate_cons_of_ne_nil hback]
    | cons next front => simpa [List.intercalate_cons_cons] using ih (by simp)

theorem entered_append (hn : 0 < n) (hlength : n < lines.length) :
    ['\n'].intercalate lines = entered lines n ++ '\n' :: ['\n'].intercalate (lines.drop n) := by
  rw [entered, ← intercalate_append, List.take_append_drop]
  · exact List.ne_nil_of_length_pos (by rw [List.length_take]; omega)
  · exact List.ne_nil_of_length_pos (by rw [List.length_drop]; omega)

theorem entered_succ {line : List Char} (hn : 0 < n) (hline : lines[n]? = some line) :
    entered lines (n + 1) = entered lines n ++ '\n' :: line := by
  have hlength := (List.getElem?_eq_some_iff.mp hline).1
  rw [entered, List.take_add_one, hline, Option.toList_some, intercalate_append _ (by simp),
    List.intercalate_singleton]
  · rfl
  · exact List.ne_nil_of_length_pos (by rw [List.length_take]; omega)

theorem entered_one_begins (hn : 0 < n) : entered lines 1 <+: entered lines n := by
  obtain ⟨n, rfl⟩ := Nat.exists_eq_succ_of_ne_zero (Nat.ne_of_gt hn)
  cases lines with
  | nil => simp [entered]
  | cons first rest =>
    simp only [entered, List.take_succ_cons, List.take_zero, List.intercalate_singleton]
    cases rest.take n with
    | nil => simp
    | cons next rest => simp [List.intercalate_cons_cons]

theorem isBlank_entered (hfirst : Text.isBlank (entered lines 1) = false) (hn : 0 < n) :
    Text.isBlank (entered lines n) = false := by
  obtain ⟨more, hmore⟩ : entered lines 1 <+: entered lines n := entered_one_begins hn
  rw [← hmore, Text.isBlank, List.all_append]
  rw [Text.isBlank] at hfirst
  rw [hfirst, Bool.false_and]

end

/-! ## The probe -/

/-- A session stops collecting lines at a line: what has been entered then needs no more, but what
had been entered before did. -/
structure StopsAt (lines : List (List Char)) (n : Nat) : Prop where
  pos : 0 < n
  le : n ≤ lines.length
  stops : needsMore (entered lines n) = false
  goesOn : ∀ m, 0 < m → m < n → needsMore (entered lines m) = true

/-- So many lines hold a module with its final dot, and no comment is open behind it. -/
def Completes (before : List Char) (lines : List (List Char)) (n : Nat) : Prop :=
  ∃ gap, entered lines n = before ++ '.' :: gap ∧ Spacing gap

variable {source line : List Char}

theorem needsMore_eq_false_iff (hblank : Text.isBlank source = false)
    (hbegins : (ofSource source).Begins) :
    needsMore source = false ↔ ∃ p, parse source = .ok p := by
  unfold needsMore
  rw [hblank, if_neg Bool.false_ne_true]
  obtain ⟨p, hp⟩ | ⟨d, hd, hincomplete⟩ := hbegins
  · have hp : parse source = .ok p := hp
    simp [hp]
  · have hd : parse source = .error d := hd
    simp [hd, hincomplete]

section

variable {before tail : List Char} {lines : List (List Char)} {n : Nat}

theorem Completes.pos (h : Completes before lines n) : 0 < n := by
  obtain ⟨gap, hgap, -⟩ := h
  refine Nat.pos_of_ne_zero ?_
  rintro rfl
  simp [entered] at hgap

variable (h : EndsModule before tail)
  (hlines : ['\n'].intercalate lines = before ++ '.' :: tail)

include h hlines

/-- More is asked for until the module is complete. -/
theorem needsMore_entered (hfirst : Text.isBlank (entered lines 1) = false) (hn : 0 < n)
    (hle : n ≤ lines.length) :
    needsMore (entered lines n) = false ↔ Completes before lines n := by
  obtain ⟨p, hp⟩ := h.parse_ok (List.prefix_refl tail) h.spacing
  obtain hlt | rfl := Nat.lt_or_eq_of_le hle
  · have hcut := entered_append hn hlt
    rw [hlines] at hcut
    rw [hcut] at hp
    rw [needsMore_eq_false_iff (isBlank_entered hfirst hn) (begins_of_parse hp)]
    exact h.parse_front_iff hcut
  · rw [needsMore_eq_false_iff (isBlank_entered hfirst hn)]
    all_goals rw [entered_length, hlines]
    · exact iff_of_true ⟨p, hp⟩ ⟨tail, by rw [entered_length, hlines], h.spacing⟩
    · exact .inl ⟨p, hp⟩

theorem completes_length : Completes before lines lines.length :=
  ⟨tail, by rw [entered_length, hlines], h.spacing⟩

theorem exists_stopsAt (hfirst : Text.isBlank (entered lines 1) = false) :
    ∃ n, StopsAt lines n ∧ Completes before lines n ∧ ∀ m < n, ¬ Completes before lines m := by
  classical
  have hexists : ∃ n, Completes before lines n := ⟨_, completes_length h hlines⟩
  have hcompletes := Nat.find_spec hexists
  have hle : Nat.find hexists ≤ lines.length := Nat.find_min' hexists (completes_length h hlines)
  have hleast : ∀ m < Nat.find hexists, ¬ Completes before lines m := fun _ => Nat.find_min hexists
  refine ⟨Nat.find hexists, ⟨hcompletes.pos, hle, ?_, fun m hpos hm => ?_⟩, hcompletes, hleast⟩
  · exact (needsMore_entered h hlines hfirst hcompletes.pos hle).mpr hcompletes
  · refine Bool.eq_true_of_not_eq_false fun hfalse => hleast m hm ?_
    exact (needsMore_entered h hlines hfirst hpos (hm.le.trans hle)).mp hfalse

end

/-! ## Sessions -/

theorem colon_of_spacing {gap rest : List Char} (hgap : Spacing gap) :
    ∀ {spaces more : List Char}, gap ++ 'M' :: rest = spaces ++ ':' :: more →
      ∃ c ∈ spaces, Text.isSpace c = false := by
  induction hgap with
  | nil =>
    rintro (_ | ⟨c, spaces⟩) more heq
    · cases heq
    · cases heq
      exact ⟨'M', by simp, by decide⟩
  | @blank c gap hc _ ih =>
    rintro (_ | ⟨d, spaces⟩) more heq
    · cases heq
      cases hc
    · obtain ⟨e, he, hspace⟩ := ih (List.cons.inj heq).2
      exact ⟨e, by simp [he], hspace⟩
  | comment =>
    rintro (_ | ⟨c, spaces⟩) more heq
    · cases heq
    · obtain ⟨rfl, -⟩ := List.cons.inj heq
      exact ⟨'(', by simp, by decide⟩

theorem exists_colon (h : isCommand line = true) :
    ∃ spaces more, line = spaces ++ ':' :: more ∧ ∀ c ∈ spaces, Text.isSpace c = true := by
  have hhead : (Text.trim line).head? = some ':' := by simpa [isCommand] using h
  have hinitial : Text.trim line <+: line.dropWhile Text.isSpace := by
    rw [Text.trim, ← List.reverse_suffix, List.reverse_reverse]
    exact List.dropWhile_suffix _
  obtain ⟨more, hmore⟩ := hinitial
  obtain ⟨shown, hshown⟩ := List.head?_eq_some_iff.mp hhead
  refine ⟨line.takeWhile Text.isSpace, shown ++ more, ?_, ?_⟩
  · rw [← List.cons_append, ← hshown, hmore, List.takeWhile_append_dropWhile]
  · exact List.all_eq_true.mp List.all_takeWhile

theorem isCommand_eq_false (h : parse source = .ok p) (hline : line <+: source) :
    isCommand line = false := by
  refine Bool.eq_false_of_not_eq_true fun hcommand => ?_
  obtain ⟨spaces, more, rfl, hspaces⟩ := exists_colon hcommand
  obtain ⟨behind, rfl⟩ := hline
  obtain ⟨ts, t, hlexed, hprogram⟩ := parse_ok_iff.mp ⟨p, h⟩
  obtain ⟨first, us, rfl, hkind⟩ := hprogram.first
  generalize hsource : spaces ++ ':' :: more ++ behind = source at hlexed
  cases hlexed with
  | @token gap text value rest kind _ _ hgap hmunches _ _ =>
    have hkind : kind = .moduleKw := hkind
    have htext : text = 'M' :: ['O', 'D', 'U', 'L', 'E'] := by
      rw [hmunches.lexeme.text_eq (by rw [hkind]; rfl)]
      rfl
    rw [htext, List.append_assoc] at hsource
    obtain ⟨c, hc, hspace⟩ := colon_of_spacing hgap hsource.symm
    rw [hspaces c hc] at hspace
    cases hspace

section

variable {lines : List (List Char)} {n : Nat} (hfirst : Text.isBlank (entered lines 1) = false)
  (hcommand : isCommand (entered lines 1) = false)

include hfirst hcommand

theorem enter_entered (s : Session) (hline : lines[n]? = some line) :
    ({ s with entered := entered lines n } : Session).enter line =
      if needsMore (entered lines (n + 1)) then
        return { s with entered := entered lines (n + 1) }
      else ({ s with entered := [] } : Session).submit (entered lines (n + 1)) := by
  cases n with
  | zero =>
    have hone : entered lines 1 = line := by simp [entered, List.take_add_one, hline]
    rw [hone] at hcommand ⊢
    simp [Session.enter, entered, hcommand]
  | succ n =>
    have hne : (entered lines (n + 1)).isEmpty = false := by
      have hblank := isBlank_entered hfirst (Nat.succ_pos n)
      rw [List.isEmpty_eq_false_iff]
      intro hnil
      rw [hnil] at hblank
      cases hblank
    rw [entered_succ (Nat.succ_pos n) hline]
    simp [Session.enter, hne]

variable {s : Session}

theorem enter_next (hn : n < lines.length)
    (h : (lines.take n).foldlM Session.enter s =
      (return { s with entered := entered lines n } : Run Session)) :
    (lines.take (n + 1)).foldlM Session.enter s =
      if needsMore (entered lines (n + 1)) then
        return { s with entered := entered lines (n + 1) }
      else ({ s with entered := [] } : Session).submit (entered lines (n + 1)) := by
  have hline := List.getElem?_eq_getElem hn
  rw [List.take_add_one, hline, Option.toList_some, List.foldlM_append, h, pure_bind]
  simp only [List.foldlM_cons, List.foldlM_nil, bind_pure]
  exact enter_entered hfirst hcommand s hline

theorem enter_lines (hstops : StopsAt lines n) (hs : s.entered = []) :
    (lines.take n).foldlM Session.enter s = s.submit (entered lines n) := by
  have hle := hstops.le
  have hsame : ({ s with entered := [] } : Session) = s := by rw [← hs]
  have collected : ∀ m < n, (lines.take m).foldlM Session.enter s =
      (return { s with entered := entered lines m } : Run Session) := by
    intro m hm
    induction m with
    | zero => exact congrArg pure hsame.symm
    | succ m ih =>
      rw [enter_next hfirst hcommand (by omega) (ih (by omega)),
        if_pos (hstops.goesOn (m + 1) (by omega) hm)]
  obtain ⟨m, rfl⟩ := Nat.exists_eq_succ_of_ne_zero (Nat.ne_of_gt hstops.pos)
  rw [enter_next hfirst hcommand (by omega) (collected m (by omega)), hstops.stops,
    if_neg Bool.false_ne_true, hsame]

end

/-- A session takes up a module as a whole. What is entered of it in whole lines is a module or ends
too early, and behind what is a module there is only spacing. If the first line is not blank, the
session collects lines up to the first one, from that of the final dot on, at whose end no comment
is open. -/
theorem session_takes_whole_module {source : List Char} {p : Program}
    (h : Program.parse source = .ok p) :
    (∀ front back, source = front ++ '\n' :: back →
      ((∃ q, Program.parse front = .ok q) ∨
        ∃ d, Program.parse front = .error d ∧ d.isIncomplete = true) ∧
      ∀ q, Program.parse front = .ok q → Spacing back) ∧
    ∃ before tail, source = before ++ '.' :: tail ∧ Spacing tail ∧
      (∃ q, Program.parse (before ++ ['.']) = .ok q) ∧
      (Text.isBlank (entered (linesOf source) 1) = false →
        ∃ n, StopsAt (linesOf source) n ∧ Completes before (linesOf source) n ∧
          (∀ m < n, ¬ Completes before (linesOf source) m) ∧
          ∀ s : Session, s.entered = [] →
            ((linesOf source).take n).foldlM Session.enter s =
              s.submit (entered (linesOf source) n)) := by
  refine ⟨fun front back hcut => ?_, ?_⟩
  · subst hcut
    exact ⟨begins_of_parse h, fun q hq => spacing_of_parse h hq⟩
  · obtain ⟨before, tail, hsource, hends⟩ := exists_endsModule h
    refine ⟨before, tail, hsource, hends.spacing, hends.parse_ok List.nil_prefix .nil, ?_⟩
    intro hfirst
    have hall : ['\n'].intercalate (linesOf source) = source := List.intercalate_splitOn '\n'
    have hinitial : entered (linesOf source) 1 <+: source := by
      have hlines : linesOf source ≠ [] := List.splitOn_ne_nil '\n' source
      calc entered (linesOf source) 1
          _ <+: entered (linesOf source) (linesOf source).length :=
            entered_one_begins (List.length_pos_iff.mpr hlines)
          _ = source := entered_length.trans hall
    obtain ⟨n, hstops, hcompletes, hleast⟩ := exists_stopsAt hends (hall.trans hsource) hfirst
    refine ⟨n, hstops, hcompletes, hleast, fun s hs => ?_⟩
    exact enter_lines hfirst (isCommand_eq_false h hinitial) hstops hs

/-- A module of four lines. Behind its final dot, in the second, a comment begins that goes on in
the third. -/
def remarkedText : List Char := "MODULE M;\nEND M. (* a\n*)\n".toList

theorem remarkedText_taken : (∃ p, Program.parse remarkedText = .ok p) ∧
    Text.isBlank (entered (linesOf remarkedText) 1) = false ∧ StopsAt (linesOf remarkedText) 3 := by
  have hok : (parse remarkedText).toOption.isSome = true := by decide +kernel
  have hfirst : Text.isBlank (entered (linesOf remarkedText) 1) = false := by decide +kernel
  obtain ⟨p, hp⟩ := Option.isSome_iff_exists.mp hok
  have hparse := eq_ok_of_toOption hp
  obtain ⟨-, before, tail, -, -, -, hlines⟩ := session_takes_whole_module hparse
  obtain ⟨n, hstops, -⟩ := hlines hfirst
  have hmore : needsMore (entered (linesOf remarkedText) 1) = true ∧
      needsMore (entered (linesOf remarkedText) 2) = true ∧
      needsMore (entered (linesOf remarkedText) 3) = false := by decide +kernel
  obtain ⟨hone, htwo, hthree⟩ := hmore
  have hn : n = 3 := by
    have hpos := hstops.pos
    have hne_one : n ≠ 1 := by
      rintro rfl
      cases hone.symm.trans hstops.stops
    have hne_two : n ≠ 2 := by
      rintro rfl
      cases htwo.symm.trans hstops.stops
    have hle : ¬ 3 < n := fun hlt => by
      cases hthree.symm.trans (hstops.goesOn 3 (by decide) hlt)
    omega
  exact ⟨⟨p, hparse⟩, hfirst, hn ▸ hstops⟩

/-- A module of one line, and a comment behind it that is closed in the next line. -/
def trailingText : List Char := "MODULE M; END M. (* a\n*)".toList

/-- A session does not always stop at the line with the final dot of a module. -/
theorem session_passes_final_dot : (∃ p, Program.parse trailingText = .ok p) ∧
    Text.isBlank (entered (linesOf trailingText) 1) = false ∧
    (∃ before tail gap, trailingText = before ++ '.' :: tail ∧ Spacing tail ∧
      entered (linesOf trailingText) 1 = before ++ '.' :: gap) ∧
    ¬ StopsAt (linesOf trailingText) 1 := by
  have hok : (parse trailingText).toOption.isSome = true := by decide +kernel
  have hmore : needsMore (entered (linesOf trailingText) 1) = true := by decide +kernel
  have htext : trailingText = "MODULE M; END M".toList ++
      '.' :: [' ', '(', '*', ' ', 'a', '\n', '*', ')'] := by decide +kernel
  have hspacing : Spacing [' ', '(', '*', ' ', 'a', '\n', '*', ')'] :=
    .blank rfl (.comment (.char rfl (.char rfl (.char rfl .nil))) .nil)
  refine ⟨?_, by decide +kernel, ?_, fun h => ?_⟩
  · obtain ⟨p, hp⟩ := Option.isSome_iff_exists.mp hok
    exact ⟨p, eq_ok_of_toOption hp⟩
  · exact ⟨_, _, [' ', '(', '*', ' ', 'a'], htext, hspacing, by decide +kernel⟩
  · cases hmore.symm.trans h.stops

end Repl

end Oberlet
