import Mathlib.Data.List.Forall2
import Oberlet.Proofs.Token.Lexed

/-!
# Where tokens stand in their text

Every token stands for an interval of the text, and between the intervals there is only spacing.
-/

namespace Oberlet

def positionAt (source : List Char) (offset : Nat) : Position :=
  Position.origin.afterAll (source.take offset)

/-- The intervals follow one another from an offset on. They are not empty, and what is outside of
them is spacing. -/
inductive Tiles (source : List Char) : Nat → List (Nat × Nat) → Prop
  | nil {offset : Nat} : Spacing (source.drop offset) → Tiles source offset []
  | cons {offset start stop : Nat} {rest : List (Nat × Nat)} : offset ≤ start → start < stop →
      stop ≤ source.length → Spacing (source.extract offset start) → Tiles source stop rest →
      Tiles source offset ((start, stop) :: rest)

/-- The token stands for an interval of the text. -/
structure StandsFor (source : List Char) (t : Token) (interval : Nat × Nat) : Prop where
  span : t.span = .between (positionAt source interval.1) (positionAt source interval.2)
  value : t.kind ≠ .stringLit → t.value.toList = source.extract interval.1 interval.2
  string : t.kind = .stringLit → ∃ body,
    source.extract interval.1 interval.2 = '"' :: (body ++ ['"']) ∧
      Text.Escape.decode? body = some t.value.toList

section

variable (before between behind : List Char)

theorem extract_between : (before ++ (between ++ behind)).extract before.length
    (before.length + between.length) = between := by
  simp [List.extract_eq_take_drop]

theorem positionAt_length :
    positionAt (before ++ behind) before.length = Position.origin.afterAll before := by
  simp [positionAt]

end

theorem Lexeme.value_eq {kind : Token.Kind} {text value : List Char} (h : Lexeme kind text value) :
    (kind ≠ .stringLit → value = text) ∧
      (kind = .stringLit → ∃ body, text = '"' :: (body ++ ['"']) ∧
        Text.Escape.decode? body = some value) := by
  cases h with
  | plain hspelled =>
    refine ⟨fun _ => rfl, ?_⟩
    rintro rfl
    cases hspelled with
    | fixed hspelling => cases hspelling
  | string hbody => exact ⟨fun h => absurd rfl h, fun _ => ⟨_, rfl, hbody⟩⟩

theorem Lexed.placed {cs : List Char} {pos : Position} {tokens : List Token}
    (h : Lexed Spacing cs pos tokens) (before : List Char)
    (hpos : pos = Position.origin.afterAll before) :
    ∃ intervals, Tiles (before ++ cs) before.length intervals ∧
      List.Forall₂ (StandsFor (before ++ cs)) tokens intervals := by
  induction h generalizing before with
  | done hcs => exact ⟨[], .nil (by simpa using hcs), .nil⟩
  | @token gap text value rest kind pos tokens hgap hmunches _ _ ih =>
    have hlexeme := hmunches.lexeme
    have hlength := List.length_pos_iff.mpr hlexeme.ne_nil
    obtain ⟨intervals, htiles, hplaced⟩ := ih (before ++ (gap ++ text)) (by simp [hpos])
    have hsource : before ++ (gap ++ text) ++ rest = before ++ (gap ++ (text ++ rest)) := by simp
    rw [hsource] at htiles hplaced
    have hstart : (before ++ gap).length = before.length + gap.length := by simp
    have hstop : (before ++ (gap ++ text)).length = (before ++ gap).length + text.length := by
      simp [Nat.add_assoc]
    refine ⟨((before ++ gap).length, (before ++ (gap ++ text)).length) :: intervals, ?_, ?_⟩
    · refine .cons (by omega) (by omega) (by simp) ?_ htiles
      rw [hstart, extract_between]
      exact hgap
    · have htext : (before ++ (gap ++ (text ++ rest))).extract (before ++ gap).length
          (before ++ (gap ++ text)).length = text := by
        rw [hstop, ← List.append_assoc, extract_between]
      refine .cons ⟨?_, ?_, ?_⟩ hplaced
      · have hfirst := positionAt_length (before ++ gap) (text ++ rest)
        have hlast := positionAt_length (before ++ (gap ++ text)) rest
        rw [List.append_assoc] at hfirst
        rw [hsource] at hlast
        simp only [hfirst, hlast, hpos, Position.afterAll_append]
      · intro hkind
        rw [htext, String.toList_ofList, hlexeme.value_eq.1 hkind]
      · intro hkind
        rw [htext, String.toList_ofList]
        exact hlexeme.value_eq.2 hkind

/-- Nothing of a text is lost. The tokens of a text that is read without error stand for intervals
of it, in order, and outside of them there is only spacing. -/
theorem lexing_loses_nothing {source : List Char}
    (h : (TokenStream.ofSource source).fault = none) :
    ∃ tokens eof intervals, (TokenStream.ofSource source).tokens = tokens ++ [eof] ∧
      eof.kind = .eof ∧ (∀ t ∈ tokens, t.kind ≠ .eof) ∧ Tiles source 0 intervals ∧
      List.Forall₂ (StandsFor source) tokens intervals := by
  obtain ⟨tokens, hlexed⟩ := TokenStream.lexed_of_ofSource h
  obtain ⟨intervals, htiles, hplaced⟩ := hlexed.placed [] rfl
  rw [TokenStream.ofSource_of_lexed hlexed]
  exact ⟨tokens, _, intervals, rfl, rfl, hlexed.kind_ne_eof, htiles, hplaced⟩

/-- A text with a tab, an escape, and a comment that goes over two lines. -/
def placedText : List Char := "x := \"a\\n\"\t(* é\n *)+ 1.5e3".toList

theorem placedText_loses_nothing : (TokenStream.ofSource placedText).fault = none ∧
    ∃ tokens eof intervals, (TokenStream.ofSource placedText).tokens = tokens ++ [eof] ∧
      eof.kind = .eof ∧ (∀ t ∈ tokens, t.kind ≠ .eof) ∧ Tiles placedText 0 intervals ∧
      List.Forall₂ (StandsFor placedText) tokens intervals := by
  have hfault : (TokenStream.ofSource placedText).fault = none := by decide +kernel
  exact ⟨hfault, lexing_loses_nothing hfault⟩

end Oberlet
