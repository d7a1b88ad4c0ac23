import Oberlet.Proofs.Token.Lexed

/-!
# Texts that are cut at the end of a line

No lexeme goes over the end of a line. Only a comment may be open where the text is cut; then the
first part is faulty.
-/

namespace Oberlet

theorem cut_append {c : Char} {cs ds front back : List Char} (h : cs ++ ds = front ++ c :: back) :
    (∃ more, cs = front ++ c :: more ∧ back = more ++ ds) ∨
      ∃ behind, front = cs ++ behind ∧ ds = behind ++ c :: back := by
  obtain h | ⟨more, rfl, hback⟩ := List.append_eq_append_iff.mp h
  · exact .inr h
  · cases more with
    | nil => exact .inr ⟨[], by simp, hback.symm⟩
    | cons d more =>
      cases hback
      exact .inl ⟨more, rfl, rfl⟩

theorem beginsSpacing_of_append {cs more : List Char} (h : beginsSpacing (cs ++ more) = false) :
    beginsSpacing cs = false := by
  unfold beginsSpacing at h ⊢
  split
  · rfl
  · simp at h
  · dsimp only [List.cons_append] at h
    split at h <;> simp_all

theorem Spacing.getLast?_ne_dot {cs : List Char} (h : Spacing cs) : cs.getLast? ≠ some '.' := by
  induction h with
  | nil => simp
  | @blank c rest hc _ ih =>
    cases rest with
    | nil =>
      rintro ⟨⟩
      cases hc
    | cons d rest => simpa using ih
  | @comment body rest _ _ ih =>
    have hlast : ('(' :: '*' :: (body ++ '*' :: ')' :: rest)).getLast? =
        (')' :: rest).getLast? := by
      rw [show '(' :: '*' :: (body ++ '*' :: ')' :: rest) =
        ('(' :: '*' :: (body ++ ['*'])) ++ ')' :: rest by simp, List.getLast?_append]
      simp [List.getLast?_cons]
    rw [hlast]
    cases rest with
    | nil => simp
    | cons d rest => simpa using ih

theorem Lexeme.text_eq {kind : Token.Kind} {text value : List Char} {word : String}
    (h : Lexeme kind text value) (hword : kind.spelling = some word) : text = word.toList := by
  cases h with
  | string => cases hword
  | plain h =>
    cases h with
    | fixed hspelling => rw [Option.some.inj (hspelling.symm.trans hword)]
    | ident => cases hword
    | integer => cases hword
    | real => cases hword

namespace Lexed

variable {cs : List Char} {pos : Position} {tokens : List Token}

/-- The tokens of a text that is cut at the end of a line are those of its parts. -/
theorem cut (h : Lexed Spacing cs pos tokens) :
    ∀ {front back : List Char}, cs = front ++ '\n' :: back →
      ∃ kept gone, tokens = kept ++ gone ∧
        (Lexed Spacing front pos kept ∧
            Lexed Spacing back ((pos.afterAll front).after '\n') gone ∨
          Lexed OpenComment front pos kept) := by
  induction h with
  | done hcs =>
    rintro front back rfl
    refine ⟨[], [], rfl, ?_⟩
    obtain ⟨hfront, hback⟩ | hopen := hcs.split_at_newline
    · exact .inl ⟨.done hfront, .done hback⟩
    · exact .inr (.done hopen)
  | @token gap text value rest kind pos tokens hgap hmunches hbegins hrest ih =>
    intro front back heq
    obtain ⟨more, rfl, rfl⟩ | ⟨behind, rfl, hcut⟩ := cut_append heq
    · -- the cut is in the spacing before the first token
      refine ⟨[], _, rfl, ?_⟩
      obtain ⟨hfront, hback⟩ | hopen := hgap.split_at_newline
      · refine .inl ⟨.done hfront, ?_⟩
        simp only [Position.afterAll_append, Position.afterAll_cons] at hrest ⊢
        exact .token hback hmunches hbegins hrest
      · exact .inr (.done hopen)
    · obtain ⟨more, rfl, -⟩ | ⟨behind, rfl, rfl⟩ := cut_append hcut
      · exact absurd (by simp) hmunches.lexeme.newline_notMem
      -- the cut is behind the first token
      · obtain ⟨kept, gone, rfl, hcut⟩ := ih rfl
        rw [← List.append_assoc] at hbegins
        have hkept := beginsSpacing_of_append hbegins
        refine ⟨_ :: kept, gone, rfl, ?_⟩
        obtain ⟨hfront, hback⟩ | hopen := hcut
        · refine .inl ⟨.token hgap hmunches.of_append hkept hfront, ?_⟩
          simpa only [Position.afterAll_append] using hback
        · exact .inr (.token hgap hmunches.of_append hkept hopen)

theorem ending (h : Lexed Spacing cs pos tokens) {front : List Token} {last : Token}
    (htokens : tokens = front ++ [last]) :
    ∃ text tail, cs = text ++ tail ∧ Spacing tail ∧
      (∀ word, last.kind.spelling = some word → ∃ before, text = before ++ word.toList) ∧
      ∀ {Tail : List Char → Prop} {gap : List Char}, gap <+: tail → Tail gap →
        Lexed Tail (text ++ gap) pos tokens := by
  induction h generalizing front with
  | done => simp at htokens
  | @token gap text value rest kind pos tokens hgap hmunches hbegins hrest ih =>
    cases front with
    | nil =>
      cases htokens
      cases hrest with
      | done hspacing =>
        refine ⟨gap ++ text, rest, by simp, hspacing, fun word hword => ?_, ?_⟩
        · exact ⟨gap, by rw [hmunches.lexeme.text_eq hword]⟩
        · rintro Tail kept ⟨more, rfl⟩ hkept
          rw [List.append_assoc]
          rw [← List.append_assoc] at hbegins
          exact .token hgap hmunches.of_append (beginsSpacing_of_append hbegins) (.done hkept)
    | cons first front =>
      obtain ⟨rfl, hrestTokens⟩ := List.cons.inj htokens
      obtain ⟨text', tail, rfl, htail, hword, hlexed⟩ := ih hrestTokens
      refine ⟨gap ++ (text ++ text'), tail, by simp, htail, fun word hspelling => ?_, ?_⟩
      · obtain ⟨before, rfl⟩ := hword word hspelling
        exact ⟨gap ++ (text ++ before), by simp⟩
      · rintro Tail kept ⟨more, rfl⟩ hkept
        simp only [List.append_assoc]
        refine .token hgap ?_ ?_ (hlexed (List.prefix_append kept more) hkept)
        · rw [← List.append_assoc] at hmunches
          exact hmunches.of_append
        · rw [← List.append_assoc text', ← List.append_assoc text] at hbegins
          exact beginsSpacing_of_append hbegins

end Lexed

end Oberlet
