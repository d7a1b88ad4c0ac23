import Oberlet.Token.Lexer

/-!
# The text between tokens

Tokens are separated by blanks and by comments, and comments nest. The lexer counts the comments
that are open instead.
-/

namespace Oberlet

/-! ## Blanks and comments -/

/-- Whether a text begins with a mark that opens or closes a comment. -/
def beginsMark : List Char → Bool
  | '(' :: '*' :: _ => true
  | '*' :: ')' :: _ => true
  | _ => false

/-- What stands between the marks of a comment: complete comments, and characters at which no mark
begins. The last of these is followed by the closing mark. -/
inductive CommentBody : List Char → Prop
  | nil : CommentBody []
  | char {c : Char} {rest : List Char} : beginsMark (c :: (rest ++ ['*', ')'])) = false →
      CommentBody rest → CommentBody (c :: rest)
  | comment {inner rest : List Char} : CommentBody inner → CommentBody rest →
      CommentBody ('(' :: '*' :: (inner ++ '*' :: ')' :: rest))

/-- Text that holds nothing but blanks and complete comments. -/
inductive Spacing : List Char → Prop
  | nil : Spacing []
  | blank {c : Char} {rest : List Char} : Lexer.isBlank c = true → Spacing rest →
      Spacing (c :: rest)
  | comment {body rest : List Char} : CommentBody body → Spacing rest →
      Spacing ('(' :: '*' :: (body ++ '*' :: ')' :: rest))

/-- Whether a text begins with a blank or a comment. -/
def beginsSpacing : List Char → Bool
  | [] => false
  | '(' :: '*' :: _ => true
  | c :: _ => Lexer.isBlank c

variable {cs back front : List Char}

theorem beginsMark_append {ds : List Char} (h : beginsMark (cs ++ ds) = false) :
    beginsMark cs = false := by
  match cs with
  | [] => rfl
  | [c] => simp [beginsMark]
  | c :: d :: cs =>
    unfold beginsMark at h ⊢
    split at h <;> simp_all

theorem beginsMark_extend {c : Char} (ds : List Char) (hne : cs ≠ [])
    (h : beginsMark (c :: cs) = false) : beginsMark (c :: (cs ++ ds)) = false := by
  match cs with
  | [] => exact absurd rfl hne
  | d :: cs =>
    unfold beginsMark at h ⊢
    split at h <;> simp_all

theorem Spacing.append (hfront : Spacing front) (hback : Spacing back) :
    Spacing (front ++ back) := by
  induction hfront with
  | nil => exact hback
  | blank hc _ ih => exact .blank hc ih
  | comment hbody _ ih => simpa using Spacing.comment hbody ih

/-! ## Counting open comments -/

/-- The text leads from so many open comments to so many. Outside comments it has only blanks. -/
inductive Skips : Nat → List Char → Nat → Prop
  | nil {depth : Nat} : Skips depth [] depth
  | blank {c : Char} {rest : List Char} {after : Nat} : Lexer.isBlank c = true →
      Skips 0 rest after → Skips 0 (c :: rest) after
  | opened {rest : List Char} {depth after : Nat} : Skips (depth + 1) rest after →
      Skips depth ('(' :: '*' :: rest) after
  | closed {rest : List Char} {depth after : Nat} : Skips depth rest after →
      Skips (depth + 1) ('*' :: ')' :: rest) after
  | char {c : Char} {rest : List Char} {depth after : Nat} : beginsMark (c :: rest) = false →
      Skips (depth + 1) rest after → Skips (depth + 1) (c :: rest) after

namespace Skips

variable {depth after : Nat}

theorem ne_nil (h : Skips (depth + 1) cs 0) : cs ≠ [] := by
  rintro rfl
  cases h

theorem of_commentBody {body : List Char} (h : CommentBody body) :
    ∀ {depth : Nat} {rest : List Char}, Skips depth rest 0 →
      Skips (depth + 1) (body ++ '*' :: ')' :: rest) 0 := by
  induction h with
  | nil => exact fun hrest => .closed hrest
  | @char c body hc _ ih =>
    intro depth rest hrest
    refine .char ?_ (ih hrest)
    have hmark := beginsMark_extend rest (by simp) hc
    simpa using hmark
  | comment _ _ ihinner ihrest =>
    intro depth rest hrest
    have := ihinner (ihrest hrest)
    simpa using Skips.opened this

theorem exists_commentBody : ∀ (n : Nat) {depth : Nat} {cs : List Char}, cs.length ≤ n →
    Skips (depth + 1) cs 0 → ∃ body rest, cs = body ++ '*' :: ')' :: rest ∧ CommentBody body ∧
      Skips depth rest 0
  | 0, _, cs, hn, h => absurd (List.length_eq_zero_iff.mp (Nat.le_zero.mp hn)) h.ne_nil
  | n + 1, depth, cs, hn, h => by
    cases h with
    | closed hrest => exact ⟨[], _, rfl, .nil, hrest⟩
    | @char c tail _ _ hc htail =>
      obtain ⟨body, rest, rfl, hbody, hrest⟩ :=
        exists_commentBody n (by simpa using hn) htail
      refine ⟨c :: body, rest, rfl, .char ?_ hbody, hrest⟩
      have : c :: (body ++ '*' :: ')' :: rest) = c :: (body ++ ['*', ')']) ++ rest := by simp
      rw [this] at hc
      exact beginsMark_append hc
    | @opened tail _ _ htail =>
      -- the comment that begins here is read first, then the rest of the one around it
      simp only [List.length_cons] at hn
      obtain ⟨inner, mid, rfl, hinner, hmid⟩ := exists_commentBody n (by omega) htail
      simp only [List.length_append, List.length_cons] at hn
      obtain ⟨body, rest, rfl, hbody, hrest⟩ := exists_commentBody n (by omega) hmid
      exact ⟨'(' :: '*' :: (inner ++ '*' :: ')' :: body), rest, by simp, .comment hinner hbody,
        hrest⟩

theorem of_spacing (h : Spacing cs) : Skips 0 cs 0 := by
  induction h with
  | nil => exact .nil
  | blank hc _ ih => exact .blank hc ih
  | comment hbody _ ih => exact .opened (of_commentBody hbody ih)

theorem spacing : ∀ (n : Nat) {cs : List Char}, cs.length ≤ n → Skips 0 cs 0 → Spacing cs
  | 0, cs, hn, _ => by
    rw [List.length_eq_zero_iff.mp (Nat.le_zero.mp hn)]
    exact .nil
  | n + 1, cs, hn, h => by
    cases h with
    | nil => exact .nil
    | blank hc hrest => exact .blank hc (spacing n (by simpa using hn) hrest)
    | @opened tail _ _ htail =>
      obtain ⟨body, rest, rfl, hbody, hrest⟩ := exists_commentBody _ (Nat.le_refl _) htail
      simp only [List.length_cons, List.length_append] at hn
      exact .comment hbody (spacing n (by omega) hrest)

theorem split_at_newline (h : Skips depth cs after) :
    ∀ {front back : List Char}, cs = front ++ '\n' :: back →
      ∃ mid, Skips depth front mid ∧ Skips mid ('\n' :: back) after := by
  induction h with
  | nil =>
    intro front back heq
    simp at heq
  | @blank c rest after hc hrest ih =>
    rintro (_ | ⟨d, front⟩) back heq
    · cases heq
      exact ⟨0, .nil, .blank hc hrest⟩
    · cases heq
      obtain ⟨mid, hfront, hback⟩ := ih rfl
      exact ⟨mid, .blank hc hfront, hback⟩
  | opened _ ih =>
    rintro (_ | ⟨d, _ | ⟨e, front⟩⟩) back heq
    · cases heq
    · cases heq
    · cases heq
      obtain ⟨mid, hfront, hback⟩ := ih rfl
      exact ⟨mid, .opened hfront, hback⟩
  | closed _ ih =>
    rintro (_ | ⟨d, _ | ⟨e, front⟩⟩) back heq
    · cases heq
    · cases heq
    · cases heq
      obtain ⟨mid, hfront, hback⟩ := ih rfl
      exact ⟨mid, .closed hfront, hback⟩
  | @char c rest depth after hc hrest ih =>
    rintro (_ | ⟨d, front⟩) back heq
    · cases heq
      exact ⟨depth + 1, .nil, .char hc hrest⟩
    · cases heq
      obtain ⟨mid, hfront, hback⟩ := ih rfl
      have hmark : beginsMark ((c :: front) ++ '\n' :: back) = false := hc
      exact ⟨mid, .char (beginsMark_append hmark) hfront, hback⟩

end Skips

/-- To count the comments that are open is to follow the grammar. -/
theorem spacing_iff_skips : Spacing cs ↔ Skips 0 cs 0 :=
  ⟨Skips.of_spacing, Skips.spacing _ (Nat.le_refl _)⟩

theorem Spacing.of_newline (h : Spacing ('\n' :: cs)) : Spacing cs := by
  cases h with
  | blank _ hrest => exact hrest

theorem Spacing.split_at_newline (h : Spacing (front ++ '\n' :: back)) :
    Spacing front ∧ Spacing back ∨ ∃ depth, Skips 0 front (depth + 1) := by
  obtain ⟨mid, hfront, hback⟩ := (spacing_iff_skips.mp h).split_at_newline rfl
  match mid with
  | 0 => exact .inl ⟨spacing_iff_skips.mpr hfront, .of_newline (spacing_iff_skips.mpr hback)⟩
  | depth + 1 => exact .inr ⟨depth, hfront⟩

/-! ## Skipping spacing -/

namespace Lexer

variable {c : Char} {rest : List Char} {depth : Nat}

theorem skipGap_char (h : beginsMark (c :: rest) = false) (depth : Nat) (start : Position)
    (commented : Bool) (pos : Position) : skipGap (depth + 1) start commented (c :: rest) pos =
      skipGap (depth + 1) start commented rest (pos.after c) := by
  rw [skipGap]
  · rintro _ rfl rfl
    simp [beginsMark] at h
  · rintro _ rfl rfl
    simp [beginsMark] at h

theorem skipGap_blank (h : isBlank c = true) (rest : List Char) (start : Position)
    (commented : Bool) (pos : Position) :
    skipGap 0 start commented (c :: rest) pos = skipGap 0 start commented rest (pos.after c) := by
  rw [skipGap]
  · simp [h]
  · rintro _ rfl -
    simp [isBlank] at h
  · rintro _ rfl -
    simp [isBlank] at h

theorem skipGap_stop (h : beginsSpacing rest = false) (start : Position) (commented : Bool)
    (pos : Position) : skipGap 0 start commented rest pos = .done rest pos commented := by
  unfold beginsSpacing at h
  split at h
  · rfl
  · cases h
  · rename_i c tail hopen
    unfold skipGap
    split
    · rename_i heq
      cases heq
    · rename_i heq
      cases heq
      exact (hopen _ rfl rfl).elim
    · rename_i heq
      cases heq
      rfl
    · rename_i heq
      cases heq
      simp [h]

/-- The lexer skips spacing. -/
theorem skipGap_of_skips {front : List Char} (h : Skips depth front 0)
    (hrest : beginsSpacing rest = false) (start : Position) (commented : Bool) (pos : Position) :
    ∃ flag, skipGap depth start commented (front ++ rest) pos =
      .done rest (pos.afterAll front) flag := by
  generalize hafter : 0 = after at h
  induction h generalizing start commented pos with
  | nil =>
    subst hafter
    exact ⟨commented, skipGap_stop hrest start commented pos⟩
  | blank hc _ ih =>
    obtain ⟨flag, hflag⟩ := ih start commented (pos.after _) hafter
    exact ⟨flag, by simpa [skipGap_blank hc] using hflag⟩
  | @opened _ depth _ _ ih =>
    cases depth with
    | zero =>
      obtain ⟨flag, hflag⟩ := ih pos true ((pos.after '(').after '*') hafter
      exact ⟨flag, by simpa [skipGap] using hflag⟩
    | succ depth =>
      obtain ⟨flag, hflag⟩ := ih start commented ((pos.after '(').after '*') hafter
      exact ⟨flag, by simpa [skipGap] using hflag⟩
  | closed _ ih =>
    obtain ⟨flag, hflag⟩ := ih start commented ((pos.after '*').after ')') hafter
    exact ⟨flag, by simpa [skipGap] using hflag⟩
  | char hc htail ih =>
    subst hafter
    obtain ⟨flag, hflag⟩ := ih start commented (pos.after _) rfl
    exact ⟨flag, by simpa [skipGap_char (beginsMark_extend rest htail.ne_nil hc)] using hflag⟩

theorem skipGap_unclosed {after : Nat} (h : Skips depth cs (after + 1)) (start : Position)
    (commented : Bool) (pos : Position) :
    ∃ first last, skipGap depth start commented cs pos = .unclosed first last := by
  generalize hafter : after + 1 = depth' at h
  induction h generalizing start commented pos with
  | nil =>
    subst hafter
    exact ⟨start, pos, rfl⟩
  | blank hc _ ih => simpa [skipGap_blank hc] using ih start commented (pos.after _) hafter
  | @opened _ depth _ _ ih =>
    cases depth with
    | zero => simpa [skipGap] using ih pos true ((pos.after '(').after '*') hafter
    | succ depth => simpa [skipGap] using ih start commented ((pos.after '(').after '*') hafter
  | closed _ ih => simpa [skipGap] using ih start commented ((pos.after '*').after ')') hafter
  | char hc _ ih => simpa [skipGap_char hc] using ih start commented (pos.after _) hafter

theorem skips_of_skipGap {start pos stop : Position} {commented flag : Bool}
    (h : skipGap depth start commented cs pos = .done rest stop flag) : beginsSpacing rest = false ∧
      ∃ front, cs = front ++ rest ∧ stop = pos.afterAll front ∧ Skips depth front 0 := by
  fun_induction skipGap depth start commented cs pos with
  | case1 start commented pos =>
    cases h
    exact ⟨rfl, [], rfl, rfl, .nil⟩
  | case2 => cases h
  | case3 start commented tail pos inside ih =>
    obtain ⟨hrest, front, rfl, rfl, hskips⟩ := ih h
    exact ⟨hrest, '(' :: '*' :: front, rfl, rfl, .opened hskips⟩
  | case4 start commented tail pos inside depth ih =>
    obtain ⟨hrest, front, rfl, rfl, hskips⟩ := ih h
    exact ⟨hrest, '(' :: '*' :: front, rfl, rfl, .opened hskips⟩
  | case5 start commented tail pos =>
    cases h
    exact ⟨rfl, [], rfl, rfl, .nil⟩
  | case6 start commented tail pos depth ih =>
    obtain ⟨hrest, front, rfl, rfl, hskips⟩ := ih h
    exact ⟨hrest, '*' :: ')' :: front, rfl, rfl, .closed hskips⟩
  | case7 start commented c tail pos hopen hclose hblank ih =>
    obtain ⟨hrest, front, rfl, rfl, hskips⟩ := ih h
    exact ⟨hrest, c :: front, rfl, rfl, .blank hblank hskips⟩
  | case8 start commented c tail pos hopen hclose hblank =>
    cases h
    refine ⟨?_, [], rfl, rfl, .nil⟩
    unfold beginsSpacing
    split <;> simp_all
  | case9 start commented c tail pos hopen hclose depth ih =>
    obtain ⟨hrest, front, rfl, rfl, hskips⟩ := ih h
    refine ⟨hrest, c :: front, rfl, rfl, .char ?_ hskips⟩
    unfold beginsMark
    split <;> simp_all

end Lexer

end Oberlet
