import Oberlet.Proofs.Token.Lines
import Oberlet.Proofs.Token.Rendering

/-!
# Texts that go on

A text is split behind any of its tokens, and behind spacing other tokens can be written. A text
that ends too early ends inside a comment, which can be closed in another line, or inside a string,
which cannot.
-/

namespace Oberlet

/-! ## Tokens as words -/

def Token.word (t : Token) : Word := ⟨t.kind, t.value.toList⟩

/-- Tokens that can be written: all but the end of the text. -/
def Token.Writable (t : Token) : Prop := t.kind ≠ .eof → t.word.Valid

theorem Token.Writable.name {t : Token} (h : t.Writable) (hkind : t.kind = .ident) :
    (Word.mk .ident t.value.toList).Valid := by
  have hvalid := h (by simp [hkind])
  rwa [Token.word, hkind] at hvalid

theorem Token.writable_atEnd (pos : Position) : (Token.atEnd pos).Writable :=
  fun hkind => absurd rfl hkind

theorem Lexeme.word_valid {kind : Token.Kind} {text value : List Char}
    (h : Lexeme kind text value) : (Word.mk kind value).Valid := by
  cases h with
  | plain hspelled => exact .inr hspelled
  | string _ => exact .inl rfl

theorem Lexed.writable {Tail : List Char → Prop} {cs : List Char} {pos : Position}
    {tokens : List Token} (h : Lexed Tail cs pos tokens) : ∀ t ∈ tokens, t.Writable := by
  induction h with
  | done => simp
  | token _ hmunches _ _ ih =>
    refine List.forall_mem_cons.mpr ⟨fun _ => ?_, ih⟩
    simpa [Token.word] using hmunches.lexeme.word_valid

/-! ## Splitting and joining texts -/

section

variable {kind : Token.Kind} {text value rest more : List Char} {c : Char}

theorem Stops.append {p : Char → Bool} (h : Stops p (c :: rest)) (more : List Char) :
    Stops p (c :: rest ++ more) :=
  .cons (h c rfl) _

theorem Munches.append (h : Munches kind text value rest) (hmore : Parted more) :
    Munches kind text value (rest ++ more) := by
  cases rest with
  | nil => exact h.lexeme.munches hmore
  | cons c rest =>
    cases h with
    | word hc hword hrest => exact .word hc hword (hrest.append more)
    | integer hdigits hrest => exact .integer hdigits (hrest.append more)
    | real hwhole hfraction hrest => exact .real hwhole hfraction (hrest.append more)
    | scientific hwhole hfraction hmark hsign hdigits hrest =>
      exact .scientific hwhole hfraction hmark hsign hdigits (hrest.append more)
    | string hbody => exact .string hbody
    | symbol hkind hrest => exact .symbol hkind (hrest.append more)
    | lparen => exact .lparen

theorem beginsSpacing_append {d : Char} {cs : List Char} (h : beginsSpacing (c :: d :: cs) = false)
    (more : List Char) : beginsSpacing (c :: d :: cs ++ more) = false := by
  unfold beginsSpacing at h ⊢
  split
  · rfl
  · simp_all
  · split at h <;> simp_all

theorem Munches.beginsSpacing_append (h : Munches kind text value rest) (hmore : Parted more)
    (hbegins : beginsSpacing (text ++ rest) = false) :
    beginsSpacing (text ++ (rest ++ more)) = false := by
  cases rest with
  | nil => exact h.lexeme.beginsSpacing fun _ hstar => absurd (hmore '*' hstar) (by decide)
  | cons c rest =>
    obtain ⟨d, text, rfl⟩ := List.exists_cons_of_ne_nil h.lexeme.ne_nil
    cases text with
    | nil => exact Oberlet.beginsSpacing_append hbegins more
    | cons e text =>
      rw [← List.append_assoc]
      exact Oberlet.beginsSpacing_append hbegins more

end

namespace Lexed

variable {Tail : List Char → Prop} {cs front more : List Char} {pos : Position}
  {tokens ts us : List Token}

theorem mono {Tail' : List Char → Prop} (h : Lexed Tail cs pos ts)
    (hTail : ∀ {cs}, Tail cs → Tail' cs) : Lexed Tail' cs pos ts := by
  induction h with
  | done hcs => exact .done (hTail hcs)
  | token hgap hmunches hbegins _ ih => exact .token hgap hmunches hbegins ih

/-- A text can be split behind any of its tokens. -/
theorem split (h : Lexed Tail cs pos (ts ++ us)) :
    ∃ front back, cs = front ++ back ∧ Lexed (· = []) front pos ts ∧
      Lexed Tail back (pos.afterAll front) us := by
  induction ts generalizing cs pos with
  | nil => exact ⟨[], cs, rfl, .done rfl, h⟩
  | cons t ts ih =>
    cases h with
    | @token gap text value rest kind _ _ hgap hmunches hbegins hrest =>
      obtain ⟨front, back, rfl, hfront, hback⟩ := ih hrest
      rw [← List.append_assoc] at hbegins
      refine ⟨gap ++ (text ++ front), back, by simp, ?_, by simpa using hback⟩
      exact .token hgap hmunches.of_append (beginsSpacing_of_append hbegins) hfront

theorem split_tail (h : Lexed Tail cs pos ts) :
    ∃ front gap, cs = front ++ gap ∧ Lexed (· = []) front pos ts ∧ Tail gap := by
  rw [← List.append_nil ts] at h
  obtain ⟨front, gap, hcs, hfront, hgap⟩ := h.split
  cases hgap with
  | done hgap => exact ⟨front, gap, hcs, hfront, hgap⟩

theorem append (h : Lexed (· = []) front pos ts) (hmore : Parted more)
    (hlexed : Lexed Tail more (pos.afterAll front) us) :
    Lexed Tail (front ++ more) pos (ts ++ us) := by
  induction h with
  | done hcs =>
    subst hcs
    exact hlexed
  | @token gap text value rest kind pos tokens hgap hmunches hbegins _ ih =>
    have hrest := ih (by simpa only [Position.afterAll_append] using hlexed)
    simp only [List.append_assoc, List.cons_append]
    exact .token hgap (hmunches.append hmore) (hmunches.beginsSpacing_append hmore hbegins) hrest

/-- Behind spacing other tokens can be written. -/
theorem continued {gap : List Char} {words : List Word} (h : Lexed (· = []) front pos ts)
    (hgap : Spacing gap) (hne : gap ≠ []) (hvalid : ∀ w ∈ words, w.Valid) :
    ∃ more us, us.map Token.word = words ∧ Lexed Spacing (front ++ (gap ++ more)) pos
      (ts ++ us) := by
  have hblank : Spacing ['\n'] := .blank rfl .nil
  have hwritten : ∀ pair ∈ words.map fun w => (w, ['\n']), pair.1.Valid ∧ Spacing pair.2 := by
    simpa using fun w hw => ⟨hvalid w hw, hblank⟩
  have hgaps : ∀ pair ∈ (words.map fun w => (w, ['\n'])).dropLast, pair.2 ≠ [] := by
    intro pair hpair
    obtain ⟨w, -, rfl⟩ := List.mem_map.mp (List.dropLast_subset _ hpair)
    simp
  obtain ⟨us, hlexed, hwords⟩ :=
    lexed_render hwritten hgaps ((pos.afterAll front).afterAll gap)
  refine ⟨_, us, ?_, h.append (hgap.parted hne _) (hlexed.spaced hgap)⟩
  have hsame := congrArg (List.map fun pair => Word.mk pair.1 pair.2) hwords
  rw [List.map_map, List.map_map, List.map_map] at hsame
  exact hsame.trans (List.map_id words)

end Lexed

/-! ## Closing comments -/

namespace Skips

variable {depth mid after : Nat} {cs more : List Char}

theorem append (h : Skips depth cs 0) (hmore : Skips 0 more after) :
    Skips depth (cs ++ more) after := by
  generalize hzero : 0 = outer at h
  induction h with
  | nil =>
    subst hzero
    exact hmore
  | blank hc _ ih => exact .blank hc (ih hzero)
  | opened _ ih => exact .opened (ih hzero)
  | closed _ ih => exact .closed (ih hzero)
  | char hc htail ih =>
    subst hzero
    exact .char (beginsMark_extend more htail.ne_nil hc) (ih rfl)

theorem append_newline (h : Skips depth cs mid) (hmore : Skips mid ('\n' :: more) after) :
    Skips depth (cs ++ '\n' :: more) after := by
  induction h with
  | nil => exact hmore
  | blank hc _ ih => exact .blank hc (ih hmore)
  | opened _ ih => exact .opened (ih hmore)
  | closed _ ih => exact .closed (ih hmore)
  | @char c rest _ _ hc _ ih =>
    refine .char ?_ (ih hmore)
    cases rest with
    | nil => simp [beginsMark]
    | cons d rest => exact beginsMark_extend _ (by simp) hc

/-- So many closing marks. -/
def closers : Nat → List Char
  | 0 => []
  | n + 1 => '*' :: ')' :: closers n

theorem of_closers (n : Nat) : Skips n (closers n) 0 := by
  induction n with
  | zero => exact .nil
  | succ n ih => exact .closed ih

end Skips

namespace OpenComment

variable {gap comment : List Char}

/-- A comment that is open can be closed in another line. -/
theorem exists_closing (h : OpenComment comment) :
    ∃ closing, Spacing (comment ++ '\n' :: closing) := by
  obtain ⟨depth, hskips⟩ := h
  have hclosers : Skips (depth + 1) ('\n' :: Skips.closers (depth + 1)) 0 :=
    .char (by simp [beginsMark]) (.of_closers (depth + 1))
  exact ⟨_, spacing_iff_skips.mpr (hskips.append_newline hclosers)⟩

theorem spaced (hgap : Spacing gap) (h : OpenComment comment) : OpenComment (gap ++ comment) := by
  obtain ⟨depth, hskips⟩ := h
  exact ⟨depth, (Skips.of_spacing hgap).append hskips⟩

theorem parted (h : OpenComment comment) : Parted comment := by
  obtain ⟨depth, hskips⟩ := h
  intro c hc
  cases hskips with
  | blank hblank _ =>
    cases hc
    exact mem_separators.mpr (.inl hblank)
  | opened _ =>
    cases hc
    exact mem_separators.mpr (.inr rfl)

end OpenComment

/-! ## Faults -/

/-- No token can be read from the text, for the given reason. -/
def Breaks (cause : Diagnostic.Cause) (cs : List Char) : Prop :=
  ∃ pos d after, Lexer.next ⟨cs, pos, []⟩ = (.error d, after) ∧ d.cause = cause

/-- The text ends inside a string, perhaps inside an escape sequence. -/
def OpenString (cs : List Char) : Prop :=
  ∃ gap body value escape, cs = gap ++ '"' :: (body ++ escape) ∧ Spacing gap ∧
    Text.Escape.decode? body = some value ∧ (escape = [] ∨ escape = ['\\'])

/-- What may be wrong with a lexeme. -/
inductive BadLexeme : Diagnostic.Cause → Prop
  | rune {text : String} : BadLexeme (.unknownRune text)
  | number : BadLexeme .incompleteNumber
  | unclosed : BadLexeme .unclosedString
  | newline : BadLexeme .newlineInString
  | missing : BadLexeme .missingEscape
  | escape {c : Char} : BadLexeme (.unknownEscape c)

namespace Lexer

variable {cs : List Char} {pos : Position} {cause : Diagnostic.Cause} {text pending : List Char}

theorem readExponent_error (h : (readExponent text cs pos).outcome = .error cause) :
    cause = .incompleteNumber := by
  unfold readExponent at h
  split at h
  · split at h
    · dsimp only at h
      split at h <;> cases h
      rfl
    · cases h
  · cases h

theorem readNumber_error (h : (readNumber pending cs pos).outcome = .error cause) :
    cause = .incompleteNumber := by
  unfold readNumber at h
  dsimp only at h
  split at h
  · split at h
    · cases h
      rfl
    · exact readExponent_error h
  · cases h

theorem readString_error (h : (readString cs pos).outcome = .error cause) : BadLexeme cause := by
  fun_induction readString cs pos with
  | case1 =>
    cases h
    exact .unclosed
  | case2 => cases h
  | case3 =>
    cases h
    exact .missing
  | case4 =>
    rename_i ih
    exact ih h
  | case5 =>
    cases h
    exact .escape
  | case6 =>
    cases h
    exact .newline
  | case7 =>
    rename_i ih
    exact ih h

theorem extendSymbol_ne_error {kind : Token.Kind} :
    (extendSymbol kind text cs pos).outcome ≠ .error cause := by
  induction cs generalizing kind text pos with
  | nil => exact nofun
  | cons c cs ih =>
    unfold extendSymbol
    split
    · exact ih
    · exact nofun

theorem readLexeme_error (h : (readLexeme pending cs pos).outcome = .error cause) :
    (∃ body, cs = '"' :: body ∧ (readString body (pos.after '"')).outcome = .error cause) ∨
      cause = .incompleteNumber ∨ ∃ text, cause = .unknownRune text := by
  unfold readLexeme at h
  split at h
  · cases h
  · cases h
  · exact .inl ⟨_, rfl, h⟩
  · split at h
    · exact .inr (.inl (readNumber_error h))
    · split at h
      · cases h
      · unfold readSymbol at h
        dsimp only at h
        split at h
        · exact absurd h extendSymbol_ne_error
        · cases h
          exact .inr (.inr ⟨_, rfl⟩)

theorem readString_of_open {body value escape : List Char} (pos : Position)
    (hbody : Text.Escape.decode? body = some value) (hescape : escape = [] ∨ escape = ['\\']) :
    (readString (body ++ escape) pos).outcome = .error .unclosedString ∨
      (readString (body ++ escape) pos).outcome = .error .missingEscape := by
  induction body using Text.Escape.decode?.induct generalizing value pos with
  | case1 =>
    obtain rfl | rfl := hescape
    · exact .inl rfl
    · exact .inr rfl
  | case2 body ih | case3 body ih | case4 body ih | case5 body ih =>
    obtain ⟨tail, htail, rfl⟩ := Option.map_eq_some_iff.mp hbody
    exact ih _ htail
  | case6 c body hn ht hq hb hc =>
    rw [Text.Escape.decode?, if_pos hc] at hbody <;> simp_all
  | case7 c body hn ht hq hb hc ih =>
    simp only [not_or] at hc
    rw [Text.Escape.decode?_plain hc.2.1 hc.1 hc.2.2] at hbody
    obtain ⟨tail, htail, rfl⟩ := Option.map_eq_some_iff.mp hbody
    rw [List.cons_append, readString] <;> simp_all

theorem open_of_readString (h : (readString cs pos).outcome = .error cause)
    (hcause : cause = .unclosedString ∨ cause = .missingEscape) :
    ∃ body value escape, cs = body ++ escape ∧ Text.Escape.decode? body = some value ∧
      (escape = [] ∨ escape = ['\\']) := by
  fun_induction readString cs pos with
  | case1 => exact ⟨[], [], [], rfl, rfl, .inl rfl⟩
  | case2 => cases h
  | case3 => exact ⟨[], [], ['\\'], rfl, rfl, .inr rfl⟩
  | case4 c tail pos inside decoded hdecoded reading =>
    rename_i ih
    obtain ⟨body, value, escape, rfl, hbody, hescape⟩ := ih h
    refine ⟨'\\' :: c :: body, decoded :: value, escape, rfl, ?_, hescape⟩
    rw [Text.Escape.decode?_escape hdecoded, hbody]
    rfl
  | case5 =>
    cases h
    simp at hcause
  | case6 =>
    cases h
    simp at hcause
  | case7 c tail pos hquote hlone hescape hnewline reading =>
    rename_i ih
    obtain ⟨body, value, escape, rfl, hbody, hesc⟩ := ih h
    refine ⟨c :: body, c :: value, escape, rfl, ?_, hesc⟩
    have hbackslash : c ≠ '\\' := by
      rintro rfl
      cases body <;> cases escape <;> simp at hlone hescape
    rw [Text.Escape.decode?_plain hquote hbackslash hnewline, hbody]
    rfl

theorem next_of_openString (pos : Position) (h : OpenString cs) :
    ∃ d after, next ⟨cs, pos, []⟩ = (.error d, after) ∧
      (d.cause = .unclosedString ∨ d.cause = .missingEscape) := by
  obtain ⟨gap, body, value, escape, rfl, hgap, hbody, hescape⟩ := h
  have hbegins : beginsSpacing ('"' :: (body ++ escape)) = false := beginsSpacing_cons (by decide)
  obtain ⟨flag, hskip⟩ := skipGap_of_skips (.of_spacing hgap) hbegins pos false pos
  have hread := readString_of_open ((pos.afterAll gap).after '"') hbody hescape
  simp only [next, hskip, ite_self, readLexeme, List.nil_append]
  obtain hread | hread := hread <;> rw [hread]
  · exact ⟨_, _, rfl, .inl rfl⟩
  · exact ⟨_, _, rfl, .inr rfl⟩

theorem skips_of_unclosed {depth : Nat} {start first last : Position} {commented : Bool}
    (h : skipGap depth start commented cs pos = .unclosed first last) :
    (∃ after, Skips depth cs (after + 1)) ∧ last = pos.afterAll cs ∧
      (first = start ∧ 0 < depth ∨ ∃ front back, cs = front ++ '(' :: back ∧
        first = pos.afterAll front) := by
  fun_induction skipGap depth start commented cs pos with
  | case1 => cases h
  | case2 start commented pos depth =>
    cases h
    exact ⟨⟨depth, .nil⟩, rfl, .inl ⟨rfl, Nat.succ_pos _⟩⟩
  | case3 start commented tail pos inside ih =>
    obtain ⟨⟨after, hskips⟩, rfl, hfirst⟩ := ih h
    refine ⟨⟨after, .opened hskips⟩, rfl, .inr ?_⟩
    obtain ⟨rfl, -⟩ | ⟨front, back, rfl, rfl⟩ := hfirst
    · exact ⟨[], _, rfl, rfl⟩
    · exact ⟨'(' :: '*' :: front, back, rfl, rfl⟩
  | case4 start commented tail pos inside depth ih =>
    obtain ⟨⟨after, hskips⟩, rfl, hfirst⟩ := ih h
    refine ⟨⟨after, .opened hskips⟩, rfl, hfirst.imp (.imp_right fun _ => Nat.succ_pos _) ?_⟩
    rintro ⟨front, back, rfl, rfl⟩
    exact ⟨'(' :: '*' :: front, back, rfl, rfl⟩
  | case5 => cases h
  | case6 start commented tail pos depth ih =>
    obtain ⟨⟨after, hskips⟩, rfl, hfirst⟩ := ih h
    refine ⟨⟨after, .closed hskips⟩, rfl, hfirst.imp (.imp_right fun _ => Nat.succ_pos _) ?_⟩
    rintro ⟨front, back, rfl, rfl⟩
    exact ⟨'*' :: ')' :: front, back, rfl, rfl⟩
  | case7 start commented c tail pos hopen hclose hblank ih =>
    obtain ⟨⟨after, hskips⟩, rfl, hfirst⟩ := ih h
    refine ⟨⟨after, .blank hblank hskips⟩, rfl, hfirst.imp_right ?_⟩
    rintro ⟨front, back, rfl, rfl⟩
    exact ⟨c :: front, back, rfl, rfl⟩
  | case8 => cases h
  | case9 start commented c tail pos hopen hclose depth ih =>
    obtain ⟨⟨after, hskips⟩, rfl, hfirst⟩ := ih h
    have hmark : beginsMark (c :: tail) = false := by
      unfold beginsMark
      split <;> simp_all
    refine ⟨⟨after, .char hmark hskips⟩, rfl, hfirst.imp_right ?_⟩
    rintro ⟨front, back, rfl, rfl⟩
    exact ⟨c :: front, back, rfl, rfl⟩

theorem next_error {d : Diagnostic} {after : Lexer} (h : next ⟨cs, pos, []⟩ = (.error d, after)) :
    d.cause = .unclosedComment ∧ OpenComment cs ∨
      ∃ gap rest, cs = gap ++ rest ∧ Spacing gap ∧
        (readLexeme [] rest (pos.afterAll gap)).outcome = .error d.cause := by
  unfold next at h
  dsimp only at h
  split at h
  · rename_i first last hskip
    cases h
    exact .inl ⟨rfl, (skips_of_unclosed hskip).1⟩
  · rename_i behind start commented hskip
    obtain ⟨-, gap, rfl, rfl, hskips⟩ := skips_of_skipGap hskip
    rw [ite_self] at h
    split at h
    · cases h
    · rename_i cause hread
      cases h
      exact .inr ⟨gap, behind, rfl, spacing_iff_skips.mpr hskips, hread⟩

end Lexer

namespace Breaks

variable {cs : List Char} {cause : Diagnostic.Cause}

theorem cases_cause (h : Breaks cause cs) : cause = .unclosedComment ∨ BadLexeme cause := by
  obtain ⟨pos, d, after, hnext, rfl⟩ := h
  obtain ⟨hcause, -⟩ | ⟨gap, rest, -, -, hread⟩ := Lexer.next_error hnext
  · exact .inl hcause
  · obtain ⟨body, -, hstring⟩ | hcause | ⟨text, hcause⟩ := Lexer.readLexeme_error hread
    · exact .inr (Lexer.readString_error hstring)
    · exact .inr (hcause ▸ .number)
    · exact .inr (hcause ▸ .rune)

theorem openComment (h : Breaks .unclosedComment cs) : OpenComment cs := by
  obtain ⟨pos, d, after, hnext, hcause⟩ := h
  obtain ⟨-, hopen⟩ | ⟨gap, rest, -, -, hread⟩ := Lexer.next_error hnext
  · exact hopen
  · rw [hcause] at hread
    obtain ⟨body, -, hstring⟩ | hcause | ⟨text, hcause⟩ := Lexer.readLexeme_error hread
    · cases Lexer.readString_error hstring
    · cases hcause
    · cases hcause

theorem openString (h : Breaks cause cs)
    (hcause : cause = .unclosedString ∨ cause = .missingEscape) : OpenString cs := by
  obtain ⟨pos, d, after, hnext, rfl⟩ := h
  obtain ⟨hcomment, -⟩ | ⟨gap, rest, rfl, hgap, hread⟩ := Lexer.next_error hnext
  · simp [hcomment] at hcause
  · obtain ⟨body, rfl, hstring⟩ | hnumber | ⟨text, hrune⟩ := Lexer.readLexeme_error hread
    · obtain ⟨body, value, escape, rfl, hbody, hescape⟩ := Lexer.open_of_readString hstring hcause
      exact ⟨gap, body, value, escape, rfl, hgap, hbody, hescape⟩
    · simp [hnumber] at hcause
    · simp [hrune] at hcause

end Breaks

/-! ## The tokens of a text, faulty or not -/

namespace TokenStream

variable {source : List Char} {d : Diagnostic}

theorem lexed_of_faulty_read {cs : List Char} {pos : Position} {count : Nat}
    (hcount : cs.length < count) (h : (read count ⟨cs, pos, []⟩).fault = some d) :
    Lexed (Breaks d.cause) cs pos (read count ⟨cs, pos, []⟩).tokens := by
  induction count generalizing cs pos with
  | zero => simp at hcount
  | succ count ih =>
    unfold read at h ⊢
    split at h
    · rename_i fault after hnext
      cases h
      exact .done ⟨pos, d, after, hnext, rfl⟩
    · rename_i token after hnext
      obtain ⟨-, rfl⟩ |
        ⟨gap, text, value, rest, kind, rfl, hgap, hmunches, hbegins, rfl, rfl⟩ :=
          Lexer.next_ok hnext
      · cases h
      · have hlength := List.length_pos_iff.mpr hmunches.lexeme.ne_nil
        simp only [List.length_append] at hcount
        have hkind := hmunches.lexeme.kind_ne_eof
        simp only [beq_iff_eq, hkind, if_false] at h ⊢
        exact .token hgap hmunches hbegins (ih (by omega) h)

/-- A faulty text has its tokens before the fault. -/
theorem lexed_of_fault (h : (ofSource source).fault = some d) :
    Lexed (Breaks d.cause) source .origin (ofSource source).tokens :=
  lexed_of_faulty_read (Nat.lt_succ_self _) h

theorem cause_of_fault (h : (ofSource source).fault = some d) :
    d.cause = .unclosedComment ∨ BadLexeme d.cause := by
  obtain ⟨front, gap, -, -, hbreaks⟩ := (lexed_of_fault h).split_tail
  exact hbreaks.cases_cause

theorem exists_lexed (source : List Char) : ∃ Tail ts, Lexed Tail source .origin ts ∧
    ((ofSource source).tokens = ts ∨
      (ofSource source).tokens = ts ++ [.atEnd (Position.origin.afterAll source)]) := by
  cases hfault : (ofSource source).fault with
  | some d => exact ⟨_, _, lexed_of_fault hfault, .inl rfl⟩
  | none =>
    obtain ⟨ts, hlexed⟩ := lexed_of_ofSource hfault
    exact ⟨_, ts, hlexed, .inr (by rw [ofSource_of_lexed hlexed])⟩

theorem writable_ofSource (source : List Char) : ∀ t ∈ (ofSource source).tokens, t.Writable := by
  obtain ⟨Tail, ts, hlexed, htokens | htokens⟩ := exists_lexed source <;> rw [htokens]
  · exact hlexed.writable
  · exact List.forall_mem_append.mpr
      ⟨hlexed.writable, List.forall_mem_singleton.mpr (Token.writable_atEnd _)⟩

theorem exists_front {front back : List Token} {t : Token}
    (h : (ofSource source).tokens = front ++ t :: back) :
    ∃ text, Lexed (· = []) text .origin front := by
  obtain ⟨Tail, ts, hlexed, htokens⟩ := exists_lexed source
  obtain ⟨more, rfl⟩ : front <+: ts := by
    rw [h] at htokens
    obtain rfl | heq := htokens
    · exact List.prefix_append _ _
    · have hfront := heq ▸ List.prefix_append front (t :: back)
      have hlength := congrArg List.length heq
      simp only [List.length_append, List.length_cons, List.length_nil] at hlength
      exact List.prefix_of_prefix_length_le hfront (List.prefix_append _ _) (by omega)
  obtain ⟨text, -, -, htext, -⟩ := hlexed.split
  exact ⟨text, htext⟩

end TokenStream

end Oberlet
