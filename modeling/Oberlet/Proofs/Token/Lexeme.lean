import Oberlet.Proofs.Token.Spacing

/-!
# Lexemes

A lexeme is the text of a token. `Munches` adds what must follow it, so that it is not read as the
beginning of a longer one.
-/

namespace Oberlet

open Token.Kind

/-! ## Escapes -/

namespace Text.Escape

/-- A text as it is written between quotes. -/
def encode : List Char → List Char
  | [] => []
  | '\n' :: rest => '\\' :: 'n' :: encode rest
  | '\t' :: rest => '\\' :: 't' :: encode rest
  | '"' :: rest => '\\' :: '"' :: encode rest
  | '\\' :: rest => '\\' :: '\\' :: encode rest
  | c :: rest => c :: encode rest

/-- The text that is meant by what is written between quotes. A quote, a backslash and a line feed
do not stand there for themselves. -/
def decode? : List Char → Option (List Char)
  | [] => some []
  | '\\' :: 'n' :: rest => (decode? rest).map ('\n' :: ·)
  | '\\' :: 't' :: rest => (decode? rest).map ('\t' :: ·)
  | '\\' :: '"' :: rest => (decode? rest).map ('"' :: ·)
  | '\\' :: '\\' :: rest => (decode? rest).map ('\\' :: ·)
  | c :: rest =>
    if c = '\\' ∨ c = '"' ∨ c = '\n' then none else (decode? rest).map (c :: ·)

/-- Every text can be written as a string. -/
theorem decode?_encode (cs : List Char) : decode? (encode cs) = some cs := by
  induction cs using encode.induct with
  | case1 => rfl
  | case2 rest ih => simp [encode, decode?, ih]
  | case3 rest ih => simp [encode, decode?, ih]
  | case4 rest ih => simp [encode, decode?, ih]
  | case5 rest ih => simp [encode, decode?, ih]
  | case6 c rest hnewline htab hquote hbackslash ih =>
    rw [encode, decode?, if_neg (by simp_all), ih] <;> simp_all

variable {c : Char}

theorem decode?_escape {decoded : Char} (h : Lexer.unescape? c = some decoded) (body : List Char) :
    decode? ('\\' :: c :: body) = (decode? body).map (decoded :: ·) := by
  unfold Lexer.unescape? at h
  split at h <;> cases h <;> rfl

theorem decode?_plain (hquote : c ≠ '"') (hbackslash : c ≠ '\\') (hnewline : c ≠ '\n')
    (body : List Char) : decode? (c :: body) = (decode? body).map (c :: ·) := by
  rw [decode?, if_neg (by simp_all)] <;> simp_all

theorem newline_notMem {body value : List Char} (h : decode? body = some value) :
    '\n' ∉ body := by
  induction body using decode?.induct generalizing value with
  | case1 => simp
  | case2 body ih | case3 body ih | case4 body ih | case5 body ih =>
    obtain ⟨tail, htail, -⟩ := Option.map_eq_some_iff.mp h
    simpa using ih htail
  | case6 c body hn ht hq hb hc =>
    rw [decode?, if_pos hc] at h <;> simp_all
  | case7 c body hn ht hq hb hc ih =>
    simp only [not_or] at hc
    rw [decode?_plain hc.2.1 hc.1 hc.2.2] at h
    obtain ⟨tail, htail, -⟩ := Option.map_eq_some_iff.mp h
    simpa using ⟨Ne.symm hc.2.2, ih htail⟩

end Text.Escape

/-! ## Spellings -/

/-- How the keywords and the symbols are written. -/
def Token.Kind.spelling : Token.Kind → Option String
  | moduleKw => some "MODULE"
  | varKw => some "VAR"
  | procedureKw => some "PROCEDURE"
  | beginKw => some "BEGIN"
  | endKw => some "END"
  | ifKw => some "IF"
  | thenKw => some "THEN"
  | elsifKw => some "ELSIF"
  | elseKw => some "ELSE"
  | whileKw => some "WHILE"
  | doKw => some "DO"
  | exitKw => some "EXIT"
  | returnKw => some "RETURN"
  | arrayKw => some "ARRAY"
  | ofKw => some "OF"
  | integerKw => some "INTEGER"
  | realKw => some "REAL"
  | stringKw => some "STRING"
  | booleanKw => some "BOOLEAN"
  | trueKw => some "TRUE"
  | falseKw => some "FALSE"
  | orKw => some "OR"
  | andKw => some "AND"
  | modKw => some "MOD"
  | plus => some "+"
  | minus => some "-"
  | star => some "*"
  | slash => some "/"
  | amp => some "&"
  | tilde => some "~"
  | eq => some "="
  | neq => some "#"
  | lt => some "<"
  | gt => some ">"
  | ltEq => some "<="
  | gtEq => some ">="
  | assign => some ":="
  | lparen => some "("
  | rparen => some ")"
  | lbracket => some "["
  | rbracket => some "]"
  | comma => some ","
  | dot => some "."
  | semi => some ";"
  | colon => some ":"
  | ident => none
  | intLit => none
  | realLit => none
  | stringLit => none
  | eof => none

/-- A run of decimal digits that is not empty. -/
def Digits (cs : List Char) : Prop := cs ≠ [] ∧ ∀ c ∈ cs, c.isDigit = true

/-- The exponent of a real literal, which may be missing. -/
inductive Exponent : List Char → Prop
  | none : Exponent []
  | some {mark : Char} {sign digits : List Char} : mark = 'E' ∨ mark = 'e' →
      sign = [] ∨ sign = ['+'] ∨ sign = ['-'] → Digits digits →
      Exponent (mark :: (sign ++ digits))

/-- The texts of the tokens of a kind that have their text as value. -/
inductive Spelled : Token.Kind → List Char → Prop
  | fixed {kind : Token.Kind} {word : String} : kind.spelling = some word →
      Spelled kind word.toList
  | ident {c : Char} {rest : List Char} : Text.isIdentStart c = true →
      (∀ d ∈ rest, Text.isIdentRest d = true) →
      (∀ kind : Token.Kind, kind.spelling ≠ some (String.ofList (c :: rest))) →
      Spelled .ident (c :: rest)
  | integer {digits : List Char} : Digits digits → Spelled .intLit digits
  | real {whole fraction exponent : List Char} : Digits whole → Digits fraction →
      Exponent exponent → Spelled .realLit (whole ++ '.' :: (fraction ++ exponent))

/-- The text of a token of a kind, and the value of the token. -/
inductive Lexeme : Token.Kind → List Char → List Char → Prop
  | plain {kind : Token.Kind} {text : List Char} : Spelled kind text → Lexeme kind text text
  | string {body value : List Char} : Text.Escape.decode? body = some value →
      Lexeme .stringLit ('"' :: (body ++ ['"'])) value

namespace Token.Kind

variable {kind : Token.Kind} {word : String}

theorem spelling_of_ofKeyword? (h : ofKeyword? word = some kind) :
    kind.spelling = some word := by
  unfold ofKeyword? at h
  split at h <;> cases h <;> rfl

theorem spelling_of_ofSymbol? {cs : List Char} (h : ofSymbol? cs = some kind) :
    kind.spelling = some (String.ofList cs) := by
  unfold ofSymbol? at h
  split at h <;> cases h <;> rfl

/-- Keywords and symbols have a fixed spelling. -/
theorem spelling_cases (h : kind.spelling = some word) :
    (ofKeyword? word = some kind ∧ word.toList ≠ [] ∧
        ∀ c ∈ word.toList, Text.isIdentStart c = true) ∨
      ofSymbol? word.toList = some kind ∨ kind = .lparen ∧ word = "(" := by
  simp only [← List.all_eq_true]
  cases kind <;> cases h <;> decide

end Token.Kind

/-! ## The end of a lexeme -/

/-- The next character, if there is one, is not of a class. -/
def Stops (p : Char → Bool) (rest : List Char) : Prop := ∀ c, rest.head? = some c → p c = false

variable {p : Char → Bool} {c : Char} {rest cs : List Char} {kind : Token.Kind} {text : List Char}

theorem Stops.nil : Stops p [] := by
  intro c hc
  cases hc

theorem Stops.cons (h : p c = false) (rest : List Char) : Stops p (c :: rest) := by
  intro d hd
  cases hd
  exact h

/-- The text is a lexeme of a kind with a value, and what follows does not lengthen it. -/
inductive Munches : Token.Kind → List Char → List Char → List Char → Prop
  | word {c : Char} {word rest : List Char} : Text.isIdentStart c = true →
      (∀ d ∈ word, Text.isIdentRest d = true) → Stops Text.isIdentRest rest →
      Munches ((ofKeyword? (String.ofList (c :: word))).getD .ident) (c :: word)
        (c :: word) rest
  | integer {digits rest : List Char} : Digits digits →
      Stops (fun c => c.isDigit || c == '.') rest → Munches .intLit digits digits rest
  | real {whole fraction rest : List Char} : Digits whole → Digits fraction →
      Stops (fun c => c.isDigit || (c == 'E' || c == 'e')) rest →
      Munches .realLit (whole ++ '.' :: fraction) (whole ++ '.' :: fraction) rest
  | scientific {whole fraction sign digits rest : List Char} {mark : Char} :
      Digits whole → Digits fraction → mark = 'E' ∨ mark = 'e' →
      sign = [] ∨ sign = ['+'] ∨ sign = ['-'] → Digits digits → Stops Char.isDigit rest →
      Munches .realLit (whole ++ '.' :: (fraction ++ mark :: (sign ++ digits)))
        (whole ++ '.' :: (fraction ++ mark :: (sign ++ digits))) rest
  | string {body value rest : List Char} : Text.Escape.decode? body = some value →
      Munches .stringLit ('"' :: (body ++ ['"'])) value rest
  | symbol {kind : Token.Kind} {text rest : List Char} : ofSymbol? text = some kind →
      Stops (fun c => (ofSymbol? (text ++ [c])).isSome) rest →
      Munches kind text text rest
  | lparen {rest : List Char} : Munches .lparen ['('] ['('] rest

theorem takeWhile_append_of_stops {run : List Char} (hrun : ∀ c ∈ run, p c = true)
    (hrest : Stops p rest) :
    (run ++ rest).takeWhile p = run ∧ (run ++ rest).dropWhile p = rest := by
  have hrest : rest.takeWhile p = [] ∧ rest.dropWhile p = rest := by
    cases rest with
    | nil => simp
    | cons c rest => simp [hrest c rfl]
  rw [List.takeWhile_append_of_pos hrun, List.dropWhile_append_of_pos hrun]
  simp [hrest]

theorem stops_dropWhile (p : Char → Bool) (cs : List Char) : Stops p (cs.dropWhile p) := by
  intro c hc
  have := List.head?_dropWhile_not p cs
  simpa [hc] using this

theorem digits_takeWhile (h : cs.takeWhile Char.isDigit ≠ []) :
    Digits (cs.takeWhile Char.isDigit) :=
  ⟨h, fun d hd => List.all_eq_true.mp List.all_takeWhile d hd⟩

theorem isIdentStart_of_isDigit (h : c.isDigit = true) : Text.isIdentStart c = false := by
  have hdigit : 48 ≤ c.val.toNat ∧ c.val.toNat ≤ 57 := by
    simpa [Char.isDigit, UInt32.le_iff_toNat_le] using h
  have hascii : c.toNat < 0x80 := Nat.lt_of_le_of_lt hdigit.2 (by decide)
  have hbelow {d : Char} (hd : 57 < d.val.toNat) : ¬ d.val ≤ c.val := by
    rw [UInt32.le_iff_toNat_le]
    omega
  have halpha : c.isAlpha = false := by
    change (decide ('A'.val ≤ c.val ∧ c.val ≤ 'Z'.val) ||
      (decide ('a'.val ≤ c.val) && decide (c.val ≤ 'z'.val))) = false
    simp only [hbelow (show 57 < 'A'.val.toNat by decide),
      hbelow (show 57 < 'a'.val.toNat by decide), false_and, decide_false, Bool.false_and,
      Bool.or_false]
  have hne : c ≠ '_' := by
    rintro rfl
    exact absurd hdigit.2 (by decide)
  simp [Text.isIdentStart, Text.isLetter, hascii, halpha, hne]

namespace Lexer

variable {value : List Char} {pos stop : Position}

/-! ## Strings -/

theorem readString_of_decode? {body : List Char} (rest : List Char) (pos : Position)
    (h : Text.Escape.decode? body = some value) :
    readString (body ++ '"' :: rest) pos =
      ⟨.ok .stringLit, value, rest, pos.afterAll (body ++ ['"'])⟩ := by
  induction body using Text.Escape.decode?.induct generalizing value pos with
  | case1 =>
    cases h
    rfl
  | case2 body ih | case3 body ih | case4 body ih | case5 body ih =>
    obtain ⟨tail, htail, rfl⟩ := Option.map_eq_some_iff.mp h
    simp [readString, unescape?, ih _ htail]
  | case6 c body hn ht hq hb hc =>
    rw [Text.Escape.decode?, if_pos hc] at h <;> simp_all
  | case7 c body hn ht hq hb hc ih =>
    simp only [not_or] at hc
    rw [Text.Escape.decode?_plain hc.2.1 hc.1 hc.2.2] at h
    obtain ⟨tail, htail, rfl⟩ := Option.map_eq_some_iff.mp h
    rw [List.cons_append, readString] <;> simp_all

variable {sign digits : List Char}

theorem Reading.of_cons {r : Reading}
    (h : { r with text := c :: r.text } = (⟨.ok kind, value, rest, stop⟩ : Reading)) :
    ∃ tail, value = c :: tail ∧ r = ⟨.ok kind, tail, rest, stop⟩ := by
  obtain ⟨outcome, text, left, pos⟩ := r
  cases h
  exact ⟨text, rfl, rfl⟩

theorem readString_ok (h : readString cs pos = ⟨.ok kind, value, rest, stop⟩) :
    kind = .stringLit ∧ ∃ body, Text.Escape.decode? body = some value ∧ cs = body ++ '"' :: rest ∧
      stop = pos.afterAll (body ++ ['"']) := by
  fun_induction readString cs pos generalizing value with
  | case1 => cases h
  | case2 =>
    cases h
    exact ⟨rfl, [], rfl, rfl, rfl⟩
  | case3 => cases h
  | case4 c tail pos inside decoded hdecoded reading =>
    rename_i ih
    obtain ⟨value, rfl, hreading⟩ := Reading.of_cons h
    obtain ⟨hkind, body, hbody, rfl, rfl⟩ := ih hreading
    refine ⟨hkind, '\\' :: c :: body, ?_, rfl, rfl⟩
    rw [Text.Escape.decode?_escape hdecoded, hbody]
    rfl
  | case5 => cases h
  | case6 => cases h
  | case7 c tail pos hquote hlone hescape hnewline reading =>
    rename_i ih
    obtain ⟨value, rfl, hreading⟩ := Reading.of_cons h
    obtain ⟨hkind, body, hbody, rfl, rfl⟩ := ih hreading
    refine ⟨hkind, c :: body, ?_, rfl, rfl⟩
    have hbackslash : c ≠ '\\' := by
      rintro rfl
      cases body <;> simp at hlone hescape
    rw [Text.Escape.decode?_plain hquote hbackslash hnewline, hbody]
    rfl

/-! ## Numbers -/

theorem splitSign_eq {digitsOn : List Char} (h : splitSign cs = (sign, digitsOn)) :
    cs = sign ++ digitsOn ∧ (sign = [] ∨ sign = ['+'] ∨ sign = ['-']) := by
  unfold splitSign at h
  split at h <;> cases h <;> simp

theorem splitSign_append (hsign : sign = [] ∨ sign = ['+'] ∨ sign = ['-']) (hdigits : Digits digits)
    (rest : List Char) : splitSign (sign ++ (digits ++ rest)) = (sign, digits ++ rest) := by
  obtain ⟨hne, hall⟩ := hdigits
  obtain ⟨d, digits, rfl⟩ := List.exists_cons_of_ne_nil hne
  have hd := hall d (by simp)
  obtain rfl | rfl | rfl := hsign
  · unfold splitSign
    split
    · simp_all
    · simp_all
    · rfl
  · rfl
  · rfl

theorem readExponent_missing (h : Stops (fun c => c == 'E' || c == 'e') rest) :
    readExponent text rest pos = ⟨.ok .realLit, text, rest, pos⟩ := by
  unfold readExponent
  split
  · rename_i mark tail
    have := h mark rfl
    simp_all
  · rfl

theorem readExponent_given {mark : Char} (text : List Char) (pos : Position)
    (hmark : mark = 'E' ∨ mark = 'e') (hsign : sign = [] ∨ sign = ['+'] ∨ sign = ['-'])
    (hdigits : Digits digits) (hrest : Stops Char.isDigit rest) :
    readExponent text (mark :: (sign ++ (digits ++ rest))) pos =
      ⟨.ok .realLit, text ++ mark :: (sign ++ digits), rest,
        pos.afterAll (mark :: (sign ++ digits))⟩ := by
  obtain ⟨htake, hdrop⟩ := takeWhile_append_of_stops hdigits.2 hrest
  have hmark : (mark == 'E' || mark == 'e') = true := by simpa using hmark
  simp [readExponent, hmark, splitSign_append hsign hdigits, htake, hdrop, hdigits.1]

theorem readExponent_ok (h : readExponent text cs pos = ⟨.ok kind, value, rest, stop⟩) :
    kind = .realLit ∧ (value = text ∧ rest = cs ∧ stop = pos ∧
        Stops (fun c => c == 'E' || c == 'e') rest ∨
      ∃ mark sign digits, (mark = 'E' ∨ mark = 'e') ∧ (sign = [] ∨ sign = ['+'] ∨ sign = ['-']) ∧
        Digits digits ∧ Stops Char.isDigit rest ∧ value = text ++ mark :: (sign ++ digits) ∧
        cs = mark :: (sign ++ (digits ++ rest)) ∧
        stop = pos.afterAll (mark :: (sign ++ digits))) := by
  unfold readExponent at h
  split at h
  · rename_i mark tail
    split at h
    · rename_i hmark
      obtain ⟨sign, digitsOn, hsplit⟩ : ∃ sign digitsOn, splitSign tail = (sign, digitsOn) :=
        ⟨_, _, rfl⟩
      obtain ⟨rfl, hsign⟩ := splitSign_eq hsplit
      simp only [hsplit] at h
      split at h
      · cases h
      · rename_i hdigits
        cases h
        refine ⟨rfl, .inr ⟨mark, sign, _, by simpa using hmark, hsign,
          digits_takeWhile (by simpa using hdigits), stops_dropWhile _ _, by simp, ?_, by simp⟩⟩
        rw [List.takeWhile_append_dropWhile]
    · rename_i hmark
      cases h
      exact ⟨rfl, .inl ⟨rfl, rfl, rfl, .cons (by simpa using hmark) _⟩⟩
  · cases h
    exact ⟨rfl, .inl ⟨rfl, rfl, rfl, .nil⟩⟩

theorem munches_of_readNumber (hc : c.isDigit = true)
    (h : readNumber [] (c :: cs) pos = ⟨.ok kind, value, rest, stop⟩) :
    ∃ text, Munches kind text value rest ∧ c :: cs = text ++ rest ∧ stop = pos.afterAll text := by
  have hwhole : Digits ((c :: cs).takeWhile Char.isDigit) := digits_takeWhile (by simp [hc])
  have hbehind : Stops Char.isDigit ((c :: cs).dropWhile Char.isDigit) := stops_dropWhile _ _
  rw [← List.takeWhile_append_dropWhile (p := Char.isDigit) (l := c :: cs)]
  unfold readNumber at h
  dsimp only at h
  generalize (c :: cs).takeWhile Char.isDigit = whole at *
  generalize (c :: cs).dropWhile Char.isDigit = behind at *
  split at h
  · rename_i tail
    split at h
    · cases h
    · rename_i hfraction
      replace hfraction : Digits (tail.takeWhile Char.isDigit) :=
        digits_takeWhile (by simpa using hfraction)
      have hdot : Stops Char.isDigit (tail.dropWhile Char.isDigit) := stops_dropWhile _ _
      have htail := List.takeWhile_append_dropWhile (p := Char.isDigit) (l := tail)
      generalize tail.takeWhile Char.isDigit = fraction at *
      generalize tail.dropWhile Char.isDigit = behind at *
      subst htail
      obtain ⟨rfl, ⟨rfl, rfl, rfl, hmark⟩ |
        ⟨mark, sign, digits, hmark, hsign, hdigits, hend, rfl, rfl, rfl⟩⟩ := readExponent_ok h
      · refine ⟨whole ++ '.' :: fraction, ?_, by simp, by simp⟩
        simpa using Munches.real hwhole hfraction fun c hc => by simp [hdot c hc, hmark c hc]
      · refine ⟨whole ++ '.' :: (fraction ++ mark :: (sign ++ digits)), ?_, by simp, by simp⟩
        simpa using Munches.scientific hwhole hfraction hmark hsign hdigits hend
  · rename_i hpoint
    cases h
    refine ⟨whole, ?_, rfl, rfl⟩
    refine Munches.integer hwhole fun c hc => ?_
    have hne : c ≠ '.' := by
      rintro rfl
      obtain ⟨tail, rfl⟩ := List.head?_eq_some_iff.mp hc
      exact hpoint _ rfl
    simp [hbehind c hc, hne]

theorem readNumber_integer (hdigits : Digits digits)
    (hrest : Stops (fun c => c.isDigit || c == '.') rest) :
    readNumber [] (digits ++ rest) pos = ⟨.ok .intLit, digits, rest, pos.afterAll digits⟩ := by
  obtain ⟨htake, hdrop⟩ := takeWhile_append_of_stops hdigits.2 fun c hc => by
    simpa using (Bool.or_eq_false_iff.mp (hrest c hc)).1
  unfold readNumber
  simp only [htake, hdrop, List.nil_append]
  split
  · have := hrest '.' rfl
    simp at this
  · rfl

theorem readNumber_real {whole fraction behind : List Char} (hwhole : Digits whole)
    (hfraction : Digits fraction) (hbehind : Stops Char.isDigit behind) :
    readNumber [] (whole ++ '.' :: (fraction ++ behind)) pos =
      readExponent (whole ++ '.' :: fraction) behind (pos.afterAll (whole ++ '.' :: fraction)) := by
  have hpoint : Stops Char.isDigit ('.' :: (fraction ++ behind)) := .cons rfl _
  obtain ⟨htake, hdrop⟩ := takeWhile_append_of_stops hwhole.2 hpoint
  obtain ⟨htake', hdrop'⟩ := takeWhile_append_of_stops hfraction.2 hbehind
  simp [readNumber, htake, hdrop, htake', hdrop', hfraction.1]

/-! ## Symbols -/

theorem extendSymbol_ok {first : Token.Kind} (hfirst : ofSymbol? text = some first)
    (h : extendSymbol first text cs pos = ⟨.ok kind, value, rest, stop⟩) :
    ofSymbol? value = some kind ∧
      Stops (fun c => (ofSymbol? (value ++ [c])).isSome) rest ∧
      ∃ more, value = text ++ more ∧ cs = more ++ rest ∧ stop = pos.afterAll more := by
  induction cs generalizing first text pos with
  | nil =>
    cases h
    exact ⟨hfirst, .nil, [], by simp, rfl, rfl⟩
  | cons c cs ih =>
    unfold extendSymbol at h
    split at h
    · rename_i longer hlonger
      obtain ⟨hkind, hrest, more, rfl, rfl, rfl⟩ := ih hlonger h
      exact ⟨hkind, hrest, c :: more, by simp, rfl, rfl⟩
    · rename_i hnone
      cases h
      exact ⟨hfirst, .cons (by simp [hnone]) _, [], by simp, rfl, rfl⟩

theorem extendSymbol_stop
    (h : Stops (fun c => (ofSymbol? (text ++ [c])).isSome) rest) :
    extendSymbol kind text rest pos = ⟨.ok kind, text, rest, pos⟩ := by
  cases rest with
  | nil => rfl
  | cons c rest =>
    have := h c rfl
    simp only [Option.isSome_eq_false_iff, Option.isNone_iff_eq_none] at this
    simp [extendSymbol, this]

theorem ofSymbol?_cases (h : ofSymbol? text = some kind) :
    ∃ c, text = [c] ∨ ∃ d first, text = [c, d] ∧ ofSymbol? [c] = some first := by
  unfold ofSymbol? at h
  split at h <;> cases h
  all_goals simp [ofSymbol?]

theorem ofSymbol?_chars (h : ofSymbol? text = some kind) :
    ∀ c ∈ text, c.isDigit = false ∧ Text.isIdentStart c = false ∧ isBlank c = false ∧ c ≠ '(' ∧
      c ≠ '"' := by
  unfold ofSymbol? at h
  split at h <;> cases h
  all_goals
    simp only [List.forall_mem_cons, List.not_mem_nil, false_imp_iff, implies_true, and_true]
    decide

theorem readSymbol_of_ofSymbol? {tail : List Char}
    (h : ofSymbol? (c :: tail) = some kind)
    (hrest : Stops (fun d => (ofSymbol? (c :: tail ++ [d])).isSome) rest) :
    readSymbol [] c (tail ++ rest) pos = ⟨.ok kind, c :: tail, rest, pos.afterAll (c :: tail)⟩ := by
  obtain ⟨_, heq | ⟨d, first, heq, hfirst⟩⟩ := ofSymbol?_cases h
  · cases heq
    simp [readSymbol, h, extendSymbol_stop hrest]
  · cases heq
    simp [readSymbol, hfirst, extendSymbol, h, extendSymbol_stop hrest]

/-! ## Lexemes -/

theorem readWord_of_munches {word : List Char} (hc : Text.isIdentRest c = true)
    (hword : ∀ d ∈ word, Text.isIdentRest d = true) (hrest : Stops Text.isIdentRest rest) :
    readWord [] (c :: (word ++ rest)) pos =
      ⟨.ok ((ofKeyword? (String.ofList (c :: word))).getD .ident), c :: word, rest,
        pos.afterAll (c :: word)⟩ := by
  obtain ⟨htake, hdrop⟩ := takeWhile_append_of_stops hword hrest
  simp [readWord, hc, htake, hdrop]

theorem readLexeme_other (hparen : c ≠ '(') (hquote : c ≠ '"') :
    readLexeme [] (c :: cs) pos =
      if c.isDigit then readNumber [] (c :: cs) pos
      else if Text.isIdentStart c then readWord [] (c :: cs) pos
      else readSymbol [] c cs pos := by
  rw [readLexeme]
  · simpa using hparen
  · simpa using hquote

theorem readLexeme_number (hdigits : Digits digits) (behind : List Char) :
    readLexeme [] (digits ++ behind) pos = readNumber [] (digits ++ behind) pos := by
  obtain ⟨hne, hall⟩ := hdigits
  obtain ⟨d, digits, rfl⟩ := List.exists_cons_of_ne_nil hne
  have hd := hall d (by simp)
  rw [List.cons_append, readLexeme_other, if_pos hd]
  · rintro rfl
    exact absurd hd (by decide)
  · rintro rfl
    exact absurd hd (by decide)

/-- The lexer reads a lexeme that nothing continues. -/
theorem readLexeme_of_munches (h : Munches kind text value rest) :
    readLexeme [] (text ++ rest) pos = ⟨.ok kind, value, rest, pos.afterAll text⟩ := by
  cases h with
  | @word c word _ hc hword hrest =>
    have hrest' : Text.isIdentRest c = true := by simp [Text.isIdentRest, hc]
    have hdigit : c.isDigit = false := by
      cases hd : c.isDigit with
      | false => rfl
      | true => rw [isIdentStart_of_isDigit hd] at hc; cases hc
    rw [List.cons_append, readLexeme_other, hdigit, if_pos hc, if_neg (by simp),
      readWord_of_munches hrest' hword hrest]
    · rintro rfl
      exact absurd hc (by decide)
    · rintro rfl
      exact absurd hc (by decide)
  | integer hdigits hrest => rw [readLexeme_number hdigits, readNumber_integer hdigits hrest]
  | real hwhole hfraction hrest =>
    have hdigit : Stops Char.isDigit rest := fun c hc => (Bool.or_eq_false_iff.mp (hrest c hc)).1
    have hmark : Stops (fun c => c == 'E' || c == 'e') rest :=
      fun c hc => (Bool.or_eq_false_iff.mp (hrest c hc)).2
    rw [List.append_assoc, List.cons_append, readLexeme_number hwhole,
      readNumber_real hwhole hfraction hdigit, readExponent_missing hmark]
  | @scientific whole fraction sign digits _ mark hwhole hfraction hmark hsign hdigits hrest =>
    have hstop : Stops Char.isDigit (mark :: (sign ++ (digits ++ rest))) := by
      refine .cons ?_ _
      obtain rfl | rfl := hmark <;> rfl
    have := readExponent_given (whole ++ '.' :: fraction)
      (pos.afterAll (whole ++ '.' :: fraction)) hmark hsign hdigits hrest
    simp only [List.append_assoc, List.cons_append, readLexeme_number hwhole,
      readNumber_real hwhole hfraction hstop, this]
    simp
  | @string body _ _ hbody =>
    have := readString_of_decode? rest (pos.after '"') hbody
    simp [readLexeme, this]
  | @symbol _ _ _ hkind hrest =>
    obtain ⟨c, tail, rfl⟩ := List.exists_cons_of_ne_nil (l := text) (by rintro rfl; cases hkind)
    obtain ⟨hdigit, hstart, -, hparen, hquote⟩ := ofSymbol?_chars hkind c (by simp)
    rw [List.cons_append, readLexeme_other hparen hquote, if_neg (by simp [hdigit]),
      if_neg (by simp [hstart]), readSymbol_of_ofSymbol? hkind hrest]
  | lparen => rfl

/-- What the lexer reads is a lexeme that nothing continues. -/
theorem munches_of_readLexeme (hne : cs ≠ [])
    (h : readLexeme [] cs pos = ⟨.ok kind, value, rest, stop⟩) :
    ∃ text, Munches kind text value rest ∧ cs = text ++ rest ∧ stop = pos.afterAll text := by
  unfold readLexeme at h
  split at h
  · exact absurd rfl hne
  · cases h
    exact ⟨['('], .lparen, rfl, rfl⟩
  · obtain ⟨rfl, body, hbody, rfl, rfl⟩ := readString_ok h
    exact ⟨'"' :: (body ++ ['"']), .string hbody, by simp, by simp⟩
  · rename_i c tail _ _
    split at h
    · rename_i hdigit
      exact munches_of_readNumber hdigit h
    · split at h
      · rename_i hstart
        have hrest : Text.isIdentRest c = true := by simp [Text.isIdentRest, hstart]
        simp only [readWord, hrest, List.takeWhile_cons_of_pos, List.dropWhile_cons_of_pos,
          List.nil_append] at h
        cases h
        refine ⟨_, .word hstart ?_ (stops_dropWhile _ _), ?_, rfl⟩
        · exact fun d hd => List.all_eq_true.mp List.all_takeWhile d hd
        · simp [List.takeWhile_append_dropWhile]
      · unfold readSymbol at h
        dsimp only [List.nil_append] at h
        split at h
        · rename_i first hfirst
          obtain ⟨hkind, hrest, more, rfl, rfl, rfl⟩ := extendSymbol_ok hfirst h
          exact ⟨[c] ++ more, .symbol hkind hrest, by simp, by simp⟩
        · cases h

end Lexer

/-! ## What lexemes are made of -/

theorem Lexer.isBlank_iff : Lexer.isBlank c = true ↔
    c ∈ [' ', '\n', '\t', '\r', '\x0b', '\x0c'] := by
  have h11 : c.toNat = 0x0B ↔ c = '\x0b' := Char.toNat_inj (d := '\x0b')
  have h12 : c.toNat = 0x0C ↔ c = '\x0c' := Char.toNat_inj (d := '\x0c')
  simp [isBlank, h11, h12, or_assoc]

/-- The characters with which spacing begins. -/
def separators : List Char := ['(', ' ', '\n', '\t', '\r', '\x0b', '\x0c']

theorem mem_separators : c ∈ separators ↔ Lexer.isBlank c = true ∨ c = '(' := by
  rw [Lexer.isBlank_iff, separators, List.mem_cons, or_comm]

theorem forall_separators (h : separators.any p = false) : ∀ c ∈ separators, p c = false := by
  simpa using h

theorem isDigit_separators : ∀ c ∈ separators, c.isDigit = false := forall_separators (by decide)

theorem isIdentStart_separators : ∀ c ∈ separators, Text.isIdentStart c = false :=
  forall_separators (by decide)

theorem isIdentRest_separators : ∀ c ∈ separators, Text.isIdentRest c = false :=
  forall_separators (by decide)

theorem notMem_separators (hp : ∀ c ∈ separators, p c = false) (h : p c = true) :
    c ∉ separators := by
  intro hmem
  rw [hp c hmem] at h
  cases h

/-- The next character, if there is one, begins spacing. -/
def Parted (rest : List Char) : Prop := ∀ c, rest.head? = some c → c ∈ separators

theorem Parted.stops (h : Parted rest) (hp : ∀ c ∈ separators, p c = false) : Stops p rest :=
  fun c hc => hp c (h c hc)

theorem Spacing.parted (h : Spacing cs) (hne : cs ≠ []) (rest : List Char) :
    Parted (cs ++ rest) := by
  intro c hc
  cases h with
  | nil => exact absurd rfl hne
  | blank hblank _ =>
    cases hc
    exact mem_separators.mpr (.inl hblank)
  | comment _ _ =>
    cases hc
    exact mem_separators.mpr (.inr rfl)

theorem Lexer.ofSymbol?_notMem (h : ofSymbol? text = some kind) :
    ∀ c ∈ text, c ∉ separators := by
  intro c hc
  obtain ⟨-, -, hblank, hparen, -⟩ := Lexer.ofSymbol?_chars h c hc
  simp [mem_separators, hblank, hparen]

/-- In front of a separator, a lexeme is read as a whole. -/
theorem Lexeme.munches {value : List Char} (h : Lexeme kind text value) (hrest : Parted rest) :
    Munches kind text value rest := by
  cases h with
  | string hbody => exact .string hbody
  | plain hspelled =>
    cases hspelled with
    | @fixed _ word hspelling =>
      obtain ⟨hkeyword, hne, hletter⟩ | hsymbol | ⟨rfl, rfl⟩ :=
        spelling_cases hspelling
      · obtain ⟨c, tail, htail⟩ := List.exists_cons_of_ne_nil hne
        have hc := hletter c (by simp [htail])
        have htail' (d : Char) (hd : d ∈ tail) : Text.isIdentRest d = true := by
          simp [Text.isIdentRest, hletter d (by simp [htail, hd])]
        have := Munches.word hc htail' (hrest.stops isIdentRest_separators)
        rwa [← htail, String.ofList_toList, hkeyword] at this
      · refine .symbol hsymbol fun c hc => ?_
        rw [Option.isSome_eq_false_iff, Option.isNone_iff_eq_none]
        cases hlonger : ofSymbol? (word.toList ++ [c]) with
        | none => rfl
        | some longer =>
          exact absurd (hrest c hc) (Lexer.ofSymbol?_notMem hlonger c (by simp))
      · exact .lparen
    | @ident c word hc hword hfree =>
      have := Munches.word hc hword (hrest.stops isIdentRest_separators)
      have hnone : ofKeyword? (String.ofList (c :: word)) = none := by
        cases hkind : ofKeyword? (String.ofList (c :: word)) with
        | none => rfl
        | some kind => exact absurd (spelling_of_ofKeyword? hkind) (hfree kind)
      rwa [hnone] at this
    | integer hdigits => exact .integer hdigits (hrest.stops (forall_separators (by decide)))
    | real hwhole hfraction hexponent =>
      cases hexponent with
      | none =>
        simpa using Munches.real hwhole hfraction (hrest.stops (forall_separators (by decide)))
      | some hmark hsign hdigits =>
        exact .scientific hwhole hfraction hmark hsign hdigits (hrest.stops isDigit_separators)

section

variable {value more : List Char}

theorem Stops.of_append (h : Stops p (rest ++ more)) : Stops p rest := by
  cases rest with
  | nil => exact .nil
  | cons c rest => exact .cons (h c rfl) _

theorem Munches.of_append (h : Munches kind text value (rest ++ more)) :
    Munches kind text value rest := by
  cases h with
  | word hc hword hrest => exact .word hc hword hrest.of_append
  | integer hdigits hrest => exact .integer hdigits hrest.of_append
  | real hwhole hfraction hrest => exact .real hwhole hfraction hrest.of_append
  | scientific hwhole hfraction hmark hsign hdigits hrest =>
    exact .scientific hwhole hfraction hmark hsign hdigits hrest.of_append
  | string hbody => exact .string hbody
  | symbol hkind hrest => exact .symbol hkind hrest.of_append
  | lparen => exact .lparen

/-- What is read is a lexeme. -/
theorem Munches.lexeme (h : Munches kind text value rest) : Lexeme kind text value := by
  cases h with
  | @word c word _ hc hword hrest =>
    cases hkind : ofKeyword? (String.ofList (c :: word)) with
    | some kind =>
      have := Spelled.fixed (spelling_of_ofKeyword? hkind)
      rw [String.toList_ofList] at this
      exact .plain this
    | none =>
      refine .plain (.ident hc hword fun kind hspelling => ?_)
      obtain ⟨hkeyword, -⟩ | hsymbol | ⟨-, heq⟩ := spelling_cases hspelling
      · rw [hkind] at hkeyword
        cases hkeyword
      · obtain ⟨-, hstart, -⟩ := Lexer.ofSymbol?_chars hsymbol c (by simp)
        rw [hc] at hstart
        cases hstart
      · have := congrArg String.toList heq
        simp at this
        obtain ⟨rfl, -⟩ := this
        exact absurd hc (by decide)
  | integer hdigits hrest => exact .plain (.integer hdigits)
  | real hwhole hfraction hrest =>
    exact .plain (by simpa using Spelled.real hwhole hfraction .none)
  | scientific hwhole hfraction hmark hsign hdigits hrest =>
    exact .plain (.real hwhole hfraction (.some hmark hsign hdigits))
  | string hbody => exact .string hbody
  | symbol hkind hrest =>
    have := Spelled.fixed (spelling_of_ofSymbol? hkind)
    rw [String.toList_ofList] at this
    exact .plain this
  | lparen =>
    have hspelling : Token.Kind.lparen.spelling = some "(" := rfl
    exact .plain (.fixed hspelling)

theorem Lexeme.kind_ne_eof (h : Lexeme kind text value) : kind ≠ .eof := by
  rintro rfl
  cases h with
  | plain hspelled =>
    cases hspelled with
    | fixed hspelling => cases hspelling

theorem Digits.notMem_separators (h : Digits cs) : ∀ c ∈ cs, c ∉ separators :=
  fun c hc => Oberlet.notMem_separators isDigit_separators (h.2 c hc)

theorem Exponent.notMem_separators (h : Exponent cs) : ∀ c ∈ cs, c ∉ separators := by
  cases h with
  | none => simp
  | some hmark hsign hdigits =>
    intro c hc
    rw [List.mem_cons, List.mem_append] at hc
    obtain rfl | hc | hc := hc
    · obtain rfl | rfl := hmark <;> decide
    · revert c
      obtain rfl | rfl | rfl := hsign <;> simp [separators]
    · exact hdigits.notMem_separators c hc

theorem Spelled.notMem_separators (h : Spelled kind text) :
    kind = .lparen ∧ text = ['('] ∨ ∀ c ∈ text, c ∉ separators := by
  cases h with
  | fixed hspelling =>
    obtain ⟨-, -, hletter⟩ | hsymbol | ⟨rfl, rfl⟩ := spelling_cases hspelling
    · exact .inr fun c hc => Oberlet.notMem_separators isIdentStart_separators (hletter c hc)
    · exact .inr (Lexer.ofSymbol?_notMem hsymbol)
    · exact .inl ⟨rfl, rfl⟩
  | ident hc hword _ =>
    refine .inr fun d hd => ?_
    obtain rfl | hd := List.mem_cons.mp hd
    · exact Oberlet.notMem_separators isIdentStart_separators hc
    · exact Oberlet.notMem_separators isIdentRest_separators (hword d hd)
  | integer hdigits => exact .inr hdigits.notMem_separators
  | real hwhole hfraction hexponent =>
    refine .inr fun c hc => ?_
    rw [List.mem_append, List.mem_cons, List.mem_append] at hc
    obtain hc | rfl | hc | hc := hc
    · exact hwhole.notMem_separators c hc
    · decide
    · exact hfraction.notMem_separators c hc
    · exact hexponent.notMem_separators c hc

theorem Spelled.ne_nil (h : Spelled kind text) : text ≠ [] := by
  cases h with
  | fixed hspelling =>
    obtain ⟨-, hne, -⟩ | hsymbol | ⟨-, rfl⟩ := spelling_cases hspelling
    · exact hne
    · intro hnil
      rw [hnil] at hsymbol
      cases hsymbol
    · decide
  | ident => simp
  | integer hdigits => exact hdigits.1
  | real => simp

/-- No lexeme goes over the end of a line. -/
theorem Lexeme.newline_notMem (h : Lexeme kind text value) : '\n' ∉ text := by
  cases h with
  | plain hspelled =>
    obtain ⟨-, rfl⟩ | hnone := hspelled.notMem_separators
    · decide
    · exact fun hmem => hnone _ hmem (by decide)
  | string hbody => simp [Text.Escape.newline_notMem hbody]

theorem Lexeme.ne_nil (h : Lexeme kind text value) : text ≠ [] := by
  cases h with
  | plain hspelled => exact hspelled.ne_nil
  | string => simp

theorem beginsSpacing_cons (h : c ∉ separators) : beginsSpacing (c :: rest) = false := by
  have hparts : Lexer.isBlank c = false ∧ c ≠ '(' := by simpa [mem_separators] using h
  unfold beginsSpacing
  split <;> simp_all

theorem Lexeme.beginsSpacing (h : Lexeme kind text value)
    (hparen : kind = .lparen → rest.head? ≠ some '*') : beginsSpacing (text ++ rest) = false := by
  cases h with
  | string => exact beginsSpacing_cons (by decide)
  | plain hspelled =>
    obtain ⟨rfl, rfl⟩ | hnone := hspelled.notMem_separators
    · unfold Oberlet.beginsSpacing
      split
      · rfl
      · rename_i heq
        cases heq
        exact absurd rfl (hparen rfl)
      · rename_i heq
        cases heq
        rfl
    · obtain ⟨c, tail, rfl⟩ := List.exists_cons_of_ne_nil hspelled.ne_nil
      exact beginsSpacing_cons (hnone c (by simp))

end

end Oberlet
