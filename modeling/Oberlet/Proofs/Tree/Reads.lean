import Oberlet.Proofs.Tree.Completable
import Oberlet.Proofs.Tree.Parsed

/-!
# Parsers inside a production

A parser is looked at from inside a production: some tokens of it are used, and the parser stands on
the next one. `Reads` says how it comes out.

* What it returns is a tree of the tokens it has used, and every node has the span of the phrase it
  was made for.
* When it stops at a token because that cannot stand there, the tokens that were used until then are
  the beginning of a phrase: no token that makes the phrase impossible is ever passed over.
* What it does depends only on the tokens it uses and on the one it stands on at last, so it does
  the same in every text that has the same tokens up to there.
* The bound on the depth of calls is never the reason to stop if it is large enough for the tokens
  that are left. A larger bound changes nothing else.
-/

namespace Oberlet

namespace Cursor

def tokens (c : Cursor) : List Token := c.token :: c.rest

/-- The last token is the end of the text, unless the text is faulty behind it. -/
def Closed (c : Cursor) : Prop :=
  c.fault = none → ∀ t, c.tokens.getLast? = some t → t.kind = .eof

/-- The parser has used some tokens. -/
structure Moved (c : Cursor) (ts : List Token) (c' : Cursor) : Prop where
  tokens : c.tokens = ts ++ c'.tokens
  fault : c'.fault = c.fault
  last : c'.last = (ts.getLast?.map Token.span).getD c.last

theorem Moved.refl (c : Cursor) : c.Moved [] c := ⟨rfl, rfl, rfl⟩

variable {c c' : Cursor} {ts us rest : List Token}

theorem Moved.trans {c'' : Cursor} (h : c.Moved ts c') (h' : c'.Moved us c'') :
    c.Moved (ts ++ us) c'' := by
  refine ⟨?_, h'.fault.trans h.fault, ?_⟩
  · rw [h.tokens, h'.tokens, List.append_assoc]
  · rw [h'.last, h.last, List.getLast?_append]
    cases us.getLast? <;> rfl

theorem Moved.rest_length (h : c.Moved ts c') : c.rest.length = ts.length + c'.rest.length := by
  have hlength := congrArg List.length h.tokens
  simp only [Cursor.tokens, List.length_append, List.length_cons] at hlength
  omega

/-- The parser has used some tokens of a production, and stands on the next token. -/
structure Stands (start : Token) (used : List Token) (next : Token) (c : Cursor) : Prop where
  closed : c.Closed
  token : c.token = next
  first : (used ++ [next]).head? = some start
  last : ∀ t, used.getLast? = some t → c.last = t.span

theorem Stands.moved {start next : Token} {used : List Token} (h : c.Stands start used next)
    (hmoved : c.Moved ts c') : c'.Stands start (used ++ ts) c'.token := by
  have htokens := hmoved.tokens
  refine ⟨?_, rfl, ?_, ?_⟩
  · intro hfault t ht
    refine h.closed (hmoved.fault ▸ hfault) t ?_
    rw [htokens, List.getLast?_append, ht]
    rfl
  · have hnext : (ts ++ [c'.token]).head? = some next := by
      have := congrArg List.head? htokens
      rw [tokens, List.head?_cons, h.token] at this
      rw [this, List.head?_append, List.head?_append]
      rfl
    rw [List.append_assoc, List.head?_append, hnext, ← h.first, List.head?_append]
    rfl
  · intro t ht
    rw [hmoved.last]
    rw [List.getLast?_append] at ht
    cases hts : ts.getLast? with
    | none => exact h.last t (by simpa [hts] using ht)
    | some s => simpa [hts] using congrArg (Option.map Token.span) ht

/-- A parser stands as another one does, though in front of the given tokens. -/
structure Resumes (c' c : Cursor) (tokens : List Token) : Prop where
  tokens : c'.tokens = tokens
  last : c'.last = c.last
  ids : c'.ids = c.ids

theorem Resumes.eq (h : c'.Resumes c (c.token :: rest)) :
    c' = { c with rest, fault := c'.fault } := by
  obtain ⟨token, rest', fault, last, ids⟩ := c'
  obtain ⟨htokens, rfl, rfl⟩ := h
  cases htokens
  rfl

theorem tokens_cons {t : Token} (h : c.tokens = us ++ t :: rest) (more : List Token) :
    ∃ tail, us ++ t :: more = c.token :: tail := by
  cases us with
  | nil =>
    cases h
    exact ⟨more, rfl⟩
  | cons s us =>
    obtain ⟨rfl, -⟩ := List.cons.inj h
    exact ⟨us ++ t :: more, rfl⟩

end Cursor

namespace Parser

variable {α β : Type}

/-! ## Reasons to stop -/

/-- The diagnostic about a token that cannot stand where it does. -/
def unexpected (t : Token) : Diagnostic :=
  if t.kind == .eof then .on t.span .unexpectedEnd else .on t.span (.unexpectedToken (shown t))

theorem reject_eq (c : Cursor) :
    (reject : Parser α) c = .error (.rejected (unexpected c.token)) := by
  change (if c.token.kind == .eof then _ else _ : Parser α) c = _
  unfold unexpected
  split <;> rfl

/-- The diagnostic about a literal that is out of range. -/
inductive OutOfRange (t : Token) : Diagnostic → Prop
  | integer : t.kind = .intLit → OutOfRange t (.on t.span (.integerOutOfRange t.value))
  | real : t.kind = .realLit → OutOfRange t (.on t.span (.invalidReal t.value))

/-- The diagnostics about tokens that are looked at when they have been used: an impossible size of
an array, and a name behind an END that is not the one at the opening. -/
inductive Unfit (t : Token) : Diagnostic → Prop
  | size : t.kind = .intLit → Unfit t (.on t.span (.invalidArraySize t.value))
  | name {opening : String} : t.kind = .ident → Unfit t (.on t.span (.endMismatch opening t.value))

theorem OutOfRange.not_unfit {t : Token} {d : Diagnostic} (h : OutOfRange t d) : ¬ Unfit t d := by
  cases h <;> rintro ⟨⟩

theorem unexpected_not_unfit (t : Token) : ¬ Unfit t (unexpected t) := by
  unfold unexpected
  split <;> rintro ⟨⟩

/-- Why the parser stops at a token behind others. If it is the token that cannot stand there, then
the tokens before it begin a phrase. -/
def Blames (Phrase : List Token → Prop) (used : List Token) (next : Token) (d : Diagnostic) :
    Prop :=
  (d = unexpected next ∧ Completable Phrase used) ∨ OutOfRange next d ∨ Unfit next d

/-! ## Parsers -/

/-- The relation allows a node for a phrase that has the span of the phrase, whatever its id. -/
def Spanned (R : List Token → Node → Prop) : Prop :=
  ∀ ts first last id, ts.head? = some first → ts.getLast? = some last →
    R ts ⟨id, first.span.cover last.span⟩

theorem anyNode_spanned : Spanned AnyNode := fun _ _ _ _ _ _ => trivial

def nodeOf (ts : List Token) : Node :=
  ⟨0, ((ts.head?.map Token.span).getD default).cover ((ts.getLast?.map Token.span).getD default)⟩

theorem Spanned.nodeOf {R : List Token → Node → Prop} (hR : Spanned R) {ts : List Token}
    (h : ts ≠ []) : R ts (nodeOf ts) := by
  have hfirst := List.head?_eq_some_head h
  have hlast := List.getLast?_eq_some_getLast h
  simpa [Parser.nodeOf, hfirst, hlast] using hR ts _ _ 0 hfirst hlast

/-- How a parser may come out that has used some tokens of a production. Another parser, in front of
the same tokens up to the one where the first stands at last, comes out in the same way. -/
def Halts (depth weight : Nat) (Good : List Token → Token → α → Prop) (Phrase : List Token → Prop)
    (used : List Token) (c : Cursor) (p' : Parser α) : Except ParseStop (α × Cursor) → Prop
  | .ok (a, c₁) => ∃ ts, c.Moved ts c₁ ∧ Good (used ++ ts) c₁.token a ∧
      ∀ c' rest, c'.Resumes c (ts ++ c₁.token :: rest) →
        p' c' = .ok (a, { c₁ with rest, fault := c'.fault })
  | .error (.rejected d) => (c.fault = some d ∧ p' c = .error (.rejected d)) ∨
      ∃ ts next rest, c.tokens = ts ++ next :: rest ∧ (Unfit next d → rest ≠ []) ∧
        Blames Phrase (used ++ ts) next d ∧ ∀ c' rest', (Unfit next d → rest' ≠ []) →
          c'.Resumes c (ts ++ next :: rest') → p' c' = .error (.rejected d)
  | .error .overrun => depth < 16 * (used.length + c.rest.length) + weight

/-- What the first parser does from a place inside a production, and with it the second. If it
succeeds then the tokens of the whole production are `Good` together with the next token and the
value. -/
def Reads (depth weight : Nat) (Good : List Token → Token → α → Prop) (Phrase : List Token → Prop)
    (start : Token) (used : List Token) (next : Token) (p p' : Parser α) : Prop :=
  ∀ c : Cursor, c.Stands start used next → (∀ t ∈ c.tokens, t.Writable) →
    Halts depth weight Good Phrase used c p' (p c)

/-- A parser of phrases with their trees. -/
abbrev ReadsTree (depth weight : Nat) (P : List Token → α → Prop) (start : Token)
    (used : List Token) (next : Token) (p p' : Parser α) : Prop :=
  Reads depth weight (fun ts _ a => P ts a) (Derivable P) start used next p p'

namespace Halts

variable {depth weight : Nat} {Good : List Token → Token → α → Prop}
variable {Good' : List Token → Token → β → Prop} {Phrase Phrase' : List Token → Prop}
variable {used ts : List Token} {c c₁ : Cursor} {f' : α → Parser β} {p' : Parser α}

theorem moved {a : α} {r : Except ParseStop (β × Cursor)}
    (h : Halts depth weight Good' Phrase (used ++ ts) c₁ (f' a) r) (hmoved : c.Moved ts c₁)
    (hstep : ∀ c' rest, c'.Resumes c (ts ++ c₁.token :: rest) →
      p' c' = .ok (a, { c₁ with rest, fault := c'.fault })) :
    Halts depth weight Good' Phrase used c (p' >>= f') r := by
  have resumed {c' : Cursor} {us rest rest' : List Token} {t : Token}
      (hus : c₁.tokens = us ++ t :: rest) (hc' : c'.Resumes c (ts ++ us ++ t :: rest')) :
      ∃ c₂ : Cursor, c₂.Resumes c₁ (us ++ t :: rest') ∧ c₂.fault = c'.fault ∧
        (p' >>= f') c' = f' a c₂ := by
    obtain ⟨tail, htail⟩ := Cursor.tokens_cons hus rest'
    rw [List.append_assoc, htail] at hc'
    refine ⟨{ c₁ with rest := tail, fault := c'.fault }, ⟨htail.symm, rfl, rfl⟩, rfl, ?_⟩
    exact run_bind (hstep c' tail hc')
  match r with
  | .ok (b, c₂) =>
    obtain ⟨us, hmoved', hgood, hsame⟩ := h
    refine ⟨ts ++ us, hmoved.trans hmoved', by rwa [← List.append_assoc], fun c' rest hc' => ?_⟩
    obtain ⟨c₃, hc₃, hfault, hrun⟩ := resumed hmoved'.tokens hc'
    rw [hrun, hsame c₃ rest hc₃, hfault]
  | .error (.rejected d) =>
    obtain ⟨hfault, hsame⟩ | ⟨us, next, rest, htokens, hmore, hblames, hsame⟩ := h
    · refine .inl ⟨hmoved.fault ▸ hfault, ?_⟩
      rw [run_bind (hstep c c₁.rest ⟨hmoved.tokens, rfl, rfl⟩), ← hmoved.fault]
      exact hsame
    · refine .inr ⟨ts ++ us, next, rest, ?_, hmore, ?_, fun c' rest' hmore' hc' => ?_⟩
      · rw [hmoved.tokens, htokens, List.append_assoc]
      · rwa [← List.append_assoc]
      · obtain ⟨c₂, hc₂, -, hrun⟩ := resumed htokens hc'
        rw [hrun, hsame c₂ rest' hmore' hc₂]
  | .error .overrun =>
    have hlength := hmoved.rest_length
    simp only [Halts, List.length_append] at h ⊢
    omega

/-- Where the first of two parsers stops, both do. -/
theorem stopped {depth' weight' : Nat} {stop : ParseStop}
    (h : Halts depth' weight' Good Phrase' ts c p' (.error stop))
    (hdepth : depth + weight' ≤ depth' + 16 * used.length + weight)
    (hlead : LeadsTo Phrase' Phrase used) :
    Halts depth weight Good' Phrase (used ++ ts) c (p' >>= f') (.error stop) := by
  match stop with
  | .rejected d =>
    obtain ⟨hfault, hsame⟩ | ⟨us, next, rest, htokens, hmore, hblames, hsame⟩ := h
    · exact .inl ⟨hfault, run_bind_error hsame⟩
    · refine .inr ⟨us, next, rest, htokens, hmore, ?_, fun c' rest' hmore' hc' => ?_⟩
      · rw [List.append_assoc]
        exact hblames.imp_left fun ⟨heq, hbegun⟩ => ⟨heq, hbegun.leads hlead⟩
      · exact run_bind_error (hsame c' rest' hmore' hc')
  | .overrun =>
    simp only [Halts, List.length_append] at h ⊢
    omega

theorem same {r : Except ParseStop (α × Cursor)} (h : Halts depth weight Good Phrase used c p' r)
    (hr : r ≠ .error .overrun) : p' c = r := by
  match r with
  | .ok (a, c₁) =>
    obtain ⟨ts, hmoved, -, hsame⟩ := h
    rw [hsame c c₁.rest ⟨hmoved.tokens, rfl, rfl⟩, ← hmoved.fault]
  | .error (.rejected d) =>
    obtain ⟨-, hsame⟩ | ⟨ts, next, rest, htokens, hmore, -, hsame⟩ := h
    · exact hsame
    · exact hsame c rest hmore ⟨htokens, rfl, rfl⟩
  | .error .overrun => exact absurd rfl hr

end Halts

namespace Reads

variable {depth weight : Nat} {Good : List Token → Token → α → Prop}
variable {Good' : List Token → Token → β → Prop} {Phrase Phrase' : List Token → Prop}
variable {start next : Token} {used : List Token} {a : α} {f f' : α → Parser β} {p' : Parser α}
  {depth' : Nat} {p : Parser α} {weight' : Nat} {expected : Token.Kind}

theorem pure (h : Good used next a) :
    Reads depth weight Good Phrase start used next (Pure.pure a) (Pure.pure a) := by
  intro c hc _
  refine ⟨[], .refl c, by rwa [List.append_nil, hc.token], fun c' rest hc' => ?_⟩
  rw [← hc'.eq]
  rfl

theorem known (h : Reads depth weight Good' Phrase start used next (f a) (f' a)) :
    Reads depth weight Good' Phrase start used next (Pure.pure a >>= f) (Pure.pure a >>= f') := h

theorem overrun (h : 0 < weight) :
    Reads 0 weight Good Phrase start used next Parser.overrun p' := by
  intro c _ _
  change 0 < 16 * (used.length + c.rest.length) + weight
  omega

theorem mono (hp : Reads depth' weight' Good Phrase start used next p p')
    (hdepth : depth + weight' ≤ depth' + weight) :
    Reads depth weight Good Phrase start used next p p' := by
  intro c hc hwritable
  have hhalts := hp c hc hwritable
  generalize p c = r at hhalts
  match r with
  | .ok (a, c₁) => exact hhalts
  | .error (.rejected d) => exact hhalts
  | .error .overrun =>
    simp only [Halts] at hhalts ⊢
    omega

theorem first (hp : Reads depth weight Good Phrase start used next p p') :
    Reads depth weight (fun ts next' a => Good ts next' a ∧ (ts ++ [next']).head? = some start)
      Phrase start used next p p' := by
  intro c hc hwritable
  have hhalts := hp c hc hwritable
  generalize p c = r at hhalts
  match r with
  | .ok (a, c₁) =>
    obtain ⟨ts, hmoved, hgood, hsame⟩ := hhalts
    exact ⟨ts, hmoved, ⟨hgood, (hc.moved hmoved).first⟩, hsame⟩
  | .error (.rejected d) => exact hhalts
  | .error .overrun => exact hhalts

theorem look (a : Cursor → α) (hp : ∀ c, p c = .ok (a c, c))
    (ha : ∀ c c' rest, c'.Resumes c (c.token :: rest) → a c' = a c)
    (hf : ∀ c : Cursor, c.Stands start used next → Reads depth weight Good' Phrase start used next
      (f (a c)) (f' (a c))) :
    Reads depth weight Good' Phrase start used next (p >>= f) (p >>= f') := by
  intro c hc hwritable
  have hhalts := hf c hc c hc hwritable
  rw [← List.append_nil used] at hhalts
  have hrun : (p >>= f) c = f (a c) c := run_bind (hp c)
  rw [hrun]
  refine hhalts.moved (.refl c) fun c' rest hc' => ?_
  rw [hp, ha c c' rest hc', ← hc'.eq]

theorem token {f f' : Token → Parser α}
    (h : Reads depth weight Good Phrase start used next (f next) (f' next)) :
    Reads depth weight Good Phrase start used next (Parser.token >>= f) (Parser.token >>= f') := by
  refine look Cursor.token (fun _ => rfl) (fun c c' rest hc' => ?_) fun c hc => ?_
  · rw [hc'.eq]
  · rwa [hc.token]

theorem kind {f f' : Token.Kind → Parser α}
    (h : Reads depth weight Good Phrase start used next (f next.kind) (f' next.kind)) :
    Reads depth weight Good Phrase start used next (Parser.kind >>= f) (Parser.kind >>= f') := by
  refine look (·.token.kind) (fun _ => rfl) (fun c c' rest hc' => ?_) fun c hc => ?_
  · rw [hc'.eq]
  · rwa [hc.token]

theorem count {f : Nat → α} (h : ∀ n, Good used next (f n)) :
    Reads depth weight Good Phrase start used next (do return f (← get).ids.count)
      (do return f (← get).ids.count) := by
  intro c hc _
  refine ⟨[], .refl c, by rw [List.append_nil, hc.token]; exact h _, fun c' rest hc' => ?_⟩
  have heq : c'.ids = c.ids := hc'.ids
  change Except.ok (f c'.ids.count, c') = _
  rw [heq, ← hc'.eq]

/-- A node has the span of the phrase it was made for. -/
theorem node {R : List Token → Node → Prop} {f f' : Node → Parser α} (hR : Spanned R)
    (hused : used ≠ [])
    (hf : ∀ n, R used n → Reads depth weight Good Phrase start used next (f n) (f' n)) :
    Reads depth weight Good Phrase start used next (Parser.node start.span >>= f)
      (Parser.node start.span >>= f') := by
  intro c hc hwritable
  have hlast := hc.last _ (List.getLast?_eq_some_getLast hused)
  have hfirst : used.head? = some start := by
    have := hc.first
    rw [List.head?_append, List.head?_eq_some_head hused] at this
    rw [List.head?_eq_some_head hused]
    exact this
  have hn := hR used start _ c.ids.count hfirst (List.getLast?_eq_some_getLast hused)
  rw [← hlast] at hn
  have hhalts := hf _ hn { c with ids := ⟨c.ids.count + 1⟩ }
    ⟨hc.closed, hc.token, hc.first, hc.last⟩ hwritable
  rw [← List.append_nil used] at hhalts
  refine hhalts.moved ⟨rfl, rfl, rfl⟩ fun c' rest hc' => ?_
  obtain ⟨token, rest', fault, last, ids⟩ := c'
  obtain ⟨htokens, rfl, rfl⟩ := hc'
  cases htokens
  rfl

theorem failed {span : Span} {cause : Diagnostic.Cause} (h : OutOfRange next (.on span cause)) :
    Reads depth weight Good' Phrase start used next
      (Parser.fail span cause >>= f) (Parser.fail span cause >>= f') := by
  intro c hc _
  rw [← hc.token] at h
  exact .inr ⟨[], c.token, c.rest, rfl, fun hunfit => absurd hunfit h.not_unfit, .inr (.inl h),
    fun c' rest _ _ => rfl⟩

theorem rejected (h : Completable Phrase used) :
    Reads depth weight Good' Phrase start used next (Parser.reject >>= f)
      (Parser.reject >>= f') := by
  intro c _ _
  rw [run_bind_error (reject_eq c)]
  refine .inr ⟨[], c.token, c.rest, rfl, fun hunfit => absurd hunfit (unexpected_not_unfit _),
    .inl ⟨rfl, by rwa [List.append_nil]⟩, fun c' rest _ hc' => ?_⟩
  rw [run_bind_error (reject_eq c'), hc'.eq]

/-- Giving up is right where a phrase has been begun. -/
theorem reject (h : Completable Phrase used) :
    Reads depth weight Good Phrase start used next Parser.reject Parser.reject := by
  rw [← bind_pure Parser.reject]
  exact rejected h

theorem advanceWith {f f' : Unit → Parser α} (hnext : next.kind ≠ .eof)
    (hf : ∀ (c : Cursor) (next' : Token) (rest : List Token), c.Stands start used next →
      (∀ t ∈ c.tokens, t.Writable) → c.rest = next' :: rest →
      Halts depth weight Good Phrase used c (Parser.advance >>= f')
        (f () { c with token := next', rest, last := c.token.span })) :
    Reads depth weight Good Phrase start used next (Parser.advance >>= f)
      (Parser.advance >>= f') := by
  intro c hc hwritable
  have hf (next' : Token) (rest : List Token) := hf c next' rest hc hwritable
  obtain ⟨token, rest, fault, last, ids⟩ := c
  cases rest with
  | cons next' rest => exact hf next' rest rfl
  | nil =>
    cases fault with
    | some d => exact .inl ⟨rfl, rfl⟩
    | none =>
      refine absurd (hc.closed rfl next ?_) hnext
      simpa [Cursor.tokens] using hc.token

theorem advance {f f' : Unit → Parser α} (hnext : next.kind ≠ .eof)
    (hf : ∀ next', Reads depth weight Good Phrase start (used ++ [next]) next' (f ()) (f' ())) :
    Reads depth weight Good Phrase start used next (Parser.advance >>= f)
      (Parser.advance >>= f') := by
  refine advanceWith hnext fun c next' rest hc hwritable hrest => ?_
  have hmoved : c.Moved [next] { c with token := next', rest, last := c.token.span } := by
    refine ⟨?_, rfl, ?_⟩
    · simp [Cursor.tokens, hrest, hc.token]
    · simp [hc.token]
  have hwritable' : ∀ t ∈ next' :: rest, t.Writable := by
    intro t ht
    exact hwritable t (by simp [Cursor.tokens, hrest, List.mem_cons.mp ht])
  refine (hf next' _ (hc.moved hmoved) hwritable').moved hmoved fun c' rest' hc' => ?_
  obtain ⟨token, rest₁, fault, last, ids⟩ := c'
  obtain ⟨htokens, -, rfl⟩ := hc'
  cases htokens
  unfold Parser.advance
  rw [← hc.token]

/-- A token that was used already stops the parser only if another one follows. -/
theorem refused {f f' : Unit → Parser α} {d : Diagnostic} (hnext : next.kind ≠ .eof)
    (hd : Unfit next d) (hf : ∀ c, f () c = .error (.rejected d))
    (hf' : ∀ c, f' () c = .error (.rejected d)) :
    Reads depth weight Good Phrase start used next (Parser.advance >>= f)
      (Parser.advance >>= f') := by
  refine advanceWith hnext fun c next' rest hc _ hrest => ?_
  rw [hf]
  refine .inr ⟨[], next, next' :: rest, by simp [Cursor.tokens, hrest, hc.token], by simp,
    .inr (.inr hd), fun c' rest' hmore hc' => ?_⟩
  obtain ⟨token, rest₁, fault, last, ids⟩ := c'
  obtain ⟨htokens, -, -⟩ := hc'
  cases htokens
  cases rest₁ with
  | nil => exact absurd rfl (hmore hd)
  | cons t rest' => exact hf' _

theorem wantFit {f f' : Token → Parser α} (hexpected : expected ≠ .eof)
    (hbegun : Completable Phrase used)
    (hf : next.kind = expected → next.Writable → (∃ d, Unfit next d ∧
      (∀ c, f next c = .error (.rejected d)) ∧ ∀ c, f' next c = .error (.rejected d)) ∨ ∀ next',
      Reads depth weight Good Phrase start (used ++ [next]) next' (f next) (f' next)) :
    Reads depth weight Good Phrase start used next (Parser.want expected >>= f)
      (Parser.want expected >>= f') := by
  unfold Parser.want
  simp only [bind_assoc]
  intro c hc hwritable
  have hnext : next.Writable := hwritable next (by simp [Cursor.tokens, hc.token])
  refine token ?_ c hc hwritable
  split
  · rename_i h
    have hkind : next.kind = expected := by simpa using h
    simp only [bind_assoc, pure_bind]
    obtain ⟨d, hd, hfails, hfails'⟩ | hf := hf hkind hnext
    · exact refused (hkind ▸ hexpected) hd hfails hfails'
    · exact advance (hkind ▸ hexpected) hf
  · exact rejected hbegun

theorem want {f f' : Token → Parser α} (hexpected : expected ≠ .eof)
    (hbegun : Completable Phrase used)
    (hf : next.kind = expected → next.Writable → ∀ next', Reads depth weight Good Phrase start (used
      ++ [next]) next' (f next) (f' next)) :
    Reads depth weight Good Phrase start used next (Parser.want expected >>= f)
      (Parser.want expected >>= f') :=
  wantFit hexpected hbegun fun hkind hnext => .inr (hf hkind hnext)

theorem ident {f f' : Ident → Parser α} (hbegun : Completable Phrase used)
    (hf : next.kind = .ident → next.Writable →
      ∀ next', Reads depth weight Good Phrase start (used ++ [next]) next' (f next.ident)
        (f' next.ident)) :
    Reads depth weight Good Phrase start used next (Parser.ident >>= f) (Parser.ident >>= f') := by
  unfold Parser.ident
  simp only [bind_assoc, pure_bind]
  exact want (by decide) hbegun hf

theorem endName {opening : Ident} {f f' : Unit → Parser α} (hbegun : Completable Phrase used)
    (hf : next.kind = .ident → next.value = opening.name →
      ∀ next', Reads depth weight Good Phrase start (used ++ [next]) next' (f ()) (f' ())) :
    Reads depth weight Good Phrase start used next (Parser.endName opening >>= f)
      (Parser.endName opening >>= f') := by
  unfold Parser.endName Parser.ident
  simp only [bind_assoc, pure_bind]
  refine wantFit (by decide) hbegun fun hkind _ => ?_
  split
  · exact .inl ⟨_, .name hkind, fun _ => rfl, fun _ => rfl⟩
  · rename_i h
    exact .inr (hf hkind (by simpa [Token.ident] using h))

theorem phrase {first : Token} {inner : List Token}
    (hstands : ∀ c : Cursor, c.Stands start (used ++ inner) next → c.Stands first inner next)
    (hp : Reads depth' weight' Good Phrase' first inner next p p')
    (hdepth : depth + weight' ≤ depth' + 16 * used.length + weight)
    (hgood : ∀ ts next' a, Good ts next' a → Phrase' ts) (hlead : LeadsTo Phrase' Phrase used)
    (hf : ∀ ts next' a, Good (inner ++ ts) next' a → (∀ t ∈ ts, t.Writable) →
      Completable Phrase (used ++ (inner ++ ts)) → Reads depth weight Good' Phrase start (used ++
      inner ++ ts) next' (f a) (f' a)) :
    Reads depth weight Good' Phrase start (used ++ inner) next (p >>= f) (p' >>= f') := by
  intro c hc hwritable
  have hhalts := hp c (hstands c hc) hwritable
  change Halts _ _ _ _ _ _ _ (Except.bind (p c) fun r => f r.1 r.2)
  generalize p c = r at hhalts
  match r with
  | .ok (a, c₁) =>
    obtain ⟨ts, hmoved, hts, hsame⟩ := hhalts
    have hall : ∀ t ∈ ts ++ c₁.tokens, t.Writable := hmoved.tokens ▸ hwritable
    rw [List.forall_mem_append] at hall
    have hbegun := hlead.completable (hgood _ c₁.token a hts)
    exact (hf ts c₁.token a hts hall.1 hbegun c₁ (hc.moved hmoved) hall.2).moved hmoved hsame
  | .error stop => exact hhalts.stopped hdepth hlead

theorem bindWith (hp : Reads depth' weight' Good Phrase' next [] next p p')
    (hdepth : depth + weight' ≤ depth' + 16 * used.length + weight)
    (hgood : ∀ ts next' a, Good ts next' a → Phrase' ts) (hlead : LeadsTo Phrase' Phrase used)
    (hf : ∀ ts next' a, Good ts next' a → (∀ t ∈ ts, t.Writable) → Completable Phrase (used ++ ts) →
      Reads depth weight Good' Phrase start (used ++ ts) next' (f a) (f' a)) :
    Reads depth weight Good' Phrase start used next (p >>= f) (p' >>= f') := by
  have hstands (c : Cursor) (hc : c.Stands start (used ++ []) next) : c.Stands next [] next :=
    ⟨hc.closed, hc.token, rfl, by simp⟩
  have hphrase := phrase hstands hp hdepth hgood hlead (by simpa using hf)
  rwa [List.append_nil] at hphrase

/-- A phrase within a phrase is read. -/
theorem bind {P : List Token → α → Prop} (hp : ReadsTree depth' weight' P next [] next p p')
    (hdepth : depth + weight' ≤ depth' + 16 * used.length + weight)
    (hlead : LeadsTo (Derivable P) Phrase used)
    (hf : ∀ ts next' a, P ts a → (∀ t ∈ ts, t.Writable) → Completable Phrase (used ++ ts) →
      Reads depth weight Good' Phrase start (used ++ ts) next' (f a) (f' a)) :
    Reads depth weight Good' Phrase start used next (p >>= f) (p' >>= f') :=
  bindWith hp hdepth (fun _ _ a h => ⟨a, h⟩) hlead hf

theorem extend (hp : Reads depth' weight' Good Phrase' start used next p p')
    (hdepth : depth + weight' ≤ depth' + weight)
    (hgood : ∀ ts next' a, Good ts next' a → Phrase' ts) (hlead : LeadsTo Phrase' Phrase [])
    (hf : ∀ ts next' a, Good ts next' a → Completable Phrase ts →
      Reads depth weight Good' Phrase start ts next' (f a) (f' a)) :
    Reads depth weight Good' Phrase start used next (p >>= f) (p' >>= f') :=
  phrase (fun _ hc => hc) hp hdepth hgood hlead fun ts next' a h _ hbegun =>
    hf (used ++ ts) next' a h hbegun

end Reads

end Parser

end Oberlet
