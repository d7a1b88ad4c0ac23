import Mathlib.Data.Prod.Lex
import Oberlet.Proofs.Token.Located

/-!
# The order of tokens

Places of a text are compared line by line.
-/

namespace Oberlet

/-! ## Places -/

/-- The place of a position. Lines are compared first, and then columns. -/
def Position.place (p : Position) : ℤ ×ₗ ℤ := toLex ((p.line : ℤ), (p.column : ℤ))

namespace Span

def start (s : Span) : ℤ ×ₗ ℤ := toLex (s.startLine, s.startCol)

/-- The place where a span ends. It does not belong to the span. -/
def stop (s : Span) : ℤ ×ₗ ℤ := toLex (s.endLine, s.endCol)

/-- A span lies inside another. -/
structure Inside (inner outer : Span) : Prop where
  start : outer.start ≤ inner.start
  stop : inner.stop ≤ outer.stop

def Before (s s' : Span) : Prop := s.stop ≤ s'.start

end Span

namespace Position

theorem place_lt_after (p : Position) (c : Char) : p.place < (p.after c).place := by
  rw [place, place, Prod.Lex.toLex_lt_toLex, after]
  split
  · exact .inl (by dsimp only; omega)
  · split <;> exact .inr ⟨rfl, by dsimp only; omega⟩

theorem place_le_afterAll (p : Position) (cs : List Char) : p.place ≤ (p.afterAll cs).place := by
  induction cs generalizing p with
  | nil => exact le_refl _
  | cons c cs ih => exact (p.place_lt_after c).le.trans (ih _)

theorem place_lt_afterAll (p : Position) {cs : List Char} (h : cs ≠ []) :
    p.place < (p.afterAll cs).place := by
  cases cs with
  | nil => exact absurd rfl h
  | cons c cs => exact (p.place_lt_after c).trans_le (place_le_afterAll _ cs)

end Position

/-! ## Tokens -/

/-- Tokens that are not empty, each of which ends before those behind it begin. -/
structure Successive (ts : List Token) : Prop where
  each : ∀ t ∈ ts, t.span.start < t.span.stop
  pairs : ts.Pairwise fun t u => t.span.Before u.span

theorem Successive.sublist {ts us : List Token} (h : Successive ts) (hus : us.Sublist ts) :
    Successive us :=
  ⟨fun t ht => h.each t (hus.subset ht), h.pairs.sublist hus⟩

theorem Successive.nodup_spans {ts : List Token} (h : Successive ts) : (ts.map (·.span)).Nodup := by
  refine List.pairwise_map.mpr (h.pairs.imp_of_mem fun {t u} ht _ hbefore heq => ?_)
  rw [← heq] at hbefore
  exact (h.each t ht).not_ge hbefore

/-- Each token ends where the next one begins, or before that. -/
theorem Lexed.successive {Tail : List Char → Prop} {cs : List Char} {pos : Position}
    {tokens : List Token} (h : Lexed Tail cs pos tokens) : Successive tokens := by
  induction h with
  | done => exact ⟨by simp, .nil⟩
  | @token gap text value rest kind pos tokens _ hmunches _ hrest ih =>
    refine ⟨List.forall_mem_cons.mpr ⟨?_, ih.each⟩,
      List.pairwise_cons.mpr ⟨fun u hu => ?_, ih.pairs⟩⟩
    · exact Position.place_lt_afterAll _ hmunches.lexeme.ne_nil
    · obtain ⟨front, text', back, -, -, hspan⟩ := hrest.sited u (List.mem_append_left _ hu)
      rw [Span.Before, hspan]
      exact Position.place_le_afterAll _ front

theorem TokenStream.successive {source : List Char} (h : (ofSource source).fault = none)
    {ts : List Token} {eof : Token} (hts : (ofSource source).tokens = ts ++ [eof]) :
    Successive ts := by
  obtain ⟨tokens, hlexed⟩ := lexed_of_ofSource h
  rw [ofSource_of_lexed hlexed] at hts
  obtain ⟨rfl, -⟩ := List.append_inj' hts rfl
  exact hlexed.successive

end Oberlet
