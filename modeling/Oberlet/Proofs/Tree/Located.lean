import Oberlet.Proofs.Token.Located
import Oberlet.Proofs.Tree.Earliest
import Oberlet.Proofs.Tree.Within

/-!
# Spans of a tree
-/

namespace Oberlet

/-! ## Spans of phrases -/

/-- The node has the span of the phrase. -/
def Covers (ts : List Token) (n : Node) : Prop :=
  ∃ first last, ts.head? = some first ∧ ts.getLast? = some last ∧
    n.span = first.span.cover last.span

theorem covers_spanned : Parser.Spanned Covers :=
  fun _ first last _ hfirst hlast => ⟨first, last, hfirst, hlast, rfl⟩

section

variable {source : List Char} {ts us : List Token} {n m : Node}

/-- The spans of the phrases of a text lie in the text. -/
theorem Covers.sited (h : Covers ts n) (hrow : Row source ts) : n.span.Sited .origin source := by
  obtain ⟨first, last, hfirst, hlast, hspan⟩ := h
  obtain ⟨us, rfl⟩ := List.head?_eq_some_iff.mp hfirst
  rw [hspan]
  rcases List.eq_nil_or_concat us with rfl | ⟨front, t, rfl⟩
  · cases hlast
    exact hrow.each first (by simp)
  · obtain rfl : t = last := by simpa [List.getLast?_cons] using hlast
    exact (List.pairwise_cons.mp hrow.pairs).1 t (by simp)

theorem Covers.joined (h : Covers ts n) (h' : Covers us m) (hrow : Row source (ts ++ us)) :
    (n.span.cover m.span).Sited .origin source := by
  obtain ⟨first, last, hfirst, -, hspan⟩ := h
  obtain ⟨first', last', -, hlast', hspan'⟩ := h'
  have hcover : n.span.cover m.span = first.span.cover last'.span := by rw [hspan, hspan']; rfl
  rw [hcover]
  exact (List.pairwise_append.mp hrow.pairs).2.2 first (List.mem_of_head? hfirst) last'
    (List.mem_of_getLast? hlast')

/-- Errors that the parser finds lie in the text. -/
theorem Program.sited_of_parse {d : Diagnostic} (h : Program.parse source = .error d) :
    d.Sited .origin source := by
  have hrow := TokenStream.row source
  obtain hfault | ⟨front, t, back, htokens, hblames, -⟩ := Program.stopped h
  · exact TokenStream.sited_of_fault hfault
  rw [htokens] at hrow
  have hnext := hrow.each t (by simp)
  obtain ⟨rfl, -⟩ | hrange | hunfit := hblames
  · rw [Parser.unexpected]
    split <;> exact .on hnext _
  · cases hrange with
    | integer => exact .on hnext _
    | real => exact .on hnext _
  · cases hunfit with
    | size => exact .on hnext _
    | name => exact .on hnext _

end

end Oberlet
