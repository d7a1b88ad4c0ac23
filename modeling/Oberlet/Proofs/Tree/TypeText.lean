import Oberlet.Proofs.Tree.Accepted

/-!
# Types and their texts
-/

namespace Oberlet

open TokenStream

theorem Decimal.ofDigits_toString (n : Nat) : ofDigits (toString n).toList = n := by
  change Nat.ofDigitChars 10 n.repr.toList 0 = n
  rw [Nat.toList_repr, Nat.ofDigitChars_toDigits (by decide) (by decide)]

theorem digits_toString (n : Nat) : Digits (toString n).toList := by
  have hlist : (toString n).toList = Nat.toDigits 10 n := Nat.toList_repr
  rw [hlist]
  exact ⟨Nat.toDigits_ne_nil, fun c hc => Nat.isDigit_of_mem_toDigits (by decide) (by decide) hc⟩

namespace DataType

variable {t : DataType}

/-- The words that a type is written in, with the spacing behind each. -/
def words : DataType → List (Word × List Char)
  | integer => [(⟨.integerKw, "INTEGER".toList⟩, [])]
  | real => [(⟨.realKw, "REAL".toList⟩, [])]
  | string => [(⟨.stringKw, "STRING".toList⟩, [])]
  | boolean => [(⟨.booleanKw, "BOOLEAN".toList⟩, [])]
  | array size elem => (⟨.arrayKw, "ARRAY".toList⟩, [' ']) ::
      (⟨.intLit, (toString size).toList⟩, [' ']) :: (⟨.ofKw, "OF".toList⟩, [' ']) :: words elem
  | void => []
  | unknown => []

theorem Proper.words_ne_nil (h : t.Proper) : t.words ≠ [] := by
  cases t <;> first | exact h.elim | simp [words]

theorem Proper.render_words (h : t.Proper) : render t.words = t.text.toList := by
  induction t with
  | array size elem ih =>
    rw [words, render, render, render, ih h.2]
    simp [text, Word.text]
  | void => exact h.elim
  | unknown => exact h.elim
  | _ => rfl

theorem Proper.words_valid (h : t.Proper) : ∀ pair ∈ t.words, pair.1.Valid ∧ Spacing pair.2 := by
  have hblank : Spacing [' '] := .blank rfl .nil
  induction t with
  | array size elem ih =>
    obtain ⟨n, rfl⟩ := Int.eq_ofNat_of_zero_le h.1.1.le
    refine List.forall_mem_cons.mpr ⟨⟨.inr (.fixed rfl), hblank⟩, List.forall_mem_cons.mpr ⟨?_,
      List.forall_mem_cons.mpr ⟨⟨.inr (.fixed rfl), hblank⟩, ih h.2⟩⟩⟩
    exact ⟨.inr (.integer (digits_toString n)), hblank⟩
  | void => exact h.elim
  | unknown => exact h.elim
  | _ => exact List.forall_mem_singleton.mpr ⟨.inr (.fixed rfl), .nil⟩

theorem Proper.words_spaced (h : t.Proper) : ∀ pair ∈ t.words.dropLast, pair.2 ≠ [] := by
  induction t with
  | array size elem ih =>
    rw [words, List.dropLast_cons_of_ne_nil (by simp), List.dropLast_cons_of_ne_nil (by simp),
      List.dropLast_cons_of_ne_nil h.2.words_ne_nil]
    simpa using ih h.2
  | void => exact h.elim
  | unknown => exact h.elim
  | _ => simp [words]

theorem Proper.isType (h : t.Proper) {ts : List Token}
    (hts : ts.map (fun t => (t.kind, t.value.toList)) =
      t.words.map fun pair => (pair.1.kind, pair.1.value)) : IsType ts t := by
  induction t generalizing ts with
  | integer =>
    obtain ⟨t, rfl, ht⟩ := List.map_eq_singleton_iff.mp hts
    exact .integer (Prod.mk.inj ht).1
  | real =>
    obtain ⟨t, rfl, ht⟩ := List.map_eq_singleton_iff.mp hts
    exact .real (Prod.mk.inj ht).1
  | string =>
    obtain ⟨t, rfl, ht⟩ := List.map_eq_singleton_iff.mp hts
    exact .string (Prod.mk.inj ht).1
  | boolean =>
    obtain ⟨t, rfl, ht⟩ := List.map_eq_singleton_iff.mp hts
    exact .boolean (Prod.mk.inj ht).1
  | array size elem ih =>
    obtain ⟨⟨hpos, hmax⟩, helem⟩ := h
    obtain ⟨n, rfl⟩ := Int.eq_ofNat_of_zero_le hpos.le
    obtain ⟨t, _, rfl, ht, hts⟩ := List.map_eq_cons_iff.mp hts
    obtain ⟨number, _, rfl, hnumber, hts⟩ := List.map_eq_cons_iff.mp hts
    obtain ⟨t₁, ts, rfl, ht₁, hts⟩ := List.map_eq_cons_iff.mp hts
    have hvalue : Decimal.ofDigits number.value.toList = n := by
      rw [(Prod.mk.inj hnumber).2]
      exact Decimal.ofDigits_toString n
    have harray := IsType.array (Prod.mk.inj ht).1 (Prod.mk.inj hnumber).1
      (by rw [hvalue]; exact Int.ofNat_lt.mp hpos)
      (by rw [hvalue]; exact Nat.lt_succ_of_le (Int.ofNat_le.mp hmax)) (Prod.mk.inj ht₁).1
        (ih helem hts)
    rwa [hvalue] at harray
  | void => exact h.elim
  | unknown => exact h.elim

/-- The text of a type can be read back. -/
theorem Proper.dataType_text (h : t.Proper) : ∃ c c',
    (ofSource t.text.toList).fault = none ∧
      (ofSource t.text.toList).cursor = .ok c ∧
      Parser.dataType (ofSource t.text.toList).depth c = .ok (t, c') ∧
      c'.token.kind = .eof ∧ c'.rest = [] := by
  obtain ⟨ts, hlexed, hmap⟩ := lexed_render h.words_valid h.words_spaced .origin
  rw [h.render_words] at hlexed
  have hdelimited := ofSource_delimited t.text.toList
  have hstream := ofSource_of_lexed hlexed
  generalize ofSource t.text.toList = stream at hdelimited hstream
  have hne : stream.tokens ≠ [] := by simp [hstream]
  obtain ⟨c, hc⟩ := exists_cursor hne
  have htokens := (cursor_ok hc).1
  have hbound : Parser.dataType stream.depth c ≠ .error .overrun := by
    refine (Parser.Halts.settled (@Parser.dataType_reads 0 _ c.token c
      (cursor_stands hdelimited hc) (htokens ▸ hdelimited.writable)) ?_).1
    rw [depth, ← htokens, Cursor.tokens, List.length_cons, List.length_nil]
    omega
  obtain hoverrun | ⟨_, c', hread, hrest, rfl⟩ := Parser.dataType_yields stream.depth
    (h.isType hmap) (List.cons_ne_nil _ []) c (htokens.trans (by rw [hstream]))
  · exact absurd hoverrun hbound
  · obtain ⟨htoken, hnil⟩ := List.cons.inj hrest
    exact ⟨c, c', by rw [hstream], hc, hread, by rw [htoken, Token.atEnd], hnil⟩

theorem Proper.text_ne_void (h : t.Proper) : t.text ≠ "VOID" := by
  cases t with
  | array size elem =>
    intro htext
    simpa [text] using congrArg (·.toList.head?) htext
  | void => exact h.elim
  | unknown => exact h.elim
  | _ => decide

/-- Different types have different texts. -/
theorem Proper.eq_of_text_eq {a b : DataType} (ha : a.Proper) (hb : b.Proper)
    (h : a.text = b.text) : a = b := by
  -- The parser cannot return both for the one text.
  obtain ⟨c, c', -, hc, hread, -⟩ := ha.dataType_text
  obtain ⟨d, d', -, hd, hread', -⟩ := hb.dataType_text
  rw [h, hd] at hc
  cases hc
  rw [h, hread'] at hread
  cases hread
  rfl

end DataType

/-- A type that can be declared is read back from its text, of which nothing is left; and among
these types and the missing result, the same text is that of the same type. -/
theorem type_text_faithful :
    (∀ t : DataType, t.Proper → ∃ c c',
      (TokenStream.ofSource t.text.toList).fault = none ∧
        (TokenStream.ofSource t.text.toList).cursor = .ok c ∧
        Parser.dataType (TokenStream.ofSource t.text.toList).depth c = .ok (t, c') ∧
        c'.token.kind = .eof ∧ c'.rest = []) ∧
      ∀ a b : DataType, a.ProperResult → b.ProperResult → (a = b ↔ a.text = b.text) := by
  refine ⟨fun t ht => ht.dataType_text, fun a b ha hb => ⟨congrArg DataType.text, fun h => ?_⟩⟩
  obtain rfl | ha := ha
  · obtain rfl | hb := hb
    · rfl
    · exact absurd h.symm hb.text_ne_void
  · obtain rfl | hb := hb
    · exact absurd h ha.text_ne_void
    · exact ha.eq_of_text_eq hb h

/-- An array of the largest size, in an array. -/
def nestedArray : DataType := .array 3 (.array 9223372036854775807 .real)

theorem nestedArray_text_faithful : (∃ c c',
    (TokenStream.ofSource nestedArray.text.toList).fault = none ∧
      (TokenStream.ofSource nestedArray.text.toList).cursor = .ok c ∧
      Parser.dataType (TokenStream.ofSource nestedArray.text.toList).depth c =
        .ok (nestedArray, c') ∧
      c'.token.kind = .eof ∧ c'.rest = []) ∧ (nestedArray = .void ↔ nestedArray.text = "VOID") :=
  have hproper : nestedArray.Proper := ⟨by decide, by decide, trivial⟩
  ⟨type_text_faithful.1 _ hproper, type_text_faithful.2 _ .void (.inr hproper) (.inl rfl)⟩

end Oberlet
