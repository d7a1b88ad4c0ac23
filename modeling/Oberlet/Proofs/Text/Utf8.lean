import Oberlet.Text.Utf8

/-!
# Bytes of texts

Where bytes are read as characters, one that is a character of its own parts those before it from
those behind it.
-/

namespace Oberlet.Text.Utf8

theorem toListLoop_eq (bytes : ByteArray) (i : Nat) (before : List UInt8) :
    ByteArray.toList.loop bytes i before = before.reverse ++ bytes.data.toList.drop i := by
  fun_induction ByteArray.toList.loop bytes i before with
  | case1 i before h ih =>
    have hi : i < bytes.data.toList.length := h
    have hget : bytes.get! i = bytes.data.toList[i] := getElem!_pos bytes.data i h
    rw [ih, List.reverse_cons, List.append_assoc, List.drop_eq_getElem_cons hi, hget]
    rfl
  | case2 i before h =>
    have hi : bytes.data.toList.length ≤ i := Nat.le_of_not_lt h
    rw [List.drop_eq_nil_of_le hi, List.append_nil]

theorem encode_eq (text : String) : encode text = text.toByteArray.data.toList :=
  toListLoop_eq _ 0 []

theorem encode_append (front back : String) :
    encode (front ++ back) = encode front ++ encode back := by
  simp [encode_eq, String.toByteArray_append]

theorem encode_injective {text text' : String} (h : encode text = encode text') : text = text' := by
  rw [encode_eq, encode_eq, Array.toList_inj] at h
  exact String.toByteArray_inj.mp (ByteArray.ext h)

/-! ## Reading bytes -/

variable {b x : UInt8} {bytes rest : List UInt8} {skip : Nat}

theorem first_append (hx : x.toNat < 0x80) : first b (bytes ++ x :: rest) = first b bytes := by
  have hcontinuation : isContinuation x = false := by
    simp only [isContinuation, Bool.and_eq_false_iff, decide_eq_false_iff_not]
    omega
  have h80 : ¬ 0x80 ≤ x.toNat := by omega
  have h90 : ¬ 0x90 ≤ x.toNat := by omega
  have hA0 : ¬ 0xA0 ≤ x.toNat := by omega
  obtain _ | ⟨b₁, _ | ⟨b₂, _ | ⟨b₃, bytes⟩⟩⟩ := bytes
  · obtain _ | ⟨c, _ | ⟨d, rest⟩⟩ := rest <;> simp [first, hcontinuation, h80, h90, hA0]
  · obtain _ | ⟨c, rest⟩ := rest <;> simp [first, hcontinuation]
  · simp [first, hcontinuation]
  · rfl

theorem first_snd_le : (first b bytes).2 ≤ bytes.length := by
  obtain _ | ⟨b₁, _ | ⟨b₂, _ | ⟨b₃, bytes⟩⟩⟩ := bytes <;> simp only [first, List.length] <;>
    repeat' split
  all_goals simp

theorem toNat_of_ofNat_eq {n : Nat} {c : Char} (h : Char.ofNat n = c) (hc : c ≠ '\x00') :
    n = c.toNat := by
  by_cases hn : n.isValidChar
  · rw [Char.ofNat, dif_pos hn] at h
    exact congrArg Char.toNat h
  · rw [Char.ofNat, dif_neg hn] at h
    exact absurd h.symm hc

theorem first_ne_newline (h : b ≠ 10) : (first b bytes).1 ≠ '\n' := by
  have hb : b.toNat ≠ 10 := fun hb => h (UInt8.toNat_inj.mp hb)
  have hreplacement : replacement ≠ '\n' := by decide
  have ofNat_ne {n : Nat} (hn : n ≠ 10) : Char.ofNat n ≠ '\n' :=
    fun hchar => hn (toNat_of_ofNat_eq hchar (by decide))
  obtain _ | ⟨b₁, _ | ⟨b₂, _ | ⟨b₃, bytes⟩⟩⟩ := bytes <;> simp only [first]
  · grind
  · grind [bits]
  · grind [bits, isContinuation]
  · grind [bits, isContinuation]

theorem decodeFrom_append (hx : x.toNat < 0x80) (h : skip ≤ bytes.length) :
    decodeFrom skip (bytes ++ x :: rest) =
      decodeFrom skip bytes ++ Char.ofNat x.toNat :: decodeFrom 0 rest := by
  induction bytes generalizing skip with
  | nil =>
    obtain rfl := Nat.le_zero.mp h
    simp [decodeFrom, first, hx]
  | cons b bytes ih =>
    cases skip with
    | zero =>
      rw [List.cons_append, decodeFrom, decodeFrom, first_append hx]
      dsimp only
      rw [ih first_snd_le, List.cons_append]
    | succ skip => exact ih (Nat.le_of_succ_le_succ h)

/-- An ASCII character is read as itself, whatever stands before it. -/
theorem decode_append (hx : x.toNat < 0x80) :
    decode (bytes ++ x :: rest) = decode bytes ++ Char.ofNat x.toNat :: decode rest :=
  decodeFrom_append hx (Nat.zero_le _)

theorem decode_cons (hx : x.toNat < 0x80) :
    decode (x :: rest) = Char.ofNat x.toNat :: decode rest := by
  simp [decode, decodeFrom, first, hx]

theorem newline_notMem_decodeFrom (h : 10 ∉ bytes) : '\n' ∉ decodeFrom skip bytes := by
  induction bytes generalizing skip with
  | nil => simp [decodeFrom]
  | cons b bytes ih =>
    rw [List.mem_cons, not_or] at h
    cases skip with
    | zero =>
      rw [decodeFrom, List.mem_cons, not_or]
      exact ⟨(first_ne_newline (Ne.symm h.1)).symm, ih h.2⟩
    | succ skip => exact ih h.2

/-- Decoding keeps the lines. -/
theorem splitOn_decode (bytes : Bytes) :
    (decode bytes).splitOn '\n' = (bytes.splitOn 10).map decode := by
  by_cases h : 10 ∈ bytes
  · obtain ⟨front, rest, rfl⟩ := List.append_of_mem h
    rw [decode_append (by decide), List.splitOn_append_cons_self, List.map_append,
      ← splitOn_decode front, ← splitOn_decode rest]
    exact List.splitOn_append_cons_self _ _
  · have hdecoded : '\n' ∉ decode bytes := newline_notMem_decodeFrom h
    rw [List.splitOn_eq_singleton h, List.splitOn_eq_singleton hdecoded]
    rfl
termination_by bytes.length

end Oberlet.Text.Utf8
