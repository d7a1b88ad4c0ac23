import Oberlet.Proofs.Lowering.Symbols
import Oberlet.Proofs.Text.Utf8

/-!
# Interned strings
-/

namespace Oberlet

open Llvm Lowering Lower

namespace Llvm

/-- The value of a hexadecimal digit. -/
def hexDigit? (c : Char) : Option Nat :=
  if c.isDigit then some (c.toNat - '0'.toNat)
  else if 'A' ≤ c ∧ c ≤ 'F' then some (c.toNat - 'A'.toNat + 10) else none

/-- The byte that characters between quotes stand for: one that is written as it is, or by two
hexadecimal digits behind a backslash. -/
def readByte? : List Char → Option UInt8
  | [c] => if c = '\\' ∨ c = '"' then none else some (UInt8.ofNat c.toNat)
  | ['\\', high, low] => do return UInt8.ofNat (16 * (← hexDigit? high) + (← hexDigit? low))
  | _ => none

def readBytes? : List Char → Option (List UInt8)
  | [] => some []
  | '\\' :: high :: low :: rest => do
    return (← readByte? ['\\', high, low]) :: (← readBytes? rest)
  | c :: rest => do return (← readByte? [c]) :: (← readBytes? rest)

theorem readByte?_quotedByte (b : UInt8) : readByte? (quotedByte b).toList = some b := by
  have hall : ∀ n < 256, readByte? (quotedByte (UInt8.ofNat n)).toList = some (UInt8.ofNat n) := by
    decide +kernel
  have hb := hall b.toNat b.toNat_lt
  rwa [UInt8.ofNat_toNat] at hb

theorem readBytes?_append {cs : List Char} {b : UInt8} (h : readByte? cs = some b)
    (rest : List Char) : readBytes? (cs ++ rest) = (readBytes? rest).map (b :: ·) := by
  have hread : readBytes? (cs ++ rest) = (do return (← readByte? cs) :: (← readBytes? rest)) := by
    unfold readByte? at h
    split at h
    · rename_i c
      have hplain : c ≠ '\\' := by
        rintro rfl
        simp at h
      rw [List.singleton_append, readBytes?]
      exact fun _ _ _ hc => (hplain hc).elim
    · rfl
    · cases h
  rw [hread, h]
  cases readBytes? rest <;> rfl

/-- The text of a constant in the target language can be read back. -/
theorem readBytes?_quotedBytes (bytes : List UInt8) :
    readBytes? (String.join (bytes.map quotedByte)).toList = some bytes := by
  induction bytes with
  | nil => rfl
  | cons b rest ih =>
    rw [List.map_cons, String.join_cons, String.toList_append,
      readBytes?_append (readByte?_quotedByte b), ih]
    rfl

theorem toUTF8_push_nul (text : String) :
    (text.push (Char.ofNat 0)).toUTF8.toList = text.toUTF8.toList ++ [0] := by
  have hnul : Text.Utf8.encode (String.singleton (Char.ofNat 0)) = [0] := Text.Utf8.encode_eq _
  rw [String.push_eq_append]
  exact (Text.Utf8.encode_append text _).trans (by rw [hnul]; rfl)

theorem Global.text_str (index : Nat) (content : String) : ∃ literal : String,
    (Global.str index content).text = "@str." ++ toString index ++
      " = private unnamed_addr constant " ++ (Ty.array (content.utf8ByteSize + 1) .i8).text ++
        " c\"" ++ literal ++ "\"\n" ∧
    readBytes? literal.toList = some (content.toUTF8.toList ++ [0]) := by
  rw [← toUTF8_push_nul]
  refine ⟨_, ?_, readBytes?_quotedBytes _⟩
  simp [Global.text, quoted, toString, ← String.toList_inj]

end Llvm

end Oberlet
