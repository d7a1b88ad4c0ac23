/-!
# Characters of a byte sequence
-/

namespace Oberlet

abbrev Bytes := List UInt8

namespace Text.Utf8

def isContinuation (b : UInt8) : Bool := 0x80 ≤ b.toNat && b.toNat ≤ 0xBF

def bits (b : UInt8) : Nat := b.toNat % 0x40

/-- What a byte that begins no well-formed sequence is read as. -/
def replacement : Char := Char.ofNat 0xFFFD

/-- The character at the beginning of a byte sequence, and the number of bytes behind the first
that belong to it. -/
def first (b : UInt8) (rest : List UInt8) : Char × Nat :=
  let n := b.toNat
  if n < 0x80 then (Char.ofNat n, 0)
  else match rest with
  | [] => (replacement, 0)
  | b1 :: rest =>
    if 0xC2 ≤ n && n ≤ 0xDF && isContinuation b1 then
      (Char.ofNat (n % 0x20 * 0x40 + bits b1), 1)
    else match rest with
    | [] => (replacement, 0)
    | b2 :: rest =>
      let m := b1.toNat
      let second := if n == 0xE0 then 0xA0 ≤ m && m ≤ 0xBF
        else if n == 0xED then 0x80 ≤ m && m ≤ 0x9F
        else 0xE0 ≤ n && n ≤ 0xEF && isContinuation b1
      if second && isContinuation b2 then
        (Char.ofNat (n % 0x10 * 0x1000 + bits b1 * 0x40 + bits b2), 2)
      else match rest with
      | [] => (replacement, 0)
      | b3 :: _ =>
        let second := if n == 0xF0 then 0x90 ≤ m && m ≤ 0xBF
          else if n == 0xF4 then 0x80 ≤ m && m ≤ 0x8F
          else 0xF1 ≤ n && n ≤ 0xF3 && isContinuation b1
        if second && isContinuation b2 && isContinuation b3 then
          (Char.ofNat (n % 0x08 * 0x40000 + bits b1 * 0x1000 + bits b2 * 0x40 + bits b3), 3)
        else (replacement, 0)

/-- The characters of bytes, of which the first `skip` belong to one that was read. -/
def decodeFrom (skip : Nat) : List UInt8 → List Char
  | [] => []
  | b :: rest =>
    match skip with
    | skip + 1 => decodeFrom skip rest
    | 0 =>
      let (c, more) := first b rest
      c :: decodeFrom more rest

/-- Reads bytes as UTF-8. A byte that begins no well-formed sequence is read alone, and reading goes
on with the byte behind it. -/
def decode (bytes : Bytes) : List Char := decodeFrom 0 bytes

def encode (text : String) : Bytes := text.toUTF8.toList

def text (bytes : Bytes) : String := String.ofList (decode bytes)

end Text.Utf8

end Oberlet
