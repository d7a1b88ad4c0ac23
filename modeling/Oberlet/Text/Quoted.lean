import Oberlet.Text.Printable

/-!
# Quoted text
-/

namespace Oberlet.Text

/-- A number in at least so many hexadecimal digits. -/
def hexPadded (upper : Bool) (width n : Nat) : String :=
  let digits := Nat.toDigits 16 n
  let digits := if upper then digits.map Char.toUpper else digits
  String.ofList (List.replicate (width - digits.length) '0' ++ digits)

namespace Quoted

/-- Printable characters are shown as they are, a few control characters by their letter, and
everything else by its code: two digits below 0x80, four below 0x10000, eight above. -/
def char (c : Char) : String :=
  if c == '"' then "\\\""
  else if c == '\\' then "\\\\"
  else if isPrintable c then c.toString
  else if c.toNat == 0x07 then "\\a"
  else if c.toNat == 0x08 then "\\b"
  else if c.toNat == 0x0C then "\\f"
  else if c.toNat == 0x0A then "\\n"
  else if c.toNat == 0x0D then "\\r"
  else if c.toNat == 0x09 then "\\t"
  else if c.toNat == 0x0B then "\\v"
  else if c.toNat < 0x80 then "\\x" ++ hexPadded false 2 c.toNat
  else if c.toNat < 0x10000 then "\\u" ++ hexPadded false 4 c.toNat
  else "\\U" ++ hexPadded false 8 c.toNat

/-- A text as it is shown in a message. -/
def text (s : String) : String :=
  "\"" ++ String.join (s.toList.map char) ++ "\""

end Quoted

end Oberlet.Text
