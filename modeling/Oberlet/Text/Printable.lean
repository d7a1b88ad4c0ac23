import Oberlet.Text.Letter
import Oberlet.Text.Punctuation

/-!
# Printable characters
-/

namespace Oberlet.Text

/-- The marks and the numbers outside ASCII: the general categories M and N of Unicode 17.0. -/
def markRanges : CodeRanges :=
  .ofRuns 0x80
    [50,2,5,1,2,3,577,112,275,7,263,45,1,1,1,2,1,2,1,1,72,11,48,31,6,1,101,7,2,6,2,2,1,4,2,10,23,1,
     30,27,91,11,15,10,33,9,9,1,24,4,1,9,1,3,1,5,43,3,59,9,42,24,1,33,54,3,1,18,1,7,10,2,2,10,17,3,
     56,1,1,7,2,2,2,3,9,1,10,2,2,10,4,6,4,1,2,3,56,1,1,5,4,2,2,3,3,1,20,12,3,1,11,3,56,1,1,8,1,3,1,
     3,20,2,2,10,10,6,1,3,56,1,1,7,2,2,2,3,7,3,10,2,2,10,2,6,10,1,59,5,3,3,1,4,9,1,14,13,13,5,55,1,
     1,7,1,3,1,4,7,2,11,2,2,10,8,7,2,3,56,1,1,7,1,3,1,4,7,2,11,2,2,10,3,1,12,4,55,2,1,7,1,3,1,4,9,8,
     3,2,2,19,8,3,70,1,4,6,1,1,1,8,6,10,2,2,61,1,2,7,12,8,1,10,87,1,2,9,11,7,1,10,62,2,6,20,1,1,1,1,
     1,1,4,2,49,20,1,2,5,11,1,36,9,1,100,20,1,10,12,4,4,3,1,3,2,7,3,4,13,12,1,15,703,3,9,20,881,3,
     33,4,28,3,29,2,30,2,64,32,9,1,2,10,6,10,17,3,1,11,107,2,34,1,118,12,4,12,10,10,128,11,60,5,57,
     10,1,29,2,11,6,10,22,46,2,12,20,5,47,17,11,10,17,9,12,3,30,13,2,10,44,14,48,20,8,10,6,10,118,3,
     1,21,4,1,6,1,2,3,198,64,624,1,3,6,6,10,70,33,95,51,2,5,726,60,78,22,630,30,1371,3,11,1,129,1,
     96,32,519,1,25,15,8,3,94,2,247,4,138,10,30,8,1,15,32,10,39,15,29536,10,69,4,1,10,32,2,70,12,
     272,1,3,1,4,1,23,5,4,1,3,6,74,2,50,18,10,10,6,18,13,11,28,8,25,13,44,4,47,14,15,10,11,1,10,10,
     47,14,12,1,8,2,2,10,33,3,50,1,1,3,2,2,5,2,1,1,41,5,5,2,236,8,1,2,2,10,20260,1,737,16,16,16,224,
     10,493,45,12,57,17,2,113,1,226,28,36,4,29,1,8,1,43,5,86,5,202,10,942,8,25,7,39,9,75,5,22,6,160,
     2,2,16,2,46,1,3,1,2,5,4,40,3,4,10,52,2,30,3,69,2,4,5,104,8,24,8,41,7,330,6,36,4,8,10,6,10,31,5,
     242,31,44,2,77,6,29,10,31,15,45,4,63,7,52,3,53,15,11,31,2,2,10,4,45,11,7,1,45,10,6,3,36,14,1,
     10,5,2,44,1,12,3,48,14,8,4,1,12,7,20,55,12,6,1,2,1,157,12,5,10,6,4,55,2,1,7,2,2,2,3,9,1,10,2,2,
     7,3,5,67,9,1,1,2,1,1,4,1,5,1,1,14,2,82,18,9,10,4,1,81,20,12,10,213,7,2,9,27,2,82,17,15,10,81,
     13,8,10,6,20,57,15,4,12,240,15,165,19,61,6,1,2,2,4,1,1,1,2,12,10,119,7,2,7,3,1,28,10,40,7,1,4,
     8,1,9,11,46,16,198,8,136,10,53,8,1,8,16,29,37,22,1,14,122,6,3,1,1,2,1,7,1,1,8,10,48,5,1,2,1,5,
     8,10,54,10,265,4,9,2,1,1,48,7,3,5,13,11,101,21,1067,111,4049,1,6,15,11464,28,2342,10,86,10,38,
     5,59,7,25,10,1,7,526,10,262,23,184,1,1,55,7,4,81,1,11,2,2,3,19622,2,4177,10,518,46,2,23,542,5,
     3,6,8,8,2,7,30,4,148,3,123,20,12,20,108,25,1109,50,512,55,4,50,8,1,14,1,22,5,1,15,1360,7,1,17,
     2,7,1,2,1,5,100,1,160,7,9,10,356,1,61,14,498,14,244,2,1,10,232,1,2,1,7,2,5,1,465,16,109,7,5,10,
     791,59,1,3,1,4,76,45,1,15,962,13,2787,10,787718,240]

/-- The characters that are shown as they are in a quoted text: letters, marks, numbers, punctuation
and symbols, and of the spaces the ASCII space alone. -/
def isPrintable (c : Char) : Bool :=
  if c.toNat < 0x80 then 0x20 ≤ c.toNat && c.toNat < 0x7F
  else isLetter c || isPunctuation c || markRanges.contains c.toNat

end Oberlet.Text
