/-!
# Classes of characters as code ranges

The ASCII part of a class is stated directly where the class is defined, so that a statement about
ASCII text never has to look into a table. The tables are those of Unicode 17.0. They say only how
the code points change between the outside and the inside of a class.
-/

namespace Oberlet.Text

/-- A class of characters as closed ranges of code points, in increasing order. -/
abbrev CodeRanges := List (Nat × Nat)

namespace CodeRanges

/-- The ranges of a class from a code point on, given by how many code points are outside and how
many are then inside of the class, in turn. -/
def ofRuns (start : Nat) : List Nat → CodeRanges
  | outside :: inside :: rest =>
    (start + outside, start + outside + inside - 1) :: ofRuns (start + outside + inside) rest
  | _ => []

def contains (ranges : CodeRanges) (code : Nat) : Bool :=
  ranges.any fun range => range.1 ≤ code && code ≤ range.2

end CodeRanges

end Oberlet.Text
