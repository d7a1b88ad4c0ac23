/-!
# Positions and spans of source text

The position of an offset is found by reading all characters before it.
-/

namespace Oberlet

/-- A line and a column, both counted from zero. -/
structure Position where
  line : Nat
  column : Nat
deriving DecidableEq, Repr

namespace Position

def origin : Position := ⟨0, 0⟩

/-- The position behind a character; a tab is four columns wide. -/
def after (p : Position) (c : Char) : Position :=
  if c == '\n' then ⟨p.line + 1, 0⟩
  else if c == '\t' then ⟨p.line, p.column + 4⟩
  else ⟨p.line, p.column + 1⟩

/-- The position behind a text. -/
def afterAll (p : Position) (cs : List Char) : Position := cs.foldl after p

@[simp] theorem afterAll_nil (p : Position) : p.afterAll [] = p := rfl

@[simp] theorem afterAll_cons (p : Position) (c : Char) (cs : List Char) :
    p.afterAll (c :: cs) = (p.after c).afterAll cs := rfl

@[simp] theorem afterAll_append (p : Position) (cs ds : List Char) :
    p.afterAll (cs ++ ds) = (p.afterAll cs).afterAll ds := by
  simp [afterAll]

end Position

/-- A range of source text: the start belongs to it, the end does not. The coordinates are integers,
so that a span that comes from elsewhere and lies outside every text is a span too. -/
structure Span where
  startLine : Int
  startCol : Int
  endLine : Int
  endCol : Int
deriving DecidableEq, Repr, Inhabited

namespace Span

def between (start stop : Position) : Span :=
  ⟨start.line, start.column, stop.line, stop.column⟩

/-- The span from the start of one to the end of another. -/
def cover (first last : Span) : Span :=
  ⟨first.startLine, first.startCol, last.endLine, last.endCol⟩

@[simp] theorem cover_between (p q r s : Position) :
    (between p q).cover (between r s) = between p s := rfl

end Span

end Oberlet
