/-!
# Paths
-/

namespace Oberlet

/-- A path in its clean form: a list of names, with `..` only at the beginning of a relative one. -/
structure Path where
  absolute : Bool
  parts : List String
deriving DecidableEq, Repr

namespace Path

/-- The names between slashes. -/
def split (text : String) : List String := (text.toList.splitOn '/').map String.ofList

/-- Puts a name behind the names read so far, which are given from the last to the first. -/
def push (absolute : Bool) (read : List String) (part : String) : List String :=
  if part == "" || part == "." then read
  else if part == ".." then
    match read with
    | [] => if absolute then [] else [".."]
    | last :: rest => if last == ".." then ".." :: read else rest
  else part :: read

/-- The clean form: empty names and `.` are left out, and `..` cancels the name before it; nothing
is above the root. -/
def normalize (absolute : Bool) (parts : List String) : List String :=
  (parts.foldl (push absolute) []).reverse

def isAbsoluteText (text : String) : Bool := text.toList.head? == some '/'

def ofText (text : String) : Path :=
  let absolute := isAbsoluteText text
  ⟨absolute, normalize absolute (split text)⟩

def text (p : Path) : String :=
  let names := "/".intercalate p.parts
  if p.absolute then "/" ++ names else if p.parts.isEmpty then "." else names

/-- A path that goes on with a text. -/
def join (p : Path) (text : String) : Path :=
  ⟨p.absolute, normalize p.absolute (p.parts ++ split text)⟩

def child (p : Path) (name : String) : Path := ⟨p.absolute, p.parts ++ [name]⟩

/-- A path as it is seen from a working directory. -/
def resolve (workDir : Path) (text : String) : Path :=
  if isAbsoluteText text then ofText text else workDir.join text

def parent (p : Path) : Path := ⟨p.absolute, p.parts.dropLast⟩

def name (p : Path) : String :=
  p.parts.getLast?.getD (if p.absolute then "/" else ".")

def dropCommon : List String → List String → List String × List String
  | a :: as, b :: bs => if a == b then dropCommon as bs else (a :: as, b :: bs)
  | as, bs => (as, bs)

/-- A path as seen from `base`. There is none if it would have to name a directory above a
relative base. -/
def relativeTo? (target base : Path) : Option Path :=
  if target.absolute != base.absolute then none
  else
    let (up, down) := dropCommon base.parts target.parts
    if up.head? == some ".." then none
    else some ⟨false, up.map (fun _ => "..") ++ down⟩

end Path

end Oberlet
