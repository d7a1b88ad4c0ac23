import Oberlet.Markdown.Block

/-!
# Test cases in documents
-/

namespace Oberlet.Markdown

/-- What is expected of a program. -/
inductive AssertionKind
  /-- The diagnostics of the program, one in a line, or `none`. -/
  | errors
  /-- Lines that are in the generated code. -/
  | irContains
  /-- Lines that are not in the generated code. -/
  | irNotContains
deriving DecidableEq, Repr

namespace AssertionKind

def language : AssertionKind → String
  | errors => "errors"
  | irContains => "ir-contains"
  | irNotContains => "ir-not-contains"

def ofLanguage? (language : String) : Option AssertionKind :=
  [errors, irContains, irNotContains].find? (·.language == language)

end AssertionKind

def programLanguage : String := "beb-program"

structure Assertion where
  kind : AssertionKind
  /-- The lines of the fence that are not blank, without white space around them. -/
  lines : List String
  /-- The number of the line where the content of the fence begins. -/
  line : Nat
deriving DecidableEq, Repr

/-- A program and what is expected of it. -/
structure TestCase where
  name : String
  program : String
  assertions : List Assertion
deriving DecidableEq, Repr

/-- Why a document describes no test cases. -/
inductive TestCaseError
  | noProgram (name : String)
  | noAssertions (name : String)
  | fenceOutside (line : Nat) (language : String)
  | unknownFence (line : Nat) (language name : String)
  | secondProgram (line : Nat) (name : String)
deriving DecidableEq, Repr

def TestCaseError.message : TestCaseError → String
  | noProgram name => s!"test `{name}` has no {programLanguage} fence"
  | noAssertions name => s!"test `{name}` has no assertion fences"
  | fenceOutside line language => s!"line {line}: `{language}` fence outside of a test case"
  | unknownFence line language name =>
    s!"line {line}: unknown fence `{language}` in test `{name}`"
  | secondProgram line name => s!"line {line}: test `{name}` has multiple programs"

namespace TestCase

def named (name : String) : TestCase := ⟨name, "", []⟩

/-- A case has a program and an assertion. -/
def finished (case : TestCase) : Except TestCaseError TestCase :=
  if case.program.isEmpty then .error (.noProgram case.name)
  else if case.assertions.isEmpty then .error (.noAssertions case.name)
  else .ok case

/-- The case that a heading `Test: name` begins. -/
def ofHeading? (text : String) : Option TestCase :=
  let chars := text.toList
  if "Test: ".toList.isPrefixOf chars then
    some (named (String.ofList (Text.trim (chars.drop "Test: ".length))))
  else none

def expectations (content : String) : List String :=
  ((content.toList.splitOn '\n').map fun line => String.ofList (Text.trim line)).filter
    (!·.isEmpty)

/-- Adds the program or an assertion to a case. -/
def addFence (case : TestCase) (fence : Fence) : Except TestCaseError TestCase :=
  match AssertionKind.ofLanguage? fence.language with
  | some kind =>
    .ok { case with
      assertions := case.assertions ++ [⟨kind, expectations fence.content, fence.line⟩] }
  | none =>
    if fence.language != programLanguage then
      .error (.unknownFence fence.line fence.language case.name)
    else if !case.program.isEmpty then .error (.secondProgram fence.line case.name)
    else .ok { case with program := fence.content }

/-- Reads blocks. `done` are the cases that are finished, and `current` is the one that the blocks
belong to. -/
def collect (done : List TestCase) (current : Option TestCase) :
    List Block → Except TestCaseError (List TestCase)
  | [] => match current with
    | some case => do return done ++ [← case.finished]
    | none => .ok done
  | .heading text :: rest =>
    match ofHeading? text, current with
    | none, _ => collect done current rest
    | some next, none => collect done (some next) rest
    | some next, some case => do collect (done ++ [← case.finished]) (some next) rest
  | .fence fence :: rest =>
    if fence.language.isEmpty then collect done current rest
    else match current with
      | none => .error (.fenceOutside fence.line fence.language)
      | some case => do collect done (some (← case.addFence fence)) rest

end TestCase

/-- The test cases that a document describes. Fences without a language are prose. -/
def testCases (document : String) : Except TestCaseError (List TestCase) :=
  TestCase.collect [] none (blocks document.toList)

end Oberlet.Markdown
