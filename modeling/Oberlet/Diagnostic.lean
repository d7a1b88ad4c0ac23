import Oberlet.Symbol.Basic
import Oberlet.Tree.Operator

/-!
# Diagnostics

A diagnostic says what is wrong with a source text and where.
-/

namespace Oberlet

namespace Diagnostic

/-- The classes of diagnostics. -/
inductive Kind
  | syntaxError
  | unexpectedEof
  | duplicateSymbol
  | undefinedSymbol
  | wrongSymbolKind
  | typeMismatch
  | invalidConditionType
  | arityMismatch
  | notAnArray
  | nonIntegerIndex
  | exitOutsideLoop
  | invalidReturnType
  | subprogramAlreadyDefined
deriving DecidableEq, Repr

namespace Kind

def text : Kind → String
  | syntaxError => "SyntaxError"
  | unexpectedEof => "UnexpectedEOF"
  | duplicateSymbol => "DuplicateSymbol"
  | undefinedSymbol => "UndefinedSymbol"
  | wrongSymbolKind => "WrongSymbolKind"
  | typeMismatch => "TypeMismatch"
  | invalidConditionType => "InvalidConditionType"
  | arityMismatch => "ArityMismatch"
  | notAnArray => "NotAnArray"
  | nonIntegerIndex => "NonIntegerIndex"
  | exitOutsideLoop => "ExitOutsideLoop"
  | invalidReturnType => "InvalidReturnType"
  | subprogramAlreadyDefined => "SubprogramAlreadyDefined"

/-- The classes in the order of their numbers. -/
def all : List Kind :=
  [syntaxError, unexpectedEof, duplicateSymbol, undefinedSymbol, wrongSymbolKind, typeMismatch,
   invalidConditionType, arityMismatch, notAnArray, nonIntegerIndex, exitOutsideLoop,
   invalidReturnType, subprogramAlreadyDefined]

/-- The name of the class with a given number; a number that has no class names itself. -/
def textOfNumber (n : Int) : String :=
  match if n < 0 then none else all[n.toNat]? with
  | some kind => kind.text
  | none => "ErrorKind(" ++ toString n ++ ")"

end Kind

/-- What is wrong: every way in which a text can fail to be a module. -/
inductive Cause
  | unreadable (reason : String)
  | unknownRune (text : String)
  | incompleteNumber
  | unclosedString
  | newlineInString
  | missingEscape
  | unknownEscape (c : Char)
  | unclosedComment
  | unexpectedToken (text : String)
  | unexpectedEnd
  | invalidArraySize (text : String)
  | integerOutOfRange (text : String)
  | invalidReal (text : String)
  | endMismatch (opening closing : String)
  | duplicateName (name : String)
  | duplicateBuiltin (name : String) (kind : Symbol.Kind)
  | undefinedName (name : String)
  | notAVariable (name : String) (kind : Symbol.Kind)
  | notASubprogram (name : String) (kind : Symbol.Kind)
  | arrayResult (name : String) (result : DataType)
  | alreadyDefined (name : String)
  | signatureMismatch (name : String)
  | cannotAssign (source target : DataType)
  | cannotReturn (value : DataType) (name : String) (expected : DataType)
  | badCondition (type : DataType)
  | exitOutsideLoop
  | badOperand (op : Operator) (type : DataType)
  | cannotCompare (left right : DataType)
  | cannotNegate (type : DataType)
  | mismatchedOperands (op : BinOp) (left right : DataType)
  | badIndex (type : DataType)
  | notAnArray (type : DataType)
  | wrongArity (name : String) (expected actual : Nat)
  | badArgument (type : DataType) (index : Nat) (name : String) (expected : DataType)
  | noValue (name : String)
deriving DecidableEq, Repr

namespace Cause

def kind : Cause → Kind
  | unclosedString => .unexpectedEof
  | missingEscape => .unexpectedEof
  | unclosedComment => .unexpectedEof
  | unexpectedEnd => .unexpectedEof
  | duplicateName _ => .duplicateSymbol
  | duplicateBuiltin _ _ => .duplicateSymbol
  | undefinedName _ => .undefinedSymbol
  | notAVariable _ _ => .wrongSymbolKind
  | notASubprogram _ _ => .wrongSymbolKind
  | arrayResult _ _ => .invalidReturnType
  | alreadyDefined _ => .subprogramAlreadyDefined
  | signatureMismatch _ => .typeMismatch
  | cannotAssign _ _ => .typeMismatch
  | cannotReturn _ _ _ => .typeMismatch
  | badCondition _ => .invalidConditionType
  | exitOutsideLoop => .exitOutsideLoop
  | badOperand _ _ => .typeMismatch
  | cannotCompare _ _ => .typeMismatch
  | cannotNegate _ => .typeMismatch
  | mismatchedOperands _ _ _ => .typeMismatch
  | badIndex _ => .nonIntegerIndex
  | notAnArray _ => .notAnArray
  | wrongArity _ _ _ => .arityMismatch
  | badArgument _ _ _ _ => .typeMismatch
  | noValue _ => .typeMismatch
  | _ => .syntaxError

/-- The wording of a cause. -/
def message : Cause → String
  | unreadable reason => s!"failed to read source: {reason}"
  | unknownRune text => s!"unknown rune: `{text}`"
  | incompleteNumber => "incomplete numeric literal"
  | unclosedString => "unclosed string literal"
  | newlineInString => "string literal cannot contain a newline"
  | missingEscape => "expected escape sequence not end of file"
  | unknownEscape c => s!"unknown escape sequence: `\\{c}`"
  | unclosedComment => "unclosed comment"
  | unexpectedToken text => s!"unexpected token: `{text}`"
  | unexpectedEnd => "unexpected end of file"
  | invalidArraySize text => s!"invalid array size: `{text}`"
  | integerOutOfRange text => s!"integer literal out of range: `{text}`"
  | invalidReal text => s!"invalid real literal: `{text}`"
  | endMismatch opening closing => s!"expected `END {opening}` but got `END {closing}`"
  | duplicateName name => s!"multiple symbols with name `{name}` declared in scope"
  | duplicateBuiltin name kind => s!"`{name}` is already defined as a built-in {kind.text}"
  | undefinedName name => s!"undefined symbol: `{name}`"
  | notAVariable name kind => s!"`{name}` is a {kind.text}, not a variable"
  | notASubprogram name kind => s!"`{name}` is a {kind.text}, not a subprogram"
  | arrayResult name result => s!"subprogram `{name}` cannot return an array: {result.text}"
  | alreadyDefined name => s!"subprogram `{name}` is already defined"
  | signatureMismatch name => s!"definition of `{name}` does not match its declaration"
  | cannotAssign source target => s!"cannot assign {source.text} to {target.text}"
  | cannotReturn value name expected =>
    s!"cannot return {value.text} from `{name}`, expected {expected.text}"
  | badCondition type => s!"cannot use {type.text} as condition"
  | exitOutsideLoop => "EXIT must be inside a loop"
  | badOperand op type => s!"operator `{op.text}` cannot be applied to {type.text}"
  | cannotCompare left right => s!"cannot compare {left.text} and {right.text}"
  | cannotNegate type => s!"cannot negate {type.text}"
  | mismatchedOperands op left right =>
    s!"mismatched operand types for operator `{op.text}`: {left.text} and {right.text}"
  | badIndex type => s!"array index must be INTEGER, not {type.text}"
  | notAnArray type => s!"cannot index into {type.text}"
  | wrongArity name expected actual => s!"`{name}` expects {expected} arguments but got {actual}"
  | badArgument type index name expected =>
    s!"cannot pass {type.text} as argument {index} of `{name}`, expected {expected.text}"
  | noValue name => s!"subprogram `{name}` does not return a value"

end Cause

/-- A message with the place it is about. Lines and columns are shown counting from one. -/
def located (message : String) : Option Span → String
  | none => message
  | some span => s!"{message} at line {span.startLine + 1} column {span.startCol + 1}"

end Diagnostic

/-- What is wrong, and where. The related span is a second place that has to do with it. -/
structure Diagnostic where
  cause : Diagnostic.Cause
  span : Option Span
  related : Option Span
deriving DecidableEq, Repr

namespace Diagnostic

/-- A diagnostic about one place. -/
def on (span : Span) (cause : Cause) : Diagnostic := ⟨cause, some span, none⟩

def kind (d : Diagnostic) : Kind := d.cause.kind

def message (d : Diagnostic) : String := d.cause.message

def text (d : Diagnostic) : String := located d.message d.span

/-- Whether the text might become a module if it went on. -/
def isIncomplete (d : Diagnostic) : Bool := d.kind == .unexpectedEof

end Diagnostic

end Oberlet
