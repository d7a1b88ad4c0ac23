import Oberlet.Source.Span

/-!
# Tokens
-/

namespace Oberlet

namespace Token

inductive Kind
  | moduleKw | varKw | procedureKw | beginKw | endKw
  | ifKw | thenKw | elsifKw | elseKw | whileKw | doKw | exitKw | returnKw
  | arrayKw | ofKw | integerKw | realKw | stringKw | booleanKw
  | trueKw | falseKw
  | orKw | andKw | modKw
  | plus | minus | star | slash | amp | tilde
  | eq | neq | lt | gt | ltEq | gtEq
  | assign
  | lparen | rparen | lbracket | rbracket | comma | dot | semi | colon
  | ident | intLit | realLit | stringLit
  | eof
deriving DecidableEq, Repr

namespace Kind

/-- The kind of a keyword, by its spelling. Keywords are written in capital letters. -/
def ofKeyword? : String → Option Kind
  | "MODULE" => some moduleKw
  | "VAR" => some varKw
  | "PROCEDURE" => some procedureKw
  | "BEGIN" => some beginKw
  | "END" => some endKw
  | "IF" => some ifKw
  | "THEN" => some thenKw
  | "ELSIF" => some elsifKw
  | "ELSE" => some elseKw
  | "WHILE" => some whileKw
  | "DO" => some doKw
  | "EXIT" => some exitKw
  | "RETURN" => some returnKw
  | "ARRAY" => some arrayKw
  | "OF" => some ofKw
  | "INTEGER" => some integerKw
  | "REAL" => some realKw
  | "STRING" => some stringKw
  | "BOOLEAN" => some booleanKw
  | "TRUE" => some trueKw
  | "FALSE" => some falseKw
  | "OR" => some orKw
  | "AND" => some andKw
  | "MOD" => some modKw
  | _ => none

/-- The kind of a symbol, by its spelling. An opening parenthesis is not among them, because it may
also begin a comment. -/
def ofSymbol? : List Char → Option Kind
  | ['+'] => some plus
  | ['-'] => some minus
  | ['*'] => some star
  | ['/'] => some slash
  | ['&'] => some amp
  | ['~'] => some tilde
  | ['='] => some eq
  | ['#'] => some neq
  | ['<'] => some lt
  | ['<', '='] => some ltEq
  | ['>'] => some gt
  | ['>', '='] => some gtEq
  | [':', '='] => some assign
  | [')'] => some rparen
  | ['['] => some lbracket
  | [']'] => some rbracket
  | [','] => some comma
  | ['.'] => some dot
  | [';'] => some semi
  | [':'] => some colon
  | _ => none

end Kind

end Token

/-- A token. The value of a string literal is its decoded content, and the value of every other
token is the text it was read from. -/
structure Token where
  kind : Token.Kind
  value : String
  span : Span
deriving DecidableEq, Repr

end Oberlet
