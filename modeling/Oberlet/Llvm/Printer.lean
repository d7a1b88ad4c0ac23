import Oberlet.Decimal.Shortest
import Oberlet.Llvm.Instr
import Oberlet.Text.Quoted

/-!
# The text of the target language
-/

namespace Oberlet.Llvm

/-! ## Texts and names -/

/-- A byte of a text in quotes. -/
def quotedByte (b : UInt8) : String :=
  let n := b.toNat
  if 0x20 ≤ n && n ≤ 0x7E && n != 0x22 && n != 0x5C then (Char.ofNat n).toString
  else "\\" ++ Text.hexPadded true 2 n

/-- A text in quotes: bytes that are not printable ASCII, quotes and backslashes are written in
hexadecimal digits. -/
def quoted (s : String) : String :=
  "\"" ++ String.join (s.toUTF8.toList.map quotedByte) ++ "\""

/-- The characters that a name may have without quotes. -/
def isPlain (c : Char) : Bool :=
  c.isAlphanum || c == '$' || c == '.' || c == '_' || c == '-'

def nameText (name : String) : String := if name.all isPlain then name else quoted name

/-! ## Constants -/

/-- The share of distinct digits among the digits of a number, of which at most `limit` count. -/
def digitVariety (digits : List Char) (limit : Nat) : Float :=
  Float.ofNat digits.eraseDups.length / Float.ofNat (min digits.length limit)

/-- The share of distinct hexadecimal digits up to which a number has a pattern. -/
def hexVarietyLimit (count : Nat) : Float :=
  if count < 4 then 0
  else if count ≤ 6 then 2 / Float.ofNat count
  else 3 / Float.ofNat count

/-- An integer: in hexadecimal digits where those show a pattern that the decimal ones hide. -/
def intText (n : Nat) : String :=
  let hex := Nat.toDigits 16 n
  let hexVariety := digitVariety hex hex.length
  let decimalVariety := digitVariety (Nat.toDigits 10 n) 10
  if 0x1000 ≤ n && hexVariety ≤ hexVarietyLimit hex.length + 0.01
      && hexVariety + 0.2 ≤ decimalVariety then
    "u0x" ++ Text.hexPadded true 0 n
  else toString n

/-- A decimal: with an exponent below `10 ^ -4` and from `10 ^ 6` on, else positional, and always
with a point. -/
def decimalText (d : Decimal.Scientific) : String :=
  let digits := Nat.toDigits 10 d.digits
  let e := d.exponent
  let chars :=
    if e < -4 || 6 ≤ e then
      let power := Nat.toDigits 10 e.natAbs
      let power := List.replicate (2 - power.length) '0' ++ power
      let fraction := match digits.drop 1 with
        | [] => ['0']
        | rest => rest
      digits.take 1 ++ '.' :: fraction ++ 'e' :: (if e < 0 then '-' else '+') :: power
    else if e < 0 then '0' :: '.' :: List.replicate ((-e).toNat - 1) '0' ++ digits
    else
      let whole := e.toNat + 1
      if digits.length ≤ whole then
        digits ++ List.replicate (whole - digits.length) '0' ++ ['.', '0']
      else digits.take whole ++ '.' :: digits.drop whole
  String.ofList chars

/-- A real number: as a decimal if one is exactly it, else by its bit pattern. A decimal counts
as exact when it agrees with the number to a hundred digits behind the first. -/
def realText (x : Binary64) : String :=
  let shortest := x.shortest
  if shortest.sameValue (x.rounded 101) then decimalText shortest
  else "0x" ++ Text.hexPadded true 0 x.bits.toNat

/-! ## Functions -/

/-- What the names in a function's text depend on: the names of its parameters, the registers
that hold values and the blocks, both in the order of the text. -/
structure Naming where
  params : List String
  regs : List Nat
  blocks : List (Nat × String)

namespace Naming

/-- The names in the order in which the text of a function needs them. -/
def ofFunction (f : Function) : Naming :=
  { params := f.params.map (·.name)
    regs := f.blocks.flatMap fun block =>
      (block.lines.filter (·.instr.ty != .void)).map (·.reg)
    blocks := f.blocks.zipIdx.map fun (block, index) => (block.id, s!"{block.stem}.{index}") }

def regText (naming : Naming) (reg : Nat) : String := s!"%{naming.regs.idxOf reg}"

def label (naming : Naming) (block : Nat) : String := (naming.blocks.lookup block).getD ""

/-- An operand without its type. -/
def ident (naming : Naming) : Operand → String
  | .int value => intText value
  | .bool value => if value then "true" else "false"
  | .real value => realText value
  | .null => "null"
  | .zero _ => "zeroinitializer"
  | .text index size =>
    let array := (Ty.array size .i8).text
    s!"getelementptr ({array}, {array}* @str.{index}, i32 0, i32 0)"
  | .global name _ => "@" ++ nameText name
  | .param index _ => "%" ++ nameText (naming.params[index]?.getD "")
  | .reg id _ => naming.regText id

/-- An operand behind its type. -/
def operand (naming : Naming) (x : Operand) : String := x.ty.text ++ " " ++ naming.ident x

end Naming

def BinaryOp.text : BinaryOp → String
  | add => "add"
  | sub => "sub"
  | mul => "mul"
  | sdiv => "sdiv"
  | srem => "srem"
  | fadd => "fadd"
  | fsub => "fsub"
  | fmul => "fmul"
  | fdiv => "fdiv"
  | frem => "frem"
  | and => "and"
  | or => "or"
  | xor => "xor"

def IntPred.text : IntPred → String
  | eq => "eq"
  | ne => "ne"
  | slt => "slt"
  | sle => "sle"
  | sgt => "sgt"
  | sge => "sge"

def RealPred.text : RealPred → String
  | oeq => "oeq"
  | one => "one"
  | olt => "olt"
  | ole => "ole"
  | ogt => "ogt"
  | oge => "oge"

/-- The type of a function as a call shows it: the result alone, and all of it when further
arguments may follow. -/
def Signature.callText (s : Signature) : String :=
  let params := ", ".intercalate (s.params.map (·.text) ++ ["..."])
  if s.variadic then s!"{s.result.text} ({params})" else s.result.text

def Instr.text (naming : Naming) : Instr → String
  | alloca content => s!"alloca {content.text}"
  | load content address => s!"load {content.text}, {naming.operand address}"
  | store value address => s!"store {naming.operand value}, {naming.operand address}"
  | binary op left right => s!"{op.text} {naming.operand left}, {naming.ident right}"
  | fneg operand => s!"fneg {naming.operand operand}"
  | icmp pred left right => s!"icmp {pred.text} {naming.operand left}, {naming.ident right}"
  | fcmp pred left right => s!"fcmp {pred.text} {naming.operand left}, {naming.ident right}"
  | select cond left right =>
    s!"select {naming.operand cond}, {naming.operand left}, {naming.operand right}"
  | extractValue aggregate _ index => s!"extractvalue {naming.operand aggregate}, {index}"
  | elementPtr size elem address index =>
    let array := (Ty.array size elem).text
    s!"getelementptr {array}, {naming.operand address}, i32 0, {naming.operand index}"
  | sitofp operand => s!"sitofp {naming.operand operand} to double"
  | fptosi operand => s!"fptosi {naming.operand operand} to i32"
  | call callee args =>
    let args := ", ".intercalate (args.map naming.operand)
    s!"call {callee.callText} @{nameText callee.name}({args})"

def Terminator.text (naming : Naming) : Terminator → String
  | br target => s!"br label %{naming.label target}"
  | condBr cond ifTrue ifFalse =>
    s!"br {naming.operand cond}, label %{naming.label ifTrue}, label %{naming.label ifFalse}"
  | ret none => "ret void"
  | ret (some value) => s!"ret {naming.operand value}"
  | unreachable => "unreachable"

/-- An instruction, behind the register that it sets. -/
def Line.text (naming : Naming) (line : Line) : String :=
  let body := line.instr.text naming
  if line.instr.ty == .void then s!"\t{body}\n" else s!"\t{naming.regText line.reg} = {body}\n"

def Block.text (naming : Naming) (block : Block) : String :=
  let term := match block.term with
    | some term => s!"\t{term.text naming}\n"
    | none => ""
  s!"{naming.label block.id}:\n" ++ String.join (block.lines.map (·.text naming)) ++ term

/-- A definition, or a declaration where there are no blocks. -/
def Function.text (f : Function) : String :=
  let params := f.params.map fun p => s!"{p.ty.text} %{nameText p.name}"
  let params := ", ".intercalate (if f.variadic then params ++ ["..."] else params)
  let heading := s!"{f.result.text} @{nameText f.name}({params})"
  match f.blocks with
  | [] => s!"declare {heading}\n"
  | blocks =>
    let naming := Naming.ofFunction f
    s!"define {heading} \x7b\n" ++ "\n".intercalate (blocks.map (·.text naming)) ++ "\x7d\n"

def Global.text : Global → String
  | var name init =>
    s!"@{nameText name} = global {(Naming.mk [] [] []).operand init}\n"
  | str index content =>
    let array := (Ty.array (content.utf8ByteSize + 1) .i8).text
    let content := quoted (content.push (Char.ofNat 0))
    s!"@str.{index} = private unnamed_addr constant {array} c{content}\n"

def Module.text (m : Module) : String :=
  let globals := if m.globals.isEmpty then "" else "\n" ++ String.join (m.globals.map (·.text))
  s!"source_filename = {quoted m.name}\n" ++ globals ++ "\n"
    ++ "\n".intercalate (m.functions.map (·.text))

end Oberlet.Llvm
