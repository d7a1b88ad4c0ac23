import Oberlet.Build.Basic
import Oberlet.Console.Run
import Oberlet.Llvm.Printer
import Oberlet.Text.Space

/-!
# Interactive sessions

In a session the user enters modules line by line. What was entered is kept in a history, which
outlives the session in a file.
-/

namespace Oberlet.Repl

/-! ## Texts -/

def banner : String :=
  "Beblang REPL: enter a module to compile it. Ctrl+D exits. Type :help for commands.\n"

def help : String :=
  "\nREPL commands:\n"
    ++ "  :help            Show this help\n"
    ++ "  :quit            Exit the REPL\n"
    ++ "  :load <file>     Compile a source file\n"
    ++ "  :ir on|off       Print the LLVM IR of modules that compile\n"

def prompt (isFirst : Bool) : String := if isFirst then "beb> " else "...> "

def historyFileName : String := ".beblang_history"

/-! ## Lines -/

/-- The number of bytes that are read at once. -/
def pieceLimit : Nat := 4096

/-- A line without the line break at its end. -/
def dropBreak (line : Bytes) : Bytes :=
  if line.getLast? == some 10 then
    let line := line.dropLast
    if line.getLast? == some 13 then line.dropLast else line
  else line

/-- The pieces in which a line is read. A carriage return is not parted from what is behind it. -/
def pieces : (fuel : Nat) → Bytes → List Bytes
  | 0, _ => []
  | fuel + 1, line =>
    if line.isEmpty then []
    else if line.length < pieceLimit || line.length == pieceLimit && line.getLast? == some 10 then
      [dropBreak line]
    else
      let piece := line.take pieceLimit
      if piece.getLast? == some 13 then
        piece.dropLast :: pieces fuel (line.drop (pieceLimit - 1))
      else piece :: pieces fuel (line.drop pieceLimit)

def piecesOf (line : String) : List (List Char) :=
  let bytes := Text.Utf8.encode line
  (pieces (bytes.length + 1) bytes).map Text.Utf8.decode

/-! ## History -/

def historyLimit : Nat := 1000

/-- The entries of a history that are kept. -/
def recent (history : List String) : List String :=
  history.drop (history.length - historyLimit)

/-- Adds an entry that is not the last one again. -/
def remember (history : List String) (entry : String) : List String :=
  if history.getLast? == some entry then history else recent (history ++ [entry])

/-- Whether bytes are well-formed. -/
def isText (bytes : Bytes) : Bool := Text.Utf8.encode (Text.Utf8.text bytes) == bytes

/-- The history that a file holds, one entry a line, up to a line that is too long or no text. -/
def historyOf (content : Bytes) : List String :=
  let parts := content.splitOn 10
  let lines := parts.dropLast.map (· ++ [10]) ++ (parts.getLast?.toList.filter (!·.isEmpty))
  let isFine (line : Bytes) : Bool :=
    (pieces (line.length + 1) line).length == 1 && isText (dropBreak line)
  recent ((lines.takeWhile isFine).map fun line => Text.Utf8.text (dropBreak line))

def historyFile (history : List String) : Bytes :=
  Text.Utf8.encode (String.join (history.map (· ++ "\n")))

/-! ## Sessions -/

/-- Whether a text is the beginning of a module and nothing more. -/
def needsMore (source : List Char) : Bool :=
  if Text.isBlank source then false
  else match Program.parse source with
    | .ok _ => false
    | .error d => d.isIncomplete

/-- A line that begins with a colon is a command. -/
def isCommand (cs : List Char) : Bool := (Text.trim cs).head? == some ':'

/-- The state of a session: what has been entered of a module, whether code is shown, the history,
and whether the session is over. -/
structure Session where
  entered : List Char
  showsCode : Bool
  history : List String
  isOver : Bool
deriving DecidableEq, Repr

/-- Compiles a module and tells the user how that went. -/
def compile (showsCode : Bool) (content : Option Bytes) (shown : String) (source : List Char) :
    Run Unit := do
  match Compilation.ofSource source with
  | .error f => Run.tell (.ofFault shown f)
  | .ok (.unreadable d) => Run.tell (.ofDiagnostic content shown d)
  | .ok (.analyzed program notes) =>
    if !notes.errors.isEmpty then
      Run.tellAll (notes.errors.map (.ofDiagnostic content shown))
    else match (Compilation.analyzed program notes).generate with
      | .error f => Run.tell (.ofFault shown f)
      | .ok m =>
        if showsCode then Job.print m.text
        else Job.print s!"module `{program.name.name}` compiled\n"

namespace Session

def initial (history : List String) : Session := ⟨[], true, history, false⟩

def load (s : Session) (file : String) : Run Unit := do
  let path := Path.resolve (← Job.workDir) file
  match ← Job.read path with
  | .error e => Run.message "File Error" e.text
  | .ok content => compile s.showsCode (some content) file (Text.Utf8.decode content)

def execute (s : Session) (command : List Char) : Run Session := do
  match Text.words command with
  | ":help" :: _ =>
    Job.print help
    return s
  | ":quit" :: _ => return { s with isOver := true }
  | ":exit" :: _ => return { s with isOver := true }
  | [":load", file] =>
    s.load file
    return s
  | ":load" :: _ =>
    Job.print "usage: :load <file>\n"
    return s
  | [":ir", "on"] => return { s with showsCode := true }
  | [":ir", "off"] => return { s with showsCode := false }
  | ":ir" :: _ =>
    Job.print "usage: :ir on|off\n"
    return s
  | _ =>
    Job.print "unknown command. Type :help for help.\n"
    return s

/-- Takes what was entered: a module or a command. -/
def submit (s : Session) (input : List Char) : Run Session := do
  if Text.isBlank input then return s
  let entry := input.map fun c => if c == '\n' then ' ' else c
  let s := { s with history := remember s.history (String.ofList entry) }
  if isCommand input then s.execute input
  else
    compile s.showsCode none "<repl>" input
    return s

/-- Collects lines for as long as they are the beginning of a module. -/
def enter (s : Session) (line : List Char) : Run Session := do
  if s.entered.isEmpty && isCommand line then s.submit line
  else
    let input := if s.entered.isEmpty then line else s.entered ++ '\n' :: line
    if needsMore input then return { s with entered := input }
    else
      let s : Session := { s with entered := [] }
      s.submit input

/-- Reads lines until the session is over or the input is closed. `pending` are pieces of a line
that have been read but not dealt with. -/
def loop : (lines : Nat) → Session → (pending : List (List Char)) → Run Session
  | 0, s, _ => return s
  | lines + 1, s, pending => do
    Job.print (prompt s.entered.isEmpty)
    let pending ← if pending.isEmpty then do
        match ← Job.readLine with
        | some line => pure (piecesOf line)
        | none => pure []
      else pure pending
    match pending with
    | [] =>
      Job.print "\n"
      return s
    | line :: rest =>
      let s ← s.enter line
      if s.isOver then return s else loop lines s rest

end Session

def run (lines : Nat) : Run Unit := do
  Job.print banner
  modify (·.reset .error)
  let file := (← Job.home).child historyFileName
  let history ← match ← Job.read file with
    | .ok content => pure (historyOf content)
    | .error _ => pure []
  let s ← (Session.initial history).loop lines []
  let _ ← Job.write file (historyFile s.history)

end Oberlet.Repl
