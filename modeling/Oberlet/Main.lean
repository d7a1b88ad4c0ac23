import Oberlet.Cli.Run
import Oberlet.Host.Machine

/-!
# The program
-/

namespace Oberlet.Host

/-- Why the system could not do something to a file. -/
def reasonOf : IO.Error → FileError.Reason
  | .permissionDenied .. => .denied
  | .inappropriateType _ _ details =>
    if details.toList == "is a directory".toList then .isDirectory else .notDirectory
  | _ => .notFound

def attempt {α : Type} (action : FileError.Action) (path : Path) (act : IO α) :
    IO (Except FileError α) := do
  try
    return .ok (← act)
  catch e => return .error ⟨action, path.text, reasonOf e⟩

def seconds (milliseconds : Nat) : String :=
  let fraction := toString (milliseconds % 1000)
  toString (milliseconds / 1000) ++ "."
    ++ String.ofList (List.replicate (3 - fraction.length) '0') ++ fraction ++ "s"

/-- Answers a request by the file system and the terminal. The clock holds the time of the last
request for it. No programs are started, so code is not assembled. -/
def serve (clock : IO.Ref Nat) : (r : Request) → IO r.Reply
  | .isDirectory path => attempt .stat path do
    return (← (← IO.FS.realPath path.text).metadata).type == .dir
  | .read path => attempt .opening path do
    return (← IO.FS.readBinFile path.text).toList
  | .names path => do
    try
      let entries ← (← IO.FS.realPath path.text).readDir
      return entries.toList.map (·.fileName)
    catch _ => return []
  | .makeDirectories path => attempt .makingDirectory path (IO.FS.createDirAll path.text)
  | .write path content => attempt .opening path do
    IO.FS.writeBinFile path.text ⟨content.toArray⟩
  | .print text => do
    let out ← IO.getStdout
    out.putStr text
    out.flush
  | .readLine => do
    let line ← (← IO.getStdin).getLine
    return if line.isEmpty then none else some line
  | .locate program =>
    return .error ("exec: " ++ Text.Quoted.text program ++ ": executable file not found in $PATH")
  | .execute _ _ => return .error ⟨"", "executable file not found in $PATH"⟩
  | .workDir => return .ofText (← IO.FS.realPath ".").toString
  | .home => return .ofText ((← IO.getEnv "HOME").getD "/")
  | .elapsed => do
    let now ← IO.monoMsNow
    let before ← clock.swap now
    return seconds (now - before)

/-- The number of lines that a session can have. -/
def lineLimit : Nat := 4294967296

/-- Runs a job on the system it is started on. -/
def perform {α : Type} (clock : IO.Ref Nat) : Job α → IO (Job.Outcome α)
  | .done value => return .value value
  | .exit code => return .exited code
  | .ask request next => do perform clock (next (← serve clock request))

end Oberlet.Host

def main (args : List String) : IO UInt32 := do
  let clock ← IO.mkRef (← IO.monoMsNow)
  let job := (Oberlet.Cli.run Oberlet.Host.lineLimit args).run .initial
  match ← Oberlet.Host.perform clock job with
  | .value (code, _) => return code.toUInt32
  | .exited code => return code.toUInt32
