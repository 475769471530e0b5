import IntScript.Shell

/-!
# The executable

Reads what the options ask for, and writes what the command replies.
-/

open IntScript

/-- A number of steps that no evaluation takes. -/
def unlimited : Nat := 4611686018427387904

/-- Writes a reply. -/
def write (reply : Shell.Reply) : IO Unit := do
  IO.print reply.stdout
  (← IO.getStdout).flush
  IO.eprint reply.stderr

/-- Writes a report, and yields its exit code. -/
def finish : Option Shell.Report → IO UInt32
  | some report => do
    write report.toReply
    return report.exitCode.toUInt32
  | none => return 1

/-- The reason why a file cannot be read. -/
def reasonOf : IO.Error → String
  | .noFileOrDirectory .. => "No such file or directory (os error 2)"
  | .permissionDenied .. => "Permission denied (os error 13)"
  | .inappropriateType .. => "Is a directory (os error 21)"
  | error => toString error

/-- The bytes of a file, or the reason why they cannot be read. -/
def readBytes (path : String) : IO (Except String ByteArray) := do
  try
    return .ok (← IO.FS.readBinFile path)
  catch error =>
    return .error (reasonOf error)

/-- The bytes up to the end of the line, behind those in `before`. -/
partial def readLine (input : IO.FS.Stream) (before : ByteArray) : IO ByteArray := do
  let byte ← input.read 1
  let bytes := before ++ byte
  if byte.isEmpty || byte.toList = [10] then return bytes
  readLine input bytes

/-- Replies to one line after another, until the input ends. -/
partial def converse (input : IO.FS.Stream) (session : Session) : IO UInt32 := do
  IO.print Shell.prompt
  (← IO.getStdout).flush
  let bytes ← readLine input .empty
  if bytes.isEmpty then return 0
  match String.fromUTF8? bytes with
  | none =>
    IO.eprint Shell.unreadableLine
    return 1
  | some line =>
    match (Shell.answer unlimited line).run session with
    | none => return 1
    | some (answer, session) =>
      write answer.toReply
      if answer.isLast then return Shell.brokenOff.toUInt32
      converse input session

/-- Runs the command. -/
def main (arguments : List String) : IO UInt32 := do
  match Shell.Options.ofArguments arguments with
  | .error reason =>
    IO.eprintln ("error: " ++ reason)
    return 2
  | .ok options =>
    match options.origin with
    | .conversation =>
      converse (← IO.getStdin) (Shell.newSession options.callLimit)
    | .file path =>
      finish (Shell.report unlimited options (← readBytes path) .empty)
    | _ => finish (Shell.report unlimited options (.ok .empty) .empty)
