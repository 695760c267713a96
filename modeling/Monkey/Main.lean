import Monkey.Console.Basic

/-!
# The program

Reads the file or the lines that the command line asks for, and writes what the console makes of
them.
-/

namespace Monkey.Main

/-- Writes bytes to a stream at once. -/
def emit (stream : IO.FS.Stream) (bytes : ByteArray) : IO Unit := do
  stream.write bytes
  stream.flush

/-- Writes an outcome and gives its exit code. -/
def deliver (outcome : Console.Outcome) : IO UInt32 := do
  emit (← IO.getStdout) outcome.output
  emit (← IO.getStderr) outcome.errors.toUTF8
  return outcome.exit

/-- The number of an error of the system; some calls give it negated. -/
def errorNumber (code : UInt32) : UInt32 := if code < 4096 then code else 0 - code

/-- The obstacle that an error of the system is. -/
def obstacleOf (error : IO.Error) : Console.Obstacle :=
  match error with
  | .noFileOrDirectory .. => .missing
  | .permissionDenied _ code _ | .inappropriateType _ code _ | .invalidArgument _ code _ =>
    match errorNumber code with
    | 13 => .forbidden
    | 20 => .notADirectory
    | 21 => .directory
    | 36 => .tooLong
    | _ => .other (toString error)
  | _ => .other (toString error)

/-- Reads a file. -/
def readFile (path : String) : IO Console.Reading := do
  try
    return .ok (← IO.FS.readBinFile path)
  catch error =>
    return .error (obstacleOf error)

/-- The next line with its line break, or no bytes at the end. -/
partial def readLine (input : IO.FS.Stream) (line : ByteArray) : IO ByteArray := do
  let byte ← input.read 1
  if byte.isEmpty then return line
  if byte.toList = [10] then return line ++ byte
  readLine input (line ++ byte)

/-- Answers lines until one ends the session. -/
partial def converse (prompt : ByteArray) (w : World) : IO UInt32 := do
  let output ← IO.getStdout
  emit output prompt
  let line ← readLine (← IO.getStdin) .empty
  if line.isEmpty then return 0
  match Console.turn callLimit line w with
  | (.garbled, _) => deliver (.failure .empty Console.garbledLine)
  | (.farewell, _) => return 0
  | (.said answer, after) =>
    emit output answer
    converse prompt after

end Monkey.Main

open Monkey in
/-- Does what the command line asks for. -/
def main (arguments : List String) : IO UInt32 := do
  match Console.Request.ofArguments arguments with
  | .converse prompt =>
    let terminal := (← IO.getEnv "TERM").getD ""
    Main.emit (← IO.getStdout) Console.greeting.toUTF8
    Main.converse (Console.promptOn terminal prompt) Console.start
  | .run path => Main.deliver (Console.runFile callLimit path (← Main.readFile path))
  | .version => Main.deliver Console.versionNotice
  | .misuse => Main.deliver Console.misused
