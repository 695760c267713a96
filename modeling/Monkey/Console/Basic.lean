import Monkey.Console.Arguments
import Monkey.Console.Files
import Monkey.Session
import Monkey.Text.Blank

/-!
# The console

What a run of the program writes, as a function of the command line, of the file that it names and of
the lines on standard input. Reading those and writing the result is all that is left to do.
-/

namespace Monkey.Console

/-- The version of the program. -/
def version : String := "0.1.0"

/-- What a run leaves behind. -/
structure Outcome where
  /-- The exit code; it is not zero when something was wrong. -/
  exit : UInt32
  /-- What was written to standard output. -/
  output : ByteArray
  /-- What was written to standard error. -/
  errors : String

/-- An outcome without a complaint. -/
def Outcome.success (output : ByteArray) : Outcome := ⟨0, output, ""⟩

/-- An outcome with a complaint. -/
def Outcome.failure (output : ByteArray) (complaint : String) : Outcome :=
  ⟨1, output, "Error: " ++ complaint ++ "\n"⟩

/-- The complaint about bytes that are no text. -/
def notText : String := "stream did not contain valid UTF-8"

/-- The complaint about a program that nests too many calls. -/
def tooDeep : String := "too many nested calls"

/-- A heading, and each diagnostic on a line of its own. -/
def refusal (diagnostics : List Diagnostic) : String :=
  "parser errors:\n" ++ String.join (diagnostics.map fun d => "\t" ++ d.message ++ "\n")

/-- What is shown of a reply. -/
def shown : Reply → String
  | .refused diagnostics => refusal diagnostics
  | .answered value => value.code ++ "\n"
  | .exhausted => "ERROR: " ++ tooDeep ++ "\n"

/-- The complaint about a reply, when it is that to a whole file. -/
def complaint? : Reply → Option String
  | .refused diagnostics => some (toString diagnostics.length ++ " parser error(s)")
  | .answered value => if value.isError then some "program stopped with an error" else none
  | .exhausted => some tooDeep

/-- The world at the start of a run. -/
def start : World := .initial .unlimited

/-- The source text in a file, or why there is none. -/
def sourceOf : Reading → Except String String
  | .error obstacle => .error obstacle.text
  | .ok bytes =>
    match String.fromUTF8? bytes with
    | some source => .ok source
    | none => .error notText

/-- Runs the program in a file, with at most the given number of calls active at once. -/
def runFile (limit : Nat) (path : String) (reading : Reading) : Outcome :=
  match sourceOf reading with
  | .error reason => .failure .empty ("could not read " ++ path ++ ": " ++ reason)
  | .ok source =>
    let (reply, w) := start.interpret limit globalScope source
    let output := w.sink.written ++ (shown reply).toUTF8
    match complaint? reply with
    | none => .success output
    | some complaint => .failure output complaint

/-- What comes of a line. -/
inductive Turn where
  /-- The line is no text. -/
  | garbled
  /-- The line ends the session. -/
  | farewell
  /-- This is written. -/
  | said (output : ByteArray)

/-- Answers a line, which still has its line break, with at most the given number of calls active at once.
Blank lines are passed over. -/
def turn (limit : Nat) (line : ByteArray) (w : World) : Turn × World :=
  match String.fromUTF8? line with
  | none => (.garbled, w)
  | some text =>
    let word := String.ofList (trim text.toList)
    if word = "exit" ∨ word = "quit" then (.farewell, w)
    else if word = "" then (.said .empty, w)
    else
      let (reply, after) := w.interpret limit globalScope text
      (.said (after.writtenSince w ++ (shown reply).toUTF8), after)

/-- What is written before the first line is read. -/
def greeting : String := "Monkey v" ++ version ++ "\n"

/-- The complaint about a line that is no text. -/
def garbledLine : String := "could not read input: " ++ notText

/-- Answers lines one after another; the prompt is written before each of them is asked for, also
before it turns out that there is none. -/
def answerLines (limit : Nat) (prompt output : ByteArray) (w : World) : List ByteArray → Outcome
  | [] => .success (output ++ prompt)
  | line :: lines =>
    match turn limit line w with
    | (.garbled, _) => .failure (output ++ prompt) garbledLine
    | (.farewell, _) => .success (output ++ prompt)
    | (.said answer, after) => answerLines limit prompt (output ++ prompt ++ answer) after lines

/-- Whether a terminal of the given name is shown a prompt although nobody edits lines on it. -/
def showsPrompt (terminal : String) : Bool :=
  ["dumb", "cons25", "emacs"].contains terminal.toLower

/-- The prompt as it is written on a terminal of the given name. -/
def promptOn (terminal prompt : String) : ByteArray :=
  if showsPrompt terminal then prompt.toUTF8 else .empty

/-- The lines of some bytes, each with its line break; the last one can lack it. -/
def linesOf : List UInt8 → List (List UInt8)
  | [] => []
  | byte :: bytes =>
    if byte = 10 then [byte] :: linesOf bytes
    else
      match linesOf bytes with
      | [] => [[byte]]
      | line :: lines => (byte :: line) :: lines

/-- No byte is lost or moved between lines. -/
theorem flatten_linesOf (bytes : List UInt8) : (linesOf bytes).flatten = bytes := by
  induction bytes with
  | nil => rfl
  | cons byte bytes ih =>
    rw [linesOf]
    split
    · simp [ih]
    · split
      · next h => simpa [h] using ih
      · next h => simpa [h] using ih

/-- What comes of asking for the version. -/
def versionNotice : Outcome := .success ("monkey " ++ version ++ "\n").toUTF8

/-- What comes of a wrong command line. -/
def misused : Outcome := ⟨2, .empty, ""⟩

/-- A run of the program, given the way to read a file, standard input and the name of the
terminal. -/
def run (arguments : List String) (read : String → Reading) (input : ByteArray)
    (terminal : String) : Outcome :=
  match Request.ofArguments arguments with
  | .version => versionNotice
  | .misuse => misused
  | .run path => runFile callLimit path (read path)
  | .converse prompt =>
    answerLines callLimit (promptOn terminal prompt) greeting.toUTF8 start
      ((linesOf input.toList).map fun line => ⟨line.toArray⟩)

end Monkey.Console
