/-!
# Command line arguments

What a command line asks for. Arguments are taken one by one, and the first that is wrong, or that
asks for the version, settles the matter. After two dashes alone, every argument is a file.
-/

namespace Monkey.Console

/-- What a command line asks for. -/
inductive Request where
  /-- To run the program in a file. -/
  | run (path : String)
  /-- To answer lines from standard input. -/
  | converse (prompt : String)
  /-- To say which version this is. -/
  | version
  /-- The command line is wrong. -/
  | misuse
  deriving DecidableEq, Repr

/-- What has been found on a command line. -/
structure Found where
  /-- The file to run. -/
  path : Option String
  /-- What is shown before a line is read. -/
  prompt : Option String

/-- What is shown before a line is read where nothing else is said. -/
def defaultPrompt : String := ">> "

/-- What is asked for when no arguments are left. -/
def Found.request (f : Found) : Request :=
  match f.path with
  | some path => .run path
  | none => .converse (f.prompt.getD defaultPrompt)

/-- Takes a file, unless there is one already or its name is empty. -/
def Found.file? (f : Found) (path : String) : Option Found :=
  if f.path.isSome || path.isEmpty then none else some { f with path := some path }

/-- Takes a prompt, unless there is one already. -/
def Found.prompting? (f : Found) (prompt : String) : Option Found :=
  if f.prompt.isSome then none else some { f with prompt := some prompt }

/-- What is asked for when every further argument is a file. -/
def filesOnly (f : Found) : List String → Request
  | [] => f.request
  | path :: rest =>
    match f.file? path with
    | some found => filesOnly found rest
    | none => .misuse

/-- Whether an argument is an option and not a file or a value; a dash alone is none. -/
def isOption (argument : String) : Bool :=
  match argument.toList with
  | '-' :: _ :: _ => true
  | _ => false

/-- The value in an argument that sets the prompt by an equals sign. -/
def attachedPrompt? (argument : String) : Option String :=
  let mark := "--prompt=".toList
  if mark.isPrefixOf argument.toList then some (String.ofList (argument.toList.drop mark.length))
  else none

/-- Whether an argument asks for the version: by its long name, or by a letter after a single dash,
whatever letters follow. -/
def asksVersion (argument : String) : Bool :=
  argument == "--version" || "-V".toList.isPrefixOf argument.toList

/-- What is asked for by the arguments after those in which something has been found. -/
def requestFrom (f : Found) : List String → Request
  | [] => f.request
  | "--" :: rest => filesOnly f rest
  | "--prompt" :: rest =>
    match rest with
    | [] => .misuse
    | value :: rest =>
      if isOption value then .misuse
      else
        match f.prompting? value with
        | some found => requestFrom found rest
        | none => .misuse
  | argument :: rest =>
    if asksVersion argument then .version
    else
      match attachedPrompt? argument with
      | some value =>
        match f.prompting? value with
        | some found => requestFrom found rest
        | none => .misuse
      | none =>
        if isOption argument then .misuse
        else
          match f.file? argument with
          | some found => requestFrom found rest
          | none => .misuse

/-- What a command line asks for. -/
def Request.ofArguments (arguments : List String) : Request := requestFrom ⟨none, none⟩ arguments

end Monkey.Console
