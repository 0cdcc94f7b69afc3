import Monkey.Repl

/-!
# The command line — what the program does with its arguments

Without an argument it holds a dialogue, with one it runs the file of that name, and with more it
explains itself.
-/

namespace Monkey

/-- Why the content of a file is not known. -/
inductive ReadFailure where
  | notFound
  | permissionDenied
  | notText
  | isDirectory
  -- The path goes on behind the name of a file.
  | notDirectory
  | nameTooLong
  | other (description : String)

/-- The text shown for a file that was not read. -/
def ReadFailure.message (path : String) : ReadFailure → String
  | notFound => s!"cannot find file '{path}'"
  | permissionDenied => s!"permission denied reading '{path}'"
  | notText => s!"'{path}' contains invalid UTF-8 data"
  | isDirectory => s!"error reading '{path}': Is a directory (os error 21)"
  | notDirectory => s!"error reading '{path}': Not a directory (os error 20)"
  | nameTooLong => s!"error reading '{path}': File name too long (os error 36)"
  | other description => s!"error reading '{path}': {description}"

inductive Command where
  | dialogue
  | file (path : String)
  | usage

namespace Command

/-- What the arguments ask for. -/
def ofArgs : List String → Command
  | [] => dialogue
  | [path] => file path
  | _ => usage

-- The exit code and the texts that the program leaves behind.
structure Exit where
  code : UInt32
  stdout : String
  stderr : String
deriving DecidableEq

def usageText : String :=
  "Usage: monkey [file]\n\nWith no arguments, starts an interactive session.\n"

def explain : Exit := ⟨2, "", usageText⟩

def brokenText : String := "error: " ++ Repl.undecodable ++ "\n"

/-- Holds the dialogue over a whole input. -/
def hold (n : Nat) (user : String) (input : List UInt8) : Option Exit :=
  (Repl.run n (Session.initial (.terminal "")) input).map fun d =>
    if d.broken then ⟨1, d.transcript user, brokenText⟩ else ⟨0, d.transcript user, ""⟩

-- The text of a file, if its bytes are one.
def text (content : Except ReadFailure (List UInt8)) : Except ReadFailure String :=
  match content with
  | .error f => .error f
  | .ok bytes =>
    match Repl.decode? bytes with
    | some source => .ok source
    | none => .error .notText

-- Runs the content of the file at `path`.
def runFile (n : Nat) (path : String) (content : Except ReadFailure (List UInt8)) :
    Option Exit :=
  match text content with
  | .error f => some ⟨1, "", f.message path ++ "\n"⟩
  | .ok source =>
    ((Session.initial (.terminal "")).run n source).map fun
      | (.ok _, s) => ⟨0, s.flush.1, ""⟩
      | (.error e, s) => ⟨1, s.flush.1, e.message ++ "\n"⟩

end Command

end Monkey
