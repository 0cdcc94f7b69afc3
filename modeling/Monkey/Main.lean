import Monkey.Command

/-!
# The program

Reads the arguments, the environment, files and lines, and prints.  What is printed is decided
elsewhere.
-/

namespace Monkey

-- How deep evaluation may be nested; the stack of the host ends long before.
def maxDepth : Nat := 1000000000000

-- The failure behind an error of the host, which may give the number of an error negated.
def ReadFailure.ofHost : IO.Error → ReadFailure
  | .noFileOrDirectory .. => .notFound
  | .permissionDenied .. => .permissionDenied
  | .inappropriateType _ number _ =>
    if number = 21 ∨ number = -21 then .isDirectory else .notDirectory
  | .invalidArgument file number details =>
    if number = 36 ∨ number = -36 then .nameTooLong
    else .other (toString (IO.Error.invalidArgument file number details))
  | e => .other (toString e)

def readContent (path : String) : IO (Except ReadFailure (List UInt8)) := do
  try
    let bytes ← IO.FS.readBinFile path
    return .ok bytes.toList
  catch e =>
    return .error (.ofHost e)

-- Prints what a command leaves behind and yields its exit code.
def report (exit : Option Command.Exit) : IO UInt32 := do
  match exit with
  | some e =>
    IO.print e.stdout
    IO.eprint e.stderr
    return e.code
  | none =>
    IO.eprintln "error: evaluation is nested too deep"
    return 1

-- Reads bytes up to and including the next line feed.
partial def readLine (stream : IO.FS.Stream) (line : List UInt8) : IO (List UInt8) := do
  let bytes ← stream.read 1
  match bytes.toList with
  | [] => return line.reverse
  | b :: _ => if b = 10 then return (b :: line).reverse else readLine stream (b :: line)

partial def converse (s : Session) : IO UInt32 := do
  IO.print Repl.prompt
  (← IO.getStdout).flush
  match ← readLine (← IO.getStdin) [] with
  | [] => return 0
  | bytes =>
    match Repl.decode? bytes with
    | none =>
      IO.eprint Command.brokenText
      return 1
    | some line =>
      match Repl.answer maxDepth s line with
      | none => report none
      | some (x, s) =>
        IO.print (x.printed ++ x.response)
        converse s

def runArgs (args : List String) : IO UInt32 := do
  match Command.ofArgs args with
  | .usage => report (some Command.explain)
  | .file path => report (Command.runFile maxDepth path (← readContent path))
  | .dialogue =>
    let user := Repl.userName (← IO.getEnv "USER") (← IO.getEnv "USERNAME")
    IO.print (Repl.greeting user)
    converse (Session.initial (.terminal ""))

end Monkey

def main (args : List String) : IO UInt32 := Monkey.runArgs args
