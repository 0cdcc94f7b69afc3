import Monkey.Session
import Monkey.Value.Display

/-!
# The dialogue — reading, evaluating and printing line by line

Input is cut behind each line feed, and each line is evaluated in the session that the lines before
it left behind.  Errors are shown and never end the dialogue; a line that is no text does.
-/

namespace Monkey

/-- Takes what the session has printed to the terminal since the last time. -/
def Session.flush (s : Session) : String × Session :=
  let (text, output) := s.machine.output.flush
  (text, { s with machine := { s.machine with output } })

namespace Repl

def greeting (user : String) : String :=
  s!"Hello {user}! This is the Monkey programming language!\nFeel free to type in commands\n"

def prompt : String := ">> "

def undecodable : String := "stream did not contain valid UTF-8"

/-- The name in the greeting: the first of the two that is known, or a stand-in. -/
def userName (user alternative : Option String) : String :=
  match user, alternative with
  | some name, _ => name
  | none, some name => name
  | none, none => "there"

/-- What is shown for what a line came to. -/
def response : Outcome → String
  | .parseErrors errors =>
    "parser errors:\n" ++ String.join (errors.map fun e => "\t" ++ e.message ++ "\n")
  | .value v => v.display ++ "\n"
  | .noValue => ""

/-- The lines of an input, each with its line feed; the last one may lack it. -/
def lines : List UInt8 → List (List UInt8)
  | [] => []
  | b :: bs =>
    if b = 10 then [b] :: lines bs
    else
      match lines bs with
      | [] => [[b]]
      | l :: ls => (b :: l) :: ls

/-- The text that the bytes encode in UTF-8. -/
def decode? (bytes : List UInt8) : Option String := String.fromUTF8? ⟨bytes.toArray⟩

/-- What one line brings to the terminal. -/
structure Exchange where
  -- What the program printed there.
  printed : String
  response : String

/-- What a whole input brings to the terminal. -/
structure Dialogue where
  exchanges : List Exchange
  -- Whether the dialogue ended at a line that is no text.
  broken : Bool
  session : Session

def answer (n : Nat) (s : Session) (line : String) : Option (Exchange × Session) :=
  match s.eval n line with
  | none => none
  | some (outcome, s) =>
    let (printed, s) := s.flush
    some (⟨printed, response outcome⟩, s)

/-- Evaluates lines up to the first that is no text. -/
def converse (n : Nat) (s : Session) : List (List UInt8) → Option Dialogue
  | [] => some ⟨[], false, s⟩
  | l :: ls =>
    match decode? l with
    | none => some ⟨[], true, s⟩
    | some line =>
      match answer n s line with
      | none => none
      | some (x, s) => (converse n s ls).map fun d => { d with exchanges := x :: d.exchanges }

def run (n : Nat) (s : Session) (input : List UInt8) : Option Dialogue := converse n s (lines input)

/-- What the terminal shows of one line: the prompt for it, what was printed, and the response. -/
def Exchange.transcript (x : Exchange) : String := prompt ++ x.printed ++ x.response

/-- What the terminal shows of the whole dialogue.  The last prompt is the one before the end of
the input, or before the line that is no text. -/
def Dialogue.transcript (d : Dialogue) (user : String) : String :=
  greeting user ++ String.join (d.exchanges.map Exchange.transcript) ++ prompt

end Repl

end Monkey
