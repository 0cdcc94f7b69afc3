import Monkey.Expansion
import Monkey.Parser.Program

/-!
# Sessions — inputs that share their bindings

A session runs one source text after the other.  Each sees the bindings and the macros that the
ones before it left behind; the two live in scopes of their own.
-/

namespace Monkey

/-- A machine with a scope for bindings and one for macros. -/
structure Session where
  machine : Machine
  scope : ScopeId
  macroScope : ScopeId

/-- What a source text came to. -/
inductive Outcome where
  -- It could not be parsed, and nothing was run.
  | parseErrors (errors : List ParseError)
  | value (v : Value)
  -- There is no value worth showing.
  | noValue

/-- Why a source text did not run to its end. -/
inductive RunError where
  -- The errors with their positions in the text.
  | parse (errors : List String)
  | runtime (e : EvalError)

def RunError.message : RunError → String
  | parse errors => "\n".intercalate errors
  | runtime e => "ERROR: " ++ e.message

namespace Session

def initial (output : Output) : Session where
  machine := ((Machine.initial output).pushScope none).pushScope none
  scope := 0
  macroScope := 1

/-- The value of a name in the scope for bindings. -/
def lookup (s : Session) (x : String) : Option Value := s.machine.store.lookup s.scope x

/-- Parses a source text, makes its macros, expands it and runs it.  Evaluation may be nested up to
depth `n`; `none` if that is not enough. -/
def eval (n : Nat) (s : Session) (source : String) : Option (Outcome × Session) :=
  let parsed := parseSource source
  if parsed.errors ≠ [] then some (.parseErrors parsed.errors, s)
  else
    let m := s.machine.defineMacros s.macroScope parsed.program
    match Eval.expandMacros n s.macroScope parsed.program.withoutMacros m with
    | none => none
    | some (.error e, m) => some (.value (.error e), { s with machine := m })
    | some (.ok p, m) =>
      match Eval.program n s.scope p m with
      | none => none
      | some (v, m) =>
        let outcome := if v.isError || p.endsWithValue then .value v else .noValue
        some (outcome, { s with machine := m })

/-- Runs a source text for its effects. -/
def run (n : Nat) (s : Session) (source : String) : Option (Except RunError Unit × Session) :=
  match s.eval n source with
  | none => none
  | some (.parseErrors errors, s) => some (.error (.parse (errors.map (·.render source))), s)
  | some (.value (.error e), s) => some (.error (.runtime e), s)
  | some (_, s) => some (.ok (), s)

end Session

end Monkey
