import Monkey.Output
import Monkey.Store

/-!
# The machine — what a running program works on

A computation of the machine ends with a result, stops early with a returned value or an error, or
does not end within the depth it was given.  In the first two cases it leaves a machine behind.
-/

namespace Monkey

structure Machine where
  store : Store
  -- The identity that the next object gets.
  nextObject : ObjectId
  output : Output

/-- The machine before anything was run. -/
def Machine.initial (output : Output) : Machine := ⟨.empty, 0, output⟩

namespace Machine

-- Adds a scope without bindings, whose number is `m.store.next`.
def pushScope (m : Machine) (parent : Option ScopeId) : Machine :=
  { m with store := m.store.push parent }

def define (m : Machine) (scope : ScopeId) (x : String) (v : Value) : Machine :=
  { m with store := m.store.define scope x v }

-- Uses up the identity `m.nextObject`.
def takeObject (m : Machine) : Machine := { m with nextObject := m.nextObject + 1 }

def write (m : Machine) (text : String) : Machine := { m with output := m.output.write text }

end Machine

/-- Why a computation stopped before its end. -/
inductive Stop where
  | returned (v : Value)
  | failed (e : EvalError)

def Eval (α : Type) : Type := Machine → Option (Except Stop α × Machine)

namespace Eval

variable {α β : Type}

instance : Monad Eval where
  pure a := fun m => some (.ok a, m)
  bind p f := fun m =>
    match p m with
    | none => none
    | some (.error s, m') => some (.error s, m')
    | some (.ok a, m') => f a m'

theorem pure_apply (a : α) (m : Machine) : (pure a : Eval α) m = some (.ok a, m) := rfl

theorem bind_apply (p : Eval α) (f : α → Eval β) (m : Machine) :
    (p >>= f) m =
      match p m with
      | none => none
      | some (.error s, m') => some (.error s, m')
      | some (.ok a, m') => f a m' := rfl

instance : LawfulMonad Eval := LawfulMonad.mk' Eval
  (fun p => by
    funext m
    show (p >>= fun a => pure (id a)) m = p m
    rw [bind_apply]
    rcases p m with _ | ⟨_ | _, _⟩ <;> rfl)
  (fun _ _ => rfl)
  (fun p f g => by
    funext m
    simp only [bind_apply]
    rcases p m with _ | ⟨_ | _, _⟩ <;> rfl)

def unfinished : Eval α := fun _ => none

def stop (s : Stop) : Eval α := fun m => some (.error s, m)

def fail (e : EvalError) : Eval α := stop (.failed e)

-- Goes on with a result, or stops with an error.
def ofExcept : Except EvalError α → Eval α
  | .ok a => pure a
  | .error e => fail e

-- Takes a returned value as the result.
def catchReturn (p : Eval Value) : Eval Value := fun m =>
  match p m with
  | some (.error (.returned v), m') => some (.ok v, m')
  | r => r

-- Takes an identity for a new object.
def newObject : Eval ObjectId := fun m => some (.ok m.nextObject, m.takeObject)

-- Makes a scope without bindings.
def newScope (parent : ScopeId) : Eval ScopeId := fun m =>
  some (.ok m.store.next, m.pushScope (some parent))

def define (scope : ScopeId) (x : String) (v : Value) : Eval Unit := fun m =>
  some (.ok (), m.define scope x v)

-- The value of a name as seen from a scope.
def lookup (scope : ScopeId) (x : String) : Eval (Option Value) := fun m =>
  some (.ok (m.store.lookup scope x), m)

def write (text : String) : Eval Unit := fun m => some (.ok (), m.write text)

end Eval

end Monkey
