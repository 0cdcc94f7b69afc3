import Monkey.Store

/-!
# Handles — scopes as a host holds them

A host holds scopes by handles, which are numbered in the order in which it got them.  Every new
scope comes with a handle, and to clone a handle is to get another one for the same scope.
-/

namespace Monkey

/-- A store, and the scope that each handle stands for. -/
structure Handles where
  store : Store
  scopes : Array ScopeId

namespace Handles

/-- What a host may do.  The first three give it the next handle. -/
inductive Op where
  | new
  | enclosed (k : Nat)
  | clone (k : Nat)
  | set (k : Nat) (x : String) (v : Value)
  | get (k : Nat) (x : String)

def empty : Handles := ⟨.empty, #[]⟩

variable (h : Handles)

-- Makes a scope and gives a handle to it.
def make (parent : Option ScopeId) : Handles := ⟨h.store.push parent, h.scopes.push h.store.next⟩

/-- What an operation leaves behind, unless it is on a handle that was never given. -/
def perform : Op → Option Handles
  | .new => some (h.make none)
  | .enclosed k => h.scopes[k]?.map fun i => h.make (some i)
  | .clone k => h.scopes[k]?.map fun i => { h with scopes := h.scopes.push i }
  | .set k x v => h.scopes[k]?.map fun i => { h with store := h.store.define i x v }
  | .get k _ => h.scopes[k]?.map fun _ => h

/-- What operations leave behind, one after the other. -/
def run (ops : List Op) : Option Handles := ops.foldlM perform empty

/-- The value of a name as seen through a handle. -/
def lookup (k : Nat) (x : String) : Option Value := h.scopes[k]?.bind (h.store.lookup · x)

/-- Whether two handles stand for one scope. -/
def same (j k : Nat) : Bool := h.scopes[j]? == h.scopes[k]?

end Handles

end Monkey
