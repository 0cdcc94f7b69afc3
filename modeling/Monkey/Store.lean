import Monkey.Value.Basic

/-!
# Scopes — where names are bound

A store holds every scope that was ever made.  A scope has bindings of its own and, unless it is
outermost, a parent made before it, in which names are looked up that it does not bind.  Closures
share scopes, so a binding made later is seen by all who hold the scope.
-/

namespace Monkey

/-- Bindings, and the scope around them. -/
structure Scope where
  bindings : Table String Value
  parent : Option ScopeId

/-- For tracing: how many names the scope binds, and whether it has a parent. -/
def Scope.inspect (s : Scope) : String :=
  s!"Environment \x7b bindings: {s.bindings.length}, enclosed: {s.parent.isSome} \x7d"

/-- Every scope that was made, numbered from zero. -/
structure Store where
  scopes : Array Scope

namespace Store

def empty : Store := ⟨#[]⟩

/-- The number that the next scope gets. -/
def next (σ : Store) : ScopeId := σ.scopes.size

/-- Adds a scope without bindings, whose number is `σ.next`. -/
def push (σ : Store) (parent : Option ScopeId) : Store := ⟨σ.scopes.push ⟨[], parent⟩⟩

/-- Binds a name in the scope itself, whatever the scopes around it bind. -/
def define (σ : Store) (id : ScopeId) (x : String) (v : Value) : Store :=
  ⟨σ.scopes.modify id fun s => { s with bindings := s.bindings.insert x v }⟩

/-- Looks a name up in at most `n` scopes, from scope `id` outward. -/
def lookupWithin (σ : Store) (x : String) : Nat → ScopeId → Option Value
  | 0, _ => none
  | n + 1, id =>
    match σ.scopes[id]? with
    | none => none
    | some s =>
      match s.bindings.get? x with
      | some v => some v
      | none =>
        match s.parent with
        | some p => lookupWithin σ x n p
        | none => none

/-- The value of a name as seen from scope `id`.  A parent has a smaller number than its child, so
no more than `id + 1` scopes can be on the way outward. -/
def lookup (σ : Store) (id : ScopeId) (x : String) : Option Value := σ.lookupWithin x (id + 1) id

variable (σ : Store)

@[simp] theorem next_push (parent : Option ScopeId) : (σ.push parent).next = σ.next + 1 := by
  simp [push, next]

@[simp] theorem next_define (id : ScopeId) (x : String) (v : Value) :
    (σ.define id x v).next = σ.next := by
  simp [define, next]

-- A new scope changes none of those that were there before.
theorem getElem?_push_of_lt {i : ScopeId} (h : i < σ.next) (parent : Option ScopeId) :
    (σ.push parent).scopes[i]? = σ.scopes[i]? := by
  have hne : i ≠ σ.scopes.size := Nat.ne_of_lt h
  simp [push, Array.getElem?_push, hne]

@[simp] theorem getElem?_push_next (parent : Option ScopeId) :
    (σ.push parent).scopes[σ.next]? = some ⟨[], parent⟩ := by
  simp [push, next]

-- A binding changes no other scope.
theorem getElem?_define_of_ne {i id : ScopeId} (h : i ≠ id) (x : String) (v : Value) :
    (σ.define id x v).scopes[i]? = σ.scopes[i]? := by
  simp [define, Array.getElem?_modify, h.symm]

-- A binding keeps the scope around the scope that it is made in.
theorem getElem?_define_self (id : ScopeId) (x : String) (v : Value) :
    (σ.define id x v).scopes[id]? =
      σ.scopes[id]?.map fun s => { s with bindings := s.bindings.insert x v } := by
  simp [define, Array.getElem?_modify]

end Store

end Monkey
