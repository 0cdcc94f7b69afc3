import Mathlib.Logic.Function.Basic
import Monkey.Proofs.Run.Evaluator
import Monkey.Proofs.Run.Lookup

/-!
# Objects — what has one identity is one

A value carries the identities of the objects that it consists of, and nothing on a machine says
what an identity stands for.  But an identity is taken once, when the object is made, and from then
on values are only taken apart and put together.  So there is a registry of the objects that were
made, and each value that is bound or held consists of what stands there.
-/

namespace Monkey

open Store Value

/-- All objects of which the value consists stand in the registry under their identities. -/
def Value.Registered (content : ObjectId → Option Value) (v : Value) : Prop :=
  v.Every fun u => ∀ o, u.object? = some o → content o = some u

/-- A machine, with a registry of the objects that were made on it. -/
structure Registry where
  machine : Machine
  content : ObjectId → Option Value
  unmade {o : ObjectId} : machine.nextObject ≤ o → content o = none
  bound : machine.store.BindsOnly (Registered content)

namespace Value

variable {content content' : ObjectId → Option Value} {v : Value} {o : ObjectId}

theorem Registered.mono (h : v.Registered content)
    (hcontent : ∀ o u, content o = some u → content' o = some u) : v.Registered content' :=
  Every.imp h fun u hu o ho => hcontent o u (hu o ho)

-- What is no object does not consist of any.
theorem registered_of_no_object (h : v.object? = none) : v.Registered content := by
  refine (every_iff_of_object?_eq_none h).2 fun o ho => ?_
  rw [h] at ho
  cases ho

theorem registered_of_isError (h : v.isError = true) : v.Registered content := by
  cases v with
  | error e => exact registered_of_no_object rfl
  | _ => cases h

-- An object that is made of registered ones is registered where it stands in the registry itself.
theorem Made.registered {scope : ScopeId → Prop} (hv : Made scope (Registered content) o v)
    (hcontent : ∀ o u, content o = some u → content' o = some u)
    (hself : v.object? = some o → content' o = some v) : v.Registered content' := by
  have hobject {u : Value} (hu : u.object? = some o) (hstands : content' o = some u) :
      ∀ o', u.object? = some o' → content' o' = some u := by
    intro o' ho'
    rw [hu] at ho'
    cases ho'
    exact hstands
  cases hv with
  | plain hnone _ => exact registered_of_no_object hnone
  | str text => exact every_str_iff.2 (hobject rfl (hself rfl))
  | quote node => exact every_quote_iff.2 (hobject rfl (hself rfl))
  | array hvs =>
    exact every_array_iff.2 ⟨hobject rfl (hself rfl), fun v hv => (hvs v hv).mono hcontent⟩
  | hash ht =>
    refine every_hash_iff.2 ⟨hobject rfl (hself rfl), fun e he => ?_⟩
    exact (ht e he).imp (·.mono hcontent) (·.mono hcontent)
  | fn _ => exact every_fn_iff.2 (hobject rfl (hself rfl))
  | macroFn _ => exact every_macroFn_iff.2 (hobject rfl (hself rfl))

end Value

namespace Registry

variable {w : Registry} {m : Machine} {i : ScopeId} {v : Value}

/-- No objects, on the machine before anything was run. -/
def initial (output : Output) : Registry where
  machine := .initial output
  content _ := none
  unmade _ := rfl
  bound := bindsOnly_empty

/-- The same objects, on a machine that binds nothing but them. -/
def on (w : Registry) (m : Machine) (hnext : w.machine.nextObject ≤ m.nextObject)
    (hbound : m.store.BindsOnly (Registered w.content)) : Registry where
  machine := m
  content := w.content
  unmade ho := w.unmade (Nat.le_trans hnext ho)
  bound := hbound

-- The next identity stands for nothing yet, so an object under it takes no other's place.
theorem update_content {o : ObjectId} {u : Value} (h : w.content o = some u) (v : Value) :
    Function.update w.content w.machine.nextObject (some v) o = some u := by
  have hne : o ≠ w.machine.nextObject := by
    rintro rfl
    rw [w.unmade (Nat.le_refl _)] at h
    cases h
  exact (Function.update_of_ne hne _ _).trans h

/-- The same objects and one more, whose identity is the one that was to be taken next. -/
def add (w : Registry) (v : Value) : Registry where
  machine := w.machine.takeObject
  content := Function.update w.content w.machine.nextObject (some v)
  unmade {o} ho := by
    rw [Function.update_of_ne (Nat.ne_of_gt ho)]
    exact w.unmade (Nat.le_of_succ_le ho)
  bound := w.bound.imp fun _ hu => hu.mono fun _ _ hu => update_content hu v

def define (w : Registry) (i : ScopeId) (x : String) (hv : v.Registered w.content) : Registry :=
  w.on (w.machine.define i x v) (Nat.le_refl _) (w.bound.define i x hv)

def pushScope (w : Registry) (parent : Option ScopeId) : Registry :=
  w.on (w.machine.pushScope parent) (Nat.le_refl _) (w.bound.push parent)

-- A value that is made of registered ones can be added, whatever pairs it may hold if it is a hash.
theorem exists_made {scope : ScopeId → Prop}
    (hv : Made scope (Value.Registered w.content) w.machine.nextObject v) :
    ∃ w' : Registry, w'.machine = w.machine.takeObject ∧
      (∀ o u, w.content o = some u → w'.content o = some u) ∧ v.Registered w'.content := by
  have hcontent := fun o u (hu : w.content o = some u) => update_content hu v
  refine ⟨w.add v, rfl, hcontent, hv.registered hcontent fun _ => ?_⟩
  exact Function.update_self _ _ _

-- Values of one identity that consist of registered objects are one object.
theorem eq_of_object? {u v : Value} {o : ObjectId} (hu : u.Registered w.content)
    (hv : v.Registered w.content) (huo : u.object? = some o) (hvo : v.object? = some o) :
    u = v := by
  have heq : some u = some v := (hu.self o huo).symm.trans (hv.self o hvo)
  exact Option.some.inj heq

end Registry

namespace Custody

/-- The registries, with everything in them that was ever made. -/
def objects : Custody where
  World := Registry
  machine := Registry.machine
  scope _ _ := True
  holds w v := v.Registered w.content
  leads _ w w' := ∀ o v, w.content o = some v → w'.content o = some v

theorem objects_lawful : objects.Lawful where
  refl _ _ _ _ h := h
  trans h h' o v hv := h' o v (h o v hv)
  scope_mono _ _ := trivial
  holds_mono h hv := hv.mono h
  plain _ _ hobject _ := registered_of_no_object hobject
  part h hu := Every.part h hu
  captured _ _ := trivial
  make _ _ _ hv _ := Registry.exists_made hv
  write _ w text := ⟨w.on (w.machine.write text) (Nat.le_refl _) w.bound, rfl, fun _ _ h => h⟩
  define {i w} x _ _ hv := ⟨w.define i x hv, rfl, fun _ _ h => h⟩
  lookup {_ w _ _} _ hv := w.bound.of_lookup hv
  call {w j} _ := ⟨w.pushScope (some j), rfl, trivial, fun _ _ h => h⟩

end Custody

end Monkey
