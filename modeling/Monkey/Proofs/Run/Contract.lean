import Monkey.Eval.Basic
import Monkey.Proofs.Run.Pass

/-!
# Contracts — what every evaluation keeps to

A contract says which machines a program may run on, which scopes it may hold, and how the machine
may change while something is evaluated in a scope.  If the few things that evaluation does to a
machine keep to the contract, then so does all of evaluation.  This file has the contracts and the
rules by which a computation is shown to keep to one, from its start to its end.
-/

namespace Monkey

namespace Value

/-! ## 1. Parts of a value -/

/-- The scope that a function or a macro has captured. -/
def captured? : Value → Option ScopeId
  | fn _ f => some f.scope
  | macroFn _ f => some f.scope
  | _ => none

/-- The identity of an object. -/
def object? : Value → Option ObjectId
  | str o _ | array o _ | hash o _ | fn o _ | quote o _ | macroFn o _ => some o
  | _ => none

/-- `Part w v`: the value `v` is `w`, or holds it through elements of arrays and through keys and
values of hashes. -/
inductive Part : Value → Value → Prop
  | self (v : Value) : Part v v
  | elem {w v i vs} : v ∈ vs → Part w v → Part w (.array i vs)
  | key {w e i es} : e ∈ es → Part w e.2.key → Part w (.hash i es)
  | value {w e i es} : e ∈ es → Part w e.2.value → Part w (.hash i es)

/-- The values without parts that capture nothing and are no errors. -/
def isPlain : Value → Bool
  | int _ | bool _ | null | str _ _ | builtin _ | quote _ _ => true
  | _ => false

theorem part_array_iff {w : Value} {i : ObjectId} {vs : List Value} :
    Part w (.array i vs) ↔ w = .array i vs ∨ ∃ v ∈ vs, Part w v := by
  apply Iff.intro
  · intro h
    rcases h with _ | ⟨hv, hw⟩
    · exact .inl rfl
    · exact .inr ⟨_, hv, hw⟩
  · intro h
    rcases h with rfl | ⟨v, hv, hw⟩
    · exact .self _
    · exact .elem hv hw

theorem part_hash_iff {w : Value} {i : ObjectId} {es : Pairs} :
    Part w (.hash i es) ↔
      w = .hash i es ∨ ∃ e ∈ es, Part w e.2.key ∨ Part w e.2.value := by
  apply Iff.intro
  · intro h
    rcases h with _ | _ | ⟨he, hw⟩ | ⟨he, hw⟩
    · exact .inl rfl
    · exact .inr ⟨_, he, .inl hw⟩
    · exact .inr ⟨_, he, .inr hw⟩
  · intro h
    rcases h with rfl | ⟨e, he, hw | hw⟩
    · exact .self _
    · exact .key he hw
    · exact .value he hw

theorem Part.trans {u v w : Value} (h : Part u v) (h' : Part v w) : Part u w := by
  induction h' with
  | self => exact h
  | elem hv _ ih => exact .elem hv ih
  | key he _ ih => exact .key he ih
  | value he _ ih => exact .value he ih

/-- Whatever the value holds, itself included, is of the class `P`. -/
def Every (P : Value → Prop) (v : Value) : Prop := ∀ w, Part w v → P w

section

variable {P Q : Value → Prop} {v w : Value} {o : ObjectId}

theorem Every.self (h : v.Every P) : P v := h v (.self v)

theorem Every.part (h : v.Every P) (hw : Part w v) : w.Every P :=
  fun u hu => h u (hu.trans hw)

theorem Every.imp (h : v.Every P) (hPQ : ∀ w, P w → Q w) : v.Every Q :=
  fun w hw => hPQ w (h w hw)

-- Arrays and hashes apart, a value is its own and only part.
theorem every_iff_of_no_part (hself : ∀ w, Part w v → w = v) : v.Every P ↔ P v :=
  ⟨Every.self, fun h w hw => hself w hw ▸ h⟩

-- What is no object has no parts.
theorem every_iff_of_object?_eq_none (h : v.object? = none) : v.Every P ↔ P v :=
  every_iff_of_no_part fun w hw => by
    cases hw with
    | self => rfl
    | elem _ _ | key _ _ | value _ _ => cases h

@[simp] theorem every_int_iff {n : Int64} : (int n).Every P ↔ P (int n) :=
  every_iff_of_no_part fun w hw => by cases hw; rfl

@[simp] theorem every_bool_iff {b : Bool} : (bool b).Every P ↔ P (bool b) :=
  every_iff_of_no_part fun w hw => by cases hw; rfl

@[simp] theorem every_null_iff : null.Every P ↔ P null :=
  every_iff_of_no_part fun w hw => by cases hw; rfl

@[simp] theorem every_str_iff {text : String} : (str o text).Every P ↔ P (str o text) :=
  every_iff_of_no_part fun w hw => by cases hw; rfl

@[simp] theorem every_builtin_iff {b : Builtin} : (builtin b).Every P ↔ P (builtin b) :=
  every_iff_of_no_part fun w hw => by cases hw; rfl

@[simp] theorem every_quote_iff {node : Expr} : (quote o node).Every P ↔ P (quote o node) :=
  every_iff_of_no_part fun w hw => by cases hw; rfl

@[simp] theorem every_fn_iff {f : Closure} : (fn o f).Every P ↔ P (fn o f) :=
  every_iff_of_no_part fun w hw => by cases hw; rfl

@[simp] theorem every_macroFn_iff {f : Closure} : (macroFn o f).Every P ↔ P (macroFn o f) :=
  every_iff_of_no_part fun w hw => by cases hw; rfl

@[simp] theorem every_error_iff {e : EvalError} : (error e).Every P ↔ P (error e) :=
  every_iff_of_no_part fun w hw => by cases hw; rfl

@[simp] theorem every_array_iff {vs : List Value} :
    (array o vs).Every P ↔ P (array o vs) ∧ ∀ v ∈ vs, v.Every P := by
  apply Iff.intro
  · exact fun h => ⟨h.self, fun v hv w hw => h w (.elem hv hw)⟩
  · rintro ⟨hself, hvs⟩ w hw
    rcases part_array_iff.1 hw with rfl | ⟨v, hv, hw⟩
    · exact hself
    · exact hvs v hv w hw

@[simp] theorem every_hash_iff {es : Pairs} : (hash o es).Every P ↔
    P (hash o es) ∧ ∀ e ∈ es, e.2.key.Every P ∧ e.2.value.Every P := by
  apply Iff.intro
  · intro h
    exact ⟨h.self, fun e he => ⟨fun w hw => h w (.key he hw), fun w hw => h w (.value he hw)⟩⟩
  · rintro ⟨hself, hes⟩ w hw
    rcases part_hash_iff.1 hw with rfl | ⟨e, he, hw | hw⟩
    · exact hself
    · exact (hes e he).1 w hw
    · exact (hes e he).2 w hw

end

/-- Every part of the value that captures a scope captures one of the class `S`, and no part is an
error unless errors may be held. -/
def Fits (S : ScopeId → Prop) (errors : Prop) (v : Value) : Prop :=
  ∀ w, Part w v → (∀ i, w.captured? = some i → S i) ∧ (w.isError = true → errors)

section

variable {S T : ScopeId → Prop} {errors : Prop} {v w : Value}

theorem Fits.mono (h : v.Fits S errors) (hST : ∀ i, S i → T i) : v.Fits T errors :=
  Every.imp h fun _ hw => ⟨fun i hi => hST i (hw.1 i hi), hw.2⟩

theorem Fits.part (h : v.Fits S errors) (hw : Part w v) : w.Fits S errors := Every.part h hw

theorem fits_plain (h : v.isPlain = true) : v.Fits S errors := by
  intro w hw
  cases hw with
  | self => cases v <;> simp_all [isPlain, captured?, isError]
  | elem _ _ | key _ _ | value _ _ => cases h

theorem fits_array_iff {o : ObjectId} {vs : List Value} :
    (array o vs).Fits S errors ↔ ∀ v ∈ vs, v.Fits S errors :=
  every_array_iff.trans (and_iff_right ⟨nofun, nofun⟩)

theorem fits_hash_iff {o : ObjectId} {es : Pairs} : (hash o es).Fits S errors ↔
    ∀ e ∈ es, e.2.key.Fits S errors ∧ e.2.value.Fits S errors :=
  every_hash_iff.trans (and_iff_right ⟨nofun, nofun⟩)

theorem fits_fn_iff {o : ObjectId} {f : Closure} : (fn o f).Fits S errors ↔ S f.scope := by
  refine every_fn_iff.trans ⟨fun h => h.1 _ rfl, fun h => ⟨?_, nofun⟩⟩
  exact fun i hi => Option.some.inj hi ▸ h

theorem fits_macroFn_iff {o : ObjectId} {f : Closure} :
    (macroFn o f).Fits S errors ↔ S f.scope := by
  refine every_macroFn_iff.trans ⟨fun h => h.1 _ rfl, fun h => ⟨?_, nofun⟩⟩
  exact fun i hi => Option.some.inj hi ▸ h

theorem fits_error_iff {e : EvalError} : (error e).Fits S errors ↔ errors :=
  every_error_iff.trans ⟨fun h => h.2 rfl, fun h => ⟨nofun, fun _ => h⟩⟩

end

end Value

open Value

/-! ## 2. Contracts -/

/-- What evaluation has to keep to. -/
structure Contract where
  -- The machines that programs run on.
  inv : Machine → Prop
  -- The scopes that values may capture and programs run in.
  scope : Machine → ScopeId → Prop
  -- Whether an error may be held as a value.
  errors : Prop
  -- How the machine may change while something is evaluated in a scope.
  leads : ScopeId → Machine → Machine → Prop

namespace Contract

variable (C : Contract)

/-- What a value may hold. -/
def Allows (m : Machine) (v : Value) : Prop := v.Fits (C.scope m) C.errors

/-- How evaluation in a scope may take one machine to another. -/
structure Follows (i : ScopeId) (m m' : Machine) : Prop where
  inv : C.inv m'
  leads : C.leads i m m'

-- What a computation may come to.
def Ends {α : Type} (Q : Machine → α → Prop) (m : Machine) : Except Stop α → Prop
  | .ok a => Q m a
  | .error (.returned v) => C.Allows m v
  | .error (.failed _) => True

/-- Whenever `p` ends from `m`, it has led to a machine within the contract and to a result of the
class `Q`. -/
def Keeps {α : Type} (i : ScopeId) (m : Machine) (p : Eval α) (Q : Machine → α → Prop) : Prop :=
  ∀ r m', p m = some (r, m') → C.Follows i m m' ∧ C.Ends Q m' r

/-- The things that evaluation does to a machine keep to the contract. -/
structure Lawful : Prop where
  refl (i : ScopeId) (m : Machine) : C.leads i m m
  trans {i : ScopeId} {m₁ m₂ m₃ : Machine} : C.leads i m₁ m₂ → C.leads i m₂ m₃ → C.leads i m₁ m₃
  scope_mono {i j : ScopeId} {m m' : Machine} : C.leads i m m' → C.scope m j → C.scope m' j
  takeObject (i : ScopeId) {m : Machine} : C.inv m → C.Follows i m m.takeObject
  write (i : ScopeId) (text : String) {m : Machine} : C.inv m → C.Follows i m (m.write text)
  define {i : ScopeId} {m : Machine} (x : String) {v : Value} :
    C.inv m → C.scope m i → C.Allows m v → C.Follows i m (m.define i x v)
  lookup {i : ScopeId} {m : Machine} {x : String} {v : Value} :
    C.inv m → C.scope m i → m.store.lookup i x = some v → C.Allows m v
  -- A call makes a scope of its own,
  enter {i : ScopeId} {m : Machine} : C.inv m → C.scope m i →
    C.inv (m.pushScope (some i)) ∧ C.scope (m.pushScope (some i)) m.store.next
  -- and what it did there is allowed wherever it was called.
  leave (i : ScopeId) {j : ScopeId} {m m' : Machine} :
    C.leads m.store.next (m.pushScope (some j)) m' → C.leads i m m'

end Contract

end Monkey
