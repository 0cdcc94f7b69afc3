import Monkey.Proofs.Run.Equality
import Monkey.Proofs.Run.Objects
import Monkey.Proofs.Session.Errors

/-!
# Identity — the values that there can be

Whoever holds a machine comes by values in few ways, and in none of them do two objects get one
identity.  So among the values of a machine that can be reached, those that are one and the same are
equal, and the equalities that there are between values agree with each other.
-/

namespace Monkey

open Value

/-! ## 1. Values at hand -/

/-- The machines that can be reached from an initial one, with the values that their holder has come
by: made, found in a scope or inside another value, or left by a program or a call. -/
inductive Obtained : Machine → List Value → Prop
  | initial (output : Output) : Obtained (.initial output) []
  | redirect {m vs} (output : Output) : Obtained m vs → Obtained (m.withOutput output) vs
  | create {m vs} (parent : Option ScopeId) : Obtained m vs → Obtained (m.pushScope parent) vs
  | plain {m vs v} : Obtained m vs → v.object? = none → Obtained m (v :: vs)
  | make {m vs v} : Obtained m vs → Made (fun _ => True) (· ∈ vs) m.nextObject v →
      Obtained m.takeObject (v :: vs)
  | bind {m vs v} (i : ScopeId) (x : String) : Obtained m vs → v ∈ vs →
      Obtained (m.define i x v) vs
  | lookup {m vs i x v} : Obtained m vs → m.store.lookup i x = some v → Obtained m (v :: vs)
  | part {m vs u v} : Obtained m vs → v ∈ vs → Part u v → Obtained m (u :: vs)
  | run {m vs n i p v m'} : Obtained m vs → Eval.program n i p m = some (v, m') →
      Obtained m' (v :: vs)
  | call {m vs n f args v m'} : Obtained m vs → f ∈ vs → (∀ a ∈ args, a ∈ vs) →
      Eval.apply (Eval.eval n) f args m = some (.ok v, m') → Obtained m' (v :: vs)
  -- A call that is stopped may have changed the machine too.
  | stop {m vs n f args s m'} : Obtained m vs → f ∈ vs → (∀ a ∈ args, a ∈ vs) →
      Eval.apply (Eval.eval n) f args m = some (.error s, m') → Obtained m' vs
  | defineMacros {m vs} (i : ScopeId) (p : Program) : Obtained m vs →
      Obtained (m.defineMacros i p) vs
  | expandMacros {m vs n i p r m'} : Obtained m vs → Eval.expandMacros n i p m = some (r, m') →
      Obtained m' vs

/-- The value is at hand or bound in some scope, or it is a part of one that is. -/
def Present (m : Machine) (vs : List Value) (u : Value) : Prop :=
  ∃ v, Part u v ∧
    (v ∈ vs ∨ ∃ (i : ScopeId) (s : Scope) (x : String),
      m.store.scopes[i]? = some s ∧ (x, v) ∈ s.bindings)

variable {m : Machine} {vs : List Value} {u v : Value}

/-! ## 2. Values at hand are registered -/

-- What is at hand stays registered while the machine changes, and so does what is new if it is.
theorem registered_cons {w w' : Registry} (hvs : ∀ v ∈ vs, v.Registered w.content)
    (hleads : Custody.objects.leads 0 w w') (hv : v.Registered w'.content) :
    ∀ u ∈ v :: vs, u.Registered w'.content :=
  List.forall_mem_cons.2 ⟨hv, fun u hu => (hvs u hu).mono hleads⟩

-- Each way to come by a value leads from one registry to the next.
theorem Obtained.registered (h : Obtained m vs) :
    ∃ w : Registry, w.machine = m ∧ ∀ v ∈ vs, v.Registered w.content := by
  have hK := Custody.objects_lawful
  induction h with
  | initial output => exact ⟨.initial output, rfl, nofun⟩
  | redirect output _ ih =>
    obtain ⟨w, rfl, hvs⟩ := ih
    exact ⟨w.on (w.machine.withOutput output) (Nat.le_refl _) w.bound, rfl, hvs⟩
  | create parent _ ih =>
    obtain ⟨w, rfl, hvs⟩ := ih
    exact ⟨w.pushScope parent, rfl, hvs⟩
  | plain _ hobject ih =>
    obtain ⟨w, rfl, hvs⟩ := ih
    exact ⟨w, rfl, List.forall_mem_cons.2 ⟨registered_of_no_object hobject, hvs⟩⟩
  | make _ hmade ih =>
    obtain ⟨w, rfl, hvs⟩ := ih
    obtain ⟨w', hw', hleads, hv⟩ := Registry.exists_made (hmade.mono (fun _ => id) hvs)
    exact ⟨w', hw', registered_cons hvs hleads hv⟩
  | bind i x _ hv ih =>
    obtain ⟨w, rfl, hvs⟩ := ih
    exact ⟨w.define i x (hvs _ hv), rfl, hvs⟩
  | lookup _ hv ih =>
    obtain ⟨w, rfl, hvs⟩ := ih
    exact ⟨w, rfl, List.forall_mem_cons.2 ⟨w.bound.of_lookup hv, hvs⟩⟩
  | part _ hv hpart ih =>
    obtain ⟨w, rfl, hvs⟩ := ih
    exact ⟨w, rfl, List.forall_mem_cons.2 ⟨(hvs _ hv).part hpart, hvs⟩⟩
  | run _ hp ih =>
    obtain ⟨w, rfl, hvs⟩ := ih
    obtain ⟨w', hw', hleads, hv | herror⟩ := hK.program (w := w) trivial hp
    · exact ⟨w', hw', registered_cons hvs hleads hv⟩
    · exact ⟨w', hw', registered_cons hvs hleads (registered_of_isError herror)⟩
  | @call m vs n f args v m' _ hf hargs hr ih =>
    obtain ⟨w, rfl, hvs⟩ := ih
    have hcall := hK.apply (i := 0) (hK.evaluates n) (hvs f hf) fun a ha => hvs a (hargs a ha)
    obtain ⟨w', hw', hleads, hv⟩ := hcall _ _ hr
    exact ⟨w', hw', registered_cons hvs hleads hv⟩
  | @stop m vs n f args s m' _ hf hargs hr ih =>
    obtain ⟨w, rfl, hvs⟩ := ih
    have hcall := hK.apply (i := 0) (hK.evaluates n) (hvs f hf) fun a ha => hvs a (hargs a ha)
    obtain ⟨w', hw', hleads, -⟩ := hcall _ _ hr
    exact ⟨w', hw', fun v hv => (hvs v hv).mono hleads⟩
  | defineMacros i p _ ih =>
    obtain ⟨w, rfl, hvs⟩ := ih
    obtain ⟨w', hw', hleads⟩ := hK.defineMacros (w := w) (j := i) trivial p
    exact ⟨w', hw', fun v hv => (hvs v hv).mono hleads⟩
  | expandMacros _ hr ih =>
    obtain ⟨w, rfl, hvs⟩ := ih
    obtain ⟨w', hw', hleads⟩ := hK.expandMacros (w := w) (i := 0) trivial hr
    exact ⟨w', hw', fun v hv => (hvs v hv).mono hleads⟩

-- What is present is a part of what is bound or at hand.
theorem Obtained.registered_of_present (h : Obtained m vs) : ∃ w : Registry,
    w.machine = m ∧ ∀ u, Present m vs u → u.Registered w.content := by
  obtain ⟨w, rfl, hvs⟩ := h.registered
  refine ⟨w, rfl, ?_⟩
  rintro u ⟨v, hpart, hv | ⟨i, s, x, hs, hb⟩⟩
  · exact (hvs v hv).part hpart
  · exact (w.bound i s (x, v) hs hb).part hpart

theorem Obtained.eq_of_identical (h : Obtained m vs) (hu : Present m vs u) (hv : Present m vs v)
    (huv : u.identical v = true) : u = v := by
  obtain ⟨w, -, hpresent⟩ := h.registered_of_present
  cases ho : u.object? with
  | none => exact Value.eq_of_identical huv ho
  | some o =>
    have ho' : v.object? = some o := (object?_eq_of_identical huv).symm.trans ho
    exact Registry.eq_of_object? (hpresent u hu) (hpresent v hv) ho ho'

-- An input of a session is one way to come by a value, that of its outcome.
theorem Obtained.eval {s s' : Session} {n : Nat} {source : String} {o : Outcome}
    (h : Obtained s.machine vs) (hs : s.eval n source = some (o, s')) :
    ∃ vs', Obtained s'.machine vs' ∧ ∀ v, o = .value v → v ∈ vs' := by
  have hmade := h.defineMacros s.macroScope (parseSource source).program
  cases Session.eval_eq_some_iff.1 hs with
  | unparsed => exact ⟨vs, h, nofun⟩
  | @unexpanded e m _ hexpand =>
    have hexpanded : Obtained m vs := hmade.expandMacros hexpand
    refine ⟨.error e :: vs, hexpanded.plain rfl, ?_⟩
    rintro v ⟨⟩
    exact List.mem_cons_self
  | @evaluated q m m' v _ hexpand hrun =>
    have hexpanded : Obtained m vs := hmade.expandMacros hexpand
    refine ⟨v :: vs, hexpanded.run hrun, fun u hu => ?_⟩
    rw [Session.eq_of_outcome hu]
    exact List.mem_cons_self

theorem Session.Reachable.obtained {s : Session} (h : s.Reachable) :
    ∃ vs, Obtained s.machine vs := by
  induction h with
  | initial output =>
    have hempty : Obtained ((Machine.initial output).pushScope none) [] :=
      (Obtained.initial output).create none
    exact ⟨[], hempty.create none⟩
  | eval _ hs ih =>
    obtain ⟨vs, hvs⟩ := ih
    obtain ⟨vs', hvs', -⟩ := hvs.eval hs
    exact ⟨vs', hvs'⟩

/-! ## 3. Equalities -/

/-- How the equalities between values agree, where `P` holds of all values that there are. -/
structure EqualitiesAgree (P : Value → Prop) : Prop where
  -- Two texts, and only they, are not compared by programs.
  not_compared {op : BinaryOp} (o : ObjectId) (u v : Value) : op = .eq ∨ op = .ne →
    ((∃ e, u.applyBinary o op v = .error e) ↔ u.type = .string ∧ v.type = .string)
  compared (o : ObjectId) (u v : Value) : ¬ (u.type = .string ∧ v.type = .string) →
    ∃ b : Bool, u.applyBinary o .eq v = .ok (.bool b) ∧ u.applyBinary o .ne v = .ok (.bool !b)
  -- On other values `==` is an equivalence,
  eq_refl (o : ObjectId) (u : Value) : u.type ≠ .string →
    u.applyBinary o .eq u = .ok (.bool true)
  eq_symm (o : ObjectId) (u v : Value) : u.applyBinary o .eq v = v.applyBinary o .eq u
  eq_trans (o : ObjectId) {u v w : Value} : u.applyBinary o .eq v = .ok (.bool true) →
    v.applyBinary o .eq w = .ok (.bool true) → u.applyBinary o .eq w = .ok (.bool true)
  -- and so is sameness on all values.
  same_equivalence : Equivalence fun u v : Value => u.same v = true
  -- Values that are one and the same, or equal for a program, have the same content.
  same_of_identical {u v : Value} : P u → P v → u.identical v = true → u.same v = true
  same_of_eq {u v : Value} (o : ObjectId) : P u → P v →
    u.applyBinary o .eq v = .ok (.bool true) → u.same v = true
  -- Those that can be keys are the same key just if they have the same content.
  key_eq_iff {u v : Value} {k l : HashKey} : u.key? = some k → v.key? = some l →
    (k = l ↔ u.same v = true)

/-- **The equalities between values agree** for whatever is present on a machine that can be
reached. -/
theorem equalities_agree (h : Obtained m vs) : EqualitiesAgree (Present m vs) := by
  have hsame {u v : Value} (hu : Present m vs u) (hv : Present m vs v)
      (huv : u.identical v = true) : u.same v = true := by
    obtain rfl := h.eq_of_identical hu hv huv
    exact same_refl u
  constructor
  case not_compared => exact fun o u v hop => applyBinary_eq_error_iff hop
  case compared =>
    exact fun o u v hstrings => ⟨_, applyBinary_eq hstrings o, applyBinary_ne hstrings o⟩
  case eq_refl =>
    intro o u hu
    rw [applyBinary_eq fun hstrings => hu hstrings.1, identical_refl]
  case eq_symm => exact fun o u v => applyBinary_eq_comm u v o
  case eq_trans => exact fun o {u v w} => applyBinary_eq_trans
  case same_equivalence => exact Value.same_equivalence
  case same_of_identical => exact hsame
  case same_of_eq => exact fun o hu hv huv => hsame hu hv (identical_of_applyBinary_eq huv)
  case key_eq_iff =>
    intro u v k l hk hl
    rw [same_comm, ← key?_eq_some_iff_same hk, hl, Option.some.injEq, eq_comm]

/-- Two arrays `[1]` have the same content and are not one and the same: `==` tells them apart. -/
theorem equal_arrays_apart :
    let m := (Machine.initial .silent).pushScope none
    let a := Value.array 0 [.int 1]
    let b := Value.array 1 [.int 1]
    let m' := (m.takeObject.define 0 "a" a).takeObject.define 0 "b" b
    Obtained m' [b, a] ∧ EqualitiesAgree (Present m' [b, a]) ∧ a.same b = true ∧
      a.applyBinary 2 .eq b = .ok (.bool false) := by
  intro m a b m'
  have hm : Obtained m [] := (Obtained.initial .silent).create none
  have hrun : Eval.program 3 0
      [.bind "a" (.array [.int 1]), .bind "b" (.array [.int 1]), .expr (.ident "a")] m =
        some (a, m') := rfl
  have hb : m'.store.lookup 0 "b" = some b := rfl
  have h := (hm.run hrun).lookup hb
  exact ⟨h, equalities_agree h, by simp [a, b, same, sameList], rfl⟩

end Monkey
