import Monkey.Proofs.Run.Congruence
import Monkey.Proofs.Run.Parallel
import Monkey.Proofs.Run.Printing

/-!
# Whole machines — all that is held is there

A program gets hold of a scope or an object only when it is made.  So on every machine that a
program can meet, all scopes that are captured and all objects that are held were made before, and
the next of either is a new one.
-/

namespace Monkey

open Store Value

namespace Machine

/-! ## 1. Whole machines -/

/-- The scopes and objects that were made, and any names. -/
def bounds (m : Machine) : Bounds where
  scope i := i < m.store.next
  object o := o < m.nextObject
  name _ := True

/-- Every bound value holds only what was made, and parents are older than their children. -/
structure Whole (m : Machine) : Prop where
  older {i p : ScopeId} {s : Scope} : m.store.scopes[i]? = some s → s.parent = some p → p < i
  sealed : m.store.Sealed m.bounds

variable {m m' : Machine} {i : ScopeId} {v : Value}

theorem names_true (e : Expr) : e.Names fun _ => True := fun _ _ _ _ => trivial

theorem whole_initial (output : Output) : (initial output).Whole := by
  have hnone {i : ScopeId} {s : Scope} (hs : (initial output).store.scopes[i]? = some s) : False :=
    absurd (lt_next_of_getElem? hs) (Nat.not_lt_zero i)
  exact ⟨fun hs => (hnone hs).elim, fun _ hs => (hnone hs).elim, fun _ hs => (hnone hs).elim⟩

theorem Whole.sealed_of_grows (h : m.Whole) (hm : m.Grows m') : m.store.Sealed m'.bounds :=
  h.sealed.mono (fun _ _ => lt_next_of_getElem?) (fun _ hi => Nat.lt_of_lt_of_le hi hm.scopes)
    (fun _ ho => Nat.lt_of_lt_of_le ho hm.objects) fun _ => id

theorem within_of_grows (hv : v.Within m.bounds) (hm : m.Grows m') : v.Within m'.bounds :=
  hv.mono (fun _ hi => Nat.lt_of_lt_of_le hi hm.scopes)
    (fun _ ho => Nat.lt_of_lt_of_le ho hm.objects) fun _ => id

theorem Whole.takeObject (h : m.Whole) : m.takeObject.Whole :=
  ⟨h.older, h.sealed_of_grows m.grows_takeObject⟩

theorem Whole.withOutput (h : m.Whole) (o : Output) : (m.withOutput o).Whole := ⟨h.older, h.sealed⟩

theorem Whole.define (h : m.Whole) (i : ScopeId) (x : String) (hv : v.Within m.bounds) :
    (m.define i x v).Whole := by
  have hgrows := m.grows_define i x v
  refine ⟨fun hs hp => ?_, (h.sealed_of_grows hgrows).define i x (within_of_grows hv hgrows)⟩
  obtain ⟨s', hs', hparent, -⟩ := exists_of_getElem?_define hs
  exact h.older hs' (hparent ▸ hp)

theorem Whole.pushScope (h : m.Whole) {parent : Option ScopeId}
    (hparent : ∀ p, parent = some p → p < m.store.next) : (m.pushScope parent).Whole := by
  have hgrows := m.grows_pushScope parent
  refine ⟨fun hs hp => ?_, (h.sealed_of_grows hgrows).push fun p hp => ?_⟩
  · rcases getElem?_push_eq_some hs with ⟨rfl, rfl⟩ | hs
    · exact hparent _ hp
    · exact h.older hs hp
  · exact Nat.lt_of_lt_of_le (hparent p hp) hgrows.scopes

theorem Whole.defineMacros (h : m.Whole) (hi : i < m.store.next) (p : Program) :
    (m.defineMacros i p).Whole := by
  unfold Machine.defineMacros
  induction p.macroDefinitions generalizing m with
  | nil => exact h
  | cons d ds ih =>
    have hmacro : (Value.macroFn m.nextObject ⟨d.2.1, d.2.2, i⟩).Within m.takeObject.bounds :=
      within_macroFn_iff.2 ⟨Nat.lt_succ_self _, hi, fun s _ => names_true s.value⟩
    refine ih (h.takeObject.define i d.1 hmacro) ?_
    exact Nat.lt_of_lt_of_le hi (m.takeObject.grows_define i d.1 _).scopes

end Machine

open Machine

namespace Simulation

/-! ## 2. A whole machine beside itself -/

/-- Both machines are one whole machine. -/
def itself : Simulation where
  ρ := .id
  name _ := True
  scope m i := i < m.store.next
  object m o := o < m.nextObject
  related m m' := m' = m ∧ m.Whole

theorem itself_lawful : itself.Lawful where
  object_injective _ _ h := h
  scope_mono hm hi := Nat.lt_of_lt_of_le hi hm.scopes
  object_mono hm ho := Nat.lt_of_lt_of_le ho hm.objects
  takeObject := by
    rintro _ m ⟨rfl, h⟩
    exact ⟨⟨rfl, h.takeObject⟩, Nat.lt_succ_self _, rfl⟩
  write := by
    rintro _ m text ⟨rfl, h⟩
    exact ⟨rfl, h.withOutput _⟩
  define := by
    rintro _ m i x v ⟨rfl, h⟩ _ hv
    exact ⟨congrArg (m.define i x) (rename_id v), h.define i x hv⟩
  lookup := by
    rintro _ m i x ⟨rfl, h⟩ hi _
    refine ⟨?_, fun v hv => h.sealed.within_of_lookupWithin hi hv⟩
    show m.store.lookup i x = (m.store.lookup i x).map (Value.rename .id)
    rw [rename_id_eq, Option.map_id]
    rfl
  enter := by
    rintro _ m i ⟨rfl, h⟩ hi
    exact ⟨⟨rfl, h.pushScope fun p hp => Option.some.inj hp ▸ hi⟩, m.next_lt_pushScope _, rfl⟩

variable {m m' : Machine} {α β : Type} {p : Eval α} {q : Eval β} {Q : Machine → α → β → Prop}
  {r : Except Stop α}

-- A computation that matches one on the same machine leaves a whole machine.
theorem whole_of_matches (h : itself.Matches m m p q Q) (hp : p m = some (r, m')) :
    m'.Whole ∧ m.Grows m' := by
  cases h with
  | unfinished hnone _ =>
    rw [hnone] at hp
    cases hp
  | ended hp' _ hgrows hrel _ =>
    rw [hp'] at hp
    cases hp
    exact ⟨hrel.2, hgrows⟩

end Simulation

open Simulation

namespace Machine

/-! ## 3. Runs -/

variable {m m' : Machine} {i : ScopeId} {n : Nat}

theorem Whole.apply (h : m.Whole) {f : Value} (hf : f.Within m.bounds) {args : List Value}
    (hargs : ∀ v ∈ args, v.Within m.bounds) {r : Except Stop Value}
    (hr : Eval.apply (Eval.eval n) f args m = some (r, m')) : m'.Whole ∧ m.Grows m' := by
  have htwins : itself.Twins m args args := by
    refine ⟨hargs, ?_⟩
    show args = args.map (rename .id)
    rw [rename_id_eq, List.map_id]
  have hmatches := itself_lawful.apply (itself_lawful.simulates n) ⟨rfl, h⟩
    ⟨hf, (rename_id f).symm⟩ htwins
  exact whole_of_matches hmatches hr

theorem Whole.program (h : m.Whole) (hi : i < m.store.next) {p : Program} {v : Value}
    (hp : Eval.program n i p m = some (v, m')) : m'.Whole ∧ m.Grows m' := by
  have hmatches := itself_lawful.stmts (itself_lawful.simulates n)
    (fun s (_ : s ∈ p) => names_true s.value) ⟨rfl, h⟩ hi
  rw [Eval.program_eq] at hp
  obtain ⟨⟨r, m₁⟩, hr, heq⟩ := Option.map_eq_some_iff.1 hp
  cases heq
  exact whole_of_matches hmatches hr

theorem Whole.expandMacros (h : m.Whole) (hi : i < m.store.next) {p : Program}
    {r : Except EvalError Program} (hr : Eval.expandMacros n i p m = some (r, m')) :
    m'.Whole ∧ m.Grows m' := by
  have hmatches := itself_lawful.expandProgram (itself_lawful.simulates n)
    (fun s (_ : s ∈ p) => names_true s.value) ⟨rfl, h⟩ hi
  rw [Eval.expandMacros_eq] at hr
  obtain ⟨⟨r', m₁⟩, hr', heq⟩ := Option.map_eq_some_iff.1 hr
  cases heq
  exact whole_of_matches hmatches hr'

end Machine

end Monkey
