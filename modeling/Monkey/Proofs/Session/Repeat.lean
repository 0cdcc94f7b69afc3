import Monkey.Proofs.Run.Ends
import Monkey.Proofs.Run.Whole
import Monkey.Proofs.Session.Chain
import Monkey.Proofs.Session.Errors

/-!
# Repetition — a call that is made twice

A call writes to no scope that was there, so a second call of the same function with the same
arguments finds what the first one found.  It runs on a larger store, however, and makes scopes and
objects of its own.  That is all the difference: the n-th scope or object that the second call makes
stands for the n-th that the first one made.
-/

namespace Monkey

open Store Value

/-! ## 1. Shifted numbers -/

/-- Numbers from `base` on moved up by `d`. -/
def shiftFrom (base d k : Nat) : Nat := if k < base then k else k + d

section

variable {base d k l : Nat}

theorem shiftFrom_of_lt (h : k < base) : shiftFrom base d k = k := if_pos h

theorem shiftFrom_of_le (h : base ≤ k) : shiftFrom base d k = k + d := if_neg (Nat.not_lt.2 h)

theorem le_shiftFrom : k ≤ shiftFrom base d k := by
  unfold shiftFrom
  split
  · exact Nat.le_refl k
  · exact Nat.le_add_right k d

theorem shiftFrom_succ (h : base ≤ k) : shiftFrom base d (k + 1) = shiftFrom base d k + 1 := by
  rw [shiftFrom_of_le h, shiftFrom_of_le (Nat.le_succ_of_le h), Nat.add_right_comm]

theorem shiftFrom_lt_iff (hk : base ≤ k) (hl : base ≤ l) :
    shiftFrom base d k < shiftFrom base d l ↔ k < l := by
  rw [shiftFrom_of_le hk, shiftFrom_of_le hl]
  exact Nat.add_lt_add_iff_right

-- What is moved by the distance from `base` to `l` comes to stand behind `l`.
theorem le_shiftFrom_sub (hl : base ≤ l) (hk : base ≤ k) : l ≤ shiftFrom base (l - base) k := by
  rw [shiftFrom_of_le hk]
  omega

theorem shiftFrom_injective (base d : Nat) : Function.Injective (shiftFrom base d) := by
  intro k l h
  unfold shiftFrom at h
  split at h <;> split at h <;> omega

end

namespace Renaming

/-- What there is on `m` keeps its name, and what is made then is moved behind what there is on
`m₁`. -/
def past (m m₁ : Machine) : Renaming where
  scope := shiftFrom m.store.next (m₁.store.next - m.store.next)
  object := shiftFrom m.nextObject (m₁.nextObject - m.nextObject)

theorem past_fixes (m m₁ : Machine) : (past m m₁).Fixes m.bounds :=
  ⟨fun _ => shiftFrom_of_lt, fun _ => shiftFrom_of_lt⟩

end Renaming

namespace Store

/-! ## 2. Lookups in a renamed store -/

variable {ρ : Renaming} {σ τ : Store}

theorem lookupWithin_rename
    (h : ∀ i, τ.scopes[ρ.scope i]? = (σ.scopes[i]?).map (Scope.rename ρ)) (x : String) (n : Nat)
    (i : ScopeId) :
    τ.lookupWithin x n (ρ.scope i) = (σ.lookupWithin x n i).map (Value.rename ρ) := by
  refine lookupWithin_eq_map (A := fun _ => True) (fun j _ => ?_) (fun _ _ _ => trivial) n trivial
  rw [h j, Option.map_map]
  congr 1
  funext s
  exact congrArg (·, s.parent.map ρ.scope) (Table.get?_mapValues _ x s.bindings)

end Store

theorem Scope.rename_eq {ρ : Renaming} {B : Bounds} (hρ : ρ.Fixes B) {s : Scope}
    (hbindings : ∀ b ∈ s.bindings, b.2.Within B) (hparent : ∀ p, s.parent = some p → B.scope p) :
    s.rename ρ = s := by
  obtain ⟨bindings, parent⟩ := s
  have hb : bindings.mapValues (Value.rename ρ) = bindings := by
    refine (List.map_congr_left fun b hb => ?_).trans (List.map_id bindings)
    show (b.1, b.2.rename ρ) = b
    rw [Value.rename_eq hρ (hbindings b hb)]
  have hp : parent.map ρ.scope = parent := by
    cases parent with
    | none => rfl
    | some p => exact congrArg some (hρ.scope p (hparent p rfl))
  exact congrArg₂ Scope.mk hb hp

namespace Machine

variable {m m₁ : Machine}

theorem Whole.closed (h : m.Whole) : m.store.Closed where
  lt_next := id
  parent hi hs hp := ⟨h.sealed.parent hi hs hp, h.older hs hp⟩
  fits hi hs hb w hw := ⟨(h.sealed.within hi hs hb w hw).scope, fun _ => trivial⟩

-- A lookup that may go further than it has to finds the same.
theorem Whole.lookupWithin_eq (h : m.Whole) {i : ScopeId} (hi : i < m.store.next) (x : String)
    {n : Nat} (hn : i < n) : m.store.lookupWithin x n i = m.store.lookup i x := by
  obtain ⟨ss, hchain, hlength⟩ := h.closed.exists_chain hi
  have hlookup : m.store.lookup i x = _ := hchain.lookupWithin_eq x hlength
  rw [hlookup]
  exact hchain.lookupWithin_eq x (Nat.le_trans hlength hn)

/-! ## 3. Shifted machines -/

/-- The machine `m'` has what `m` has, under the names of `ρ`, and both have written one text behind
what `o` and `o'` held. -/
structure Shifted (ρ : Renaming) (o o' : Output) (m m' : Machine) : Prop where
  next_eq : m'.store.next = ρ.scope m.store.next
  nextObject_eq : m'.nextObject = ρ.object m.nextObject
  scopes_eq : ∀ i, m'.store.scopes[ρ.scope i]? = (m.store.scopes[i]?).map (Scope.rename ρ)
  output_eq : ∃ t, m.output = o.write t ∧ m'.output = o'.write t

variable {ρ : Renaming} {o o' : Output} {m' : Machine}

theorem Shifted.takeObject (h : Shifted ρ o o' m m')
    (hnext : ρ.object (m.nextObject + 1) = ρ.object m.nextObject + 1) :
    Shifted ρ o o' m.takeObject m'.takeObject :=
  ⟨h.next_eq, (congrArg (· + 1) h.nextObject_eq).trans hnext.symm, h.scopes_eq, h.output_eq⟩

theorem Shifted.write (h : Shifted ρ o o' m m') (text : String) :
    Shifted ρ o o' (m.write text) (m'.write text) := by
  obtain ⟨t, ht, ht'⟩ := h.output_eq
  refine ⟨h.next_eq, h.nextObject_eq, h.scopes_eq, t ++ text, ?_, ?_⟩
  · exact (congrArg (·.write text) ht).trans (Output.write_append t text o).symm
  · exact (congrArg (·.write text) ht').trans (Output.write_append t text o').symm

theorem Shifted.define (h : Shifted ρ o o' m m') (hρ : Function.Injective ρ.scope) (i : ScopeId)
    (x : String) (v : Value) :
    Shifted ρ o o' (m.define i x v) (m'.define (ρ.scope i) x (v.rename ρ)) := by
  refine ⟨?_, h.nextObject_eq, fun j => ?_, h.output_eq⟩
  · show (m'.store.define _ _ _).next = ρ.scope (m.store.define _ _ _).next
    rw [next_define, next_define, h.next_eq]
  · show (m'.store.define (ρ.scope i) x (v.rename ρ)).scopes[ρ.scope j]? =
      ((m.store.define i x v).scopes[j]?).map (Scope.rename ρ)
    by_cases hj : j = i
    · subst hj
      rw [getElem?_define_self, getElem?_define_self, h.scopes_eq j, Option.map_map, Option.map_map]
      congr 1
      funext s
      exact congrArg₂ Scope.mk (Table.insert_mapValues (Value.rename ρ) x v s.bindings) rfl
    · rw [getElem?_define_of_ne _ fun he => hj (hρ he), getElem?_define_of_ne _ hj, h.scopes_eq j]

theorem Shifted.pushScope (h : Shifted ρ o o' m m') (hρ : Function.Injective ρ.scope)
    (hnext : ρ.scope (m.store.next + 1) = ρ.scope m.store.next + 1) (i : ScopeId) :
    Shifted ρ o o' (m.pushScope (some i)) (m'.pushScope (some (ρ.scope i))) := by
  refine ⟨?_, h.nextObject_eq, fun j => ?_, h.output_eq⟩
  · show (m'.store.push _).next = ρ.scope (m.store.push _).next
    rw [next_push, next_push, h.next_eq, hnext]
  · show (m'.store.scopes.push _)[ρ.scope j]? =
      ((m.store.scopes.push _)[j]?).map (Scope.rename ρ)
    have hsize : m'.store.scopes.size = ρ.scope m.store.scopes.size := h.next_eq
    rw [Array.getElem?_push, Array.getElem?_push, hsize, h.scopes_eq j]
    by_cases hj : j = m.store.scopes.size
    · rw [if_pos hj, if_pos (congrArg ρ.scope hj)]
      rfl
    · rw [if_neg hj, if_neg fun he => hj (hρ he)]

end Machine

open Machine Renaming

namespace Simulation

/-- The second run starts from `m₁`, which the first one has left that started from `m₀`. -/
def repetition (m₀ m₁ : Machine) : Simulation where
  ρ := past m₀ m₁
  name _ := True
  scope m i := i < m.store.next
  object m o := o < m.nextObject
  related m m' := m.Whole ∧ m₀.Grows m ∧ Shifted (past m₀ m₁) m₀.output m₁.output m m'

theorem repetition_lawful (m₀ m₁ : Machine) : (repetition m₀ m₁).Lawful where
  object_injective := shiftFrom_injective _ _
  scope_mono hm hi := Nat.lt_of_lt_of_le hi hm.scopes
  object_mono hm ho := Nat.lt_of_lt_of_le ho hm.objects
  takeObject := by
    rintro m m' ⟨hwhole, hgrows, hshifted⟩
    refine ⟨⟨hwhole.takeObject, hgrows.trans m.grows_takeObject, ?_⟩, Nat.lt_succ_self _,
      hshifted.nextObject_eq⟩
    exact hshifted.takeObject (shiftFrom_succ hgrows.objects)
  write := by
    rintro m m' text ⟨hwhole, hgrows, hshifted⟩
    exact ⟨hwhole.withOutput _, ⟨hgrows.scopes, hgrows.objects⟩, hshifted.write text⟩
  define := by
    rintro m m' i x v ⟨hwhole, hgrows, hshifted⟩ _ hv
    exact ⟨hwhole.define i x hv, hgrows.trans (m.grows_define i x v),
      hshifted.define (shiftFrom_injective _ _) i x v⟩
  lookup := by
    rintro m m' i x ⟨hwhole, -, hshifted⟩ hi _
    refine ⟨?_, fun v hv => hwhole.sealed.within_of_lookupWithin hi hv⟩
    -- the second lookup may go further, since its scope has a larger number
    have hle : i < (past m₀ m₁).scope i + 1 := Nat.lt_succ_of_le le_shiftFrom
    rw [← hwhole.lookupWithin_eq hi x hle]
    exact lookupWithin_rename hshifted.scopes_eq x _ i
  enter := by
    rintro m m' i ⟨hwhole, hgrows, hshifted⟩ hi
    refine ⟨⟨?_, hgrows.trans (m.grows_pushScope (some i)), ?_⟩, m.next_lt_pushScope _,
      hshifted.next_eq⟩
    · exact hwhole.pushScope fun p hp => Option.some.inj hp ▸ hi
    · exact hshifted.pushScope (shiftFrom_injective _ _) (shiftFrom_succ hgrows.scopes) i

end Simulation

namespace Machine

/-! ## 4. Machines that can be reached -/

/-- The machines that can be reached from an initial one, by running programs and by what a holder
of the machine may do between runs. -/
inductive Reachable : Machine → Prop
  | initial (output : Output) : Reachable (.initial output)
  | redirect {m : Machine} (output : Output) : Reachable m → Reachable (m.withOutput output)
  | create {m : Machine} {parent : Option ScopeId} : Reachable m →
      (∀ p, parent = some p → p < m.store.next) → Reachable (m.pushScope parent)
  | takeObject {m : Machine} : Reachable m → Reachable m.takeObject
  -- A value can only hold what was made.
  | bind {m : Machine} (i : ScopeId) (x : String) {v : Value} : Reachable m → v.Within m.bounds →
      Reachable (m.define i x v)
  | run {m m' : Machine} {n : Nat} {i : ScopeId} {p : Program} {v : Value} : Reachable m →
      i < m.store.next → Eval.program n i p m = some (v, m') → Reachable m'
  | call {m m' : Machine} {n : Nat} {f : Value} {args : List Value} {r : Except Stop Value} :
      Reachable m → f.Within m.bounds → (∀ v ∈ args, v.Within m.bounds) →
      Eval.apply (Eval.eval n) f args m = some (r, m') → Reachable m'
  | defineMacros {m : Machine} {i : ScopeId} (p : Program) : Reachable m → i < m.store.next →
      Reachable (m.defineMacros i p)
  | expandMacros {m m' : Machine} {n : Nat} {i : ScopeId} {p : Program}
      {r : Except EvalError Program} : Reachable m → i < m.store.next →
      Eval.expandMacros n i p m = some (r, m') → Reachable m'

variable {m m₁ : Machine}

theorem Reachable.whole (h : m.Reachable) : m.Whole := by
  induction h with
  | initial output => exact whole_initial output
  | redirect output _ ih => exact ih.withOutput output
  | create _ hparent ih => exact ih.pushScope hparent
  | takeObject _ ih => exact ih.takeObject
  | bind i x _ hv ih => exact ih.define i x hv
  | run _ hi hp ih => exact (ih.program hi hp).1
  | call _ hf hargs hr ih => exact (ih.apply hf hargs hr).1
  | defineMacros p _ hi ih => exact ih.defineMacros hi p
  | expandMacros _ hi hr ih => exact (ih.expandMacros hi hr).1

end Machine

-- The inputs of a session do nothing else to its machine.
theorem Session.Reachable.machine {s : Session} (h : s.Reachable) :
    s.machine.Reachable ∧ s.scope < s.machine.store.next ∧
      s.macroScope < s.machine.store.next := by
  induction h with
  | initial output =>
    have hempty : ((Machine.initial output).pushScope none).Reachable :=
      .create (.initial output) nofun
    exact ⟨hempty.create nofun, Nat.zero_lt_two, Nat.one_lt_two⟩
  | @eval s s' n source o _ hs ih =>
    obtain ⟨hreachable, hscope, hmacro⟩ := ih
    let p := (parseSource source).program
    have hmade := hreachable.defineMacros p hmacro
    have hnext := Machine.next_defineMacros s.machine s.macroScope p
    have hmacro' := Nat.lt_of_lt_of_eq hmacro hnext.symm
    have hscope' := Nat.lt_of_lt_of_eq hscope hnext.symm
    cases Session.eval_eq_some_iff.1 hs with
    | unparsed => exact ⟨hreachable, hscope, hmacro⟩
    | unexpanded _ hexpand =>
      have hgrows := (hmade.whole.expandMacros hmacro' hexpand).2
      exact ⟨hmade.expandMacros hmacro' hexpand, Nat.lt_of_lt_of_le hscope' hgrows.scopes,
        Nat.lt_of_lt_of_le hmacro' hgrows.scopes⟩
    | evaluated _ hexpand hrun =>
      have hexpanded := hmade.expandMacros hmacro' hexpand
      have hgrows := (hmade.whole.expandMacros hmacro' hexpand).2
      have hscope₁ := Nat.lt_of_lt_of_le hscope' hgrows.scopes
      have hgrows' := (hexpanded.whole.program hscope₁ hrun).2
      exact ⟨hexpanded.run hscope₁ hrun, Nat.lt_of_lt_of_le hscope₁ hgrows'.scopes,
        Nat.lt_of_lt_of_le hmacro' (hgrows.trans hgrows').scopes⟩

/-! ## 5. Calling twice -/

namespace Machine

variable {m m₁ : Machine}

-- What a call leaves is what there was, shifted by nothing that can be seen yet.
theorem Whole.shifted_past (h : m.Whole) (hgrows : m.Grows m₁)
    (hextends : m.store.Extends m₁.store) :
    Shifted (past m m₁) m.output m₁.output m m₁ where
  next_eq := by
    show _ = shiftFrom _ _ _
    rw [shiftFrom_of_le (Nat.le_refl _), Nat.add_sub_cancel' hgrows.scopes]
  nextObject_eq := by
    show _ = shiftFrom _ _ _
    rw [shiftFrom_of_le (Nat.le_refl _), Nat.add_sub_cancel' hgrows.objects]
  scopes_eq i := by
    by_cases hi : i < m.store.next
    · rw [(past_fixes m m₁).scope i hi, hextends.scopes_eq i hi]
      cases hs : m.store.scopes[i]? with
      | none => rfl
      | some s =>
        have hparent (p : ScopeId) (hp : s.parent = some p) := h.sealed.parent hi hs hp
        have hfixed := Scope.rename_eq (past_fixes m m₁) (fun b => h.sealed.within hi hs) hparent
        rw [Option.map_some, hfixed]
    · have hi := Nat.not_lt.1 hi
      have hle : m₁.store.next ≤ (past m m₁).scope i := le_shiftFrom_sub hgrows.scopes hi
      rw [Array.getElem?_eq_none_iff.2 hle, Array.getElem?_eq_none_iff.2 hi]
      rfl
  output_eq := ⟨"", (Output.write_empty _).symm, (Output.write_empty _).symm⟩

end Machine

namespace Renaming

/-- The renaming leaves alone what there was on `m`.  What was made from there to `m₁` it names like
what was made from `m₁` to `m₂`, different things differently, and scopes like scopes that hold the
same. -/
structure Renews (ρ : Renaming) (m m₁ m₂ : Machine) : Prop where
  fixes : ρ.Fixes m.bounds
  scope_injective : Function.Injective ρ.scope
  object_injective : Function.Injective ρ.object
  scope_new {i : ScopeId} : m.store.next ≤ i →
    m₁.store.next ≤ ρ.scope i ∧ (ρ.scope i < m₂.store.next ↔ i < m₁.store.next)
  object_new {o : ObjectId} : m.nextObject ≤ o →
    m₁.nextObject ≤ ρ.object o ∧ (ρ.object o < m₂.nextObject ↔ o < m₁.nextObject)
  scopes_eq (i : ScopeId) :
    m₂.store.scopes[ρ.scope i]? = (m₁.store.scopes[i]?).map (Scope.rename ρ)

theorem past_renews {m m₁ m₂ : Machine} (hgrows : m.Grows m₁) {o o' : Output}
    (h : Shifted (past m m₁) o o' m₁ m₂) : (past m m₁).Renews m m₁ m₂ where
  fixes := past_fixes m m₁
  scope_injective := shiftFrom_injective _ _
  object_injective := shiftFrom_injective _ _
  scope_new hi := by
    rw [h.next_eq]
    exact ⟨le_shiftFrom_sub hgrows.scopes hi, shiftFrom_lt_iff hi hgrows.scopes⟩
  object_new ho := by
    rw [h.nextObject_eq]
    exact ⟨le_shiftFrom_sub hgrows.objects ho, shiftFrom_lt_iff ho hgrows.objects⟩
  scopes_eq := h.scopes_eq

end Renaming

namespace Eval

variable {m m₁ : Machine} {f : Value} {args : List Value} {n : Nat}

/-- **A call that is made twice comes to the same twice.**  On every machine that can be reached,
if a call of a value with some arguments ends, so does the same call made right behind it.  It
writes the same text, and fails with the same error or comes to the same value, but for the names of
the scopes and objects that the first call has made.  A value without functions and macros has even
the same content. -/
theorem calls_repeat (h : m.Reachable) (hf : f.Within m.bounds)
    (hargs : ∀ v ∈ args, v.Within m.bounds) {r : Except Stop Value}
    (hr : apply (eval n) f args m = some (r, m₁)) :
    ∃ ρ r' m₂ t, ρ.Renews m m₁ m₂ ∧ apply (eval n) f args m₁ = some (r', m₂) ∧
      m₁.output = m.output.write t ∧ m₂.output = m₁.output.write t ∧
      ((∃ e, r = .error (.failed e) ∧ r' = .error (.failed e)) ∨
        ∃ v, r = .ok v ∧ r' = .ok (v.rename ρ) ∧
          ((∀ w, Part w v → w.captured? = none) → v.same (v.rename ρ) = true)) := by
  have hwhole := h.whole
  have hgrows := (hwhole.apply hf hargs hr).2
  have hfixes := past_fixes m m₁
  have hlawful := Simulation.repetition_lawful m m₁
  have hargs' : args = args.map (rename (past m m₁)) :=
    ((List.map_congr_left fun v hv => rename_eq hfixes (hargs v hv)).trans (List.map_id args)).symm
  have hmatches := hlawful.apply (hlawful.simulates n)
    ⟨hwhole, .refl m, hwhole.shifted_past hgrows (apply_extends hr)⟩
    ⟨hf, (rename_eq hfixes hf).symm⟩ ⟨hargs, hargs'⟩
  cases hmatches with
  | unfinished hnone _ =>
    rw [hnone] at hr
    cases hr
  | ended hr₁ hr₂ _ hrelated hends =>
    rw [hr₁] at hr
    cases hr
    obtain ⟨-, -, hshifted⟩ := hrelated
    obtain ⟨t, ht, ht'⟩ := hshifted.output_eq
    refine ⟨past m m₁, _, _, t, past_renews hgrows hshifted, hr₂, ht, ht', ?_⟩
    cases hends with
    | ok hvw =>
      obtain ⟨-, rfl⟩ := hvw
      exact .inr ⟨_, rfl, rfl, same_rename⟩
    | returned hvw => exact absurd hr₁ (neverReturns_apply _ f args m _ _)
    | failed e => exact .inl ⟨e, rfl, rfl⟩

/-- The function shows its argument and joins an exclamation mark to it. -/
def shout : Value := .fn 0 ⟨["a"], [.expr (.call (.ident "puts") [.ident "a"]),
  .expr (.binary .add (.ident "a") (.str "!"))], 0⟩

/-- A machine with one scope, where `shout` and a text were made. -/
def prepared : Machine := ((Machine.initial (.buffer "")).pushScope none).takeObject.takeObject

/-- Both calls come to the same text, as two objects, and show the same. -/
theorem shout_repeats : ∃ o m₁ m₂ t,
    apply (eval 3) shout [.str 1 "hi"] prepared = some (.ok (.str 3 "hi!"), m₁) ∧
      apply (eval 3) shout [.str 1 "hi"] m₁ = some (.ok (.str o "hi!"), m₂) ∧ o ≠ 3 ∧
      (Value.str 3 "hi!").same (.str o "hi!") = true ∧
      m₁.output = prepared.output.write t ∧ m₂.output = m₁.output.write t := by
  have hempty : ((Machine.initial (.buffer "")).pushScope none).Reachable :=
    .create (.initial _) nofun
  have hshout : shout.Within prepared.bounds := within_fn_iff.2
    ⟨Nat.zero_lt_two, Nat.zero_lt_one, fun s _ => names_true s.value⟩
  have hargs : ∀ v ∈ [Value.str 1 "hi"], v.Within prepared.bounds :=
    fun v hv => List.mem_singleton.1 hv ▸ within_str_iff.2 Nat.one_lt_two
  obtain ⟨m₁, hr⟩ : ∃ m₁,
      apply (eval 3) shout [.str 1 "hi"] prepared = some (.ok (.str 3 "hi!"), m₁) := ⟨_, rfl⟩
  obtain ⟨ρ, r', m₂, t, hρ, hr', ht, ht', hends⟩ :=
    calls_repeat hempty.takeObject.takeObject hshout hargs hr
  rcases hends with ⟨e, he, -⟩ | ⟨v, hv, rfl, hsame⟩
  · cases he
  · cases hv
    have hcontent := hsame fun w hw => by cases hw; rfl
    refine ⟨ρ.object 3, m₁, m₂, t, hr, hr', fun h => ?_, hcontent, ht, ht'⟩
    have hold : m₁.nextObject ≤ 3 := h ▸ (hρ.object_new (by decide)).1
    cases hr
    exact absurd hold (by decide)

end Eval

end Monkey
