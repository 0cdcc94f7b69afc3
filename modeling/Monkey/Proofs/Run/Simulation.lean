import Monkey.Proofs.Run.Frame
import Monkey.Proofs.Run.Renaming

/-!
# Simulations — the same run on another machine

Two machines may differ in what a program cannot tell: in the numbers of scopes and the identities
of objects, and in what no name leads to.  A simulation says what the two have in common, and how
what the one holds is named on the other.  If the few things that evaluation does to a machine keep
this, then a program that is run on both ends on both or on neither, and comes to the same up to the
renaming.
-/

namespace Monkey

open Value

/-! ## 1. Simulations -/

/-- Scopes and objects were made, and none went away. -/
structure Machine.Grows (m m' : Machine) : Prop where
  scopes : m.store.next ≤ m'.store.next
  objects : m.nextObject ≤ m'.nextObject

theorem Machine.Grows.refl (m : Machine) : m.Grows m := ⟨Nat.le_refl _, Nat.le_refl _⟩

theorem Machine.Grows.trans {m₁ m₂ m₃ : Machine} (h : m₁.Grows m₂) (h' : m₂.Grows m₃) :
    m₁.Grows m₃ :=
  ⟨Nat.le_trans h.scopes h'.scopes, Nat.le_trans h.objects h'.objects⟩

theorem Machine.grows_takeObject (m : Machine) : m.Grows m.takeObject :=
  ⟨Nat.le_refl _, Nat.le_succ _⟩

theorem Machine.grows_define (m : Machine) (i : ScopeId) (x : String) (v : Value) :
    m.Grows (m.define i x v) :=
  ⟨Nat.le_of_eq (m.store.next_define i x v).symm, Nat.le_refl _⟩

theorem Machine.grows_pushScope (m : Machine) (parent : Option ScopeId) :
    m.Grows (m.pushScope parent) :=
  ⟨(Store.push_extends m.store parent).next_le, Nat.le_refl _⟩

theorem Machine.next_lt_pushScope (m : Machine) (parent : Option ScopeId) :
    m.store.next < (m.pushScope parent).store.next :=
  Nat.lt_of_lt_of_eq (Nat.lt_succ_self _) (m.store.next_push parent).symm

/-- What two machines have in common on which the same programs are run. -/
structure Simulation where
  -- How scopes and objects of the first are named on the second.
  ρ : Renaming
  -- The names that programs may mention.
  name : String → Prop
  -- The scopes and objects of the first that programs may get hold of.
  scope : Machine → ScopeId → Prop
  object : Machine → ObjectId → Prop
  related : Machine → Machine → Prop

namespace Simulation

variable (S : Simulation)

/-- What a value of the first machine may hold. -/
def bounds (m : Machine) : Bounds := ⟨S.scope m, S.object m, S.name⟩

/-- The second value is the first one under its other name. -/
structure Twin (m : Machine) (v w : Value) : Prop where
  within : v.Within (S.bounds m)
  eq : w = v.rename S.ρ

/-- The same for values one after the other. -/
structure Twins (m : Machine) (vs ws : List Value) : Prop where
  within : ∀ v ∈ vs, v.Within (S.bounds m)
  eq : ws = vs.map (rename S.ρ)

/-- Both come to results that `Q` relates, both return one value, or both fail with one error. -/
inductive Ends {α β : Type} (m : Machine) (Q : α → β → Prop) :
    Except Stop α → Except Stop β → Prop
  | ok {a b} : Q a b → Ends m Q (.ok a) (.ok b)
  | returned {v w} : S.Twin m v w → Ends m Q (.error (.returned v)) (.error (.returned w))
  | failed (e) : Ends m Q (.error (.failed e)) (.error (.failed e))

/-- From `m` and from `m'`, both computations end and leave related machines, or neither ends. -/
inductive Matches {α β : Type} (m m' : Machine) (p : Eval α) (q : Eval β)
    (Q : Machine → α → β → Prop) : Prop
  | unfinished : p m = none → q m' = none → Matches m m' p q Q
  | ended {r r' m₁ m₁'} : p m = some (r, m₁) → q m' = some (r', m₁') → m.Grows m₁ →
      S.related m₁ m₁' → S.Ends m₁ (Q m₁) r r' → Matches m m' p q Q

/-- The things that evaluation does to a machine keep what the two have in common. -/
structure Lawful : Prop where
  object_injective : Function.Injective S.ρ.object
  scope_mono {m m₁ : Machine} {i : ScopeId} : m.Grows m₁ → S.scope m i → S.scope m₁ i
  object_mono {m m₁ : Machine} {o : ObjectId} : m.Grows m₁ → S.object m o → S.object m₁ o
  takeObject {m m' : Machine} : S.related m m' →
    S.related m.takeObject m'.takeObject ∧ S.object m.takeObject m.nextObject ∧
      m'.nextObject = S.ρ.object m.nextObject
  write {m m' : Machine} (text : String) : S.related m m' →
    S.related (m.write text) (m'.write text)
  define {m m' : Machine} {i : ScopeId} (x : String) {v : Value} : S.related m m' → S.scope m i →
    v.Within (S.bounds m) →
    S.related (m.define i x v) (m'.define (S.ρ.scope i) x (v.rename S.ρ))
  lookup {m m' : Machine} {i : ScopeId} {x : String} : S.related m m' → S.scope m i → S.name x →
    m'.store.lookup (S.ρ.scope i) x =
        (m.store.lookup i x).map (rename S.ρ) ∧
      ∀ v, m.store.lookup i x = some v → v.Within (S.bounds m)
  enter {m m' : Machine} {i : ScopeId} : S.related m m' → S.scope m i →
    S.related (m.pushScope (some i)) (m'.pushScope (some (S.ρ.scope i))) ∧
      S.scope (m.pushScope (some i)) m.store.next ∧
      m'.store.next = S.ρ.scope m.store.next

section

variable {S} {m m' m₁ : Machine} {v w : Value} {vs ws : List Value} {i : ScopeId}

theorem Lawful.within_mono (hS : S.Lawful) (h : m.Grows m₁) (hv : v.Within (S.bounds m)) :
    v.Within (S.bounds m₁) :=
  hv.mono (fun _ => hS.scope_mono h) (fun _ => hS.object_mono h) fun _ => id

theorem Twin.mono (h : S.Twin m v w) (hS : S.Lawful) (hm : m.Grows m₁) : S.Twin m₁ v w :=
  ⟨hS.within_mono hm h.within, h.eq⟩

theorem Twins.mono (h : S.Twins m vs ws) (hS : S.Lawful) (hm : m.Grows m₁) : S.Twins m₁ vs ws :=
  ⟨fun v hv => hS.within_mono hm (h.within v hv), h.eq⟩

theorem Twins.nil : S.Twins m [] [] := ⟨nofun, rfl⟩

theorem Twin.cons (h : S.Twin m v w) (hs : S.Twins m vs ws) : S.Twins m (v :: vs) (w :: ws) :=
  ⟨List.forall_mem_cons.2 ⟨h.within, hs.within⟩, by rw [h.eq, hs.eq, List.map_cons]⟩

-- What is no object is its own twin.
theorem twin_of_object?_eq_none (h : v.object? = none) (hv : v.rename S.ρ = v) :
    S.Twin m v v :=
  ⟨within_of_object?_eq_none h, hv.symm⟩

/-! ## 2. Rules -/

variable {α β γ δ : Type} {p : Eval α} {q : Eval β} {f : α → Eval γ} {g : β → Eval δ}
  {Q : Machine → α → β → Prop} {R : Machine → γ → δ → Prop} {a : α} {b : β}

theorem matches_pure (h : S.related m m') (hab : Q m a b) :
    S.Matches m m' (pure a) (pure b) Q :=
  .ended rfl rfl (.refl m) h (.ok hab)

-- Sequencing: the second computations start where the first have led.
theorem Matches.bind (hpq : S.Matches m m' p q Q)
    (hfg : ∀ a b m₁ m₁', m.Grows m₁ → S.related m₁ m₁' → Q m₁ a b →
      S.Matches m₁ m₁' (f a) (g b) R) :
    S.Matches m m' (p >>= f) (q >>= g) R := by
  cases hpq with
  | unfinished hp hq =>
    refine .unfinished ?_ ?_
    · rw [Eval.bind_apply, hp]
    · rw [Eval.bind_apply, hq]
  | @ended r r' m₁ m₁' hp hq hgrows hrel hends =>
    cases hends with
    | @ok a b hab =>
      have hp' : (p >>= f) m = f a m₁ := by rw [Eval.bind_apply, hp]
      have hq' : (q >>= g) m' = g b m₁' := by rw [Eval.bind_apply, hq]
      cases hfg a b m₁ m₁' hgrows hrel hab with
      | unfinished hf hg => exact .unfinished (hp'.trans hf) (hq'.trans hg)
      | ended hf hg hgrows' hrel' hends' =>
        exact .ended (hp'.trans hf) (hq'.trans hg) (hgrows.trans hgrows') hrel' hends'
    | returned hvw =>
      refine .ended ?_ ?_ hgrows hrel (.returned hvw)
      · rw [Eval.bind_apply, hp]
      · rw [Eval.bind_apply, hq]
    | failed e =>
      refine .ended ?_ ?_ hgrows hrel (.failed e)
      · rw [Eval.bind_apply, hp]
      · rw [Eval.bind_apply, hq]

theorem matches_fail (h : S.related m m') (e : EvalError) :
    S.Matches m m' (.fail e) (.fail e) Q :=
  .ended rfl rfl (.refl m) h (.failed e)

theorem matches_return (h : S.related m m') (hvw : S.Twin m v w) :
    S.Matches m m' (.stop (.returned v)) (.stop (.returned w)) Q :=
  .ended rfl rfl (.refl m) h (.returned hvw)

theorem matches_ofExcept (h : S.related m m') {x : Except EvalError α} {y : Except EvalError β}
    {k : α → β} (hy : y = x.map k) (hx : ∀ a, x = .ok a → Q m a (k a)) :
    S.Matches m m' (.ofExcept x) (.ofExcept y) Q := by
  subst hy
  cases x with
  | ok a => exact matches_pure h (hx a rfl)
  | error e => exact matches_fail h e

theorem Matches.catchReturn {p q : Eval Value} (h : S.Matches m m' p q S.Twin) :
    S.Matches m m' (.catchReturn p) (.catchReturn q) S.Twin := by
  unfold Eval.catchReturn
  cases h with
  | unfinished hp hq => exact .unfinished (by rw [hp]) (by rw [hq])
  | ended hp hq hgrows hrel hends =>
    cases hends with
    | ok hvw => exact .ended (by rw [hp]) (by rw [hq]) hgrows hrel (.ok hvw)
    | returned hvw => exact .ended (by rw [hp]) (by rw [hq]) hgrows hrel (.ok hvw)
    | failed e => exact .ended (by rw [hp]) (by rw [hq]) hgrows hrel (.failed e)

theorem Lawful.newObject (hS : S.Lawful) (h : S.related m m') :
    S.Matches m m' .newObject .newObject fun m o o' =>
      S.object m o ∧ o' = S.ρ.object o := by
  obtain ⟨hrel, ho, hnext⟩ := hS.takeObject h
  exact .ended rfl rfl m.grows_takeObject hrel (.ok ⟨ho, hnext⟩)

theorem Lawful.print (hS : S.Lawful) (h : S.related m m') (text : String) :
    S.Matches m m' (.write text) (.write text) fun _ _ _ => True :=
  .ended rfl rfl ⟨Nat.le_refl _, Nat.le_refl _⟩ (hS.write text h) (.ok trivial)

theorem Lawful.binds (hS : S.Lawful) (h : S.related m m') (hi : S.scope m i) (x : String)
    (hvw : S.Twin m v w) :
    S.Matches m m' (.define i x v) (.define (S.ρ.scope i) x w) fun _ _ _ => True := by
  obtain ⟨hv, rfl⟩ := hvw
  exact .ended rfl rfl (m.grows_define i x v) (hS.define x h hi hv) (.ok trivial)

theorem Lawful.looksUp (hS : S.Lawful) {x : String} (hx : S.name x) (h : S.related m m')
    (hi : S.scope m i) :
    S.Matches m m' (.lookup i x) (.lookup (S.ρ.scope i) x) fun m v? w? =>
      w? = v?.map (rename S.ρ) ∧ ∀ v, v? = some v → v.Within (S.bounds m) :=
  .ended rfl rfl (.refl m) h (.ok (hS.lookup h hi hx))

-- The values of the elements of a list, each in the state that those before it left.
theorem Lawful.mapM (hS : S.Lawful) {f g : α → Eval Value} (xs : List α)
    (hfg : ∀ x ∈ xs, ∀ m₁ m₁', m.Grows m₁ → S.related m₁ m₁' →
      S.Matches m₁ m₁' (f x) (g x) S.Twin)
    (h : S.related m m') : S.Matches m m' (xs.mapM f) (xs.mapM g) S.Twins := by
  induction xs generalizing m m' with
  | nil => exact matches_pure h Twins.nil
  | cons x xs ih =>
    rw [List.mapM_cons, List.mapM_cons]
    apply (hfg x List.mem_cons_self m m' (.refl m) h).bind
    intro v w m₁ m₁' hm₁ h₁ hvw
    have hxs := ih (fun y hy m₂ m₂' hm₂ => hfg y (List.mem_cons_of_mem x hy) m₂ m₂'
      (hm₁.trans hm₂)) h₁
    apply hxs.bind
    intro vs ws m₂ m₂' hm₂ h₂ hvsws
    exact matches_pure h₂ ((hvw.mono hS hm₂).cons hvsws)

theorem matches_foldlM {P : Machine → β → γ → Prop} {f : β → α → Eval β} {g : γ → α → Eval γ}
    (xs : List α)
    (hfg : ∀ x ∈ xs, ∀ b c m₁ m₁', m.Grows m₁ → S.related m₁ m₁' → P m₁ b c →
      S.Matches m₁ m₁' (f b x) (g c x) P)
    (h : S.related m m') {b : β} {c : γ} (hbc : P m b c) :
    S.Matches m m' (xs.foldlM f b) (xs.foldlM g c) P := by
  induction xs generalizing m m' b c with
  | nil => exact matches_pure h hbc
  | cons x xs ih =>
    rw [List.foldlM_cons, List.foldlM_cons]
    apply (hfg x List.mem_cons_self b c m m' (.refl m) h hbc).bind
    intro b₁ c₁ m₁ m₁' hm₁ h₁ hbc₁
    exact ih (fun y hy b₂ c₂ m₂ m₂' hm₂ => hfg y (List.mem_cons_of_mem x hy) b₂ c₂ m₂ m₂'
      (hm₁.trans hm₂)) h₁ hbc₁

theorem matches_forM {f : α → Eval Unit} {g : β → Eval Unit} {k : α → β} (xs : List α)
    (hfg : ∀ x ∈ xs, ∀ m₁ m₁', m.Grows m₁ → S.related m₁ m₁' →
      S.Matches m₁ m₁' (f x) (g (k x)) fun _ _ _ => True)
    (h : S.related m m') :
    S.Matches m m' (xs.forM f) ((xs.map k).forM g) fun _ _ _ => True := by
  induction xs generalizing m m' with
  | nil => exact matches_pure h trivial
  | cons x xs ih =>
    apply (hfg x List.mem_cons_self m m' (.refl m) h).bind
    intro _ _ m₁ m₁' hm₁ h₁ _
    exact ih (fun y hy m₂ m₂' hm₂ => hfg y (List.mem_cons_of_mem x hy) m₂ m₂' (hm₁.trans hm₂)) h₁

end

end Simulation

/-! ## 3. Stores that nothing leads out of -/

namespace Store

/-- Scopes within the bounds lie in scopes within them, and bind nothing that is not. -/
structure Sealed (B : Bounds) (σ : Store) : Prop where
  parent {i s p} : B.scope i → σ.scopes[i]? = some s → s.parent = some p → B.scope p
  within {i s b} : B.scope i → σ.scopes[i]? = some s → b ∈ s.bindings → b.2.Within B

variable {B B' : Bounds} {σ : Store} {i j : ScopeId}

-- Wider bounds will do, if they hold no more of the scopes that are there.
theorem Sealed.mono (h : Sealed B σ) (hold : ∀ i s, σ.scopes[i]? = some s → B.scope i)
    (hscope : ∀ i, B.scope i → B'.scope i) (hobject : ∀ o, B.object o → B'.object o)
    (hname : ∀ x, B.name x → B'.name x) : Sealed B' σ where
  parent _ hs hp := hscope _ (h.parent (hold _ _ hs) hs hp)
  within _ hs hb := (h.within (hold _ _ hs) hs hb).mono hscope hobject hname

theorem Sealed.within_of_lookupWithin (h : Sealed B σ) {x : String} {v : Value} {n : Nat}
    (hi : B.scope i) (hv : σ.lookupWithin x n i = some v) : v.Within B := by
  obtain ⟨j, s, hj, hs, hx⟩ := exists_of_lookupWithin h.parent hi hv
  exact h.within hj hs (Table.mem_of_get? hx)

theorem Sealed.define (h : Sealed B σ) (i : ScopeId) (x : String) {v : Value} (hv : v.Within B) :
    Sealed B (σ.define i x v) where
  parent hj hs hp := by
    obtain ⟨s', hs', hparent, -⟩ := exists_of_getElem?_define hs
    exact h.parent hj hs' (hparent ▸ hp)
  within hj hs hb := by
    obtain ⟨s', hs', -, hbindings⟩ := exists_of_getElem?_define hs
    rcases hbindings _ hb with rfl | hb
    · exact hv
    · exact h.within hj hs' hb

theorem Sealed.push (h : Sealed B σ) {parent : Option ScopeId}
    (hparent : ∀ p, parent = some p → B.scope p) : Sealed B (σ.push parent) where
  parent hj hs hp := by
    rcases getElem?_push_eq_some hs with ⟨rfl, rfl⟩ | hs
    · exact hparent _ hp
    · exact h.parent hj hs hp
  within hj hs hb := by
    rcases getElem?_push_eq_some hs with ⟨rfl, rfl⟩ | hs
    · cases hb
    · exact h.within hj hs hb

end Store

end Monkey
