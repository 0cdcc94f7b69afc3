import Monkey.Proofs.Run.Contract

/-!
# Custody — evaluation in worlds

What evaluation has come to and still needs is on no machine.  So a custody has worlds: a world is a
machine together with whatever is known of that what was made, and it says what may be held while
the machine is as it is.  If from every world the few things that evaluation does lead to a world
again, then so does all of evaluation.  A contract is a custody in which nothing else is known.
-/

namespace Monkey

open Value

/-! ## 1. Custodies -/

/-- If the value is a hash, each of its pairs stands under the key that its own key is. -/
def Value.Keyed : Value → Prop
  | hash _ t => ∀ e ∈ t, e.2.key.key? = some e.1
  | _ => True

/-- What can be made of scopes and of values that are held: the object `o`, or a value that is no
object and no error. -/
inductive Value.Made (scope : ScopeId → Prop) (holds : Value → Prop) (o : ObjectId) : Value → Prop
  | plain {v} : v.object? = none → v.isError = false → Made scope holds o v
  | str (text : String) : Made scope holds o (.str o text)
  | quote (node : Expr) : Made scope holds o (.quote o node)
  | array {vs} : (∀ v ∈ vs, holds v) → Made scope holds o (.array o vs)
  | hash {t : Pairs} : (∀ e ∈ t, holds e.2.key ∧ holds e.2.value) → Made scope holds o (.hash o t)
  | fn {f : Closure} : scope f.scope → Made scope holds o (.fn o f)
  | macroFn {f : Closure} : scope f.scope → Made scope holds o (.macroFn o f)

theorem Value.Made.mono {scope scope' : ScopeId → Prop} {holds holds' : Value → Prop} {o : ObjectId}
    {v : Value} (h : Made scope holds o v) (hscope : ∀ i, scope i → scope' i)
    (hholds : ∀ v, holds v → holds' v) : Made scope' holds' o v := by
  cases h with
  | plain hobject herror => exact .plain hobject herror
  | str text => exact .str text
  | quote node => exact .quote node
  | array hvs => exact .array fun v hv => hholds v (hvs v hv)
  | hash ht => exact .hash fun e he => (ht e he).imp (hholds _) (hholds _)
  | fn hf => exact .fn (hscope _ hf)
  | macroFn hf => exact .macroFn (hscope _ hf)

/-- The worlds in which evaluation takes place, and what is in its hands there. -/
structure Custody where
  World : Type
  machine : World → Machine
  -- The scopes that values may capture and programs run in.
  scope : World → ScopeId → Prop
  -- The values that may be held.
  holds : World → Value → Prop
  -- How the world may change while something is evaluated in a scope.
  leads : ScopeId → World → World → Prop

namespace Custody

variable (K : Custody)

-- What a computation may come to.
def Ends {α : Type} (Q : K.World → α → Prop) (w : K.World) : Except Stop α → Prop
  | .ok a => Q w a
  | .error (.returned v) => K.holds w v
  | .error (.failed _) => True

/-- Whenever `p` ends from the machine of `w`, it has led to the machine of a world and to a result
that is of the class `Q` there. -/
def Keeps {α : Type} (i : ScopeId) (w : K.World) (p : Eval α) (Q : K.World → α → Prop) : Prop :=
  ∀ r m', p (K.machine w) = some (r, m') →
    ∃ w', K.machine w' = m' ∧ K.leads i w w' ∧ K.Ends Q w' r

/-- The things that evaluation does to a machine lead from world to world. -/
structure Lawful : Prop where
  refl (i : ScopeId) (w : K.World) : K.leads i w w
  trans {i : ScopeId} {w₁ w₂ w₃ : K.World} :
    K.leads i w₁ w₂ → K.leads i w₂ w₃ → K.leads i w₁ w₃
  scope_mono {i j : ScopeId} {w w' : K.World} : K.leads i w w' → K.scope w j → K.scope w' j
  holds_mono {i : ScopeId} {w w' : K.World} {v : Value} :
    K.leads i w w' → K.holds w v → K.holds w' v
  -- What is held may be taken apart, and what is no object was never made.
  plain (w : K.World) {v : Value} : v.object? = none → v.isError = false → K.holds w v
  part {w : K.World} {u v : Value} : K.holds w v → Part u v → K.holds w u
  captured {w : K.World} {v : Value} {j : ScopeId} :
    K.holds w v → v.captured? = some j → K.scope w j
  -- The hashes that evaluation makes are keyed.
  make (i : ScopeId) {w : K.World} {v : Value} :
    Made (K.scope w) (K.holds w) (K.machine w).nextObject v → v.Keyed →
      ∃ w', K.machine w' = (K.machine w).takeObject ∧ K.leads i w w' ∧ K.holds w' v
  write (i : ScopeId) (w : K.World) (text : String) :
    ∃ w', K.machine w' = (K.machine w).write text ∧ K.leads i w w'
  define {i : ScopeId} {w : K.World} (x : String) {v : Value} : K.scope w i → K.holds w v →
    ∃ w', K.machine w' = (K.machine w).define i x v ∧ K.leads i w w'
  lookup {i : ScopeId} {w : K.World} {x : String} {v : Value} :
    K.scope w i → (K.machine w).store.lookup i x = some v → K.holds w v
  -- A call makes a scope of its own, and what it did there is allowed wherever it was called.
  call {w : K.World} {j : ScopeId} : K.scope w j →
    ∃ w', K.machine w' = (K.machine w).pushScope (some j) ∧
      K.scope w' (K.machine w).store.next ∧
      ∀ i w'', K.leads (K.machine w).store.next w' w'' → K.leads i w w''

/-! ## 2. Rules -/

section

variable {K} {i j : ScopeId} {w : K.World} {v : Value} {α β : Type} {p : Eval α} {f : α → Eval β}
  {Q : K.World → α → Prop} {R : K.World → β → Prop} {a : α}

theorem Lawful.pure (hK : K.Lawful) (ha : Q w a) : K.Keeps i w (pure a) Q := by
  intro r m' hr
  cases hr
  exact ⟨w, rfl, hK.refl i w, ha⟩

-- Sequencing: the second computation starts where the first has led.
theorem Lawful.bind (hK : K.Lawful) (hp : K.Keeps i w p Q)
    (hf : ∀ a w', K.leads i w w' → Q w' a → K.Keeps i w' (f a) R) :
    K.Keeps i w (p >>= f) R := by
  intro r m'' h
  rw [Eval.bind_apply] at h
  rcases hpm : p (K.machine w) with _ | ⟨s | a, m'⟩
  · rw [hpm] at h
    cases h
  · rw [hpm] at h
    cases h
    obtain ⟨w', hw', hleads, hs⟩ := hp _ _ hpm
    refine ⟨w', hw', hleads, ?_⟩
    cases s with
    | returned v => exact hs
    | failed e => trivial
  · rw [hpm] at h
    obtain ⟨w', rfl, hleads, ha⟩ := hp _ _ hpm
    obtain ⟨w'', hw'', hleads', hr⟩ := hf a w' hleads ha r m'' h
    exact ⟨w'', hw'', hK.trans hleads hleads', hr⟩

theorem Lawful.fail (hK : K.Lawful) (e : EvalError) : K.Keeps i w (.fail e : Eval α) Q := by
  intro r m' hr
  cases hr
  exact ⟨w, rfl, hK.refl i w, trivial⟩

theorem Lawful.return (hK : K.Lawful) (hv : K.holds w v) :
    K.Keeps i w (.stop (.returned v) : Eval α) Q := by
  intro r m' hr
  cases hr
  exact ⟨w, rfl, hK.refl i w, hv⟩

theorem keeps_unfinished : K.Keeps i w (.unfinished : Eval α) Q := by
  intro r m' h
  cases h

theorem Lawful.ofExcept (hK : K.Lawful) {x : Except EvalError α} (hx : ∀ a, x = .ok a → Q w a) :
    K.Keeps i w (.ofExcept x) Q := by
  cases x with
  | ok a => exact hK.pure (hx a rfl)
  | error e => exact hK.fail e

theorem Keeps.catchReturn {p : Eval Value} (h : K.Keeps i w p K.holds) :
    K.Keeps i w (.catchReturn p) K.holds := by
  intro r m' hr
  unfold Eval.catchReturn at hr
  split at hr
  · next v m₁ hp =>
    obtain ⟨rfl, rfl⟩ : .ok v = r ∧ m₁ = m' := by simpa using hr
    exact h (.error (.returned v)) m₁ hp
  · exact h r m' hr

-- The identity that is taken is that of what is made, if anything is.
theorem Lawful.object (hK : K.Lawful) {f : ObjectId → Except EvalError Value}
    (hf : ∀ o v, f o = .ok v → Made (K.scope w) (K.holds w) o v ∧ v.Keyed) :
    K.Keeps i w (.newObject >>= fun o => .ofExcept (f o)) K.holds := by
  intro r m' hr
  have hnew : (Eval.ofExcept (f (K.machine w).nextObject)) (K.machine w).takeObject =
      some (r, m') := hr
  cases hv : f (K.machine w).nextObject with
  | error e =>
    obtain ⟨w', hw', hleads, -⟩ := hK.make i (w := w) (.str "") trivial
    rw [hv] at hnew
    cases hnew
    exact ⟨w', hw', hleads, trivial⟩
  | ok v =>
    obtain ⟨hmade, hkeyed⟩ := hf _ v hv
    obtain ⟨w', hw', hleads, hholds⟩ := hK.make i hmade hkeyed
    rw [hv] at hnew
    cases hnew
    exact ⟨w', hw', hleads, hholds⟩

theorem Lawful.print (hK : K.Lawful) (text : String) :
    K.Keeps i w (.write text) fun _ _ => True := by
  intro r m' hr
  cases hr
  obtain ⟨w', hw', hleads⟩ := hK.write i w text
  exact ⟨w', hw', hleads, trivial⟩

theorem Lawful.binds (hK : K.Lawful) (hi : K.scope w i) (x : String) (hv : K.holds w v) :
    K.Keeps i w (.define i x v) fun _ _ => True := by
  intro r m' hr
  cases hr
  obtain ⟨w', hw', hleads⟩ := hK.define x hi hv
  exact ⟨w', hw', hleads, trivial⟩

theorem Lawful.looksUp (hK : K.Lawful) (hj : K.scope w j) (x : String) :
    K.Keeps i w (.lookup j x) fun w' v? => ∀ v, v? = some v → K.holds w' v := by
  intro r m' hr
  cases hr
  exact ⟨w, rfl, hK.refl i w, fun v hv => hK.lookup hj hv⟩

-- Elements in order, each in the world that those before it led to.
theorem Lawful.mapM (hK : K.Lawful) {P : K.World → β → Prop}
    (hP : ∀ {w w' b}, K.leads i w w' → P w b → P w' b) {g : α → Eval β} (xs : List α)
    (hg : ∀ x ∈ xs, ∀ w', K.leads i w w' → K.Keeps i w' (g x) P) :
    K.Keeps i w (xs.mapM g) fun w' bs => ∀ b ∈ bs, P w' b := by
  induction xs generalizing w with
  | nil => exact hK.pure nofun
  | cons x xs ih =>
    rw [List.mapM_cons]
    apply hK.bind (hg x List.mem_cons_self w (hK.refl i w))
    intro b w₁ h₁ hb
    have hxs : ∀ y ∈ xs, ∀ w', K.leads i w₁ w' → K.Keeps i w' (g y) P :=
      fun y hy w' h' => hg y (List.mem_cons_of_mem x hy) w' (hK.trans h₁ h')
    apply hK.bind (ih hxs)
    intro bs w₂ h₂ hbs
    exact hK.pure (List.forall_mem_cons.2 ⟨hP h₂ hb, hbs⟩)

theorem Lawful.foldlM (hK : K.Lawful) {P : K.World → β → Prop} {g : β → α → Eval β} (xs : List α)
    (hg : ∀ x ∈ xs, ∀ b w', K.leads i w w' → P w' b → K.Keeps i w' (g b x) P) {b : β}
    (hb : P w b) : K.Keeps i w (xs.foldlM g b) P := by
  induction xs generalizing w b with
  | nil => exact hK.pure hb
  | cons x xs ih =>
    rw [List.foldlM_cons]
    apply hK.bind (hg x List.mem_cons_self b w (hK.refl i w) hb)
    intro b₁ w₁ h₁ hb₁
    exact ih (fun y hy b' w' h' => hg y (List.mem_cons_of_mem x hy) b' w' (hK.trans h₁ h')) hb₁

theorem Lawful.forM (hK : K.Lawful) {g : α → Eval Unit} (xs : List α)
    (hg : ∀ x ∈ xs, ∀ w', K.leads i w w' → K.Keeps i w' (g x) fun _ _ => True) :
    K.Keeps i w (xs.forM g) fun _ _ => True := by
  induction xs generalizing w with
  | nil => exact hK.pure trivial
  | cons x xs ih =>
    apply hK.bind (hg x List.mem_cons_self w (hK.refl i w))
    intro _ w₁ h₁ _
    exact ih fun y hy w' h' => hg y (List.mem_cons_of_mem x hy) w' (hK.trans h₁ h')

-- A pass over a tree leads from world to world if what it does at each node does.
theorem Lawful.alike (hK : K.Lawful) (i j : ScopeId) :
    Alike (n := Id) fun α (p : Eval α) (_ : Id α) =>
      ∀ w, K.scope w j → K.Keeps i w p fun _ _ => True where
  pure _ _ _ := hK.pure trivial
  bind hp hf w hj := hK.bind (hp w hj) fun a w' h' _ => hf a w' (hK.scope_mono h' hj)

end

end Custody

namespace Contract

/-! ## 3. Contracts -/

variable {C : Contract} {i : ScopeId} {m : Machine} {α : Type} {p : Eval α} {Q : Machine → α → Prop}

theorem Lawful.allows_mono (hC : C.Lawful) {m' : Machine} (h : C.leads i m m') {v : Value}
    (hv : C.Allows m v) : C.Allows m' v :=
  hv.mono fun _ => hC.scope_mono h

/-- The contract as a custody, whose worlds are the machines that programs run on. -/
def custody (C : Contract) : Custody where
  World := { m // C.inv m }
  machine w := w.1
  scope w := C.scope w.1
  holds w := C.Allows w.1
  leads i w w' := C.leads i w.1 w'.1

theorem custody_keeps_iff (h : C.inv m) :
    C.custody.Keeps i ⟨m, h⟩ p (fun w => Q w.1) ↔ C.Keeps i m p Q := by
  refine forall₃_congr fun r m' _ => ?_
  constructor
  · rintro ⟨w', rfl, hleads, hends⟩
    refine ⟨⟨w'.2, hleads⟩, ?_⟩
    rcases r with (v | e) | a <;> exact hends
  · rintro ⟨⟨hinv, hleads⟩, hends⟩
    refine ⟨⟨m', hinv⟩, rfl, hleads, ?_⟩
    rcases r with (v | e) | a <;> exact hends

theorem allows_of_captured {v : Value} {j : ScopeId} (hv : C.Allows m v)
    (hj : v.captured? = some j) : C.scope m j :=
  (hv v (.self v)).1 j hj

theorem allows_of_no_object {v : Value} (hobject : v.object? = none) (herror : v.isError = false) :
    C.Allows m v := by
  cases v with
  | str | array | hash | fn | quote | macroFn => cases hobject
  | error => cases herror
  | _ => exact fits_plain rfl

theorem Lawful.custody (hC : C.Lawful) : C.custody.Lawful where
  refl i w := hC.refl i w.1
  trans := hC.trans
  scope_mono := hC.scope_mono
  holds_mono h hv := hC.allows_mono h hv
  plain w _ hobject herror := allows_of_no_object hobject herror
  part := Fits.part
  captured := allows_of_captured
  make i w v hv _ := by
    obtain ⟨hinv, hleads⟩ := hC.takeObject i w.2
    refine ⟨⟨_, hinv⟩, rfl, hleads, ?_⟩
    show C.Allows _ v
    cases hv with
    | plain hobject herror => exact allows_of_no_object hobject herror
    | str | quote => exact fits_plain rfl
    | array hvs => exact fits_array_iff.2 fun v hv => hC.allows_mono hleads (hvs v hv)
    | hash ht =>
      exact fits_hash_iff.2 fun e he => (ht e he).imp (hC.allows_mono hleads) (hC.allows_mono hleads)
    | fn hf => exact fits_fn_iff.2 (hC.scope_mono hleads hf)
    | macroFn hf => exact fits_macroFn_iff.2 (hC.scope_mono hleads hf)
  write i w text :=
    have h := hC.write i text w.2
    ⟨⟨_, h.inv⟩, rfl, h.leads⟩
  define {i w} x {v} hi hv :=
    have h := hC.define x w.2 hi hv
    ⟨⟨_, h.inv⟩, rfl, h.leads⟩
  lookup {i w x v} hi hv := hC.lookup w.2 hi hv
  call {w j} hj :=
    have h := hC.enter w.2 hj
    ⟨⟨_, h.1⟩, rfl, h.2, fun i _ => hC.leave i⟩

end Contract

end Monkey
