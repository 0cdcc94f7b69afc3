import Monkey.Proofs.Run.Frame

/-!
# Regions — scopes that are never left

From a scope one gets to others through parents and through the functions and macros that are bound
there.  A region is a set of scopes that cannot be left in this way.  A program that runs in a scope
of a region stays in it: all it looks up, captures and makes belongs to the region or is new.
-/

namespace Monkey

open Value

namespace Store

/-! ## 1. Reachable scopes -/

/-- From one scope one gets to another through parents and through what values have captured. -/
inductive Reaches (σ : Store) : ScopeId → ScopeId → Prop
  | refl (i : ScopeId) : Reaches σ i i
  | parent {i j k s} : Reaches σ i j → σ.scopes[j]? = some s → s.parent = some k → Reaches σ i k
  | captured {i j k s b w} : Reaches σ i j → σ.scopes[j]? = some s → b ∈ s.bindings →
      Part w b.2 → w.captured? = some k → Reaches σ i k

/-- A set of scopes that nothing in it leads out of.  Parents are older, and no binding holds an
error unless errors may be held. -/
structure Region (A : ScopeId → Prop) (errors : Prop) (σ : Store) : Prop where
  lt_next {i} : A i → i < σ.next
  parent {i s p} : A i → σ.scopes[i]? = some s → s.parent = some p → A p ∧ p < i
  fits {i s b} : A i → σ.scopes[i]? = some s → b ∈ s.bindings → b.2.Fits A errors

variable {A B : ScopeId → Prop} {errors : Prop} {σ τ : Store} {i j : ScopeId}

theorem Region.reaches (h : Region A errors σ) (hi : A i) (hr : Reaches σ i j) : A j := by
  induction hr with
  | refl => exact hi
  | parent _ hs hp ih => exact (h.parent ih hs hp).1
  | captured _ hs hb hw hk ih => exact (h.fits ih hs hb _ hw).1 _ hk

theorem Region.congr (h : Region A errors σ) (hAB : ∀ i, A i ↔ B i) : Region B errors σ := by
  obtain rfl : A = B := funext fun i => propext (hAB i)
  exact h

-- A name is looked up along parents, so what is found belongs to the region.
theorem Region.fits_of_lookupWithin (h : Region A errors σ) {x : String} {v : Value} {n : Nat}
    (hi : A i) (hv : σ.lookupWithin x n i = some v) : v.Fits A errors := by
  obtain ⟨j, s, hj, hs, hx⟩ :=
    exists_of_lookupWithin (fun hj hs hp => (h.parent hj hs hp).1) hi hv
  exact h.fits hj hs (Table.mem_of_get? hx)

/-- Nothing that can be reached from a scope has changed. -/
def Unchanged (i : ScopeId) (σ τ : Store) : Prop := ∀ j, σ.Reaches i j → τ.scopes[j]? = σ.scopes[j]?

theorem Unchanged.lookupWithin_eq (h : Unchanged i σ τ) (hj : σ.Reaches i j) (x : String)
    (n : Nat) : τ.lookupWithin x n j = σ.lookupWithin x n j := by
  have hmap := lookupWithin_eq_map (x := x) (τ := τ) (r := id) (g := id)
    (fun k hk => by rw [id, h k hk]; simp) (fun hk hs hp => .parent hk hs hp) n hj
  rwa [Option.map_id] at hmap

-- So every name that can be seen from there has the value it had.
theorem Unchanged.lookup_eq (h : Unchanged i σ τ) (x : String) : τ.lookup i x = σ.lookup i x :=
  h.lookupWithin_eq (.refl i) x _

theorem Region.unchanged (h : Region A errors σ) (hi : A i) (hj : ¬ A j) (hf : Frame j σ τ) :
    Unchanged i σ τ := by
  intro k hk
  have hA := h.reaches hi hk
  exact hf.scopes_eq k (h.lt_next hA) fun he => hj (he ▸ hA)

/-! ## 2. Regions and changes of the store -/

-- What is done elsewhere does not touch a region.
theorem Region.frame (h : Region A errors σ) (hf : Frame i σ τ) (hi : ¬ A i) :
    Region A errors τ := by
  have hscope {j : ScopeId} (hj : A j) : τ.scopes[j]? = σ.scopes[j]? :=
    hf.scopes_eq j (h.lt_next hj) fun he => hi (he ▸ hj)
  constructor
  · intro j hj
    exact Nat.lt_of_lt_of_le (h.lt_next hj) hf.next_le
  · intro j s p hj hs hp
    exact h.parent hj (hscope hj ▸ hs) hp
  · intro j s b hj hs hb
    exact h.fits hj (hscope hj ▸ hs) hb

-- In a region one may bind what belongs to it.
theorem Region.define (h : Region A errors σ) (x : String) {v : Value} (hv : v.Fits A errors) :
    Region A errors (σ.define i x v) := by
  constructor
  · intro j hj
    rw [next_define]
    exact h.lt_next hj
  · intro j s p hj hs hp
    obtain ⟨s', hs', hparent, -⟩ := exists_of_getElem?_define hs
    exact h.parent hj hs' (hparent ▸ hp)
  · intro j s b hj hs hb
    obtain ⟨s', hs', -, hbindings⟩ := exists_of_getElem?_define hs
    rcases hbindings b hb with rfl | hb
    · exact hv
    · exact h.fits hj hs' hb

-- A new scope, outermost or inside a scope of the region, makes the region larger.
theorem Region.push (h : Region A errors σ) {parent : Option ScopeId}
    (hparent : ∀ p, parent = some p → A p) :
    Region (fun j => j = σ.next ∨ A j) errors (σ.push parent) := by
  have hold {j : ScopeId} {s : Scope} (hj : A j) (hs : (σ.push parent).scopes[j]? = some s) :
      σ.scopes[j]? = some s := by
    rw [← hs, σ.getElem?_push_of_lt (h.lt_next hj)]
  constructor
  · intro j hj
    rw [next_push]
    rcases hj with rfl | hj
    · exact Nat.lt_succ_self _
    · exact Nat.lt_succ_of_lt (h.lt_next hj)
  · intro j s p hj hs hp
    rcases hj with rfl | hj
    · rw [getElem?_push_next] at hs
      cases hs
      have hA := hparent p hp
      exact ⟨.inr hA, h.lt_next hA⟩
    · rcases h.parent hj (hold hj hs) hp with ⟨hp, hlt⟩
      exact ⟨.inr hp, hlt⟩
  · intro j s b hj hs hb
    rcases hj with rfl | hj
    · rw [getElem?_push_next] at hs
      cases hs
      cases hb
    · exact (h.fits hj (hold hj hs) hb).mono fun _ => .inr

/-- The scopes of `A` with all that were made since there were `base` scopes. -/
def grown (A : ScopeId → Prop) (base : ScopeId) (σ : Store) : ScopeId → Prop :=
  fun i => i < σ.next ∧ (base ≤ i ∨ A i)

theorem Region.grown_iff (h : Region A errors σ) : grown A σ.next σ i ↔ A i := by
  apply Iff.intro
  · intro hi
    rcases hi with ⟨hlt, hle | hi⟩
    · exact absurd hle (Nat.not_le.2 hlt)
    · exact hi
  · exact fun hi => ⟨h.lt_next hi, .inr hi⟩

theorem grown_push_iff {base : ScopeId} (hbase : base ≤ σ.next) (parent : Option ScopeId) :
    grown A base (σ.push parent) i ↔ i = σ.next ∨ grown A base σ i := by
  unfold grown
  rw [next_push]
  apply Iff.intro
  · intro h
    rcases h with ⟨hlt, hi⟩
    rcases Nat.lt_succ_iff_lt_or_eq.1 hlt with hlt | rfl
    · exact .inr ⟨hlt, hi⟩
    · exact .inl rfl
  · intro h
    rcases h with rfl | ⟨hlt, hi⟩
    · exact ⟨Nat.lt_succ_self _, .inl hbase⟩
    · exact ⟨Nat.lt_succ_of_lt hlt, hi⟩

end Store

/-! ## 3. The contract -/

namespace Contract

open Store

/-- Programs run in the scopes of `A` and in those made since there were `base` scopes. -/
def region (A : ScopeId → Prop) (errors : Prop) (base : ScopeId) : Contract where
  inv m := base ≤ m.store.next ∧ Region (grown A base m.store) errors m.store
  scope m := grown A base m.store
  errors := errors
  leads _ m m' := m.store.next ≤ m'.store.next

theorem region_lawful (A : ScopeId → Prop) (errors : Prop) (base : ScopeId) :
    (region A errors base).Lawful where
  refl _ m := Nat.le_refl _
  trans := Nat.le_trans
  scope_mono hle hj := ⟨Nat.lt_of_lt_of_le hj.1 hle, hj.2⟩
  takeObject _ m h := ⟨h, Nat.le_refl _⟩
  write _ _ m h := ⟨h, Nat.le_refl _⟩
  define {i m} x v h _ hv := by
    have hnext := m.store.next_define i x v
    have hgrown : grown A base (m.define i x v).store = grown A base m.store := by
      funext j
      simp only [grown, Machine.define, hnext]
    refine ⟨⟨Nat.le_trans h.1 (Nat.le_of_eq hnext.symm), ?_⟩, Nat.le_of_eq hnext.symm⟩
    rw [hgrown]
    exact h.2.define x hv
  lookup h hi hv := h.2.fits_of_lookupWithin hi hv
  enter {i m} h hi := by
    have hpush (j : ScopeId) := grown_push_iff (i := j) (A := A) h.1 (some i)
    have hle : m.store.next ≤ (m.pushScope (some i)).store.next := (push_extends _ _).next_le
    refine ⟨⟨Nat.le_trans h.1 hle, ?_⟩, (hpush _).2 (.inl rfl)⟩
    have hlarger := h.2.push fun p hp => Option.some.inj hp ▸ hi
    exact hlarger.congr fun j => (hpush j).symm
  leave i j m m' hle := Nat.le_trans (push_extends m.store (some j)).next_le hle

variable {A : ScopeId → Prop} {errors : Prop} {i : ScopeId} {m m' : Machine} {n : Nat}

theorem inv_region (h : Region A errors m.store) : (region A errors m.store.next).inv m :=
  ⟨Nat.le_refl _, h.congr fun _ => h.grown_iff.symm⟩

theorem not_fits_error {S : ScopeId → Prop} {e : EvalError} :
    ¬ (Value.error e).Fits S False := fits_error_iff.1

-- Statements that run in a region come to and return only what the region may hold.
theorem stmts_region {ss : List Stmt} {r : Except Stop Value} {v : Value}
    (h : Region A errors m.store) (hi : A i) (hr : Eval.stmts (Eval.eval n) i ss m = some (r, m'))
    (hv : r = .ok v ∨ r = .error (.returned v)) :
    v.Fits (grown A m.store.next m'.store) errors := by
  have hC := region_lawful A errors m.store.next
  have hkeeps := hC.stmts (hC.evaluates n) ss (inv_region h) (h.grown_iff.2 hi)
  rcases hkeeps r m' hr with ⟨-, hends⟩
  rcases hv with rfl | rfl <;> exact hends

-- A program that runs in a region leaves a region behind.
theorem program_region {p : Program} {v : Value} (h : Region A errors m.store) (hi : A i)
    (hp : Eval.program n i p m = some (v, m')) :
    Region (grown A m.store.next m'.store) errors m'.store := by
  have hC := region_lawful A errors m.store.next
  exact (hC.program (inv_region h) (h.grown_iff.2 hi) hp).inv.2

-- So does the expansion of macros that are bound in the region.
theorem expandMacros_region {p : Program} {r : Except EvalError Program}
    (h : Region A errors m.store) (hi : A i) (hr : Eval.expandMacros n i p m = some (r, m')) :
    Region (grown A m.store.next m'.store) errors m'.store := by
  have hC := region_lawful A errors m.store.next
  exact (hC.expandMacros (i := i) (inv_region h) (h.grown_iff.2 hi) hr).inv.2

end Contract

end Monkey
