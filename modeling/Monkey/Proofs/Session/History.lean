import Mathlib.Data.List.Induction
import Monkey.Handles

/-!
# Histories — what a host has done with handles

A handle belongs to the operation that made its scope, from which it has come by cloning.  Outward
from there leads the way that the enclosing handles give.  For each of the scopes on it, the history
also says what was set there last, through whichever handle.
-/

namespace Monkey

namespace Handles

/-! ## 1. Histories -/

/-- Whether the operation gives a handle. -/
def Op.gives : Op → Bool
  | .new | .enclosed _ | .clone _ => true
  | .set _ _ _ | .get _ _ => false

/-- The handle that the operation is on. -/
def Op.handle? : Op → Option Nat
  | .new => none
  | .enclosed k | .clone k | .set k _ _ | .get k _ => some k

/-- The operations that gave a handle, from the one that gave the handle zero on. -/
def given (ops : List Op) : List Op := ops.filter Op.gives

/-- Every operation is on a handle that was given before. -/
def WellFormed (ops : List Op) : Prop :=
  ∀ before o after, ops = before ++ o :: after → ∀ k, o.handle? = some k → k < (given before).length

/-- With the handle `c` a scope was made, outermost or inside the scope of another handle. -/
inductive Makes (gs : List Op) : Nat → Option Nat → Prop
  | new {c} : gs[c]? = some .new → Makes gs c none
  | enclosed {c j} : gs[c]? = some (.enclosed j) → Makes gs c (some j)

/-- The handle `k` comes by cloning from `c`, with which the scope was made. -/
inductive ComesFrom (gs : List Op) : Nat → Nat → Prop
  | made {c o?} : Makes gs c o? → ComesFrom gs c c
  | clone {k j c} : gs[k]? = some (.clone j) → ComesFrom gs j c → ComesFrom gs k c

/-- The handles with which the scopes were made that lie on the way outward from the handle `k`, the
nearest first. -/
inductive Way (gs : List Op) : Nat → List Nat → Prop
  | outermost {k c} : ComesFrom gs k c → Makes gs c none → Way gs k [c]
  | inside {k c j cs} : ComesFrom gs k c → Makes gs c (some j) → Way gs j cs → Way gs k (c :: cs)

/-- The operation sets the name through a handle of the scope that was made with `c`. -/
def SetsIn (gs : List Op) (c : Nat) (x : String) (o : Op) : Prop :=
  ∃ k v, o = .set k x v ∧ ComesFrom gs k c

/-- The name was set in the scope that was made with `c`. -/
def EverSet (ops : List Op) (c : Nat) (x : String) : Prop := ∃ o ∈ ops, SetsIn (given ops) c x o

/-- The name was set to the value in the scope that was made with `c`, and it was not set there
since. -/
def LatestSet (ops : List Op) (c : Nat) (x : String) (v : Value) : Prop :=
  ∃ before k after, ops = before ++ .set k x v :: after ∧ ComesFrom (given ops) k c ∧
    ∀ o ∈ after, ¬ SetsIn (given ops) c x o

variable {ops gs : List Op} {o : Op} {k c d : Nat}
  {x : String} {v w : Value}

theorem given_append (ops ts : List Op) : given (ops ++ ts) = given ops ++ given ts :=
  List.filter_append ops ts

theorem given_concat_of_gives (ho : o.gives = true) : given (ops ++ [o]) = given ops ++ [o] := by
  rw [given_append]
  exact congrArg _ (List.filter_cons_of_pos ho)

theorem given_concat_of_not_gives (ho : o.gives ≠ true) : given (ops ++ [o]) = given ops := by
  rw [given_append, given, given, List.filter_cons_of_neg ho, List.filter_nil, List.append_nil]

theorem given_append_cons (ho : o.gives ≠ true) (before after : List Op) :
    given (before ++ o :: after) = given (before ++ after) := by
  rw [given_append, given_append, given, given, given, List.filter_cons_of_neg ho]

-- Where a list with one more element is cut, the cut is at this element or in front of it.
theorem concat_eq_append_cons {α : Type} {as before after : List α} {a b : α}
    (h : as ++ [a] = before ++ b :: after) : as = before ∧ a = b ∧ after = [] ∨
      ∃ after', as = before ++ b :: after' ∧ after = after' ++ [a] := by
  rcases List.eq_nil_or_concat after with rfl | ⟨after', a', rfl⟩
  · obtain ⟨hbefore, hlast⟩ := List.append_inj' h rfl
    exact .inl ⟨hbefore, List.singleton_inj.1 hlast, rfl⟩
  · rw [List.concat_eq_append, ← List.cons_append, ← List.append_assoc] at h
    obtain ⟨hbefore, hlast⟩ := List.append_inj' h rfl
    rw [List.concat_eq_append, List.singleton_inj.1 hlast]
    exact .inr ⟨after', hbefore, rfl⟩

theorem wellFormed_concat_iff : WellFormed (ops ++ [o]) ↔
    WellFormed ops ∧ ∀ k, o.handle? = some k → k < (given ops).length := by
  constructor
  · intro hops
    refine ⟨fun before o' after heq => ?_, hops ops o [] rfl⟩
    exact hops before o' (after ++ [o]) (by simp [heq])
  · rintro ⟨hops, ho⟩ before o' after heq
    rcases concat_eq_append_cons heq with ⟨rfl, rfl, -⟩ | ⟨after', hbefore, -⟩
    · exact ho
    · exact hops before o' after' hbefore

theorem wellFormed_nil : WellFormed [] := by
  intro before o after heq
  cases before <;> cases heq

theorem WellFormed.concat (hops : WellFormed ops)
    (ho : ∀ k, o.handle? = some k → k < (given ops).length) : WellFormed (ops ++ [o]) :=
  wellFormed_concat_iff.2 ⟨hops, ho⟩

theorem WellFormed.of_append_cons (ho : o.gives ≠ true) {before after : List Op}
    (hops : WellFormed (before ++ o :: after)) : WellFormed (before ++ after) := by
  induction after using List.reverseRecOn with
  | nil =>
    rw [List.append_nil]
    exact (wellFormed_concat_iff.1 hops).1
  | append_singleton after o' ih =>
    rw [← List.cons_append, ← List.append_assoc, wellFormed_concat_iff,
      given_append_cons ho] at hops
    rw [← List.append_assoc, wellFormed_concat_iff]
    exact ⟨ih hops.1, hops.2⟩

/-! ## 2. What was set last -/

open Classical in
theorem exists_last_iff {α : Type} {P : α → Prop} {as : List α} {a : α} :
    (∃ before after, as = before ++ a :: after ∧ P a ∧ ∀ b ∈ after, ¬ P b) ↔
      (as.filter (P ·)).getLast? = some a := by
  rw [List.getLast?_eq_some_iff]
  constructor
  · rintro ⟨before, after, rfl, ha, hafter⟩
    have hnil : after.filter (P ·) = [] := List.filter_eq_nil_iff.2 (by simpa using hafter)
    refine ⟨before.filter (P ·), ?_⟩
    rw [List.filter_append, List.filter_cons_of_pos (by simpa using ha), hnil]
  · rintro ⟨bs, hbs⟩
    obtain ⟨l₁, l₂, rfl, -, hl₂⟩ := List.filter_eq_append_iff.1 hbs
    obtain ⟨l₃, after, rfl, -, ha, hafter⟩ := List.filter_eq_cons_iff.1 hl₂
    refine ⟨l₁ ++ l₃, after, (List.append_assoc _ _ _).symm, by simpa using ha, ?_⟩
    simpa using List.filter_eq_nil_iff.1 hafter

open Classical in
theorem latestSet_iff : LatestSet ops c x v ↔
    ∃ k, (ops.filter (SetsIn (given ops) c x ·)).getLast? = some (.set k x v) := by
  simp only [← exists_last_iff]
  constructor
  · rintro ⟨before, k, after, heq, hk, hafter⟩
    exact ⟨k, before, after, heq, ⟨k, v, rfl, hk⟩, hafter⟩
  · rintro ⟨k, before, after, heq, ⟨_, _, ⟨⟩, hk⟩, hafter⟩
    exact ⟨before, k, after, heq, hk, hafter⟩

theorem everSet_iff : EverSet ops c x ↔ ∃ v, LatestSet ops c x v := by
  classical
  constructor
  · rintro ⟨o, hmem, ho⟩
    have hfilter : o ∈ ops.filter (SetsIn (given ops) c x ·) :=
      List.mem_filter.2 ⟨hmem, decide_eq_true ho⟩
    obtain ⟨a, ha⟩ := Option.ne_none_iff_exists'.1
      (mt List.getLast?_eq_none_iff.1 (List.ne_nil_of_mem hfilter))
    obtain ⟨-, hlast⟩ := List.mem_filter.1 (List.mem_of_getLast? ha)
    obtain ⟨k, v, rfl, -⟩ := of_decide_eq_true hlast
    exact ⟨v, latestSet_iff.2 ⟨k, ha⟩⟩
  · rintro ⟨v, before, k, after, rfl, hk, -⟩
    exact ⟨_, List.mem_append_right _ List.mem_cons_self, k, v, rfl, hk⟩

theorem latestSet_concat_set (hk : ComesFrom (given ops) k c) :
    LatestSet (ops ++ [.set k x w]) c x v ↔ w = v := by
  classical
  have hgiven : given (ops ++ [.set k x w]) = given ops :=
    given_concat_of_not_gives Bool.false_ne_true
  have hset : SetsIn (given ops) c x (.set k x w) := ⟨k, w, rfl, hk⟩
  rw [latestSet_iff, hgiven, List.filter_append, List.filter_cons_of_pos (by simpa using hset)]
  simp

-- An operation that does not set the name in the scope lets the latest value be, if handles stay
-- with the scopes that they were given for.
theorem latestSet_concat_iff
    (hstay : ∀ a ∈ ops, SetsIn (given (ops ++ [o])) c x a ↔ SetsIn (given ops) c x a)
    (ho : ¬ SetsIn (given (ops ++ [o])) c x o) :
    LatestSet (ops ++ [o]) c x v ↔ LatestSet ops c x v := by
  classical
  rw [latestSet_iff, latestSet_iff, List.filter_append,
    List.filter_cons_of_neg (by simpa using ho), List.filter_nil, List.append_nil,
    List.filter_congr fun a ha => decide_eq_decide.2 (hstay a ha)]

theorem latestSet_append_cons_iff {before after : List Op} (hgives : o.gives ≠ true)
    (ho : ¬ SetsIn (given (before ++ after)) c x o) :
    LatestSet (before ++ o :: after) c x v ↔ LatestSet (before ++ after) c x v := by
  classical
  rw [latestSet_iff, latestSet_iff, given_append_cons hgives, List.filter_append,
    List.filter_cons_of_neg (by simpa using ho), ← List.filter_append]

/-! ## 3. Handles that are given -/

theorem getElem?_concat_eq_some_iff {a : Op} :
    (gs ++ [o])[k]? = some a ↔ gs[k]? = some a ∨ k = gs.length ∧ o = a := by
  rw [List.getElem?_append]
  split
  · next hk => simp [Nat.ne_of_lt hk]
  · next hk =>
    have hnone : gs[k]? = none := List.getElem?_eq_none (Nat.le_of_not_lt hk)
    rw [hnone, List.getElem?_singleton]
    have : k - gs.length = 0 ↔ k = gs.length := by omega
    simp [this]

theorem makes_concat_iff {o? : Option Nat} :
    Makes (gs ++ [o]) c o? ↔ Makes gs c o? ∨ c = gs.length ∧ Makes [o] 0 o? := by
  constructor
  · rintro (hc | hc)
    · rcases getElem?_concat_eq_some_iff.1 hc with hc | ⟨rfl, rfl⟩
      · exact .inl (.new hc)
      · exact .inr ⟨rfl, .new rfl⟩
    · rcases getElem?_concat_eq_some_iff.1 hc with hc | ⟨rfl, rfl⟩
      · exact .inl (.enclosed hc)
      · exact .inr ⟨rfl, .enclosed rfl⟩
  · rintro ((hc | hc) | ⟨rfl, hc | hc⟩)
    · exact .new (getElem?_concat_eq_some_iff.2 (.inl hc))
    · exact .enclosed (getElem?_concat_eq_some_iff.2 (.inl hc))
    · exact .new (getElem?_concat_eq_some_iff.2 (.inr ⟨rfl, Option.some.inj hc⟩))
    · exact .enclosed (getElem?_concat_eq_some_iff.2 (.inr ⟨rfl, Option.some.inj hc⟩))

theorem Makes.lt {o? : Option Nat} (hc : Makes gs c o?) : c < gs.length := by
  rcases hc with hc | hc <;> exact (List.getElem?_eq_some_iff.1 hc).1

theorem ComesFrom.exists_makes (hk : ComesFrom gs k c) : ∃ o?, Makes gs c o? := by
  induction hk with
  | made hc => exact ⟨_, hc⟩
  | clone _ _ ih => exact ih

theorem LatestSet.lt (h : LatestSet ops c x v) : c < (given ops).length := by
  obtain ⟨_, k, _, -, hk, -⟩ := h
  obtain ⟨_, hmade⟩ := hk.exists_makes
  exact hmade.lt

-- A handle that is there stays with its scope.
theorem comesFrom_concat_iff (hclone : ∀ {k j : Nat}, gs[k]? = some (Op.clone j) → j < k)
    (hk : k < gs.length) : ComesFrom (gs ++ [o]) k c ↔ ComesFrom gs k c := by
  constructor
  · intro hc
    induction hc with
    | made hmakes =>
      rcases makes_concat_iff.1 hmakes with hmakes | ⟨rfl, -⟩
      · exact .made hmakes
      · exact absurd hk (Nat.lt_irrefl _)
    | clone hj _ ih =>
      rcases getElem?_concat_eq_some_iff.1 hj with hj | ⟨rfl, -⟩
      · exact .clone hj (ih (Nat.lt_trans (hclone hj) hk))
      · exact absurd hk (Nat.lt_irrefl _)
  · intro hc
    induction hc with
    | made hmakes => exact .made (makes_concat_iff.2 (.inl hmakes))
    | clone hj _ ih =>
      exact .clone (getElem?_concat_eq_some_iff.2 (.inl hj)) (ih (Nat.lt_trans (hclone hj) hk))

/-! ## 4. Ways outward -/

theorem ComesFrom.unique (hc : ComesFrom gs k c) (hd : ComesFrom gs k d) : c = d := by
  induction hc with
  | made hc =>
    cases hd with
    | made _ => rfl
    | clone hj _ =>
      rcases hc with hc | hc <;> rw [hc] at hj <;> cases hj
  | clone hj _ ih =>
    cases hd with
    | made hd => rcases hd with hd | hd <;> rw [hd] at hj <;> cases hj
    | clone hj' hd =>
      rw [hj] at hj'
      cases hj'
      exact ih hd

theorem Makes.unique {o? p? : Option Nat} (ho : Makes gs c o?) (hp : Makes gs c p?) : o? = p? := by
  cases ho with
  | new ho =>
    cases hp with
    | new _ => rfl
    | enclosed hp =>
      rw [ho] at hp
      cases hp
  | enclosed ho =>
    cases hp with
    | new hp =>
      rw [ho] at hp
      cases hp
    | enclosed hp =>
      rw [ho] at hp
      cases hp
      rfl

theorem Way.unique {cs ds : List Nat} (hcs : Way gs k cs) (hds : Way gs k ds) : cs = ds := by
  induction hcs generalizing ds with
  | outermost hk hc =>
    cases hds with
    | outermost hk' _ => rw [hk.unique hk']
    | inside hk' hc' _ =>
      rw [← hk.unique hk'] at hc'
      cases hc.unique hc'
  | inside hk hc _ ih =>
    cases hds with
    | outermost hk' hc' =>
      rw [← hk.unique hk'] at hc'
      cases hc.unique hc'
    | inside hk' hc' hway =>
      obtain rfl := hk.unique hk'
      cases hc.unique hc'
      rw [ih hway]

theorem Way.makes {cs : List Nat} (hcs : Way gs k cs) : ∀ c ∈ cs, ∃ o?, Makes gs c o? := by
  induction hcs with
  | outermost _ hc =>
    intro d hd
    rw [List.mem_singleton.1 hd]
    exact ⟨_, hc⟩
  | inside _ hc _ ih => exact List.forall_mem_cons.2 ⟨⟨_, hc⟩, ih⟩

end Handles

end Monkey
