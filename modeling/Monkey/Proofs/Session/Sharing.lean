import Monkey.Proofs.Run.Lookup
import Monkey.Proofs.Session.History

/-!
# Sharing — scopes are shared nested maps

What a host sees through its handles depends on nothing but what it has done with them.  Handles
stand for one scope if they come from one that it was made with, and a scope binds what was set
last through any of them.  So a lookup, which goes the way outward, comes to what the history says.
-/

namespace Monkey

open Store

namespace Handles

variable {ops : List Op} {o : Op} {h : Handles} {i j k c : Nat} {x y : String} {v : Value}

/-! ## 1. What operations leave behind -/

/-- What a history says of the handles that it has given and of their scopes is so. -/
structure Agrees (ops : List Op) (h : Handles) : Prop where
  size_eq : h.scopes.size = (given ops).length
  lt_next {k i : Nat} : h.scopes[k]? = some i → i < h.store.next
  set_lt {k : Nat} {x : String} {v : Value} : .set k x v ∈ ops → k < (given ops).length
  clone {k j : Nat} : (given ops)[k]? = some (.clone j) → j < k ∧ h.scopes[k]? = h.scopes[j]?
  -- Scopes that are made are different ones. They lie inside of older ones, and what is bound in
  -- them is what was set last.
  unique {c d : Nat} {c? d? : Option Nat} : Makes (given ops) c c? → Makes (given ops) d d? →
    h.scopes[c]? = h.scopes[d]? → c = d
  made {c : Nat} {o? : Option Nat} : Makes (given ops) c o? → ∃ i s, h.scopes[c]? = some i ∧
    h.store.scopes[i]? = some s ∧ s.parent = o?.bind (h.scopes[·]?) ∧
    (∀ j, o? = some j → j < c ∧ ∃ p < i, h.scopes[j]? = some p) ∧
    ∀ x v, s.bindings.get? x = some v ↔ LatestSet ops c x v

theorem agrees_empty : Agrees [] empty where
  size_eq := rfl
  lt_next := nofun
  set_lt := nofun
  clone := nofun
  unique hc := by rcases hc with hc | hc <;> cases hc
  made hc := by rcases hc with hc | hc <;> cases hc

namespace Agrees

variable (hops : Agrees ops h)

include hops

theorem exists_scope (hk : k < (given ops).length) : ∃ i, h.scopes[k]? = some i := by
  rw [← hops.size_eq] at hk
  exact ⟨h.scopes[k], Array.getElem?_eq_getElem hk⟩

theorem scope_eq (hk : ComesFrom (given ops) k c) : h.scopes[k]? = h.scopes[c]? := by
  induction hk with
  | made _ => rfl
  | clone hj _ ih => exact (hops.clone hj).2.trans ih

-- By induction on the number of the handle, since what is cloned was given before.
theorem exists_comesFrom (hk : k < (given ops).length) : ∃ c, ComesFrom (given ops) k c := by
  induction k using Nat.strongRecOn with
  | ind k ih =>
    have hgiven := List.getElem?_eq_getElem hk
    have hgives := (List.mem_filter.1 (List.getElem_mem hk)).2
    cases ho : (given ops)[k] with
    | new => exact ⟨k, .made (.new (hgiven.trans (congrArg _ ho)))⟩
    | enclosed j => exact ⟨k, .made (.enclosed (hgiven.trans (congrArg _ ho)))⟩
    | clone j =>
      rw [ho] at hgiven
      have hj := (hops.clone hgiven).1
      obtain ⟨c, hc⟩ := ih j hj (Nat.lt_trans hj hk)
      exact ⟨c, .clone hgiven hc⟩
    | set j x v | get j x =>
      rw [ho] at hgives
      cases hgives

theorem comesFrom_of_scope_eq (hk : ComesFrom (given ops) k c)
    (hj : j < (given ops).length) (h' : h.scopes[j]? = h.scopes[k]?) :
    ComesFrom (given ops) j c := by
  obtain ⟨d, hd⟩ := hops.exists_comesFrom hj
  obtain ⟨_, hc'⟩ := hk.exists_makes
  obtain ⟨_, hd'⟩ := hd.exists_makes
  have heq : h.scopes[d]? = h.scopes[c]? :=
    (hops.scope_eq hd).symm.trans (h'.trans (hops.scope_eq hk))
  rwa [← hops.unique hd' hc' heq]

theorem comesFrom_concat_iff (hk : k < (given ops).length) :
    ComesFrom (given (ops ++ [o])) k c ↔ ComesFrom (given ops) k c := by
  by_cases ho : o.gives = true
  · rw [given_concat_of_gives ho]
    exact Handles.comesFrom_concat_iff (fun hj => (hops.clone hj).1) hk
  · rw [given_concat_of_not_gives ho]

theorem latestSet_concat_iff (ho : ¬ SetsIn (given (ops ++ [o])) c x o) :
    LatestSet (ops ++ [o]) c x v ↔ LatestSet ops c x v := by
  refine Handles.latestSet_concat_iff (fun a ha => ?_) ho
  refine exists_congr fun k => exists_congr fun w => and_congr_right fun heq => ?_
  subst heq
  exact hops.comesFrom_concat_iff (hops.set_lt ha)

-- The handles that are there stand for the scopes they stood for.
theorem getElem?_push_of_given (i : ScopeId) (hk : k < (given ops).length) :
    (h.scopes.push i)[k]? = h.scopes[k]? := by
  rw [Array.getElem?_push, if_neg]
  rw [hops.size_eq]
  exact Nat.ne_of_lt hk

theorem getElem?_push_last (i : ScopeId) : (h.scopes.push i)[(given ops).length]? = some i := by
  rw [← hops.size_eq, Array.getElem?_push_size]

theorem bind_push_of_given {o? : Option Nat} (i : ScopeId)
    (hj : ∀ j, o? = some j → j < (given ops).length) :
    o?.bind ((h.scopes.push i)[·]?) = o?.bind (h.scopes[·]?) := by
  cases o? with
  | none => rfl
  | some j => exact hops.getElem?_push_of_given i (hj j rfl)

-- An operation that gives a handle to the scope `i`.
theorem give {σ : Store} {i : ScopeId} (ho : o.gives = true) (hi : i < σ.next)
    (hnext : h.store.next ≤ σ.next)
    (hold : ∀ j < h.store.next, σ.scopes[j]? = h.store.scopes[j]?)
    (hclone : ∀ j, o = .clone j → h.scopes[j]? = some i)
    (hmakes : ∀ o?, Makes [o] 0 o? → h.store.next ≤ i ∧
      σ.scopes[i]? = some ⟨[], o?.bind (h.scopes[·]?)⟩ ∧
      ∀ j, o? = some j → j < (given ops).length) :
    Agrees (ops ++ [o]) ⟨σ, h.scopes.push i⟩ := by
  have hgiven : given (ops ++ [o]) = given ops ++ [o] := given_concat_of_gives ho
  have hlength : (given (ops ++ [o])).length = (given ops).length + 1 := by
    rw [hgiven, List.length_append, List.length_singleton]
  have hset {gs : List Op} {x : String} {c : Nat} : ¬ SetsIn gs c x o := by
    rintro ⟨k, w, rfl, -⟩
    cases ho
  have hstay {k : Nat} (hk : k < (given ops).length) := hops.getElem?_push_of_given i hk
  have hlast := hops.getElem?_push_last i
  constructor
  case size_eq => rw [hlength, ← hops.size_eq, Array.size_push]
  case lt_next =>
    intro k i' hk
    rw [Array.getElem?_push] at hk
    split at hk
    · cases hk
      exact hi
    · exact Nat.lt_of_lt_of_le (hops.lt_next hk) hnext
  case set_lt =>
    intro k x v hmem
    rw [hlength]
    rcases List.mem_append.1 hmem with hmem | hmem
    · exact Nat.lt_succ_of_lt (hops.set_lt hmem)
    · rw [← List.mem_singleton.1 hmem] at ho
      cases ho
  case clone =>
    intro k j hk
    rw [hgiven] at hk
    rcases getElem?_concat_eq_some_iff.1 hk with hk | ⟨rfl, rfl⟩
    · obtain ⟨hjk, heq⟩ := hops.clone hk
      have hlt := (List.getElem?_eq_some_iff.1 hk).1
      exact ⟨hjk, (hstay hlt).trans (heq.trans (hstay (Nat.lt_trans hjk hlt)).symm)⟩
    · have hj := hclone j rfl
      have hlt : j < (given ops).length := hops.size_eq ▸ (Array.getElem?_eq_some_iff.1 hj).1
      exact ⟨hlt, hlast.trans (hj.symm.trans (hstay hlt).symm)⟩
  case unique =>
    -- a scope that is made was not there before
    have hnew {c o? p?} (hc : Makes (given ops) c o?) (hp : Makes [o] 0 p?) :
        (h.scopes.push i)[c]? ≠ (h.scopes.push i)[(given ops).length]? := by
      intro heq
      rw [hstay hc.lt, hlast] at heq
      exact Nat.not_lt_of_le (hmakes _ hp).1 (hops.lt_next heq)
    intro c d c? d? hc hd heq
    rw [hgiven, makes_concat_iff] at hc hd
    rcases hc with hc | ⟨rfl, hc⟩ <;> rcases hd with hd | ⟨rfl, hd⟩
    · exact hops.unique hc hd ((hstay hc.lt).symm.trans (heq.trans (hstay hd.lt)))
    · exact absurd heq (hnew hc hd)
    · exact absurd heq.symm (hnew hd hc)
    · rfl
  case made =>
    intro c o? hc
    rw [hgiven, makes_concat_iff] at hc
    rcases hc with hc | ⟨rfl, hc⟩
    · obtain ⟨i', s, hi', hs, hparent, hin, hlatest⟩ := hops.made hc
      have hj (j : Nat) (ho : o? = some j) : j < (given ops).length :=
        Nat.lt_trans (hin j ho).1 hc.lt
      refine ⟨i', s, (hstay hc.lt).trans hi', (hold i' (hops.lt_next hi')).trans hs,
        hparent.trans (hops.bind_push_of_given i hj).symm, fun j ho => ?_, fun x v => ?_⟩
      · obtain ⟨hjc, p, hp, hscope⟩ := hin j ho
        exact ⟨hjc, p, hp, (hstay (hj j ho)).trans hscope⟩
      · exact (hlatest x v).trans (hops.latestSet_concat_iff hset).symm
    · obtain ⟨hle, hs, hj⟩ := hmakes o? hc
      refine ⟨i, _, hlast, hs, (hops.bind_push_of_given i hj).symm, fun j ho => ?_,
        fun x v => ⟨nofun, fun hv => ?_⟩⟩
      · obtain ⟨p, hp⟩ := hops.exists_scope (hj j ho)
        exact ⟨hj j ho, p, Nat.lt_of_lt_of_le (hops.lt_next hp) hle, (hstay (hj j ho)).trans hp⟩
      · -- nothing was set through handles that were not given
        have hlatest := (hops.latestSet_concat_iff hset).1 hv
        exact absurd hlatest.lt (Nat.lt_irrefl _)

-- An operation that gives no handle.
theorem keep {σ : Store} (ho : o.gives ≠ true) (hnext : σ.next = h.store.next)
    (hset : ∀ k x v, o = .set k x v → k < (given ops).length)
    (hscope : ∀ i s, h.store.scopes[i]? = some s → ∃ s', σ.scopes[i]? = some s' ∧
      s'.parent = s.parent ∧ ∀ c o? x v, Makes (given ops) c o? → h.scopes[c]? = some i →
        (s.bindings.get? x = some v ↔ LatestSet ops c x v) →
        (s'.bindings.get? x = some v ↔ LatestSet (ops ++ [o]) c x v)) :
    Agrees (ops ++ [o]) ⟨σ, h.scopes⟩ := by
  have hgiven : given (ops ++ [o]) = given ops := given_concat_of_not_gives ho
  constructor
  case size_eq =>
    rw [hgiven]
    exact hops.size_eq
  case lt_next =>
    intro k i hk
    rw [hnext]
    exact hops.lt_next hk
  case set_lt =>
    intro k x v hmem
    rw [hgiven]
    rcases List.mem_append.1 hmem with hmem | hmem
    · exact hops.set_lt hmem
    · exact hset k x v (List.mem_singleton.1 hmem).symm
  case clone =>
    rw [hgiven]
    exact hops.clone
  case unique =>
    rw [hgiven]
    exact hops.unique
  case made =>
    intro c o? hc
    rw [hgiven] at hc
    obtain ⟨i, s, hi, hs, hparent, hin, hlatest⟩ := hops.made hc
    obtain ⟨s', hs', hparent', hbinding⟩ := hscope i s hs
    exact ⟨i, s', hi, hs', hparent'.trans hparent, hin,
      fun x v => hbinding c o? x v hc hi (hlatest x v)⟩

theorem make {parent : Option ScopeId} (ho : o.gives = true) (hclone : ∀ j, o ≠ .clone j)
    (hmakes : ∀ o?, Makes [o] 0 o? → o?.bind (h.scopes[·]?) = parent ∧
      ∀ j, o? = some j → j < (given ops).length) : Agrees (ops ++ [o]) (h.make parent) := by
  have hnext : (h.store.push parent).next = h.store.next + 1 := next_push h.store parent
  refine hops.give ho ?_ ?_ (fun j hj => getElem?_push_of_lt _ hj _)
    (fun j heq => absurd heq (hclone j)) (fun o? hc => ?_)
  · rw [hnext]
    exact Nat.lt_succ_self _
  · rw [hnext]
    exact Nat.le_succ _
  · obtain ⟨hparent, hj⟩ := hmakes o? hc
    rw [hparent, getElem?_push_next]
    exact ⟨Nat.le_refl _, rfl, hj⟩

-- The name is bound in the one scope, and there just this name.
theorem set (hk : k < (given ops).length) {i : ScopeId} (hi : h.scopes[k]? = some i)
    (x : String) (v : Value) :
    Agrees (ops ++ [.set k x v]) { h with store := h.store.define i x v } := by
  have hsets {c o?} (hc : Makes (given ops) c o?) :
      ComesFrom (given ops) k c ↔ h.scopes[c]? = some i := by
    refine ⟨fun hkc => (hops.scope_eq hkc).symm.trans hi, fun hci => ?_⟩
    exact hops.comesFrom_of_scope_eq (.made hc) hk (hi.trans hci.symm)
  refine hops.keep Bool.false_ne_true (next_define _ _ _ _) ?_ ?_
  · rintro k' x' v' ⟨⟩
    exact hk
  · intro i' s hs
    by_cases hi' : i' = i
    · subst hi'
      refine ⟨{ s with bindings := s.bindings.insert x v }, ?_, rfl, ?_⟩
      · rw [getElem?_define_self, hs]
        rfl
      · intro c o? y w hc hci hlatest
        by_cases hy : y = x
        · subst hy
          rw [Table.get?_insert_self, latestSet_concat_set ((hsets hc).2 hci), Option.some.injEq]
        · rw [Table.get?_insert_of_ne hy, hlatest, hops.latestSet_concat_iff]
          rintro ⟨_, _, ⟨⟩, -⟩
          exact absurd rfl hy
    · refine ⟨s, by rw [getElem?_define_of_ne _ hi', hs], rfl, fun c o? y w hc hci hlatest => ?_⟩
      rw [hlatest, hops.latestSet_concat_iff]
      rintro ⟨_, _, ⟨⟩, hkc⟩
      rw [hops.comesFrom_concat_iff hk, hsets hc, hci] at hkc
      exact hi' (Option.some.inj hkc)

-- What an operation does, its history says.
theorem perform (ho : ∀ k, o.handle? = some k → k < (given ops).length) :
    ∃ h', h.perform o = some h' ∧ Agrees (ops ++ [o]) h' := by
  cases o with
  | new =>
    refine ⟨_, rfl, hops.make rfl nofun fun o? hc => ?_⟩
    rcases hc with hc | hc
    · exact ⟨rfl, nofun⟩
    · cases hc
  | enclosed k =>
    obtain ⟨i, hi⟩ := hops.exists_scope (ho k rfl)
    refine ⟨h.make (some i), by rw [Handles.perform, hi]; rfl, hops.make rfl nofun fun o? hc => ?_⟩
    rcases hc with hc | hc
    · cases hc
    · cases hc
      refine ⟨hi, ?_⟩
      rintro j ⟨⟩
      exact ho k rfl
  | clone k =>
    obtain ⟨i, hi⟩ := hops.exists_scope (ho k rfl)
    refine ⟨{ h with scopes := h.scopes.push i }, by rw [Handles.perform, hi]; rfl,
      hops.give rfl (hops.lt_next hi) (Nat.le_refl _) (fun _ _ => rfl) ?_ (fun o? hc => ?_)⟩
    · rintro j ⟨⟩
      exact hi
    · rcases hc with hc | hc <;> cases hc
  | set k x v =>
    obtain ⟨i, hi⟩ := hops.exists_scope (ho k rfl)
    exact ⟨_, by rw [Handles.perform, hi]; rfl, hops.set (ho k rfl) hi x v⟩
  | get k x =>
    obtain ⟨i, hi⟩ := hops.exists_scope (ho k rfl)
    refine ⟨h, by rw [Handles.perform, hi]; rfl, hops.keep Bool.false_ne_true rfl nofun ?_⟩
    intro i s hs
    refine ⟨s, hs, rfl, fun c o? y w hc _ hlatest => ?_⟩
    rw [hlatest, hops.latestSet_concat_iff]
    rintro ⟨_, _, ⟨⟩, -⟩

end Agrees

theorem run_concat (ops : List Op) (o : Op) :
    run (ops ++ [o]) = (run ops).bind fun h => h.perform o := by
  rw [run, List.foldlM_append]
  simp only [List.foldlM_cons, List.foldlM_nil, bind_pure]
  rfl

-- By induction on the history, at whose end the last operation stands.
theorem exists_run_agrees (hops : WellFormed ops) : ∃ h, run ops = some h ∧ Agrees ops h := by
  induction ops using List.reverseRecOn with
  | nil => exact ⟨empty, rfl, agrees_empty⟩
  | append_singleton ops o ih =>
    obtain ⟨hbefore, ho⟩ := wellFormed_concat_iff.1 hops
    obtain ⟨h, hrun, hagrees⟩ := ih hbefore
    obtain ⟨h', hperform, hagrees'⟩ := hagrees.perform ho
    refine ⟨h', ?_, hagrees'⟩
    rw [run_concat, hrun]
    exact hperform

/-! ## 2. Lookups -/

/-- What the scope that was made with `c` binds the name to itself. -/
def own (h : Handles) (c : Nat) (x : String) : Option Value :=
  (h.scopes[c]?.bind (h.store.scopes[·]?)).bind (·.bindings.get? x)

namespace Agrees

variable (hops : Agrees ops h)

include hops

theorem comesFrom_le (hk : ComesFrom (given ops) k c) : c ≤ k := by
  induction hk with
  | made _ => exact Nat.le_refl _
  | clone hj _ ih => exact Nat.le_trans ih (Nat.le_of_lt (hops.clone hj).1)

-- By induction on the number of the handle: what a scope lies inside of was given before it.
theorem exists_way (hk : k < (given ops).length) : ∃ cs, Way (given ops) k cs := by
  induction k using Nat.strongRecOn with
  | ind k ih =>
    obtain ⟨c, hc⟩ := hops.exists_comesFrom hk
    obtain ⟨o?, hmakes⟩ := hc.exists_makes
    cases o? with
    | none => exact ⟨[c], .outermost hc hmakes⟩
    | some j =>
      obtain ⟨_, _, -, -, -, hin, -⟩ := hops.made hmakes
      have hj : j < k := Nat.lt_of_lt_of_le (hin j rfl).1 (hops.comesFrom_le hc)
      obtain ⟨cs, hcs⟩ := ih j hj (Nat.lt_trans hj hk)
      exact ⟨c :: cs, .inside hc hmakes hcs⟩

theorem own_eq_some_iff {o? : Option Nat} (hc : Makes (given ops) c o?) :
    h.own c x = some v ↔ LatestSet ops c x v := by
  obtain ⟨i, s, hi, hs, -, -, hlatest⟩ := hops.made hc
  rw [← hlatest, own, hi, Option.bind_some, hs, Option.bind_some]

theorem own_eq_none_iff {o? : Option Nat} (hc : Makes (given ops) c o?) :
    h.own c x = none ↔ ¬ EverSet ops c x := by
  rw [everSet_iff, Option.eq_none_iff_forall_ne_some, not_exists]
  exact forall_congr' fun v => not_congr (hops.own_eq_some_iff hc)

-- A lookup in one scope, and otherwise in the one around it, which is older.
theorem lookupWithin_succ {o? : Option Nat} (hk : ComesFrom (given ops) k c)
    (hc : Makes (given ops) c o?) {i : ScopeId} (hi : h.scopes[k]? = some i) (n : Nat)
    (x : String) : h.store.lookupWithin x (n + 1) i =
      (h.own c x).or ((o?.bind (h.scopes[·]?)).bind (h.store.lookupWithin x n)) := by
  obtain ⟨i', s, hi', hs, hparent, -, -⟩ := hops.made hc
  obtain rfl : i' = i := Option.some.inj (hi'.symm.trans ((hops.scope_eq hk).symm.trans hi))
  have hown : h.own c x = s.bindings.get? x := by
    rw [own, hi', Option.bind_some, hs, Option.bind_some]
  rw [lookupWithin, hown, ← hparent]
  simp only [hs]
  cases s.bindings.get? x with
  | some v => rfl
  | none => cases s.parent <;> rfl

-- A lookup goes the way outward, on which the scopes are older and older.
theorem lookupWithin_eq {cs : List Nat} (hcs : Way (given ops) k cs) {i : ScopeId}
    (hi : h.scopes[k]? = some i) {n : Nat} (hn : i < n) (x : String) :
    h.store.lookupWithin x n i = cs.findSome? (h.own · x) := by
  induction hcs generalizing i n with
  | outermost hk hc =>
    obtain ⟨n, rfl⟩ := Nat.exists_eq_add_one_of_ne_zero (Nat.ne_zero_of_lt hn)
    rw [hops.lookupWithin_succ hk hc hi, List.findSome?_singleton]
    exact Option.or_none
  | @inside k c j cs hk hc _ ih =>
    obtain ⟨n, rfl⟩ := Nat.exists_eq_add_one_of_ne_zero (Nat.ne_zero_of_lt hn)
    obtain ⟨i', _, hi', -, -, hin, -⟩ := hops.made hc
    obtain rfl : i' = i := Option.some.inj (hi'.symm.trans ((hops.scope_eq hk).symm.trans hi))
    obtain ⟨-, p, hp, hj⟩ := hin j rfl
    have hrest : h.store.lookupWithin x n p = cs.findSome? (h.own · x) :=
      ih hj (Nat.lt_of_lt_of_le hp (Nat.le_of_lt_succ hn))
    rw [hops.lookupWithin_succ hk hc hi, List.findSome?_cons, Option.bind_some, hj,
      Option.bind_some, hrest]
    cases h.own c x <;> rfl

theorem lookup_eq {cs : List Nat} (hcs : Way (given ops) k cs) (hk : k < (given ops).length)
    (x : String) : h.lookup k x = cs.findSome? (h.own · x) := by
  obtain ⟨i, hi⟩ := hops.exists_scope hk
  rw [Handles.lookup, hi]
  exact hops.lookupWithin_eq hcs hi (Nat.lt_succ_self i) x

theorem lookup_eq_some_iff {cs : List Nat} (hcs : Way (given ops) k cs)
    (hk : k < (given ops).length) : h.lookup k x = some v ↔ ∃ before c after,
      cs = before ++ c :: after ∧ (∀ d ∈ before, ¬ EverSet ops d x) ∧ LatestSet ops c x v := by
  rw [hops.lookup_eq hcs hk, List.findSome?_eq_some_iff]
  refine exists_congr fun before => exists_congr fun c => exists_congr fun after => ?_
  refine and_congr_right fun heq => ?_
  subst heq
  have hmakes := hcs.makes
  rw [List.forall_mem_append, List.forall_mem_cons] at hmakes
  obtain ⟨hbefore, ⟨_, hc⟩, -⟩ := hmakes
  rw [hops.own_eq_some_iff hc, and_comm]
  refine and_congr_left fun _ => forall₂_congr fun d hd => ?_
  obtain ⟨_, hd⟩ := hbefore d hd
  exact hops.own_eq_none_iff hd

theorem lookup_eq_none_iff {cs : List Nat} (hcs : Way (given ops) k cs)
    (hk : k < (given ops).length) : h.lookup k x = none ↔ ∀ c ∈ cs, ¬ EverSet ops c x := by
  rw [hops.lookup_eq hcs hk, List.findSome?_eq_none_iff]
  refine forall₂_congr fun c hc => ?_
  obtain ⟨_, hc⟩ := hcs.makes c hc
  exact hops.own_eq_none_iff hc

theorem lookup_eq_none_of_le (hk : (given ops).length ≤ k) : h.lookup k x = none := by
  rw [← hops.size_eq] at hk
  rw [Handles.lookup, Array.getElem?_eq_none hk, Option.bind_none]

theorem same_iff (hj : j < (given ops).length) (hk : k < (given ops).length) :
    h.same j k = true ↔ ∃ c, ComesFrom (given ops) j c ∧ ComesFrom (given ops) k c := by
  rw [same, beq_iff_eq]
  constructor
  · intro heq
    obtain ⟨c, hc⟩ := hops.exists_comesFrom hk
    exact ⟨c, hops.comesFrom_of_scope_eq hc hj heq, hc⟩
  · rintro ⟨c, hjc, hkc⟩
    exact (hops.scope_eq hjc).trans (hops.scope_eq hkc).symm

end Agrees

/-! ## 3. Shared nested maps -/

-- Where two searches come to different ends, there is a first element that they judge differently.
theorem exists_of_findSome?_ne {α β : Type} {f g : α → Option β} {as : List α}
    (hne : as.findSome? f ≠ as.findSome? g) : ∃ before a after, as = before ++ a :: after ∧
      (∀ b ∈ before, f b = none) ∧ f a ≠ g a := by
  induction as with
  | nil => exact absurd rfl hne
  | cons a as ih =>
    by_cases ha : f a = g a
    · rw [List.findSome?_cons, List.findSome?_cons, ← ha] at hne
      cases hfa : f a with
      | some b =>
        rw [hfa] at hne
        exact absurd rfl hne
      | none =>
        rw [hfa] at hne
        obtain ⟨before, b, after, rfl, hbefore, hb⟩ := ih hne
        exact ⟨a :: before, b, after, rfl, List.forall_mem_cons.2 ⟨hfa, hbefore⟩, hb⟩
    · exact ⟨[], a, as, rfl, nofun, ha⟩

-- Where a name was set, that makes a difference just where no nearer scope has it.
theorem exists_way_of_lookup_ne {before after : List Op}
    (hops : Agrees (before ++ .set i x v :: after) h) {h' : Handles}
    (hops' : Agrees (before ++ after) h') (hne : h.lookup k y ≠ h'.lookup k y) :
    y = x ∧ ∃ cs c ds, Way (given (before ++ after)) k (cs ++ c :: ds) ∧
      ComesFrom (given (before ++ after)) i c ∧
      ∀ d ∈ cs, ¬ EverSet (before ++ .set i x v :: after) d y := by
  have hset : (Op.set i x v).gives ≠ true := Bool.false_ne_true
  have hgiven := given_append_cons hset before after
  by_cases hk : k < (given (before ++ after)).length
  · obtain ⟨cs, hcs⟩ := hops'.exists_way hk
    have hcs' := hcs
    have hk' := hk
    rw [← hgiven] at hcs' hk'
    rw [hops.lookup_eq hcs' hk', hops'.lookup_eq hcs hk] at hne
    obtain ⟨cs, c, ds, rfl, hnearer, hc⟩ := exists_of_findSome?_ne hne
    have hmakes := hcs.makes
    have hmakes' := hcs'.makes
    rw [List.forall_mem_append, List.forall_mem_cons] at hmakes hmakes'
    obtain ⟨-, ⟨_, hmade⟩, -⟩ := hmakes
    obtain ⟨hnearer', ⟨_, hmade'⟩, -⟩ := hmakes'
    -- the scopes bind the name to different values, so it was this one that was set
    have hsets : SetsIn (given (before ++ after)) c y (.set i x v) := by
      by_contra hnot
      refine hc (Option.ext fun w => ?_)
      rw [hops.own_eq_some_iff hmade', hops'.own_eq_some_iff hmade,
        latestSet_append_cons_iff hset hnot]
    obtain ⟨_, _, ⟨⟩, hic⟩ := hsets
    refine ⟨rfl, cs, c, ds, hcs, hic, fun d hd => ?_⟩
    obtain ⟨_, hd'⟩ := hnearer' d hd
    exact (hops.own_eq_none_iff hd').1 (hnearer d hd)
  · rw [hops'.lookup_eq_none_of_le (Nat.le_of_not_lt hk),
      hops.lookup_eq_none_of_le (hgiven ▸ Nat.le_of_not_lt hk)] at hne
    exact absurd rfl hne

/-- **Environments behave as shared nested maps.**  Operations on handles that were given before all
succeed.  Each handle has one way outward, and through it a name has the value that was set last in
the nearest scope on this way in which it was ever set, through whichever handle, or none if there
is no such scope.  Two handles stand for one scope just if they come from one that it was made with.
If a name is set, this makes a difference, now and later, for just this name and just through
handles on whose way outward the scope lies, with no nearer one in which the name was set. -/
theorem handles_share_nested_maps (hops : WellFormed ops) : ∃ h, run ops = some h ∧
    (∀ k < (given ops).length, ∃ cs, (∀ ds, Way (given ops) k ds ↔ ds = cs) ∧ ∀ x,
      (∀ v, h.lookup k x = some v ↔ ∃ before c after, cs = before ++ c :: after ∧
        (∀ d ∈ before, ¬ EverSet ops d x) ∧ LatestSet ops c x v) ∧
      (h.lookup k x = none ↔ ∀ c ∈ cs, ¬ EverSet ops c x)) ∧
    (∀ j < (given ops).length, ∀ k < (given ops).length,
      h.same j k = true ↔ ∃ c, ComesFrom (given ops) j c ∧ ComesFrom (given ops) k c) ∧
    ∀ before i x v after, ops = before ++ .set i x v :: after →
      ∃ h', run (before ++ after) = some h' ∧ ∀ k y, h.lookup k y ≠ h'.lookup k y →
        y = x ∧ ∃ cs c ds, Way (given ops) k (cs ++ c :: ds) ∧ ComesFrom (given ops) i c ∧
          ∀ d ∈ cs, ¬ EverSet ops d y := by
  obtain ⟨h, hrun, hagrees⟩ := exists_run_agrees hops
  refine ⟨h, hrun, fun k hk => ?_, fun j hj k hk => hagrees.same_iff hj hk, ?_⟩
  · obtain ⟨cs, hcs⟩ := hagrees.exists_way hk
    exact ⟨cs, fun ds => ⟨fun hds => hds.unique hcs, fun heq => heq ▸ hcs⟩,
      fun x => ⟨fun v => hagrees.lookup_eq_some_iff hcs hk, hagrees.lookup_eq_none_iff hcs hk⟩⟩
  · rintro before i x v after rfl
    have hset : (Op.set i x v).gives ≠ true := Bool.false_ne_true
    obtain ⟨h', hrun', hagrees'⟩ := exists_run_agrees (hops.of_append_cons hset)
    refine ⟨h', hrun', fun k y hne => ?_⟩
    rw [given_append_cons hset]
    exact exists_way_of_lookup_ne hagrees hagrees' hne

/-- What is set through a clone is seen through the handle that was cloned and from inside of its
scope; the scope inside is another one. -/
theorem set_through_clone :
    let ops : List Op := [.new, .enclosed 0, .clone 0, .set 2 "a" (.int 1)]
    WellFormed ops ∧ ∃ h, run ops = some h ∧ h.lookup 1 "a" = some (.int 1) ∧
      h.same 0 2 = true ∧ h.same 0 1 ≠ true ∧
      ∃ h', run [.new, .enclosed 0, .clone 0] = some h' ∧ h.lookup 1 "b" = h'.lookup 1 "b" := by
  intro ops
  have hops : WellFormed ops := by
    have hnew : WellFormed [.new] := wellFormed_nil.concat nofun
    have hin : WellFormed [.new, .enclosed 0] := hnew.concat fun k hk => by cases hk; decide
    have hclone := hin.concat (o := .clone 0) fun k hk => by cases hk; decide
    exact hclone.concat fun k hk => by cases hk; decide
  obtain ⟨h, hrun, hlookup, hsame, hset⟩ := handles_share_nested_maps hops
  have hmade : Makes (given ops) 0 none := .new rfl
  have hmade' : Makes (given ops) 1 (some 0) := .enclosed rfl
  have hclone : ComesFrom (given ops) 2 0 := .clone rfl (.made hmade)
  refine ⟨hops, h, hrun, ?_, ?_, ?_, ?_⟩
  · obtain ⟨cs, hway, hvalue⟩ := hlookup 1 (by decide)
    obtain rfl := (hway [1, 0]).1 (.inside (.made hmade') hmade' (.outermost (.made hmade) hmade))
    refine ((hvalue "a").1 (.int 1)).2 ⟨[1], 0, [], rfl, ?_, ?_⟩
    · rintro d hd ⟨o, ho, k, v, rfl, hk⟩
      obtain rfl := List.mem_singleton.1 hd
      obtain ⟨rfl, rfl⟩ : k = 2 ∧ v = .int 1 := by simpa [ops] using ho
      exact absurd (hk.unique hclone) (by decide)
    · exact ⟨[.new, .enclosed 0, .clone 0], 2, [], rfl, hclone, nofun⟩
  · exact (hsame 0 (by decide) 2 (by decide)).2 ⟨0, .made hmade, hclone⟩
  · intro h01
    obtain ⟨c, hc, hc'⟩ := (hsame 0 (by decide) 1 (by decide)).1 h01
    have h0 := hc.unique (.made hmade)
    have h1 := hc'.unique (.made hmade')
    omega
  · obtain ⟨h', hrun', hdiffer⟩ := hset [.new, .enclosed 0, .clone 0] 2 "a" (.int 1) [] rfl
    refine ⟨h', hrun', ?_⟩
    by_contra hne
    exact absurd (hdiffer 1 "b" hne).1 (by decide)

end Handles

end Monkey
