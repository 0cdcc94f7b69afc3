import Monkey.Proofs.Run.Ends
import Monkey.Proofs.Run.Entries
import Monkey.Value.Equality

/-!
# Hashes — the last pair with a key wins

A hash literal evaluates its pairs from left to right, in each the key before the value, and a key
that can be none stops it before the value.  What comes of it is a map: every key has one entry,
the last pair that has this key, and indexing finds just the value of that pair.
-/

namespace Monkey

namespace Value

/-! ## 1. Keys -/

mutual

theorem same_refl (v : Value) : v.same v = true := by
  cases v with
  | array o elems => exact sameList_refl elems
  | hash o entries => exact sameEntries_refl entries
  | _ => simp [same]
termination_by structural v

theorem sameList_refl (vs : List Value) : sameList vs vs = true := by
  cases vs with
  | nil => rfl
  | cons v vs =>
    rw [sameList, same_refl v, sameList_refl vs]
    rfl
termination_by structural vs

theorem sameEntries_refl (es : List (HashKey × HashPair Value)) : sameEntries es es = true := by
  cases es with
  | nil => rfl
  | cons e es =>
    obtain ⟨k, c, v⟩ := e
    rw [sameEntries, same_refl c, same_refl v, sameEntries_refl es]
    simp
termination_by structural es

end

-- Two values are the same key just if they have the same type and content.
theorem key?_eq_some_iff_same {k v : Value} {key : HashKey} (hk : k.key? = some key) :
    v.key? = some key ↔ v.same k = true := by
  cases k <;> cases hk <;> cases v <;> simp [key?, same]

-- Keys of one type that are no texts are told apart by their bits.
theorem same_of_bits? {v w : Value} {k l : HashKey} {b : UInt64} (hv : v.key? = some k)
    (hw : w.key? = some l) (htype : v.type = w.type) (hk : k.bits? = some b)
    (hl : l.bits? = some b) : v.same w = true := by
  cases v with
  | int m =>
    cases w with
    | int n =>
      cases hv
      cases hw
      have hbits : m.toUInt64 = n.toUInt64 := Option.some.inj (hk.trans hl.symm)
      simpa [same] using Int64.toBitVec.inj (congrArg UInt64.toBitVec hbits)
    | _ => cases htype
  | bool c =>
    cases w with
    | bool d =>
      cases hv
      cases hw
      have hbits : c.toUInt64 = d.toUInt64 := Option.some.inj (hk.trans hl.symm)
      revert hbits
      cases c <;> cases d <;> decide
    | _ => cases htype
  | str o text =>
    cases hv
    cases hk
  | _ => cases hv

/-! ## 2. Tables from pairs -/

/-- The entries for pairs of a key and a value, in the same order. -/
def entriesOf (kvs : List (HashPair Value)) : List (HashKey × HashPair Value) :=
  kvs.filterMap fun kv => kv.key.key?.map fun key => (key, kv)

/-- The table that the pairs are put into, one after the other. -/
def tableOf (kvs : List (HashPair Value)) : Pairs := Table.insertAll (entriesOf kvs) []

variable {kvs : List (HashPair Value)}

theorem get?_tableOf (kvs : List (HashPair Value)) (key : HashKey) :
    (tableOf kvs).get? key = kvs.reverse.find? (·.key.key? = some key) := by
  have hany (kv : HashPair Value) :
      (kv.key.key?.map fun key => (key, kv)).any (·.1 = key) =
        decide (kv.key.key? = some key) := by
    cases kv.key.key? <;> simp
  rw [tableOf, Table.get?_insertAll, entriesOf, ← List.filterMap_reverse, List.find?_filterMap]
  simp only [hany]
  cases hfind : kvs.reverse.find? (·.key.key? = some key) with
  | none => rfl
  | some kv =>
    have hkey : kv.key.key? = some key := by simpa using List.find?_some hfind
    simp [hkey]

theorem nodup_keys_tableOf (kvs : List (HashPair Value)) : ((tableOf kvs).map (·.1)).Nodup :=
  (Table.Sorted.insertAll _ .nil).nodup_keys

theorem mem_tableOf_iff {key : HashKey} {kv : HashPair Value} :
    (key, kv) ∈ tableOf kvs ↔ kvs.reverse.find? (·.key.key? = some key) = some kv := by
  rw [← get?_tableOf]
  exact ⟨Table.get?_of_mem (nodup_keys_tableOf kvs), Table.mem_of_get?⟩

/-- The table is the map from keys to pairs in which the last of the pairs with a key wins. -/
structure LastWins (kvs : List (HashPair Value)) (t : Pairs) : Prop where
  -- No key has two entries,
  nodup : (t.map (·.1)).Nodup
  -- and each of the keys has one.
  key {kv : HashPair Value} : kv ∈ kvs → ∃ key last, kv.key.key? = some key ∧ (key, last) ∈ t
  -- It is the last pair with this key, so both its key and its value are those of that pair.
  entry {key : HashKey} {kv : HashPair Value} :
    (key, kv) ∈ t ↔ kvs.reverse.find? (·.key.key? = some key) = some kv
  -- What can be a key finds the value of the last pair whose key is the same, or null.
  index {k : Value} (o : ObjectId) : k.key?.isSome →
    (hash o t).applyIndex k =
      .ok (((kvs.reverse.find? (·.key.same k)).map (·.value)).getD .null)
  -- If no two keys are the same, then the pairs make the same hash in every order.
  order {kvs' : List (HashPair Value)} (o o' : ObjectId) :
    kvs.Pairwise (fun a b => a.key.same b.key = false) → kvs'.Perm kvs →
      (hash o' (tableOf kvs')).same (hash o t) = true

-- If no two keys are the same, all pairs get into the table, and the order does not count.
theorem tableOf_perm (h : kvs.Pairwise fun a b => a.key.same b.key = false)
    {kvs' : List (HashPair Value)} (hperm : kvs'.Perm kvs) : tableOf kvs' = tableOf kvs := by
  have hpairwise : (entriesOf kvs).Pairwise fun a b => a.1 ≠ b.1 := by
    apply h.filterMap
    intro a b hab e he e' he' heq
    obtain ⟨key, hkey, rfl⟩ := Option.map_eq_some_iff.1 he
    obtain ⟨key', hkey', rfl⟩ := Option.map_eq_some_iff.1 he'
    obtain rfl : key = key' := heq
    rw [(key?_eq_some_iff_same hkey').1 hkey] at hab
    cases hab
  have hkeys : ((entriesOf kvs ++ []).map Prod.fst).Nodup := by
    rw [List.append_nil]
    exact List.pairwise_map.2 hpairwise
  have htable : (tableOf kvs).Perm (entriesOf kvs) := by
    have hinsert := Table.insertAll_perm (entriesOf kvs) hkeys
    rwa [List.append_nil] at hinsert
  have hentries : (entriesOf kvs').Perm (entriesOf kvs) := hperm.filterMap _
  exact Table.Sorted.insertAll_nil_of_perm (Table.Sorted.insertAll _ .nil)
    (hentries.trans htable.symm)

theorem applyIndex_tableOf {k : Value} (hk : k.key?.isSome) (o : ObjectId) :
    (hash o (tableOf kvs)).applyIndex k =
      .ok (((kvs.reverse.find? (·.key.same k)).map (·.value)).getD .null) := by
  obtain ⟨key, hkey⟩ := Option.isSome_iff_exists.1 hk
  have hsame (kv : HashPair Value) : decide (kv.key.key? = some key) = kv.key.same k := by
    rw [Bool.eq_iff_iff, decide_eq_true_eq]
    exact key?_eq_some_iff_same hkey
  simp only [applyIndex, hkey, get?_tableOf, hsame]

theorem tableOf_lastWins (h : ∀ kv ∈ kvs, kv.key.key?.isSome) : LastWins kvs (tableOf kvs) where
  nodup := nodup_keys_tableOf kvs
  key := by
    intro kv hkv
    obtain ⟨key, hkey⟩ := Option.isSome_iff_exists.1 (h kv hkv)
    have hfind : (kvs.reverse.find? (·.key.key? = some key)).isSome := by
      rw [List.find?_isSome]
      exact ⟨kv, List.mem_reverse.2 hkv, by simpa using hkey⟩
    obtain ⟨last, hlast⟩ := Option.isSome_iff_exists.1 hfind
    exact ⟨key, last, hkey, mem_tableOf_iff.2 hlast⟩
  entry := mem_tableOf_iff
  index o hk := applyIndex_tableOf hk o
  order o o' hkeys hperm := by
    rw [tableOf_perm hkeys hperm, same]
    exact sameEntries_refl _

end Value

/-! ## 3. Hash literals -/

namespace Eval

open Value

variable {n : Nat} {i : ScopeId} {m m' : Machine} {ps : List (Expr × Expr)}
  {kvs : List (HashPair Value)}

/-- Evaluates one pair of a hash literal, the key first.  What can be no key stops it before the
value is evaluated. -/
def pair (eval : Evaluator) (i : ScopeId) (p : Expr × Expr) : Eval (HashPair Value) := do
  let k ← eval i p.1
  match k.key? with
  | none => fail (.unhashable k.type)
  | some _ => return ⟨k, ← eval i p.2⟩

theorem entry_eq (eval : Evaluator) (i : ScopeId) (t : Pairs) (p : Expr × Expr) :
    entry eval i t p = do return Table.insertAll (entriesOf [← pair eval i p]) t := by
  rw [entry, pair, bind_assoc]
  refine bind_congr fun k => ?_
  cases hk : k.key? with
  | none => rfl
  | some key =>
    rw [bind_assoc]
    refine bind_congr fun v => ?_
    rw [pure_bind, entriesOf, List.filterMap_cons_some (b := (key, ⟨k, v⟩)) (by rw [hk]; rfl)]
    rfl

theorem foldlM_entry (eval : Evaluator) (i : ScopeId) (ps : List (Expr × Expr))
    (t : Pairs) : ps.foldlM (entry eval i) t = do
      return Table.insertAll (entriesOf (← ps.mapM (pair eval i))) t := by
  induction ps generalizing t with
  | nil => rfl
  | cons p ps ih =>
    have hcons (kv : HashPair Value) (kvs : List (HashPair Value)) :
        Table.insertAll (entriesOf (kv :: kvs)) t =
          Table.insertAll (entriesOf kvs) (Table.insertAll (entriesOf [kv]) t) := by
      have happend : entriesOf (kv :: kvs) = entriesOf [kv] ++ entriesOf kvs :=
        List.filterMap_append (l := [kv])
      rw [happend]
      exact List.foldl_append
    rw [List.foldlM_cons, entry_eq, List.mapM_cons, bind_assoc, bind_assoc]
    refine bind_congr fun kv => ?_
    rw [pure_bind, ih, bind_assoc]
    refine bind_congr fun kvs => ?_
    rw [pure_bind, hcons kv kvs]

theorem eval_hash (n : Nat) (i : ScopeId) (ps : List (Expr × Expr)) :
    eval (n + 1) i (.hash ps) = do
      let kvs ← ps.mapM (pair (eval n) i)
      return .hash (← newObject) (tableOf kvs) := by
  show (ps.foldlM (entry (eval n) i) [] >>= _) = _
  rw [foldlM_entry, bind_assoc]
  rfl

-- Behind the pairs, nothing stops a hash literal.
theorem eval_hash_eq_error_iff {s : Stop} :
    eval (n + 1) i (.hash ps) m = some (.error s, m') ↔ StoppedAt (pair (eval n) i) s ps m m' := by
  rw [eval_hash, bind_eq_error_iff, mapM_eq_error_iff]
  apply or_iff_left
  rintro ⟨kvs, m₁, -, h⟩
  cases h

theorem isSome_key?_of_pair {eval : Evaluator} {p : Expr × Expr} {kv : HashPair Value}
    (h : pair eval i p m = some (.ok kv, m')) : kv.key.key?.isSome := by
  obtain ⟨k, m₁, -, hrest⟩ := bind_eq_ok_iff.1 h
  cases hk : k.key? with
  | none =>
    rw [hk] at hrest
    cases hrest
  | some key =>
    rw [hk] at hrest
    obtain ⟨v, m₂, -, hpure⟩ := bind_eq_ok_iff.1 hrest
    cases hpure
    rw [hk]
    rfl

theorem pair_of_unhashable {eval : Evaluator} {p : Expr × Expr} {k : Value} {m₁ : Machine}
    (h : eval i p.1 m = some (.ok k, m₁)) (hk : k.key? = none) :
    pair eval i p m = some (.error (.failed (.unhashable k.type)), m₁) := by
  rw [pair, bind_apply, h]
  simp only [hk]
  rfl

/-- **A hash literal makes a map in which the last pair with a key wins.**  It evaluates the pairs
from left to right, and the first that is stopped stops it; what is behind it is not evaluated.  A
key that can be none stops its pair at once.  The keys and values that this comes to make a table
with one entry for each key, the last pair that has it, in which any key finds the value of the last
pair with the same key, or null; and if the keys differ from one another, then the pairs make the
same hash in every order. -/
theorem hash_literal_last_wins (n : Nat) (i : ScopeId) (ps : List (Expr × Expr)) :
    eval (n + 1) i (.hash ps) = (do
      let kvs ← ps.mapM (pair (eval n) i)
      return .hash (← newObject) (tableOf kvs)) ∧
    (∀ m s m', eval (n + 1) i (.hash ps) m = some (.error s, m') ↔
      StoppedAt (pair (eval n) i) s ps m m') ∧
    (∀ p m k m₁, eval n i p.1 m = some (.ok k, m₁) → k.key? = none →
      pair (eval n) i p m = some (.error (.failed (.unhashable k.type)), m₁)) ∧
    ∀ m kvs m', ps.mapM (pair (eval n) i) m = some (.ok kvs, m') →
      LastWins kvs (tableOf kvs) := by
  refine ⟨eval_hash n i ps, fun _ _ _ => eval_hash_eq_error_iff,
    fun _ _ _ _ => pair_of_unhashable, fun m kvs m' h => ?_⟩
  apply tableOf_lastWins
  intro kv hkv
  obtain ⟨p, -, m₁, m₂, hp⟩ := exists_of_mem_mapM h hkv
  exact isSome_key?_of_pair hp

/-- The hash `{"a": 1, true: 2, "a": 3}` has three under `"a"` and two under `true`, and nothing under
one.  In `{[]: 4}` the four is not evaluated. -/
theorem hash_with_repeated_key :
    let m := Machine.initial .silent
    let ps : List (Expr × Expr) := [(.str "a", .int 1), (.bool true, .int 2), (.str "a", .int 3)]
    (∃ t, eval 2 0 (.hash ps) m = some (.ok (.hash 2 t), m.takeObject.takeObject.takeObject) ∧
      (hash 2 t).applyIndex (.str 3 "a") = .ok (.int 3) ∧
      (hash 2 t).applyIndex (.bool true) = .ok (.int 2) ∧
      (hash 2 t).applyIndex (.int 1) = .ok .null) ∧
    pair (eval 1) 0 (.array [], .int 4) m =
      some (.error (.failed (.unhashable .array)), m.takeObject) := by
  intro m ps
  have hliteral := hash_literal_last_wins 1 0 ps
  have hpairs : ps.mapM (pair (eval 1) 0) m = some
      (.ok [⟨.str 0 "a", .int 1⟩, ⟨.bool true, .int 2⟩, ⟨.str 1 "a", .int 3⟩],
        m.takeObject.takeObject) := rfl
  have hlast := hliteral.2.2.2 _ _ _ hpairs
  refine ⟨⟨_, ?_, hlast.index 2 rfl, hlast.index 2 rfl, hlast.index 2 rfl⟩, ?_⟩
  · rw [hliteral.1, bind_apply, hpairs]
    rfl
  · exact (hash_literal_last_wins 1 0 []).2.2.1 (.array [], .int 4) m _ _ rfl rfl

end Eval

end Monkey
