import Mathlib.Data.List.Nodup
import Monkey.Table

/-!
# Entries — tables from what is put into them

Of entries with one key, the last that is put into a table stays there.  If all keys differ, the
order does not count, since a table has its entries in the order of the keys.
-/

namespace Monkey

namespace Table

variable {κ α : Type} [Ord κ] [Std.LawfulEqOrd κ]

/-- The table with the given entries put in one after the other. -/
def insertAll (es : List (κ × α)) (t : Table κ α) : Table κ α :=
  es.foldl (fun t e => t.insert e.1 e.2) t

/-! ## 1. Entries with new keys -/

theorem insert_perm {k : κ} {v : α} {t : Table κ α} (h : ∀ e ∈ t, k ≠ e.1) :
    (t.insert k v).Perm ((k, v) :: t) := by
  induction t with
  | nil => exact .refl _
  | cons e t ih =>
    obtain ⟨l, w⟩ := e
    rw [insert]
    split
    · exact .refl _
    · next heq =>
      have hk : k = l := by simpa using heq
      exact absurd hk (h (l, w) List.mem_cons_self)
    · have ht := ih fun e he => h e (List.mem_cons_of_mem _ he)
      exact (ht.cons (l, w)).trans (.swap (k, v) (l, w) t)

-- Entries with new keys that differ from one another all get into the table.
theorem insertAll_perm (es : List (κ × α)) {t : Table κ α} (h : ((es ++ t).map (·.1)).Nodup) :
    (insertAll es t).Perm (es ++ t) := by
  induction es generalizing t with
  | nil => exact .refl _
  | cons e es ih =>
    rw [List.cons_append, List.map_cons, List.nodup_cons] at h
    obtain ⟨hnew, hnodup⟩ := h
    have hinsert : (t.insert e.1 e.2).Perm (e :: t) := by
      refine insert_perm fun e' he' heq => hnew ?_
      exact heq ▸ List.mem_map_of_mem (List.mem_append_right es he')
    have hperm : (es ++ t.insert e.1 e.2).Perm (e :: (es ++ t)) :=
      (hinsert.append_left es).trans List.perm_middle
    have hkeys : ((es ++ t.insert e.1 e.2).map (·.1)).Nodup := by
      rw [(hperm.map (·.1)).nodup_iff, List.map_cons, List.nodup_cons]
      exact ⟨hnew, hnodup⟩
    exact (ih hkeys).trans hperm

theorem Sorted.insertAll [Std.TransOrd κ] (es : List (κ × α)) {t : Table κ α} (h : t.Sorted) :
    (t.insertAll es).Sorted := by
  induction es generalizing t with
  | nil => exact h
  | cons e es ih => exact ih (h.insert e.1 e.2)

theorem Sorted.nodup_keys {t : Table κ α} (h : t.Sorted) : (t.map (·.1)).Nodup := by
  rw [List.Nodup, List.pairwise_map]
  refine h.imp fun {a b} hlt heq => ?_
  rw [Std.compare_eq_iff_eq.2 heq] at hlt
  cases hlt

-- A table is got back by putting its entries in, in any order.
theorem Sorted.insertAll_nil_of_perm [Std.TransOrd κ] {es : List (κ × α)} {t : Table κ α}
    (ht : t.Sorted) (h : es.Perm t) : Table.insertAll es [] = t := by
  have hkeys : (List.map Prod.fst (es ++ [])).Nodup := by
    rw [List.append_nil, (h.map Prod.fst).nodup_iff]
    exact ht.nodup_keys
  have hperm := insertAll_perm es hkeys
  rw [List.append_nil] at hperm
  -- both are in the order of the keys, and no two keys come before each other
  refine (hperm.trans h).eq_of_pairwise (fun a b _ _ hab hba => ?_) (Sorted.insertAll es .nil) ht
  have hgt := Std.OrientedCmp.gt_of_lt hba
  rw [hab] at hgt
  cases hgt

/-! ## 2. The last entry wins -/

variable [DecidableEq κ]

theorem get?_insertAll (es : List (κ × α)) (t : Table κ α) (k : κ) :
    (insertAll es t).get? k = ((es.reverse.find? (·.1 = k)).map (·.2)).or (t.get? k) := by
  induction es generalizing t with
  | nil => rfl
  | cons e es ih =>
    have hstep : insertAll (e :: es) t = insertAll es (t.insert e.1 e.2) := rfl
    rw [hstep, ih, List.reverse_cons, List.find?_append]
    by_cases hk : e.1 = k
    · subst hk
      cases es.reverse.find? (·.1 = e.1) <;> simp
    · rw [get?_insert_of_ne (Ne.symm hk)]
      simp [hk]

-- Some entry with a key wins if there is one.
theorem exists_get?_insertAll {es : List (κ × α)} {k : κ} (h : k ∈ es.map (·.1)) (t : Table κ α) :
    ∃ e ∈ es, e.1 = k ∧ (insertAll es t).get? k = some e.2 := by
  obtain ⟨e, he, hk⟩ := List.mem_map.1 h
  have hsome : (es.reverse.find? (·.1 = k)).isSome := by
    rw [List.find?_isSome]
    exact ⟨e, List.mem_reverse.2 he, by simpa using hk⟩
  obtain ⟨e', hfind⟩ := Option.isSome_iff_exists.1 hsome
  have hmem := List.mem_reverse.1 (List.mem_of_find?_eq_some hfind)
  have hkey : e'.1 = k := by simpa using List.find?_some hfind
  refine ⟨e', hmem, hkey, ?_⟩
  rw [get?_insertAll, hfind]
  rfl

-- Where each key occurs once, each of the entries wins.
theorem get?_insertAll_of_nodup {es : List (κ × α)} (h : (es.map (·.1)).Nodup) {e : κ × α}
    (he : e ∈ es) (t : Table κ α) : (insertAll es t).get? e.1 = some e.2 := by
  obtain ⟨e', he', hkey, hget⟩ := exists_get?_insertAll (List.mem_map_of_mem (f := (·.1)) he) t
  rw [hget, List.inj_on_of_nodup_map h he' he hkey]

end Table

end Monkey
