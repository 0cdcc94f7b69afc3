/-!
# Tables — keys with their values, in the order of the keys

A table is a list of entries, each key once and the keys ascending, so two tables with the same
entries are the same list.  `Table.insert` keeps this, and `Table.get?` reads a table.
-/

namespace Monkey

/-- Keys with their values, in the order of the keys. -/
abbrev Table (κ α : Type) : Type := List (κ × α)

namespace Table

variable {κ α : Type}

/-- The value that stands for the key `k`. -/
def get? [DecidableEq κ] (k : κ) : Table κ α → Option α
  | [] => none
  | (l, v) :: t => if k = l then some v else get? k t

@[simp] theorem get?_nil [DecidableEq κ] (k : κ) : get? k ([] : Table κ α) = none := rfl

/-- The table with the value `v` for the key `k`, whatever stood there before. -/
def insert [Ord κ] (k : κ) (v : α) : Table κ α → Table κ α
  | [] => [(k, v)]
  | (l, w) :: t =>
    match compare k l with
    | .lt => (k, v) :: (l, w) :: t
    | .eq => (k, v) :: t
    | .gt => (l, w) :: insert k v t

theorem mem_of_get? [DecidableEq κ] {k : κ} {v : α} {t : Table κ α} (h : get? k t = some v) :
    (k, v) ∈ t := by
  induction t with
  | nil => cases h
  | cons e t ih =>
    obtain ⟨l, w⟩ := e
    rw [get?] at h
    split at h
    · next hk =>
      subst hk
      cases h
      exact List.mem_cons_self
    · exact List.mem_cons_of_mem _ (ih h)

theorem get?_of_mem [DecidableEq κ] {k : κ} {v : α} {t : Table κ α} (h : (t.map (·.1)).Nodup)
    (hm : (k, v) ∈ t) : get? k t = some v := by
  induction t with
  | nil => cases hm
  | cons e t ih =>
    obtain ⟨l, w⟩ := e
    obtain ⟨hl, ht⟩ := List.nodup_cons.1 h
    rw [get?]
    rcases List.mem_cons.1 hm with heq | hm
    · cases heq
      exact if_pos rfl
    · have hne : k ≠ l := fun heq => hl (heq ▸ List.mem_map_of_mem (f := (·.1)) hm)
      rw [if_neg hne, ih ht hm]

/-- The keys ascend, so each stands there once. -/
def Sorted [Ord κ] (t : Table κ α) : Prop := t.Pairwise fun a b => compare a.1 b.1 = .lt

theorem mem_insert [Ord κ] {k : κ} {v : α} {t : Table κ α} {e : κ × α} (h : e ∈ insert k v t) :
    e = (k, v) ∨ e ∈ t := by
  induction t with
  | nil => simpa [insert] using h
  | cons f t ih =>
    obtain ⟨l, w⟩ := f
    rw [insert] at h
    split at h <;> simp only [List.mem_cons] at h ⊢
    · exact h
    · rcases h with h | h
      · exact .inl h
      · exact .inr (.inr h)
    · rcases h with h | h
      · exact .inr (.inl h)
      · exact (ih h).imp id .inr

-- Insertion keeps the keys ascending.
theorem Sorted.insert [Ord κ] [Std.LawfulEqOrd κ] [Std.TransOrd κ] {t : Table κ α}
    (h : t.Sorted) (k : κ) (v : α) : (t.insert k v).Sorted := by
  induction t with
  | nil => simp [Table.insert, Sorted]
  | cons f t ih =>
    obtain ⟨l, w⟩ := f
    obtain ⟨hl, ht⟩ := List.pairwise_cons.1 h
    rw [Table.insert]
    split
    · next hlt =>
      refine List.pairwise_cons.2 ⟨fun e he => ?_, h⟩
      rcases List.mem_cons.1 he with rfl | he
      · exact hlt
      · exact Std.TransCmp.lt_trans hlt (hl e he)
    · next heq =>
      have : k = l := by simpa using heq
      subst this
      exact List.pairwise_cons.2 ⟨hl, ht⟩
    · next hgt =>
      refine List.pairwise_cons.2 ⟨fun e he => ?_, ih ht⟩
      rcases mem_insert he with rfl | he
      · exact Std.OrientedCmp.lt_of_gt hgt
      · exact hl e he

variable [DecidableEq κ] [Ord κ] [Std.LawfulEqOrd κ]

@[simp] theorem get?_insert_self (k : κ) (v : α) (t : Table κ α) :
    get? k (insert k v t) = some v := by
  induction t with
  | nil => simp [insert, get?]
  | cons e t ih =>
    obtain ⟨l, w⟩ := e
    rw [insert]
    split
    · simp [get?]
    · simp [get?]
    · next h =>
      have hne : k ≠ l := by
        rintro rfl
        simp at h
      simp [get?, hne, ih]

theorem get?_insert_of_ne {k l : κ} (h : l ≠ k) (v : α) (t : Table κ α) :
    get? l (insert k v t) = get? l t := by
  induction t with
  | nil => simp [insert, get?, h]
  | cons e t ih =>
    obtain ⟨j, w⟩ := e
    rw [insert]
    split
    · simp [get?, h]
    · next hk =>
      have : k = j := by simpa using hk
      subst this
      simp [get?, h]
    · simp [get?, ih]

end Table

end Monkey
