import Mathlib.Tactic.Common
import Monkey.Proofs.Run.Contract
import Monkey.Proofs.Run.Hash
import Monkey.Value.Operator

/-!
# Equality — the relations between values

Two values can be one and the same, have the same content, be the same key, or be equal for a
program.  Each of these is an equivalence where it is defined at all, and what programs ask with
`==` is whether two values are one and the same, unless both are texts.
-/

namespace Monkey

namespace Value

variable {o : ObjectId} {u v w : Value}

/-! ## 1. Content -/

mutual

theorem same_comm (v w : Value) : v.same w = w.same v := by
  cases v <;> cases w <;> simp only [same]
  case array.array => exact sameList_comm _ _
  case hash.hash => exact sameEntries_comm _ _
  all_goals exact decide_eq_decide.2 eq_comm
termination_by structural v

theorem sameList_comm (vs ws : List Value) : sameList vs ws = sameList ws vs := by
  cases vs with
  | nil => cases ws <;> rfl
  | cons v vs =>
    cases ws with
    | nil => rfl
    | cons w ws => rw [sameList, sameList, same_comm v w, sameList_comm vs ws]
termination_by structural vs

theorem sameEntries_comm (es fs : List (HashKey × HashPair Value)) :
    sameEntries es fs = sameEntries fs es := by
  cases es with
  | nil => cases fs <;> rfl
  | cons e es =>
    cases fs with
    | nil => rfl
    | cons f fs =>
      obtain ⟨k, c, v⟩ := e
      obtain ⟨l, d, w⟩ := f
      rw [sameEntries, sameEntries, same_comm c d, same_comm v w, sameEntries_comm es fs,
        decide_eq_decide.2 (eq_comm (a := k))]
termination_by structural es

end

mutual

theorem same_trans (u : Value) {v w : Value} (huv : u.same v = true) (hvw : v.same w = true) :
    u.same w = true := by
  cases u with
  | array i us =>
    cases v with
    | array j vs =>
      cases w with
      | array k ws => exact sameList_trans us huv hvw
      | _ => simp [same] at hvw
    | _ => simp [same] at huv
  | hash i es =>
    cases v with
    | hash j fs =>
      cases w with
      | hash k gs => exact sameEntries_trans es huv hvw
      | _ => simp [same] at hvw
    | _ => simp [same] at huv
  | _ =>
    cases v <;> simp only [same, decide_eq_true_eq, Bool.false_eq_true] at huv
    cases w <;> simp_all [same]
termination_by structural u

theorem sameList_trans (us : List Value) {vs ws : List Value} (huv : sameList us vs = true)
    (hvw : sameList vs ws = true) : sameList us ws = true := by
  cases us with
  | nil => cases vs <;> simp_all [sameList]
  | cons u us =>
    cases vs with
    | nil => simp [sameList] at huv
    | cons v vs =>
      cases ws with
      | nil => simp [sameList] at hvw
      | cons w ws =>
        rw [sameList, Bool.and_eq_true] at huv hvw ⊢
        exact ⟨same_trans u huv.1 hvw.1, sameList_trans us huv.2 hvw.2⟩
termination_by structural us

theorem sameEntries_trans (es : List (HashKey × HashPair Value))
    {fs gs : List (HashKey × HashPair Value)} (hef : sameEntries es fs = true)
    (hfg : sameEntries fs gs = true) : sameEntries es gs = true := by
  cases es with
  | nil => cases fs <;> simp_all [sameEntries]
  | cons e es =>
    obtain ⟨k, b, u⟩ := e
    cases fs with
    | nil => simp [sameEntries] at hef
    | cons f fs =>
      obtain ⟨l, c, v⟩ := f
      cases gs with
      | nil => simp [sameEntries] at hfg
      | cons g gs =>
        obtain ⟨r, d, w⟩ := g
        simp only [sameEntries, Bool.and_eq_true, decide_eq_true_eq] at hef hfg ⊢
        obtain ⟨⟨⟨hkl, hbc⟩, huv⟩, hef⟩ := hef
        obtain ⟨⟨⟨hlr, hcd⟩, hvw⟩, hfg⟩ := hfg
        exact ⟨⟨⟨hkl.trans hlr, same_trans b hbc hcd⟩, same_trans u huv hvw⟩,
          sameEntries_trans es hef hfg⟩
termination_by structural es

end

theorem same_equivalence : Equivalence fun v w : Value => v.same w = true where
  refl := same_refl
  symm {v w} h := by rwa [same_comm w v]
  trans {u _ _} h h' := same_trans u h h'

/-! ## 2. Identity -/

theorem identical_refl (v : Value) : v.identical v = true := by
  cases v <;> simp [identical]

theorem identical_comm (v w : Value) : v.identical w = w.identical v := by
  cases v <;> cases w <;> simp only [identical]
  all_goals exact decide_eq_decide.2 eq_comm

theorem identical_trans (huv : u.identical v = true) (hvw : v.identical w = true) :
    u.identical w = true := by
  cases u <;> cases v <;> simp [identical] at huv <;> cases w <;> simp_all [identical]

-- Values that are one and the same are one object, or no objects and equal.
theorem object?_eq_of_identical (h : v.identical w = true) : v.object? = w.object? := by
  cases v <;> cases w <;> simp [identical] at h <;> simp [object?, h]

theorem type_eq_of_identical (h : v.identical w = true) : v.type = w.type := by
  cases v <;> cases w <;> simp [identical] at h <;> rfl

theorem eq_of_identical (h : v.identical w = true) (hv : v.object? = none) : v = w := by
  cases v <;> cases w <;> simp_all [identical, object?]

/-! ## 3. The operators -/

-- Programs are told whether two values are one and the same, unless both are texts.
theorem applyBinary_eq (h : ¬ (v.type = .string ∧ w.type = .string)) (o : ObjectId) :
    v.applyBinary o .eq w = .ok (.bool (v.identical w)) := by
  cases v <;> cases w <;> first | rfl | exact absurd ⟨rfl, rfl⟩ h

theorem applyBinary_ne (h : ¬ (v.type = .string ∧ w.type = .string)) (o : ObjectId) :
    v.applyBinary o .ne w = .ok (.bool !v.identical w) := by
  by_cases hints : v.type = .integer ∧ w.type = .integer
  · obtain ⟨hv, hw⟩ := hints
    cases v <;> cases hv
    cases w <;> cases hw
    simp [applyBinary, applyInts, identical]
  · cases v <;> cases w <;> first
      | rfl
      | exact absurd ⟨rfl, rfl⟩ h
      | exact absurd ⟨rfl, rfl⟩ hints

theorem applyBinary_strings {op : BinaryOp} (hop : op = .eq ∨ op = .ne) (hv : v.type = .string)
    (hw : w.type = .string) (o : ObjectId) :
    v.applyBinary o op w = .error (.unknownBinary .string op .string) := by
  cases v <;> cases hv
  cases w <;> cases hw
  rcases hop with rfl | rfl <;> rfl

-- Programs cannot ask whether two texts are equal, and whether other values are they can.
theorem applyBinary_eq_error_iff {op : BinaryOp} (hop : op = .eq ∨ op = .ne) :
    (∃ e, v.applyBinary o op w = .error e) ↔ v.type = .string ∧ w.type = .string := by
  constructor
  · rintro ⟨e, he⟩
    by_contra h
    rcases hop with rfl | rfl
    · rw [applyBinary_eq h] at he
      cases he
    · rw [applyBinary_ne h] at he
      cases he
  · rintro ⟨hv, hw⟩
    exact ⟨_, applyBinary_strings hop hv hw o⟩

theorem identical_of_applyBinary_eq (h : v.applyBinary o .eq w = .ok (.bool true)) :
    v.identical w = true := by
  by_cases hstrings : v.type = .string ∧ w.type = .string
  · rw [applyBinary_strings (.inl rfl) hstrings.1 hstrings.2] at h
    cases h
  · rw [applyBinary_eq hstrings] at h
    injection h with h
    injection h

theorem applyBinary_eq_comm (v w : Value) (o : ObjectId) :
    v.applyBinary o .eq w = w.applyBinary o .eq v := by
  by_cases hstrings : v.type = .string ∧ w.type = .string
  · rw [applyBinary_strings (.inl rfl) hstrings.1 hstrings.2,
      applyBinary_strings (.inl rfl) hstrings.2 hstrings.1]
  · rw [applyBinary_eq hstrings, applyBinary_eq (mt And.symm hstrings), identical_comm v w]

-- Where `==` says yes, neither of the values is a text.
theorem applyBinary_eq_trans (huv : u.applyBinary o .eq v = .ok (.bool true))
    (hvw : v.applyBinary o .eq w = .ok (.bool true)) :
    u.applyBinary o .eq w = .ok (.bool true) := by
  have hidentical : u.identical w = true :=
    identical_trans (identical_of_applyBinary_eq huv) (identical_of_applyBinary_eq hvw)
  have hstrings : ¬ (u.type = .string ∧ w.type = .string) := by
    rintro ⟨hu, hw⟩
    have hv := type_eq_of_identical (identical_of_applyBinary_eq hvw)
    rw [applyBinary_strings (.inl rfl) hu (hv.trans hw)] at huv
    cases huv
  rw [applyBinary_eq hstrings, hidentical]

end Value

end Monkey
