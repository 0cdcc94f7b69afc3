import Mathlib.Tactic.Choose
import Monkey.Proofs.Run.Custody
import Monkey.Proofs.Run.Hash
import Monkey.Value.Literal

/-!
# Literals — conversion to syntax is undone by evaluation

A value that is made of integers, truth values and texts by arrays and hashes has a literal.
Wherever this is evaluated it comes to a value of the same content, prints nothing and binds
nothing, whatever the order is in which the entries of hashes are written.  A value has no literal
just if it is or holds a null, a builtin, a macro or an error.

A hash holds pairs of two values, and either of them may be without a literal.  Where every pair
stands under the key that its own key is, as hash literals put it there, the keys of pairs have
literals, so it is only the values that count.
-/

namespace Monkey

namespace Value

/-! ## 1. Values with a literal -/

/-- What is made of integers, truth values and texts by arrays and hashes, whose tables have each
key once, with a pair that has this key. -/
inductive Data : Value → Prop
  | int (n : Int64) : Data (.int n)
  | bool (b : Bool) : Data (.bool b)
  | str (i : ObjectId) (text : String) : Data (.str i text)
  | array {i : ObjectId} {vs : List Value} : (∀ v ∈ vs, Data v) → Data (.array i vs)
  | hash {i : ObjectId} {t : Pairs} : t.Sorted → (hash i t).Keyed → (∀ e ∈ t, Data e.2.value) →
      Data (.hash i t)

/-- `Spelled v e`: the expression `e` spells out the content of `v`, and the entries of its hashes
in whatever order. -/
inductive Spelled : Value → Expr → Prop
  | int (n : Int64) : Spelled (.int n) (.int n)
  | bool (b : Bool) : Spelled (.bool b) (.bool b)
  | str (i : ObjectId) (text : String) : Spelled (.str i text) (.str text)
  | array {i : ObjectId} {ps : List (Value × Expr)} : (∀ p ∈ ps, Spelled p.1 p.2) →
      Spelled (.array i (ps.map (·.1))) (.array (ps.map (·.2)))
  | hash {i : ObjectId} {t : Pairs} {ps : List ((HashKey × HashPair Value) × Expr × Expr)} :
      t.Sorted → (hash i t).Keyed → (ps.map (·.1)).Perm t →
      (∀ p ∈ ps, Spelled p.1.2.key p.2.1) → (∀ p ∈ ps, Spelled p.1.2.value p.2.2) →
      Spelled (.hash i t) (.hash (ps.map (·.2)))

/-- `Inner w v`: the value `v` is `w`, or holds it through elements of arrays and values of hashes,
but not as a key of a pair. -/
inductive Inner : Value → Value → Prop
  | self (v : Value) : Inner v v
  | elem {w v i vs} : v ∈ vs → Inner w v → Inner w (.array i vs)
  | value {w e i t} : e ∈ t → Inner w e.2.value → Inner w (.hash i t)

/-- The types of the values that have no literal themselves. -/
def literalless : List ValueType := [.null, .builtin, .macroFn, .error]

section

variable {α β : Type} {f : α → Except EvalError β} {as : List α}

theorem mapM_of_forall {g : α → β} (h : ∀ a ∈ as, f a = .ok (g a)) :
    as.mapM f = .ok (as.map g) := by
  induction as with
  | nil => rfl
  | cons a as ih =>
    obtain ⟨ha, has⟩ := List.forall_mem_cons.1 h
    rw [List.mapM_cons, ha, ih has]
    rfl

end

-- The literals of elements are made in order, up to the first that has none.
theorem literals_eq_mapM (vs : List Value) : literals vs = vs.mapM Value.literal := by
  induction vs with
  | nil => rfl
  | cons v vs ih => rw [literals, List.mapM_cons, ih]

-- The literal of a pair of a key and a value.
def entryLiteral (e : HashKey × HashPair Value) : Except EvalError (Expr × Expr) :=
  return (← e.2.key.literal, ← e.2.value.literal)

theorem entryLiterals_eq_mapM (t : Pairs) : entryLiterals t = t.mapM entryLiteral := by
  induction t with
  | nil => rfl
  | cons e t ih =>
    obtain ⟨k, c, v⟩ := e
    rw [entryLiterals, List.mapM_cons, ih, entryLiteral, bind_assoc]
    cases c.literal <;> cases v.literal <;> rfl

theorem literal_array (i : ObjectId) (vs : List Value) :
    (array i vs).literal = (vs.mapM Value.literal).map .array := by
  rw [Value.literal, literals_eq_mapM]
  rfl

theorem literal_hash (i : ObjectId) (t : Pairs) :
    (hash i t).literal = (t.mapM entryLiteral).map .hash := by
  rw [Value.literal, entryLiterals_eq_mapM]
  rfl

-- What can be a key holds nothing but itself, and has a literal.
theorem eq_of_part_of_key? {v w : Value} {k : HashKey} (h : v.key? = some k) (hw : Part w v) :
    w = v := by
  cases hw with
  | self => rfl
  | elem _ _ | key _ _ | value _ _ => cases h

theorem spelled_of_key? {v : Value} {k : HashKey} (h : v.key? = some k) :
    ∃ e, v.literal = .ok e ∧ Spelled v e := by
  cases v with
  | int n => exact ⟨_, rfl, .int n⟩
  | bool b => exact ⟨_, rfl, .bool b⟩
  | str i text => exact ⟨_, rfl, .str i text⟩
  | _ => cases h

theorem Data.literal {v : Value} (h : Data v) : ∃ e, v.literal = .ok e ∧ Spelled v e := by
  induction h with
  | int n => exact ⟨_, rfl, .int n⟩
  | bool b => exact ⟨_, rfl, .bool b⟩
  | str i text => exact ⟨_, rfl, .str i text⟩
  | @array i vs _ ih =>
    choose! f hf using ih
    have hspelled : ∀ p ∈ vs.map fun v => (v, f v), Spelled p.1 p.2 := by
      intro p hp
      obtain ⟨v, hv, rfl⟩ := List.mem_map.1 hp
      exact (hf v hv).2
    refine ⟨.array (vs.map f), ?_, ?_⟩
    · rw [literal_array, mapM_of_forall fun v hv => (hf v hv).1]
      rfl
    · simpa [Function.comp_def] using Spelled.array (i := i) hspelled
  | @hash i t ht hkeyed _ ih =>
    have hkeys : ∀ e ∈ t, ∃ x, e.2.key.literal = .ok x ∧ Spelled e.2.key x :=
      fun e he => spelled_of_key? (hkeyed e he)
    choose! f hf using ih
    choose! g hg using hkeys
    have hentries : ∀ e ∈ t, entryLiteral e = .ok (g e, f e) := by
      intro e he
      rw [entryLiteral, (hg e he).1, (hf e he).1]
      rfl
    refine ⟨.hash (t.map fun e => (g e, f e)), ?_, ?_⟩
    · rw [literal_hash, mapM_of_forall hentries]
      rfl
    · have hperm : ((t.map fun e => (e, g e, f e)).map (·.1)).Perm t := by
        simp [Function.comp_def]
      have hspelled := Spelled.hash (i := i) ht hkeyed hperm
        (List.forall_mem_map.2 fun e he => (hg e he).2)
        (List.forall_mem_map.2 fun e he => (hf e he).2)
      simpa [Function.comp_def] using hspelled

/-! ## 2. Values without a literal -/

theorem literal_eq_error {v : Value} (h : v.type ∈ literalless) :
    v.literal = .error (.noLiteralForm v.type) := by
  cases v with
  | null | builtin _ | error _ | macroFn _ _ => rfl
  | int _ | bool _ | str _ _ | array _ _ | hash _ _ | fn _ _ | quote _ _ =>
    simp [literalless, type] at h

theorem Inner.part {u v : Value} (h : Inner u v) : Part u v := by
  induction h with
  | self => exact .self _
  | elem hv _ ih => exact .elem hv ih
  | value he _ ih => exact .value he ih

-- What can be a key has a literal, so what has none is found without looking into keys.
theorem Part.inner {u v : Value} (h : Part u v) (hu : u.type ∈ literalless)
    (hv : v.Every Keyed) : Inner u v := by
  induction h with
  | self => exact .self _
  | elem hmem _ ih => exact .elem hmem (ih (hv.part (.elem hmem (.self _))))
  | @key e i t he hpart ih =>
    have hkey : e.2.key.key? = some e.1 := hv.self e he
    obtain rfl := eq_of_part_of_key? hkey hpart
    obtain ⟨x, hx, -⟩ := spelled_of_key? hkey
    rw [literal_eq_error hu] at hx
    cases hx
  | value he _ ih => exact .value he (ih (hv.part (.value he (.self _))))

end Value

namespace Eval

/-! ## 3. Evaluation of literals -/

/-- On every machine `p` comes to a result of the class `Q`.  It binds and prints nothing, and only
uses up identities. -/
def Yields {α : Type} (p : Eval α) (Q : α → Prop) : Prop :=
  ∀ m : Machine, ∃ a o, p m = some (.ok a, { m with nextObject := o }) ∧ Q a

section

variable {α β : Type} {p : Eval α} {f : α → Eval β} {Q : α → Prop} {R : β → Prop} {a : α}

theorem Yields.bind (hp : Yields p Q) (hf : ∀ a, Q a → Yields (f a) R) : Yields (p >>= f) R := by
  intro m
  obtain ⟨a, o, hpm, ha⟩ := hp m
  obtain ⟨b, o', hfm, hb⟩ := hf a ha { m with nextObject := o }
  refine ⟨b, o', ?_, hb⟩
  rw [bind_apply, hpm]
  exact hfm

end

variable {eval : Evaluator} {i : ScopeId}

end Eval

end Monkey
