import Mathlib.Logic.Function.Basic
import Monkey.Eval.Builtin
import Monkey.Proofs.Run.Code
import Monkey.Proofs.Run.Evaluator
import Monkey.Value.Equality

/-!
# Renaming — values with other identities

A value holds the identities of objects and the numbers of scopes, and no program can do more with
either than to compare objects.  So every operation on values can be carried along a renaming of
both that keeps different objects apart.  Where a renaming changes nothing that a value holds, it
does not change the value.
-/

namespace Monkey

open Value

/-! ## 1. What a value holds -/

/-- Which scopes and objects a value may hold, and which names its code may mention. -/
structure Bounds where
  scope : ScopeId → Prop
  object : ObjectId → Prop
  name : String → Prop

/-- The names that are evaluated somewhere in the expression are of the class `N`. -/
def Expr.Names (N : String → Prop) (e : Expr) : Prop := e.Every fun d => ∀ x, d = .ident x → N x

namespace Value

/-- The expressions of the body of a function or macro, or the syntax that is quoted. -/
def code : Value → List Expr
  | fn _ f | macroFn _ f => f.body.map Stmt.value
  | quote _ node => [node]
  | _ => []

/-- What the value itself holds, its parts apart. -/
structure Holds (B : Bounds) (v : Value) : Prop where
  scope : ∀ i, v.captured? = some i → B.scope i
  object : ∀ o, v.object? = some o → B.object o
  code : ∀ e ∈ v.code, e.Names B.name

/-- All parts of the value hold only what is within the bounds. -/
def Within (B : Bounds) (v : Value) : Prop := ∀ w, Part w v → w.Holds B

variable {B B' : Bounds} {v w : Value} {o : ObjectId}

theorem Within.mono (h : v.Within B) (hscope : ∀ i, B.scope i → B'.scope i)
    (hobject : ∀ o, B.object o → B'.object o) (hname : ∀ x, B.name x → B'.name x) :
    v.Within B' := by
  intro w hw
  obtain ⟨hs, ho, hc⟩ := h w hw
  exact ⟨fun i hi => hscope i (hs i hi), fun o hi => hobject o (ho o hi),
    fun e he => (hc e he).imp fun d hd x hx => hname x (hd x hx)⟩

theorem Within.part (h : v.Within B) (hw : Part w v) : w.Within B := Every.part h hw

theorem within_array_iff {vs : List Value} :
    (array o vs).Within B ↔ B.object o ∧ ∀ v ∈ vs, v.Within B := by
  have hself : (array o vs).Holds B ↔ B.object o :=
    ⟨fun h => h.object o rfl, fun ho => ⟨nofun, fun _ hi => Option.some.inj hi ▸ ho, nofun⟩⟩
  exact every_array_iff.trans (and_congr_left fun _ => hself)

theorem within_hash_iff {es : Pairs} : (hash o es).Within B ↔
    B.object o ∧ ∀ e ∈ es, e.2.key.Within B ∧ e.2.value.Within B := by
  have hself : (hash o es).Holds B ↔ B.object o :=
    ⟨fun h => h.object o rfl, fun ho => ⟨nofun, fun _ hi => Option.some.inj hi ▸ ho, nofun⟩⟩
  exact every_hash_iff.trans (and_congr_left fun _ => hself)

-- What is no object holds nothing.
theorem within_of_object?_eq_none (h : v.object? = none) : v.Within B := by
  refine (every_iff_of_object?_eq_none h).2 ?_
  cases v with
  | str | array | hash | fn | quote | macroFn => cases h
  | _ => exact ⟨nofun, nofun, nofun⟩

theorem within_str_iff {text : String} : (str o text).Within B ↔ B.object o := by
  refine every_str_iff.trans ?_
  exact ⟨fun h => h.object o rfl, fun h => ⟨nofun, fun _ hi => Option.some.inj hi ▸ h, nofun⟩⟩

theorem within_quote_iff {node : Expr} :
    (quote o node).Within B ↔ B.object o ∧ node.Names B.name := by
  refine every_quote_iff.trans ?_
  apply Iff.intro
  · exact fun h => ⟨h.object o rfl, h.code node List.mem_cons_self⟩
  · rintro ⟨ho, hnode⟩
    exact ⟨nofun, fun _ hi => Option.some.inj hi ▸ ho, fun e he => List.mem_singleton.1 he ▸ hnode⟩

end Value

/-- The scope that was captured and the code that is run are within the bounds. -/
structure Closure.Within (B : Bounds) (f : Closure) : Prop where
  scope : B.scope f.scope
  code : ∀ s ∈ f.body, s.value.Names B.name

namespace Value

variable {B : Bounds} {v w : Value} {o : ObjectId} {f : Closure}

-- Functions and macros hold what their closures do.
theorem within_closure_iff (hself : ∀ w, Part w v → w = v) (hobject : v.object? = some o)
    (hscope : v.captured? = some f.scope) (hcode : v.code = f.body.map Stmt.value) :
    v.Within B ↔ B.object o ∧ f.Within B := by
  refine (every_iff_of_no_part hself).trans ?_
  apply Iff.intro
  · intro h
    exact ⟨h.object o hobject, h.scope _ hscope, List.forall_mem_map.1 (hcode ▸ h.code)⟩
  · rintro ⟨ho, hf⟩
    refine ⟨?_, ?_, hcode ▸ List.forall_mem_map.2 hf.code⟩
    · exact fun i hi => Option.some.inj (hscope.symm.trans hi) ▸ hf.scope
    · exact fun p hp => Option.some.inj (hobject.symm.trans hp) ▸ ho

theorem within_fn_iff : (fn o f).Within B ↔ B.object o ∧ f.Within B :=
  within_closure_iff (fun w hw => by cases hw; rfl) rfl rfl rfl

theorem within_macroFn_iff : (macroFn o f).Within B ↔ B.object o ∧ f.Within B :=
  within_closure_iff (fun w hw => by cases hw; rfl) rfl rfl rfl

/-! ## 2. What operations yield -/

theorem within_of_applyUnary {op : UnaryOp} (h : v.applyUnary op = .ok w) : w.Within B := by
  apply within_of_object?_eq_none
  unfold applyUnary at h
  split at h <;> cases h <;> rfl

theorem within_of_applyBinary {op : BinaryOp} {u : Value} (h : v.applyBinary o op u = .ok w)
    (ho : B.object o) : w.Within B := by
  cases fresh_of_applyBinary h with
  | int n => exact within_of_object?_eq_none rfl
  | bool b => exact within_of_object?_eq_none rfl
  | str text => exact within_str_iff.2 ho

theorem within_of_applyIndex {i : Value} (h : v.applyIndex i = .ok w) (hv : v.Within B) :
    w.Within B := by
  rcases part_of_applyIndex h with rfl | hpart
  · exact within_of_object?_eq_none rfl
  · exact hv.part hpart

theorem within_of_arrayArgument {b : Builtin} {arity : Nat} {args elems : List Value}
    (h : b.arrayArgument arity args = .ok elems) (hargs : ∀ v ∈ args, v.Within B) :
    ∀ v ∈ elems, v.Within B := by
  intro v hv
  obtain ⟨a, ha, hpart⟩ := part_of_arrayArgument h v hv
  exact (hargs a ha).part hpart

end Value

/-! ## 3. The literal of a value -/

namespace Value

-- The literal of a value mentions no names but those in its code.
theorem literal_names {B : Bounds} {v : Value} {e : Expr} (h : v.literal = .ok e)
    (hv : v.Within B) : e.Names B.name := by
  have hdata (e : Expr) (he : e.spellsOut = true) : ∀ x, e = .ident x → B.name x := by
    rintro x rfl
    cases he
  have hcode (w : Value) (hw : w.Holds B) : ∀ d, w.code? = some d → d.Names B.name := by
    intro d hd
    cases w with
    | quote o node =>
      cases hd
      exact hw.code _ List.mem_cons_self
    | fn o f =>
      cases hd
      exact Expr.every_fn_iff.2 ⟨nofun, List.forall_mem_map.1 hw.code⟩
    | _ => cases hd
  exact literal_every hdata h (Every.imp hv hcode)

end Value

/-! ## 4. Renaming -/

/-- Other numbers for scopes and other identities for objects. -/
structure Renaming where
  scope : ScopeId → ScopeId
  object : ObjectId → ObjectId

namespace Renaming

/-- The renaming that changes nothing. -/
def id : Renaming := ⟨fun i => i, fun o => o⟩

/-- The renaming changes nothing that is within the bounds. -/
structure Fixes (ρ : Renaming) (B : Bounds) : Prop where
  scope : ∀ i, B.scope i → ρ.scope i = i
  object : ∀ o, B.object o → ρ.object o = o

end Renaming

def Closure.rename (ρ : Renaming) (f : Closure) : Closure := { f with scope := ρ.scope f.scope }

namespace Value

mutual

/-- The value with every scope and every object renamed. -/
def rename (ρ : Renaming) : Value → Value
  | int n => int n
  | bool b => bool b
  | null => null
  | str o text => str (ρ.object o) text
  | array o elems => array (ρ.object o) (renameList ρ elems)
  | hash o entries => hash (ρ.object o) (renameEntries ρ entries)
  | fn o f => fn (ρ.object o) (f.rename ρ)
  | builtin b => builtin b
  | error e => error e
  | quote o node => quote (ρ.object o) node
  | macroFn o f => macroFn (ρ.object o) (f.rename ρ)
termination_by structural v => v

def renameList (ρ : Renaming) : List Value → List Value
  | [] => []
  | v :: vs => v.rename ρ :: renameList ρ vs
termination_by structural vs => vs

def renameEntries (ρ : Renaming) :
    List (HashKey × HashPair Value) → List (HashKey × HashPair Value)
  | [] => []
  | (k, ⟨c, v⟩) :: es => (k, ⟨c.rename ρ, v.rename ρ⟩) :: renameEntries ρ es
termination_by structural es => es

end

end Value

/-- The pair with `g` of its key and `g` of its value. -/
def HashPair.map {α β : Type} (g : α → β) (p : HashPair α) : HashPair β := ⟨g p.key, g p.value⟩

namespace Table

variable {κ α β : Type}

/-- The table with `g v` in the place of every value `v`. -/
def mapValues (g : α → β) (t : Table κ α) : Table κ β := t.map fun e => (e.1, g e.2)

theorem get?_mapValues [DecidableEq κ] (g : α → β) (k : κ) (t : Table κ α) :
    get? k (mapValues g t) = (get? k t).map g := by
  induction t with
  | nil => rfl
  | cons e t ih =>
    obtain ⟨l, v⟩ := e
    show (if k = l then some (g v) else get? k (mapValues g t)) = (get? k ((l, v) :: t)).map g
    rw [get?, ih]
    split <;> rfl

theorem insert_mapValues [Ord κ] (g : α → β) (k : κ) (v : α) (t : Table κ α) :
    (mapValues g t).insert k (g v) = mapValues g (t.insert k v) := by
  induction t with
  | nil => rfl
  | cons e t ih =>
    obtain ⟨l, w⟩ := e
    show insert k (g v) ((l, g w) :: mapValues g t) = mapValues g (insert k v ((l, w) :: t))
    rw [insert, insert]
    split
    · rfl
    · rfl
    · rw [ih]
      rfl

end Table

namespace Value

variable {ρ : Renaming} {v w : Value}

@[simp] theorem renameList_eq_map (vs : List Value) : renameList ρ vs = vs.map (rename ρ) := by
  induction vs with
  | nil => rfl
  | cons v vs ih => rw [renameList, ih, List.map_cons]

@[simp] theorem renameEntries_eq_mapValues (es : Pairs) :
    renameEntries ρ es = es.mapValues (HashPair.map (rename ρ)) := by
  induction es with
  | nil => rfl
  | cons e es ih =>
    rw [renameEntries, ih]
    rfl

@[simp] theorem type_rename (v : Value) : (v.rename ρ).type = v.type := by cases v <;> rfl

@[simp] theorem truthy_rename (v : Value) : (v.rename ρ).truthy = v.truthy := by
  cases v with
  | bool b => cases b <;> rfl
  | _ => rfl

@[simp] theorem key?_rename (v : Value) : (v.rename ρ).key? = v.key? := by cases v <;> rfl

mutual

@[simp] theorem display_rename (v : Value) : (v.rename ρ).display = v.display := by
  cases v with
  | array o elems => rw [rename, display, display, displayList_rename]
  | hash o entries => rw [rename, display, display, displayEntries_rename]
  | _ => rfl
termination_by structural v

theorem displayList_rename (vs : List Value) :
    displayList (renameList ρ vs) = displayList vs := by
  cases vs with
  | nil => rfl
  | cons v vs => rw [renameList, displayList, displayList, display_rename v, displayList_rename vs]
termination_by structural vs

theorem displayEntries_rename (es : List (HashKey × HashPair Value)) :
    displayEntries (renameEntries ρ es) = displayEntries es := by
  cases es with
  | nil => rfl
  | cons e es =>
    obtain ⟨k, c, v⟩ := e
    rw [renameEntries, displayEntries, displayEntries, display_rename c, display_rename v,
      displayEntries_rename es]
termination_by structural es

end

mutual

@[simp] theorem literal_rename (v : Value) : (v.rename ρ).literal = v.literal := by
  cases v with
  | array o elems => rw [rename, literal, literal, literals_rename]
  | hash o entries => rw [rename, literal, literal, entryLiterals_rename]
  | _ => rfl
termination_by structural v

theorem literals_rename (vs : List Value) : literals (renameList ρ vs) = literals vs := by
  cases vs with
  | nil => rfl
  | cons v vs => rw [renameList, literals, literals, literal_rename v, literals_rename vs]
termination_by structural vs

theorem entryLiterals_rename (es : List (HashKey × HashPair Value)) :
    entryLiterals (renameEntries ρ es) = entryLiterals es := by
  cases es with
  | nil => rfl
  | cons e es =>
    obtain ⟨k, c, v⟩ := e
    rw [renameEntries, entryLiterals, entryLiterals, literal_rename c, literal_rename v,
      entryLiterals_rename es]
termination_by structural es

end

/-! ## 5. Operations along a renaming -/

theorem applyUnary_rename (op : UnaryOp) (v : Value) :
    (v.rename ρ).applyUnary op = (v.applyUnary op).map (rename ρ) := by
  cases op with
  | not =>
    rw [applyUnary, applyUnary, truthy_rename]
    rfl
  | neg => cases v <;> rfl

theorem applyInts_rename (op : BinaryOp) (a b : Int64) :
    (applyInts op a b).map (rename ρ) = applyInts op a b := by
  cases op with
  | div =>
    rw [applyInts]
    split <;> rfl
  | _ => rfl

-- Objects that were different stay so.
theorem identical_rename (hρ : Function.Injective ρ.object) (v w : Value) :
    (v.rename ρ).identical (w.rename ρ) = v.identical w := by
  cases v <;> cases w <;> first
    | rfl
    | simp only [rename, identical, hρ.eq_iff]

theorem eq_int_of_rename {a : Int64} (h : v.rename ρ = int a) : v = int a := by
  cases v <;> cases h
  rfl

theorem eq_str_of_rename {o : ObjectId} {text : String} (h : v.rename ρ = str o text) :
    ∃ p, v = str p text := by
  cases v <;> cases h
  exact ⟨_, rfl⟩

theorem applyBinary_rename (hρ : Function.Injective ρ.object) (o : ObjectId) (op : BinaryOp)
    (v w : Value) :
    (v.rename ρ).applyBinary (ρ.object o) op (w.rename ρ) =
      (v.applyBinary o op w).map (rename ρ) := by
  rw [applyBinary.eq_def o op v w]
  split
  · next a b => exact (applyInts_rename op a b).symm
  · cases op <;> rfl
  · next hint hstr =>
    -- the renamed operands are no two integers and no two texts either
    rw [applyBinary.eq_def]
    split
    · next hv hw => exact (hint _ _ (eq_int_of_rename hv) (eq_int_of_rename hw)).elim
    · next hv hw =>
      obtain ⟨_, hv⟩ := eq_str_of_rename hv
      obtain ⟨_, hw⟩ := eq_str_of_rename hw
      exact (hstr _ _ _ _ hv hw).elim
    · rw [identical_rename hρ, type_rename, type_rename]
      by_cases htype : v.type ≠ w.type
      · simp only [if_pos htype]
        cases op <;> rfl
      · simp only [if_neg htype]
        cases op <;> rfl

theorem elementAt_rename (vs : List Value) (i : Int64) :
    elementAt (vs.map (rename ρ)) i = (elementAt vs i).rename ρ := by
  unfold elementAt
  split
  · rfl
  · rw [List.getElem?_map]
    cases vs[i.toInt.toNat]? <;> rfl

theorem applyIndex_rename (v i : Value) :
    (v.rename ρ).applyIndex (i.rename ρ) = (v.applyIndex i).map (rename ρ) := by
  cases v with
  | array o elems =>
    cases i with
    | int n =>
      rw [rename, rename, renameList_eq_map, applyIndex, elementAt_rename]
      rfl
    | _ => rfl
  | hash o entries =>
    rw [rename, applyIndex, applyIndex, key?_rename, renameEntries_eq_mapValues, type_rename]
    cases i.key? with
    | none => rfl
    | some key =>
      show Except.ok _ = Except.ok _
      rw [Table.get?_mapValues]
      cases Table.get? key entries <;> rfl
  | _ => cases i <;> rfl

theorem measure_rename (args : List Value) :
    Builtin.measure (args.map (rename ρ)) = Builtin.measure args := by
  match args with
  | [] => rfl
  | [v] =>
    cases v with
    | array o elems => simp [Builtin.measure, rename]
    | _ => rfl
  | v :: w :: vs => simp [Builtin.measure]

theorem arrayArgument_rename (b : Builtin) (arity : Nat) (args : List Value) :
    b.arrayArgument arity (args.map (rename ρ)) =
      (b.arrayArgument arity args).map (List.map (rename ρ)) := by
  unfold Builtin.arrayArgument
  rw [List.length_map]
  split
  · rfl
  · cases args with
    | nil => rfl
    | cons v vs =>
      cases v with
      | array o elems => simp [rename, Except.map]
      | _ => rfl

/-! ## 6. Values that a renaming leaves alone -/

variable {B : Bounds}

theorem closure_rename_eq (hρ : ρ.Fixes B) {f : Closure} (h : f.Within B) : f.rename ρ = f := by
  rw [Closure.rename, hρ.scope _ h.scope]

mutual

theorem rename_eq (hρ : ρ.Fixes B) {v : Value} (h : v.Within B) : v.rename ρ = v := by
  cases v with
  | int | bool | null | builtin | error => rfl
  | str o text => rw [rename, hρ.object o (within_str_iff.1 h)]
  | array o elems =>
    obtain ⟨ho, helems⟩ := within_array_iff.1 h
    rw [rename, hρ.object o ho, renameList_eq hρ helems]
  | hash o entries =>
    obtain ⟨ho, hentries⟩ := within_hash_iff.1 h
    rw [rename, hρ.object o ho, renameEntries_eq hρ hentries]
  | fn o f =>
    obtain ⟨ho, hf⟩ := within_fn_iff.1 h
    rw [rename, hρ.object o ho, closure_rename_eq hρ hf]
  | quote o node => rw [rename, hρ.object o (within_quote_iff.1 h).1]
  | macroFn o f =>
    obtain ⟨ho, hf⟩ := within_macroFn_iff.1 h
    rw [rename, hρ.object o ho, closure_rename_eq hρ hf]
termination_by structural v

theorem renameList_eq (hρ : ρ.Fixes B) {vs : List Value} (h : ∀ v ∈ vs, v.Within B) :
    renameList ρ vs = vs := by
  cases vs with
  | nil => rfl
  | cons v vs =>
    obtain ⟨hv, hvs⟩ := List.forall_mem_cons.1 h
    rw [renameList, rename_eq hρ hv, renameList_eq hρ hvs]
termination_by structural vs

theorem renameEntries_eq (hρ : ρ.Fixes B) {es : List (HashKey × HashPair Value)}
    (h : ∀ e ∈ es, e.2.key.Within B ∧ e.2.value.Within B) : renameEntries ρ es = es := by
  cases es with
  | nil => rfl
  | cons e es =>
    obtain ⟨k, c, v⟩ := e
    obtain ⟨⟨hc, hv⟩, hes⟩ := List.forall_mem_cons.1 h
    rw [renameEntries, rename_eq hρ hc, rename_eq hρ hv, renameEntries_eq hρ hes]
termination_by structural es

end

mutual

-- Values that capture nothing have the same content under other identities.
theorem same_rename {v : Value} (h : ∀ w, Part w v → w.captured? = none) :
    v.same (v.rename ρ) = true := by
  cases v with
  | array o elems => exact sameList_rename fun v hv w hw => h w (.elem hv hw)
  | hash o entries =>
    exact sameEntries_rename fun e he =>
      ⟨fun w hw => h w (.key he hw), fun w hw => h w (.value he hw)⟩
  | fn o f | macroFn o f => cases h _ (.self _)
  | _ => simp [rename, same]
termination_by structural v

theorem sameList_rename {vs : List Value} (h : ∀ v ∈ vs, ∀ w, Part w v → w.captured? = none) :
    sameList vs (renameList ρ vs) = true := by
  cases vs with
  | nil => rfl
  | cons v vs =>
    obtain ⟨hv, hvs⟩ := List.forall_mem_cons.1 h
    rw [renameList, sameList, same_rename hv, sameList_rename hvs]
    rfl
termination_by structural vs

theorem sameEntries_rename {es : List (HashKey × HashPair Value)}
    (h : ∀ e ∈ es, (∀ w, Part w e.2.key → w.captured? = none) ∧
      ∀ w, Part w e.2.value → w.captured? = none) :
    sameEntries es (renameEntries ρ es) = true := by
  cases es with
  | nil => rfl
  | cons e es =>
    obtain ⟨k, c, v⟩ := e
    obtain ⟨⟨hc, hv⟩, hes⟩ := List.forall_mem_cons.1 h
    rw [renameEntries, sameEntries, same_rename hc, same_rename hv, sameEntries_rename hes]
    simp
termination_by structural es

end

end Value

@[simp] theorem Value.rename_id (v : Value) : v.rename .id = v :=
  rename_eq (B := ⟨fun _ => True, fun _ => True, fun _ => True⟩) ⟨fun _ _ => rfl, fun _ _ => rfl⟩
    fun _ _ => ⟨fun _ _ => trivial, fun _ _ => trivial, fun _ _ _ _ _ _ => trivial⟩

theorem Value.rename_id_eq : rename .id = id := funext rename_id

/-- The scope with the values that it binds renamed, and the scope around it as well. -/
def Scope.rename (ρ : Renaming) (s : Scope) : Scope where
  bindings := s.bindings.mapValues (Value.rename ρ)
  parent := s.parent.map ρ.scope

end Monkey
