import Monkey.Proofs.Run.Evaluator
import Monkey.Proofs.Run.Literal
import Monkey.Proofs.Session.Errors

/-!
# Keys — where the hashes of a session have their pairs

Programs make hashes by literals only, and these put each pair under the key that its own key is.  A
session begins without any hash, so all that its scopes bind and that its inputs come to is made of
such hashes.  It is only a host that can make others.

For values of a session it is therefore enough to look at the elements of arrays and the values of
hashes, to know whether they have a literal.
-/

namespace Monkey

open Value

/-! ## 1. Hashes that evaluation makes -/

-- What is no object holds no hash.
theorem Value.every_keyed_of_no_object {v : Value} (h : v.object? = none) : v.Every Keyed := by
  refine (every_iff_of_object?_eq_none h).2 ?_
  cases v with
  | hash => cases h
  | _ => trivial

-- What is made of values all of whose hashes are keyed is of this kind, if it is no other hash.
theorem Value.Made.every_keyed {scope : ScopeId → Prop} {o : ObjectId} {v : Value}
    (h : Made scope (Every Keyed) o v) (hv : v.Keyed) : v.Every Keyed := by
  cases h with
  | plain hobject _ => exact every_keyed_of_no_object hobject
  | str text => exact every_str_iff.2 hv
  | quote node => exact every_quote_iff.2 hv
  | array hvs => exact every_array_iff.2 ⟨hv, hvs⟩
  | hash ht => exact every_hash_iff.2 ⟨hv, ht⟩
  | fn _ => exact every_fn_iff.2 hv
  | macroFn _ => exact every_macroFn_iff.2 hv

namespace Custody

/-- The machines on which only values are bound all of whose hashes are keyed, and these values. -/
def keyed : Custody where
  World := { m : Machine // m.store.BindsOnly (Every Keyed) }
  machine w := w.1
  scope _ _ := True
  holds _ v := v.Every Keyed
  leads _ _ _ := True

theorem keyed_lawful : keyed.Lawful where
  refl _ _ := trivial
  trans _ _ := trivial
  scope_mono _ _ := trivial
  holds_mono _ hv := hv
  plain _ _ hobject _ := every_keyed_of_no_object hobject
  part := Every.part
  captured _ _ := trivial
  make _ w _ hv hkeyed := ⟨⟨w.1.takeObject, w.2⟩, rfl, trivial, hv.every_keyed hkeyed⟩
  write _ w text := ⟨⟨w.1.write text, w.2⟩, rfl, trivial⟩
  define {i w} x {v} _ hv := ⟨⟨w.1.define i x v, w.2.define i x hv⟩, rfl, trivial⟩
  lookup {_ w _ _} _ hv := w.2.of_lookup hv
  call {w j} _ :=
    ⟨⟨w.1.pushScope (some j), w.2.push (some j)⟩, rfl, trivial, fun _ _ _ => trivial⟩

end Custody

namespace Session

variable {s s' : Session} {n : Nat} {source : String} {o : Outcome}

-- An input binds and comes to keyed hashes only, if only such are bound before it.
theorem keyed_of_eval (h : s.machine.store.BindsOnly (Every Keyed))
    (heval : s.eval n source = some (o, s')) :
    s'.machine.store.BindsOnly (Every Keyed) ∧ ∀ v, o = .value v → v.Every Keyed := by
  have hK := Custody.keyed_lawful
  have hexpanded {r : Except EvalError Program} {m : Machine}
      (hr : s.expand n (parseSource source).program = some (r, m)) :
      m.store.BindsOnly (Every Keyed) := by
    let w₀ : Custody.keyed.World := ⟨s.machine, h⟩
    obtain ⟨w, hw, -⟩ := hK.defineMacros (w := w₀) (j := s.macroScope) trivial
      (parseSource source).program
    have hr' : Eval.expandMacros n s.macroScope (parseSource source).program.withoutMacros
        (Custody.keyed.machine w) = some (r, m) := by
      rw [hw]
      exact hr
    obtain ⟨w', rfl, -⟩ := hK.expandMacros (i := s.macroScope) trivial hr'
    exact w'.2
  cases eval_eq_some_iff.1 heval with
  | unparsed => exact ⟨h, nofun⟩
  | unexpanded _ he =>
    refine ⟨hexpanded he, ?_⟩
    rintro v ⟨⟩
    exact every_keyed_of_no_object rfl
  | @evaluated q m m' v _ he hp =>
    let w : Custody.keyed.World := ⟨m, hexpanded he⟩
    obtain ⟨w', rfl, -, hv⟩ := hK.program (w := w) (i := s.scope) trivial hp
    refine ⟨w'.2, fun u hu => ?_⟩
    rw [← eq_of_outcome hu]
    rcases hv with hv | herror
    · exact hv
    · cases v with
      | error e => exact every_keyed_of_no_object rfl
      | _ => cases herror

theorem Reachable.keyed (h : Reachable s) : s.machine.store.BindsOnly (Every Keyed) := by
  induction h with
  | initial output => exact (Store.bindsOnly_empty.push none).push none
  | eval _ heval ih => exact (keyed_of_eval ih heval).1

end Session

namespace Eval

/-! ## 2. Literals -/

-- A hash may be given a pair whose key is no key at all, and then it fails with that.
example : (Value.hash 0 [(.int 1, ⟨.null, .int 1⟩)]).literal = .error (.noLiteralForm .null) := rfl

end Eval

end Monkey
