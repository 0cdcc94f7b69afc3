import Monkey.Proofs.Run.Congruence

/-!
# Printing — output never feeds back

A run writes to the output of the machine and never reads it.  So a run with another output, of
whatever kind and content, comes to the same, and all that it does to the output is to write one
text behind what was there.  Being blind to the output in this way is kept by sequencing and holds
of all that evaluation is made of.
-/

namespace Monkey

namespace Machine

/-- The machine with another output. -/
def withOutput (m : Machine) (o : Output) : Machine := { m with output := o }

end Machine

namespace Eval

/-! ## 1. Blind computations -/

section

variable {α β : Type} {f : Machine → Option (α × Machine)} {m : Machine}

/-- From `m`, and with whatever output, `f` comes to one and the same and writes the text `t`. -/
def Writes (f : Machine → Option (α × Machine)) (m : Machine) (t : String) : Prop :=
  ∃ (a : α) (m' : Machine), ∀ o, f (m.withOutput o) = some (a, m'.withOutput (o.write t))

/-- Whether `f` ends, what it comes to and what it writes do not depend on the output. -/
def Blind (f : Machine → Option (α × Machine)) : Prop :=
  ∀ m, (∀ o, f (m.withOutput o) = none) ∨ ∃ t, Writes f m t

-- What changes the machine in one way, whatever the output, and writes nothing.
theorem blind_of_silent {g : Machine → α × Machine}
    (h : ∀ m o, g (m.withOutput o) = ((g m).1, (g m).2.withOutput o)) :
    Blind fun m => some (g m) := by
  intro m
  refine .inr ⟨"", (g m).1, (g m).2, ?_⟩
  intro o
  show some (g (m.withOutput o)) = _
  rw [h, Output.write_empty]

theorem Blind.map (h : Blind f) (g : α → β) : Blind fun m => (f m).map fun r => (g r.1, r.2) := by
  intro m
  rcases h m with hnone | ⟨t, a, m', hsome⟩
  · left
    intro o
    show (f (m.withOutput o)).map _ = none
    rw [hnone o, Option.map_none]
  · refine .inr ⟨t, g a, m', ?_⟩
    intro o
    show (f (m.withOutput o)).map _ = _
    rw [hsome o, Option.map_some]

-- What comes after a blind computation writes behind what that one has written.
theorem Blind.andThen {g : α → Machine → Option (β × Machine)} (hf : Blind f)
    (hg : ∀ a, Blind (g a)) : Blind fun m => (f m).bind fun r => g r.1 r.2 := by
  intro m
  rcases hf m with hnone | ⟨t, a, m', hsome⟩
  · left
    intro o
    show (f (m.withOutput o)).bind _ = none
    rw [hnone o, Option.bind_none]
  have hthen (o : Output) : (f (m.withOutput o)).bind (fun r => g r.1 r.2) =
      g a (m'.withOutput (o.write t)) := by
    rw [hsome o, Option.bind_some]
  rcases hg a m' with hnone | ⟨t', b, m'', hsome'⟩
  · exact .inl fun o => (hthen o).trans (hnone _)
  · refine .inr ⟨t ++ t', b, m'', ?_⟩
    intro o
    rw [Output.write_append]
    exact (hthen o).trans (hsome' _)

theorem Blind.bind {p : Eval α} {q : α → Eval β} (hp : Blind p) (hq : ∀ a, Blind (q a)) :
    Blind (p >>= q) := by
  -- a computation that has stopped is gone on with by stopping
  let next : Except Stop α → Eval β
    | .error s => stop s
    | .ok a => q a
  have hbind : p >>= q = fun m => (p m).bind fun r => next r.1 r.2 := by
    funext m
    rw [bind_apply]
    rcases p m with _ | ⟨_ | _, _⟩ <;> rfl
  rw [hbind]
  apply hp.andThen
  rintro (s | a)
  · exact blind_of_silent (g := fun m => ((.error s : Except Stop β), m)) fun _ _ => rfl
  · exact hq a

theorem blind_write (text : String) : Blind (write text) := by
  intro m
  exact .inr ⟨text, .ok (), m, fun _ => rfl⟩

theorem Blind.catchReturn {p : Eval Value} (hp : Blind p) : Blind (catchReturn p) := by
  intro m
  rcases hp m with hnone | ⟨t, r, m', hsome⟩
  · left
    intro o
    rw [Eval.catchReturn, hnone o]
  · have hcaught : ∃ r', ∀ o, Eval.catchReturn p (m.withOutput o) =
        some (r', m'.withOutput (o.write t)) := by
      rcases r with (v | e) | v
      · exact ⟨.ok v, fun o => by rw [Eval.catchReturn, hsome o]⟩
      · exact ⟨.error (.failed e), fun o => by rw [Eval.catchReturn, hsome o]⟩
      · exact ⟨.ok v, fun o => by rw [Eval.catchReturn, hsome o]⟩
    rcases hcaught with ⟨r', hcaught⟩
    exact .inr ⟨t, r', m', hcaught⟩

/-! ## 2. Evaluation -/

-- The relation between two computations that speaks of the first one only.
theorem blind_congruence : Congruence fun α (p _ : Eval α) => Blind p where
  pure _ := blind_of_silent fun _ _ => rfl
  bind := Blind.bind
  stop _ := blind_of_silent fun _ _ => rfl
  catchReturn := Blind.catchReturn
  newObject := blind_of_silent fun _ _ => rfl
  newScope _ := blind_of_silent fun _ _ => rfl
  define _ _ _ := blind_of_silent fun _ _ => rfl
  lookup _ _ := blind_of_silent fun _ _ => rfl
  write := blind_write

theorem eval_blind (n : Nat) (i : ScopeId) (e : Expr) : Blind (eval n i e) := by
  induction n generalizing i e with
  | zero => exact fun m => .inl fun _ => rfl
  | succ n ih => exact @Congruence.step _ (eval n) (eval n) ih blind_congruence i e

theorem program_blind (n : Nat) (i : ScopeId) (p : Program) : Blind (program n i p) := by
  have hstmts : Blind (stmts (eval n) i p) :=
    @Congruence.stmtsFrom _ (eval n) (eval n) (eval_blind n) blind_congruence i .null p
  rw [funext (program_eq n i p)]
  exact hstmts.map valueOf

theorem expandMacros_blind (n : Nat) (i : ScopeId) (p : Program) :
    Blind (expandMacros n i p) := by
  have hpass : Blind (expandProgram (eval n) i p) :=
    @Congruence.expandProgram _ (eval n) (eval n) (eval_blind n) blind_congruence i p
  rw [funext (expandMacros_eq n i p)]
  exact hpass.map expansionOf

/-! ## 3. One text for every depth -/

-- Blind runs that end in the same way at every larger depth write the same text at each of them.
theorem exists_text {f : Nat → Machine → Option (α × Machine)}
    (hmono : ∀ n k m r, n ≤ k → f n m = some r → f k m = some r) (hf : ∀ n, Blind (f n))
    (m : Machine) : ∃ t, ∀ n, (∀ o, f n (m.withOutput o) = none) ∨ Writes (f n) m t := by
  by_cases hends : ∃ n t, Writes (f n) m t
  · obtain ⟨n, t, a, m₁, hn⟩ := hends
    refine ⟨t, fun k => ?_⟩
    rcases hf k m with hnone | ⟨t', b, m₂, hk⟩
    · exact .inl hnone
    · right
      have hsame : t' = t := by
        have hn' := hmono n (max n k) _ _ (Nat.le_max_left n k) (hn (.buffer ""))
        have hk' := hmono k (max n k) _ _ (Nat.le_max_right n k) (hk (.buffer ""))
        have houtput := congrArg (fun r => r.map (·.2.output)) (hk'.symm.trans hn')
        simpa [Machine.withOutput, Output.write] using houtput
      subst hsame
      exact ⟨b, m₂, hk⟩
  · refine ⟨"", fun n => .inl ?_⟩
    rcases hf n m with hnone | ⟨t, hwrites⟩
    · exact hnone
    · exact absurd ⟨n, t, hwrites⟩ hends

end

/-- **Output never feeds back.**  There is one text such that a program, run at any depth and with
any two outputs, ends with both or with neither, comes to the same value and the same bindings with
both, and has written just this text to each.  The same holds of the expansion of macros. -/
theorem output_never_feeds_back (i : ScopeId) (p : Program) (m : Machine) :
    (∃ t, ∀ n, (∀ o, program n i p (m.withOutput o) = none) ∨
      ∃ (v : Value) (m' : Machine), ∀ o,
        program n i p (m.withOutput o) = some (v, m'.withOutput (o.write t))) ∧
    (∃ t, ∀ n, (∀ o, expandMacros n i p (m.withOutput o) = none) ∨
      ∃ (r : Except EvalError Program) (m' : Machine), ∀ o,
        expandMacros n i p (m.withOutput o) = some (r, m'.withOutput (o.write t))) := by
  refine ⟨?_, ?_⟩
  · have hmono (n k : Nat) (m : Machine) (r : Value × Machine) (hk : n ≤ k)
        (h : program n i p m = some r) : program k i p m = some r := program_mono hk h
    exact exists_text hmono (fun n => program_blind n i p) m
  · have hmono (n k : Nat) (m : Machine) (r : Except EvalError Program × Machine) (hk : n ≤ k)
        (h : expandMacros n i p m = some r) : expandMacros k i p m = some r :=
      expandMacros_mono hk h
    exact exists_text hmono (fun n => expandMacros_blind n i p) m

end Eval

end Monkey
