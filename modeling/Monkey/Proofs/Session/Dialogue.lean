import Monkey.Proofs.Run.Printing
import Monkey.Proofs.Session.Stages
import Monkey.Proofs.Token.Lines
import Monkey.Repl

/-!
# Dialogues — a fold over the lines of an input

A dialogue evaluates the lines of its input one after the other, each in the session that those
before it have left, and shows for each of them the prompt, what it printed and the response.  Only a
line that is no text ends it early.  What has been sent to the terminal is taken out of the session,
which changes nothing, since what a session has printed never feeds back.
-/

namespace Monkey

/-! ## 1. Sessions with another output -/

namespace Session

open Eval

variable {n : Nat} {s : Session} {source : String}

/-- The session with another output. -/
def withOutput (s : Session) (o : Output) : Session :=
  { s with machine := s.machine.withOutput o }

theorem defineMacros_withOutput (m : Machine) (i : ScopeId) (p : Program) (o : Output) :
    (m.withOutput o).defineMacros i p = (m.defineMacros i p).withOutput o := by
  unfold Machine.defineMacros
  induction p.macroDefinitions generalizing m with
  | nil => rfl
  | cons d ds ih => exact ih (m.defineMacro i d)

/-- An input that is run in the scopes of the session `s`, from whatever machine. -/
def evalFrom (n : Nat) (s : Session) (source : String) (m : Machine) : Option (Outcome × Machine) :=
  (({ s with machine := m } : Session).eval n source).map fun r => (r.1, r.2.machine)

-- The stages of an input, one after the other.
theorem evalFrom_of_parsed (h : (parseSource source).errors = []) (m : Machine) :
    s.evalFrom n source m =
      (expandMacros n s.macroScope (parseSource source).program.withoutMacros
        (m.defineMacros s.macroScope (parseSource source).program)).bind fun r =>
        match r.1 with
        | .error e => some (.value (.error e), r.2)
        | .ok p => (program n s.scope p r.2).map fun r => (outcome p r.1, r.2) := by
  unfold evalFrom
  generalize hs : ({ s with machine := m } : Session) = s₀
  have hexpand : expandMacros n s.macroScope (parseSource source).program.withoutMacros
      (m.defineMacros s.macroScope (parseSource source).program) =
      s₀.expand n (parseSource source).program := by
    subst hs
    rfl
  have hscope : s₀.scope = s.scope := by
    subst hs
    rfl
  rw [hexpand, ← hscope]
  cases he : s₀.expand n (parseSource source).program with
  | none => rw [eval_of_expand_none h he, Option.map_none, Option.bind_none]
  | some r =>
    rcases r with ⟨e | p, m₁⟩
    · rw [eval_of_expand_error h he]
      rfl
    · rw [eval_of_expand_ok h he, Option.map_map]
      rfl

theorem evalFrom_blind (n : Nat) (s : Session) (source : String) :
    Blind (s.evalFrom n source) := by
  by_cases h : (parseSource source).errors = []
  · have hmade : Blind fun m =>
        some ((), m.defineMacros s.macroScope (parseSource source).program) :=
      blind_of_silent (g := fun m => ((), m.defineMacros s.macroScope (parseSource source).program))
        fun m o => by rw [defineMacros_withOutput]
    have hexpanded := hmade.andThen fun _ =>
      expandMacros_blind n s.macroScope (parseSource source).program.withoutMacros
    have hrun (r : Except EvalError Program) : Blind fun m =>
        match r with
        | .error e => some (Outcome.value (.error e), m)
        | .ok p => (program n s.scope p m).map fun r => (outcome p r.1, r.2) := by
      cases r with
      | error e => exact blind_of_silent (g := fun m => (Outcome.value (.error e), m)) fun _ _ => rfl
      | ok p => exact (program_blind n s.scope p).map (outcome p)
    rw [funext (evalFrom_of_parsed h)]
    exact hexpanded.andThen hrun
  · have hparse : s.evalFrom n source = fun m =>
        some (Outcome.parseErrors (parseSource source).errors, m) := by
      funext m
      rw [evalFrom, eval_of_errors h, Option.map_some]
    rw [hparse]
    exact blind_of_silent (g := fun m => (Outcome.parseErrors (parseSource source).errors, m))
      fun _ _ => rfl

-- An input leaves the scopes of the session where they are.
theorem eval_eq_evalFrom (n : Nat) (s : Session) (source : String) :
    s.eval n source =
      (s.evalFrom n source s.machine).map fun r => (r.1, { s with machine := r.2 }) := by
  have hself : s.evalFrom n source s.machine =
      (s.eval n source).map fun r => (r.1, r.2.machine) := rfl
  rw [hself, Option.map_map]
  by_cases h : (parseSource source).errors = []
  · cases he : s.expand n (parseSource source).program with
    | none =>
      rw [eval_of_expand_none h he]
      rfl
    | some r =>
      rcases r with ⟨e | p, m⟩
      · rw [eval_of_expand_error h he]
        rfl
      · rw [eval_of_expand_ok h he, Option.map_map]
        rfl
  · rw [eval_of_errors h]
    rfl

/-- With whatever output an input comes to the same, and writes one text behind what was there. -/
theorem eval_writes (n : Nat) (s : Session) (source : String) :
    (∀ o, (s.withOutput o).eval n source = none) ∨ ∃ (t : String) (r : Outcome) (s' : Session),
      ∀ o, (s.withOutput o).eval n source = some (r, s'.withOutput (o.write t)) := by
  have heval (o : Output) : (s.withOutput o).eval n source =
      (s.evalFrom n source (s.machine.withOutput o)).map fun r =>
        (r.1, { s with machine := r.2 }) := eval_eq_evalFrom n (s.withOutput o) source
  rcases evalFrom_blind n s source s.machine with hnone | ⟨t, r, m, hsome⟩
  · left
    intro o
    rw [heval, hnone, Option.map_none]
  · refine .inr ⟨t, r, { s with machine := m }, ?_⟩
    intro o
    rw [heval, hsome, Option.map_some]
    rfl

end Session

namespace Repl

open Session

/-! ## 2. Lines and texts -/

/-- The bytes of a text in UTF-8. -/
def encoding (text : String) : List UInt8 := text.toUTF8.data.toList

/-- The bytes are those of some text. -/
def IsText (bytes : List UInt8) : Prop := ∃ text, encoding text = bytes

theorem decode?_eq_some_iff {bytes : List UInt8} {text : String} :
    decode? bytes = some text ↔ encoding text = bytes := by
  unfold decode? String.fromUTF8?
  rw [Option.dite_none_right_eq_some]
  constructor
  · rintro ⟨hvalid, h⟩
    obtain rfl := Option.some.inj h
    rfl
  · rintro rfl
    exact ⟨text.isValidUTF8, rfl⟩

theorem decode?_eq_none_iff {bytes : List UInt8} : decode? bytes = none ↔ ¬ IsText bytes := by
  rw [Option.eq_none_iff_forall_ne_some, IsText, not_exists]
  exact forall_congr' fun _ => not_congr decode?_eq_some_iff

theorem lines_cons_of_ne {b : UInt8} (h : b ≠ 10) (bs : List UInt8) :
    lines (b :: bs) = consPiece b (lines bs) := by
  rw [lines, if_neg h]
  cases lines bs <;> rfl

/-- The lines of an input are its pieces behind each line feed. -/
theorem cut_lines (input : List UInt8) : Cut 10 (lines input) input := by
  induction input with
  | nil => exact .nil
  | cons b bs ih =>
    by_cases h : b = 10
    · subst h
      rw [lines, if_pos rfl]
      exact ih.cons_sep
    · rw [lines_cons_of_ne h]
      exact ih.cons h

-- The texts in front of the first line that is none.
theorem exists_texts (ls : List (List UInt8)) : ∃ (texts : List String) (rest : List (List UInt8)),
    ls = texts.map encoding ++ rest ∧ ∀ l ∈ rest.head?, ¬ IsText l := by
  induction ls with
  | nil => exact ⟨[], [], rfl, nofun⟩
  | cons l ls ih =>
    by_cases h : IsText l
    · obtain ⟨text, rfl⟩ := h
      obtain ⟨texts, rest, rfl, hrest⟩ := ih
      exact ⟨text :: texts, rest, rfl, hrest⟩
    · exact ⟨[], l :: ls, rfl, fun l' hl' => Option.some.inj hl' ▸ h⟩

/-! ## 3. What is shown -/

/-- Lines of text, each with its line feed. -/
def unlines (ls : List String) : String := String.join (ls.map (· ++ "\n"))

/-- The lines that answer an input: its errors, its value, or nothing. -/
def answerLines : Outcome → List String
  | .parseErrors errors => "parser errors:" :: errors.map fun e => "\t" ++ e.message
  | .value v => [v.display]
  | .noValue => []

theorem response_eq_unlines (o : Outcome) : response o = unlines (answerLines o) := by
  cases o with
  | parseErrors errors =>
    simp only [response, answerLines, unlines, List.map_cons, List.map_map, String.join_cons]
    rfl
  | value v => simp [response, answerLines, unlines]
  | noValue => rfl

/-! ## 4. The fold -/

/-- The texts are evaluated one after the other, each in the session that those before it have left,
and each of them comes to an end at the depth `n`. -/
def Finishes (n : Nat) : Session → List String → Prop
  | _, [] => True
  | s, text :: texts => ∃ o s', s.eval n text = some (o, s') ∧ Finishes n s' texts

/-- The texts are evaluated one after the other, each in the session that those before it have left.
Of what the session has printed to the terminal, `sent` was sent before; what a text adds to it is
the printed part of its exchange. -/
inductive Conversation (n : Nat) : String → Session → List String → List Exchange → Session → Prop
  | done {sent s} : Conversation n sent s [] [] s
  | line {sent s text o s' printed texts xs s''} : s.eval n text = some (o, s') →
      s'.flush.1 = sent ++ printed → Conversation n s'.flush.1 s' texts xs s'' →
      Conversation n sent s (text :: texts) (⟨printed, unlines (answerLines o)⟩ :: xs) s''

/-- The session `r` is the session `i` but for the text `sent`, which was taken out of it. -/
structure Drained (sent : String) (i r : Session) : Prop where
  eq_withOutput : r = i.withOutput r.machine.output
  flush_eq : i.machine.output.flush = (sent ++ r.machine.output.flush.1, r.machine.output.flush.2)

variable {n : Nat} {s i i' r r' : Session} {text sent : String} {texts : List String}
  {xs : List Exchange} {x : Exchange} {o : Outcome}

theorem drained_self (s : Session) : Drained "" s s where
  eq_withOutput := rfl
  flush_eq := by rw [String.empty_append]

theorem Drained.flush_snd_eq (h : Drained sent i r) : r.flush.2 = i.flush.2 := by
  have hi : i.flush.2 = i.withOutput i.machine.output.flush.2 := rfl
  rw [hi, h.flush_eq, h.eq_withOutput]
  rfl

theorem flush_write {o o' : Output} (h : o.flush = (sent ++ o'.flush.1, o'.flush.2)) (t : String) :
    (o.write t).flush = (sent ++ (o'.write t).flush.1, (o'.write t).flush.2) := by
  cases o <;> cases o' <;> simp_all [Output.flush, Output.write, String.append_assoc]

-- What was sent is not there any more.
theorem flush_flush (o : Output) : o.flush = (o.flush.1 ++ o.flush.2.flush.1, o.flush.2.flush.2) := by
  cases o <;> simp [Output.flush]

/-- An input comes to the same in a session out of which a text was taken. -/
theorem Drained.eval (h : Drained sent i r) (text : String) :
    (i.eval n text = none ∧ r.eval n text = none) ∨
    ∃ o i' r', i.eval n text = some (o, i') ∧ r.eval n text = some (o, r') ∧ Drained sent i' r' := by
  rcases eval_writes n i text with hnone | ⟨t, o, s', hsome⟩
  · left
    refine ⟨hnone i.machine.output, ?_⟩
    rw [h.eq_withOutput]
    exact hnone _
  · refine .inr ⟨o, s'.withOutput (i.machine.output.write t),
      s'.withOutput (r.machine.output.write t), hsome i.machine.output, ?_, ?_⟩
    · rw [h.eq_withOutput]
      exact hsome _
    · exact ⟨rfl, flush_write h.flush_eq t⟩

-- What an exchange takes out of a session has been sent when the next line is evaluated.
theorem Drained.flush (h : Drained sent i r) : i.flush.1 = sent ++ r.flush.1 ∧
    Drained i.flush.1 i r.flush.2 := by
  have hflush := h.flush_eq
  have hr : r.flush.2.machine.output = i.machine.output.flush.2 :=
    (congrArg Prod.snd hflush).symm
  refine ⟨congrArg Prod.fst hflush, ?_, ?_⟩
  · rw [h.eq_withOutput]
    rfl
  · rw [hr]
    exact flush_flush i.machine.output

theorem converse_of_text {l : List UInt8} (h : encoding text = l) (n : Nat) (s : Session)
    (ls : List (List UInt8)) : converse n s (l :: ls) = (s.eval n text).bind fun r =>
      (converse n r.2.flush.2 ls).map fun d =>
        { d with exchanges := ⟨r.2.flush.1, response r.1⟩ :: d.exchanges } := by
  rw [converse, decode?_eq_some_iff.2 h]
  simp only [answer]
  cases s.eval n text <;> rfl

theorem converse_of_not_text {rest : List (List UInt8)} (h : ∀ l ∈ rest.head?, ¬ IsText l) (n : Nat)
    (s : Session) : converse n s rest = some ⟨[], !rest.isEmpty, s⟩ := by
  cases rest with
  | nil => rfl
  | cons l ls => rw [converse, decode?_eq_none_iff.2 (h l rfl)]; rfl

/-- Conversing with a session out of which a text was taken: either every text comes to an end, and
the exchanges are those of the conversation with the session itself, or one of them does not. -/
theorem Drained.converse (h : Drained sent i r) (n : Nat) (texts : List String)
    {rest : List (List UInt8)} (hrest : ∀ l ∈ rest.head?, ¬ IsText l) :
    (Finishes n i texts ∧ ∃ xs i' r',
      converse n r (texts.map encoding ++ rest) = some ⟨xs, !rest.isEmpty, r'⟩ ∧
      Conversation n sent i texts xs i' ∧ r'.flush.2 = i'.flush.2) ∨
    (¬ Finishes n i texts ∧ converse n r (texts.map encoding ++ rest) = none) := by
  induction texts generalizing sent i r with
  | nil => exact .inl ⟨trivial, [], i, r, converse_of_not_text hrest n r, .done, h.flush_snd_eq⟩
  | cons text texts ih =>
    rw [List.map_cons, List.cons_append, converse_of_text rfl]
    rcases h.eval text with ⟨hi, hr⟩ | ⟨o, i₁, r₁, hi, hr, h₁⟩
    · right
      refine ⟨?_, by rw [hr, Option.bind_none]⟩
      rintro ⟨o, i₁, hsome, -⟩
      exact Option.some_ne_none _ (hsome.symm.trans hi)
    · obtain ⟨hprinted, hdrained⟩ := h₁.flush
      rw [hr, Option.bind_some]
      rcases ih hdrained with ⟨hfinishes, xs, i', r', hconverse, hrest, hflush⟩ | ⟨hfinishes, hnone⟩
      · left
        refine ⟨⟨o, i₁, hi, hfinishes⟩, ⟨r₁.flush.1, response o⟩ :: xs, i', r', ?_, ?_, hflush⟩
        · rw [hconverse, Option.map_some]
        · rw [response_eq_unlines]
          exact .line hi hprinted hrest
      · right
        refine ⟨?_, by rw [hnone, Option.map_none]⟩
        rintro ⟨o', i₁', hsome, hfinishes'⟩
        obtain ⟨-, rfl⟩ := Prod.mk.inj (Option.some.inj (hsome.symm.trans hi))
        exact hfinishes hfinishes'

-- All lines in front of the rest are texts, and the rest begins with one that is none.
theorem broken_iff {rest : List (List UInt8)} (hrest : ∀ l ∈ rest.head?, ¬ IsText l) :
    (!rest.isEmpty) = true ↔ ∃ l ∈ texts.map encoding ++ rest, ¬ IsText l := by
  cases rest with
  | nil =>
    refine ⟨nofun, ?_⟩
    rintro ⟨l, hl, hnot⟩
    obtain ⟨text, -, rfl⟩ := List.mem_map.1 (List.append_nil _ ▸ hl)
    exact (hnot ⟨text, rfl⟩).elim
  | cons l ls =>
    refine ⟨fun _ => ⟨l, ?_, hrest l rfl⟩, fun _ => rfl⟩
    exact List.mem_append_right _ List.mem_cons_self

theorem Conversation.length_eq (h : Conversation n sent s texts xs s') :
    xs.length = texts.length := by
  induction h with
  | done => rfl
  | line _ _ _ ih => rw [List.length_cons, List.length_cons, ih]

theorem greeting_eq_unlines (user : String) : greeting user =
    unlines ["Hello " ++ user ++ "! This is the Monkey programming language!",
      "Feel free to type in commands"] := by
  simp only [greeting, unlines, List.map_cons, List.map_nil, String.join_cons, String.join_nil]
  simp [toString, String.append_assoc]

/-- A dialogue folds over the lines of its input that come before the first that is no text.  It
comes to an end just if each of them does, evaluated in the session that those before it have left.
The terminal then shows the greeting, for each line the prompt, what it printed and its response, and
one last prompt; the dialogue is broken just if some line is no text. -/
theorem dialogue_folds_lines (n : Nat) (s : Session) (user : String) (input : List UInt8) :
    ∃ (texts : List String) (rest : List (List UInt8)),
      Cut 10 (texts.map encoding ++ rest) input ∧ (∀ l ∈ rest.head?, ¬ IsText l) ∧
      ((run n s input).isSome ↔ Finishes n s texts) ∧
      ∀ d ∈ run n s input, ∃ s', Conversation n "" s texts d.exchanges s' ∧
        d.session.flush.2 = s'.flush.2 ∧
        d.exchanges.length = texts.length ∧
        (d.broken = true ↔ ∃ l ∈ texts.map encoding ++ rest, ¬ IsText l) ∧
        d.transcript user =
          unlines ["Hello " ++ user ++ "! This is the Monkey programming language!",
            "Feel free to type in commands"] ++
          String.join (d.exchanges.map fun x => ">> " ++ x.printed ++ x.response) ++ ">> " := by
  obtain ⟨texts, rest, hlines, hrest⟩ := exists_texts (lines input)
  refine ⟨texts, rest, hlines ▸ cut_lines input, hrest, ?_⟩
  have hrun : run n s input = converse n s (texts.map encoding ++ rest) := by rw [run, hlines]
  rw [hrun]
  rcases (drained_self s).converse n texts hrest with
    ⟨hfinishes, xs, s', r', hsome, hconversation, hflush⟩ | ⟨hfinishes, hnone⟩
  · rw [hsome]
    refine ⟨⟨fun _ => hfinishes, fun _ => rfl⟩, ?_⟩
    rintro d ⟨⟩
    refine ⟨s', hconversation, hflush, hconversation.length_eq, ?_, ?_⟩
    · exact broken_iff hrest
    · rw [Dialogue.transcript, greeting_eq_unlines]
      rfl
  · rw [hnone]
    exact ⟨⟨nofun, fun h => (hfinishes h).elim⟩, nofun⟩

-- A definition, a text that does not parse, one that fails, a value, and a line that is no text.
example : (run 20 (Session.initial (.buffer ""))
      (encoding "let a = 1;\na @ 2\na + b\na\n" ++ [255, 10] ++ encoding "a")).map
        (·.transcript "you") =
    some ("Hello you! This is the Monkey programming language!\nFeel free to type in commands\n" ++
      ">> " ++ ">> parser errors:\n\tillegal character: @\n" ++
      ">> ERROR: identifier not found: b\n" ++ ">> 1\n" ++ ">> ") := by
  decide +kernel

end Repl

end Monkey
