import Monkey.Proofs.Run.Pass
import Monkey.Proofs.Run.Rebuild

/-!
# Listings — which nodes a pass meets, and in which order

The listing of a program has every node once, in the order in which the program is written, each in
front of its parts.  Whatever a pass does with a node when it meets it, going through a program does
that along the listing, and what is put in the places of expressions is put there from the leaves up.
A pass that is stopped has met the listing up to the node that stopped it.
-/

namespace Monkey

open List (Forall₂)

/-! ## 1. Nodes -/

/-- What a pass meets on its way through a program. -/
inductive Node where
  | program (p : Program)
  | stmt (s : Stmt)
  | block (b : Block)
  | expr (e : Expr)

mutual

/-- The nodes of an expression in the order in which it is written, each in front of its parts. -/
def Expr.nodes (e : Expr) : List Node :=
  .expr e ::
    match e with
    | .ident _ | .int _ | .bool _ | .str _ => []
    | .array es => Expr.nodesList es
    | .hash ps => Expr.nodesPairs ps
    | .unary _ a => a.nodes
    | .binary _ a b => a.nodes ++ b.nodes
    | .cond test yes none => test.nodes ++ .block yes :: Stmt.nodesList yes
    | .cond test yes (some no) =>
      test.nodes ++ .block yes :: (Stmt.nodesList yes ++ .block no :: Stmt.nodesList no)
    | .fn _ body => .block body :: Stmt.nodesList body
    | .macroFn _ body => .block body :: Stmt.nodesList body
    | .call callee args => callee.nodes ++ Expr.nodesList args
    | .index a i => a.nodes ++ i.nodes
termination_by structural e

def Expr.nodesList : List Expr → List Node
  | [] => []
  | e :: es => e.nodes ++ Expr.nodesList es
termination_by structural es => es

def Expr.nodesPairs : List (Expr × Expr) → List Node
  | [] => []
  | (k, v) :: ps => k.nodes ++ (v.nodes ++ Expr.nodesPairs ps)
termination_by structural ps => ps

def Stmt.nodes (s : Stmt) : List Node :=
  .stmt s ::
    match s with
    | .bind _ e => e.nodes
    | .ret e => e.nodes
    | .expr e => e.nodes
termination_by structural s

def Stmt.nodesList : List Stmt → List Node
  | [] => []
  | s :: ss => s.nodes ++ Stmt.nodesList ss
termination_by structural ss => ss

end

def Program.nodes (p : Program) : List Node := .program p :: Stmt.nodesList p

/-! ## 2. Replacing expressions -/

mutual

/-- The expression with `f` of every expression in its place, from the leaves up. -/
def Expr.replace (f : Expr → Expr) (e : Expr) : Expr :=
  f <| match e with
    | .ident x => .ident x
    | .int n => .int n
    | .bool b => .bool b
    | .str text => .str text
    | .array es => .array (Expr.replaceList f es)
    | .hash ps => .hash (Expr.replacePairs f ps)
    | .unary op a => .unary op (a.replace f)
    | .binary op a b => .binary op (a.replace f) (b.replace f)
    | .cond test yes none => .cond (test.replace f) (Stmt.replaceList f yes) none
    | .cond test yes (some no) =>
      .cond (test.replace f) (Stmt.replaceList f yes) (some (Stmt.replaceList f no))
    | .fn params body => .fn params (Stmt.replaceList f body)
    | .macroFn params body => .macroFn params (Stmt.replaceList f body)
    | .call callee args => .call (callee.replace f) (Expr.replaceList f args)
    | .index a i => .index (a.replace f) (i.replace f)
termination_by structural e

def Expr.replaceList (f : Expr → Expr) : List Expr → List Expr
  | [] => []
  | e :: es => e.replace f :: Expr.replaceList f es
termination_by structural es => es

def Expr.replacePairs (f : Expr → Expr) : List (Expr × Expr) → List (Expr × Expr)
  | [] => []
  | (k, v) :: ps => (k.replace f, v.replace f) :: Expr.replacePairs f ps
termination_by structural ps => ps

def Stmt.replace (f : Expr → Expr) : Stmt → Stmt
  | .bind x e => .bind x (e.replace f)
  | .ret e => .ret (e.replace f)
  | .expr e => .expr (e.replace f)
termination_by structural s => s

def Stmt.replaceList (f : Expr → Expr) : List Stmt → List Stmt
  | [] => []
  | s :: ss => s.replace f :: Stmt.replaceList f ss
termination_by structural ss => ss

end

namespace Traversal

variable {m : Type → Type} [Monad m]

/-- The pass through `p` that does `meet` with every node it meets, goes through every block, and
puts `f` of every rebuilt expression in its place. -/
def meeting (meet : Node → m Unit) (f : Expr → Expr) (p : Program) : Traversal m where
  enterProgram := meet (.program p)
  enterStmt s := meet (.stmt s)
  enterBlock b := do
    meet (.block b)
    return true
  enterExpr e := meet (.expr e)
  leaveExpr e := pure (f e)

variable {meet : Node → m Unit} {f : Expr → Expr} {p : Program}

theorem enterExpr_meeting (e : Expr) : (meeting meet f p).enterExpr e = meet (.expr e) := rfl

theorem leaveExpr_meeting (e : Expr) : (meeting meet f p).leaveExpr e = pure (f e) := rfl

variable [LawfulMonad m]

theorem inBlock_meeting (b : Block) (rebuilt : m Block) :
    (meeting meet f p).inBlock b rebuilt = (do meet (.block b); rebuilt) := by
  simp [inBlock, meeting]

mutual

-- What is done with the nodes does not depend on what is put in their places.
theorem expr_meeting (e : Expr) :
    (meeting meet f p).expr e = (do e.nodes.forM meet; return e.replace f) := by
  cases e with
  | ident x | int n | bool b | str text =>
    rw [expr]
    simp [enterExpr_meeting, leaveExpr_meeting, Expr.nodes, Expr.replace]
  | array elems =>
    rw [expr, exprs_meeting elems]
    simp [enterExpr_meeting, leaveExpr_meeting, Expr.nodes, Expr.replace]
  | hash ps =>
    rw [expr, pairs_meeting ps]
    simp [enterExpr_meeting, leaveExpr_meeting, Expr.nodes, Expr.replace]
  | unary op a =>
    rw [expr, expr_meeting a]
    simp [enterExpr_meeting, leaveExpr_meeting, Expr.nodes, Expr.replace]
  | binary op a b =>
    rw [expr, expr_meeting a, expr_meeting b]
    simp [enterExpr_meeting, leaveExpr_meeting, Expr.nodes, Expr.replace]
  | cond test yes no =>
    cases no with
    | none =>
      rw [expr, expr_meeting test, stmts_meeting yes]
      simp [enterExpr_meeting, leaveExpr_meeting, inBlock_meeting, Expr.nodes, Expr.replace]
    | some no =>
      rw [expr, expr_meeting test, stmts_meeting yes, stmts_meeting no]
      simp [enterExpr_meeting, leaveExpr_meeting, inBlock_meeting, Expr.nodes, Expr.replace]
  | fn params body | macroFn params body =>
    rw [expr, stmts_meeting body]
    simp [enterExpr_meeting, leaveExpr_meeting, inBlock_meeting, Expr.nodes, Expr.replace]
  | call callee args =>
    rw [expr, expr_meeting callee, exprs_meeting args]
    simp [enterExpr_meeting, leaveExpr_meeting, Expr.nodes, Expr.replace]
  | index a i =>
    rw [expr, expr_meeting a, expr_meeting i]
    simp [enterExpr_meeting, leaveExpr_meeting, Expr.nodes, Expr.replace]
termination_by structural e

theorem exprs_meeting (es : List Expr) :
    (meeting meet f p).exprs es =
      (do (Expr.nodesList es).forM meet; return Expr.replaceList f es) := by
  cases es with
  | nil => simp [exprs, Expr.nodesList, Expr.replaceList]
  | cons e es =>
    rw [exprs, expr_meeting e, exprs_meeting es]
    simp [Expr.nodesList, Expr.replaceList]
termination_by structural es

theorem pairs_meeting (ps : List (Expr × Expr)) :
    (meeting meet f p).pairs ps =
      (do (Expr.nodesPairs ps).forM meet; return Expr.replacePairs f ps) := by
  cases ps with
  | nil => simp [pairs, Expr.nodesPairs, Expr.replacePairs]
  | cons kv ps =>
    rcases kv with ⟨k, v⟩
    rw [pairs, expr_meeting k, expr_meeting v, pairs_meeting ps]
    simp [Expr.nodesPairs, Expr.replacePairs]
termination_by structural ps

theorem stmt_meeting (s : Stmt) :
    (meeting meet f p).stmt s = (do s.nodes.forM meet; return s.replace f) := by
  have henter : (meeting meet f p).enterStmt s = meet (.stmt s) := rfl
  cases s with
  | bind x e | ret e | expr e =>
    rw [stmt, henter, expr_meeting e]
    simp [Stmt.nodes, Stmt.replace]
termination_by structural s

theorem stmts_meeting (ss : List Stmt) :
    (meeting meet f p).stmts ss =
      (do (Stmt.nodesList ss).forM meet; return Stmt.replaceList f ss) := by
  cases ss with
  | nil => simp [stmts, Stmt.nodesList, Stmt.replaceList]
  | cons s ss =>
    rw [stmts, stmt_meeting s, stmts_meeting ss]
    simp [Stmt.nodesList, Stmt.replaceList]
termination_by structural ss

end

/-- Going through a program does with its nodes what is done along the listing. -/
theorem program_meeting (p : Program) :
    (meeting meet f p).program p = (do p.nodes.forM meet; return Stmt.replaceList f p) := by
  have henter : (meeting meet f p).enterProgram = meet (.program p) := rfl
  rw [program, henter, stmts_meeting]
  simp [Program.nodes]

end Traversal

/-! ## 3. What replacing keeps -/

section

variable {f : Expr → Expr}

theorem replaceList_rebuilt (es : List Expr) :
    Forall₂ (fun e e' => e' = e.replace f) es (Expr.replaceList f es) := by
  induction es with
  | nil => exact .nil
  | cons e es ih => exact .cons rfl ih

theorem replacePairs_rebuilt (ps : List (Expr × Expr)) :
    Forall₂ (fun p p' => p'.1 = p.1.replace f ∧ p'.2 = p.2.replace f) ps
      (Expr.replacePairs f ps) := by
  induction ps with
  | nil => exact .nil
  | cons p ps ih => exact .cons ⟨rfl, rfl⟩ ih

-- Statements stay of their kind and bind the names they bound.
theorem replaceStmts_rebuilt (ss : List Stmt) :
    Forall₂ (Stmt.Rebuilt fun e e' => e' = e.replace f) ss (Stmt.replaceList f ss) := by
  induction ss with
  | nil => exact .nil
  | cons s ss ih =>
    refine .cons ?_ ih
    cases s with
    | bind x e => exact .bind rfl
    | ret e => exact .ret rfl
    | expr e => exact .expr rfl

-- What is replaced is an expression of the same form, with its parts replaced.
theorem replace_rebuilt (e : Expr) :
    ∃ e', e.Rebuilt (fun d d' => d' = d.replace f) e' ∧ e.replace f = f e' := by
  cases e with
  | ident x => exact ⟨_, .ident x, rfl⟩
  | int n => exact ⟨_, .int n, rfl⟩
  | bool b => exact ⟨_, .bool b, rfl⟩
  | str text => exact ⟨_, .str text, rfl⟩
  | array es => exact ⟨_, .array (replaceList_rebuilt es), rfl⟩
  | hash ps => exact ⟨_, .hash (replacePairs_rebuilt ps), rfl⟩
  | unary op a => exact ⟨_, .unary rfl, rfl⟩
  | binary op a b => exact ⟨_, .binary rfl rfl, rfl⟩
  | cond test yes no =>
    cases no with
    | none => exact ⟨_, .condOnly rfl (replaceStmts_rebuilt yes), rfl⟩
    | some no => exact ⟨_, .cond rfl (replaceStmts_rebuilt yes) (replaceStmts_rebuilt no), rfl⟩
  | fn params body => exact ⟨_, .fn (replaceStmts_rebuilt body), rfl⟩
  | macroFn params body => exact ⟨_, .macroFn (replaceStmts_rebuilt body), rfl⟩
  | call callee args => exact ⟨_, .call rfl (replaceList_rebuilt args), rfl⟩
  | index a i => exact ⟨_, .index rfl rfl, rfl⟩

-- Replacing each expression by itself is the pass that changes nothing.
theorem replaceList_id (p : Program) : Stmt.replaceList id p = p := by
  have hidentity : Traversal.meeting (m := Id) (fun _ => pure ()) id p = Traversal.identity := rfl
  have hpass : (Traversal.meeting (m := Id) (fun _ => pure ()) id p).program p = _ :=
    Traversal.program_meeting p
  rw [hidentity, Traversal.program_identity] at hpass
  have hdone (ns : List Node) : ns.forM (m := Id) (fun _ => pure ()) = pure () := by
    induction ns with
    | nil => rfl
    | cons n ns ih => exact ih
  rw [hdone] at hpass
  exact hpass.symm

end

/-! ## 4. Passes that keep a record -/

/-- A pass that keeps a record of nodes, and can be stopped by an error. -/
abbrev Recording (ε : Type) : Type → Type := ExceptT ε (StateM (List Node))

section

variable {ε : Type} (refuses : List Node → Expr → Option ε)

/-- Why a node is refused, behind those already recorded. -/
def Node.refusal? (seen : List Node) : Node → Option ε
  | expr e => refuses seen e
  | _ => none

/-- Records a node, and is stopped if it is refused. -/
def record (n : Node) : Recording ε Unit := do
  let seen ← get
  set (seen ++ [n])
  match n.refusal? refuses seen with
  | some err => throw err
  | none => return ()

/-- What the recording pass through a program comes to, and the record that it leaves. -/
def recorded (f : Expr → Expr) (p : Program) : Except ε Program × List Node :=
  ((Traversal.meeting (record refuses) f p).program p).run.run []

/-- No expression in the row is refused, each behind those in front of it. -/
def Accepted (seen ns : List Node) : Prop :=
  ∀ before e after, ns = before ++ .expr e :: after → refuses (seen ++ before) e = none

variable {refuses} {seen ns : List Node} {n : Node}

theorem Accepted.refusal?_eq (h : Accepted refuses seen (n :: ns)) :
    n.refusal? refuses seen = none := by
  cases n with
  | expr e =>
    have he := h [] e ns rfl
    rwa [List.append_nil] at he
  | program | stmt | block => rfl

theorem Accepted.tail (h : Accepted refuses seen (n :: ns)) :
    Accepted refuses (seen ++ [n]) ns := by
  intro before e after hns
  rw [List.append_assoc]
  exact h (n :: before) e after (by rw [hns]; rfl)

-- The node is recorded in either case.
theorem record_run (n : Node) (seen : List Node) : (record refuses n).run.run seen =
    ((n.refusal? refuses seen).elim (.ok ()) .error, seen ++ [n]) := by
  have hstep : (record refuses n).run.run seen =
    (match n.refusal? refuses seen with
      | some err => throw err
      | none => pure () : Recording ε Unit).run.run (seen ++ [n]) := rfl
  rw [hstep]
  cases n.refusal? refuses seen <;> rfl

theorem recording_bind_run {α β : Type} (p : Recording ε α) (g : α → Recording ε β)
    (seen : List Node) : (p >>= g).run.run seen =
      match p.run.run seen with
      | (.ok a, seen') => (g a).run.run seen'
      | (.error err, seen') => (.error err, seen') := by
  have hstep : (p >>= g).run.run seen = match p.run.run seen with
    | (r, seen') => (ExceptT.bindCont g r).run seen' := rfl
  rw [hstep]
  rcases p.run.run seen with ⟨_ | _, _⟩ <;> rfl

-- Nodes that are not refused are recorded, and those behind them come next.
theorem record_append (h : Accepted refuses seen ns) (rest : List Node) :
    ((ns ++ rest).forM (record refuses)).run.run seen =
      (rest.forM (record refuses)).run.run (seen ++ ns) := by
  induction ns generalizing seen with
  | nil => rw [List.nil_append, List.append_nil]
  | cons n ns ih =>
    have hstep : ((n :: ns ++ rest).forM (record refuses)).run.run seen =
        ((ns ++ rest).forM (record refuses)).run.run (seen ++ [n]) := by
      show (record refuses n >>= fun _ => (ns ++ rest).forM (record refuses)).run.run seen = _
      rw [recording_bind_run, record_run, h.refusal?_eq]
      rfl
    rw [hstep, ih h.tail, List.append_assoc]
    rfl

theorem recorded_of_accepted {f : Expr → Expr} {p : Program} (h : Accepted refuses [] p.nodes) :
    recorded refuses f p = (.ok (Stmt.replaceList f p), p.nodes) := by
  have hall := record_append h []
  rw [List.append_nil] at hall
  rw [recorded, Traversal.program_meeting, recording_bind_run, hall]
  rfl

-- The node that is refused is the last one that is met.
theorem recorded_of_refused {f : Expr → Expr} {p : Program} {before after : List Node} {e : Expr}
    {err : ε} (hnodes : p.nodes = before ++ .expr e :: after)
    (hbefore : Accepted refuses [] before) (he : refuses before e = some err) :
    recorded refuses f p = (.error err, before ++ [.expr e]) := by
  have hstop : ((Node.expr e :: after).forM (record refuses)).run.run before =
      (.error err, before ++ [.expr e]) := by
    show (record refuses (.expr e) >>= fun _ => after.forM (record refuses)).run.run before = _
    rw [recording_bind_run, record_run, Node.refusal?, he]
    rfl
  rw [recorded, Traversal.program_meeting, recording_bind_run, hnodes, record_append hbefore,
    List.nil_append, hstop]

end

variable {ε : Type}

/-- **A pass meets every node once, in order, and rebuilds what it does not replace.**  Let a pass
record what it meets, refuse some expressions before it goes through them, and put `f` of every
rebuilt expression in its place.  If it refuses none, its record is the listing of the program, and
it comes to the program with `f` applied from the leaves up: statements keep their kinds and names,
and `f` is given an expression of the same form with its parts replaced.  If it refuses one, the
first in the listing stops it, and the record ends there.  With the identity for `f`, or with no
actions at all, the program stays as it is. -/
theorem nodes_met_once_in_order (refuses : List Node → Expr → Option ε) (f : Expr → Expr)
    (p : Program) :
    (Accepted refuses [] p.nodes →
      recorded refuses f p = (.ok (Stmt.replaceList f p), p.nodes)) ∧
    (∀ before e after err, p.nodes = before ++ .expr e :: after → Accepted refuses [] before →
      refuses before e = some err →
        recorded refuses f p = (.error err, before ++ [.expr e])) ∧
    Forall₂ (Stmt.Rebuilt fun d d' => d' = d.replace f) p (Stmt.replaceList f p) ∧
    (∀ e : Expr, ∃ e', e.Rebuilt (fun d d' => d' = d.replace f) e' ∧ e.replace f = f e') ∧
    Stmt.replaceList id p = p ∧
    (∀ (m : Type → Type) [Monad m] [LawfulMonad m],
      (Traversal.identity : Traversal m).program p = pure p) := by
  refine ⟨recorded_of_accepted, ?_, replaceStmts_rebuilt p, replace_rebuilt, replaceList_id p, ?_⟩
  · intro before e after err hnodes hbefore he
    exact recorded_of_refused hnodes hbefore he
  · intro m _ _
    exact Traversal.program_identity p

/-- A branch with one statement. -/
def firstBranch : Block := [.expr (.int 1)]

/-- A branch that returns an array of a name and a number. -/
def secondBranch : Block := [.ret (.array [.ident "y", .int 2])]

def branches : Expr := .cond (.ident "x") firstBranch (some secondBranch)

/-- What is met in front of the name in the second branch. -/
def beforeName : List Node :=
  [.program [.bind "a" branches], .stmt (.bind "a" branches), .expr branches, .expr (.ident "x"),
    .block firstBranch, .stmt (.expr (.int 1)), .expr (.int 1),
    .block secondBranch, .stmt (.ret (.array [.ident "y", .int 2])),
    .expr (.array [.ident "y", .int 2])]

/-- Refuses the name `y`. -/
def refusesName (_ : List Node) : Expr → Option String
  | .ident "y" => some "y"
  | _ => none

/-- The name in the second branch stops the pass, and what stands behind it is not met. -/
theorem stopped_in_second_branch : Accepted refusesName [] beforeName ∧
    recorded refusesName id [.bind "a" branches] =
      (.error "y", beforeName ++ [.expr (.ident "y")]) := by
  have hbefore : Accepted refusesName [] beforeName := by
    intro before e after h
    have hmem : Node.expr e ∈ beforeName := h ▸ List.mem_append_right _ List.mem_cons_self
    simp only [beforeName, List.mem_cons, Node.expr.injEq, reduceCtorEq, false_or,
      List.not_mem_nil, or_false] at hmem
    rcases hmem with rfl | rfl | rfl | rfl <;> rfl
  exact ⟨hbefore, (nodes_met_once_in_order refusesName id [.bind "a" branches]).2.1 beforeName
    (.ident "y") [.expr (.int 2)] "y" rfl hbefore rfl⟩

end Monkey
