import Monkey.Expr.Basic

/-!
# Rendering — the canonical text of a syntax tree

Operators and indexing are written inside parentheses, so no precedence is left to be known.  The
text of a string stands without quotes, and the statements of a block follow one another without
braces.
-/

namespace Monkey

mutual

/-- The canonical text of an expression. -/
def Expr.render : Expr → String
  | .ident name => name
  | .int n => toString n
  | .bool b => toString b
  | .str text => text
  | .array elems => "[" ++ ", ".intercalate (Expr.renderList elems) ++ "]"
  | .hash pairs => "\x7b" ++ ", ".intercalate (Expr.renderPairs pairs) ++ "\x7d"
  | .unary op e => "(" ++ op.spelling ++ e.render ++ ")"
  | .binary op l r => "(" ++ l.render ++ " " ++ op.spelling ++ " " ++ r.render ++ ")"
  | .cond test yes none => "if" ++ test.render ++ " " ++ Stmt.renderAll yes
  | .cond test yes (some no) =>
    "if" ++ test.render ++ " " ++ Stmt.renderAll yes ++ "else " ++ Stmt.renderAll no
  | .fn params body => "fn(" ++ ", ".intercalate params ++ ") " ++ Stmt.renderAll body
  | .macroFn params body => "macro(" ++ ", ".intercalate params ++ ") " ++ Stmt.renderAll body
  | .call callee args => callee.render ++ "(" ++ ", ".intercalate (Expr.renderList args) ++ ")"
  | .index l i => "(" ++ l.render ++ "[" ++ i.render ++ "])"
termination_by structural e => e

def Expr.renderList : List Expr → List String
  | [] => []
  | e :: es => e.render :: Expr.renderList es
termination_by structural es => es

def Expr.renderPairs : List (Expr × Expr) → List String
  | [] => []
  | (k, v) :: ps => (k.render ++ ":" ++ v.render) :: Expr.renderPairs ps
termination_by structural ps => ps

/-- The canonical text of a statement. -/
def Stmt.render : Stmt → String
  | .bind name value => "let " ++ name ++ " = " ++ value.render ++ ";"
  | .ret value => "return " ++ value.render ++ ";"
  | .expr e => e.render
termination_by structural s => s

/-- The texts of statements, one behind the other. -/
def Stmt.renderAll : List Stmt → String
  | [] => ""
  | s :: ss => s.render ++ Stmt.renderAll ss
termination_by structural ss => ss

end

def Program.render (p : Program) : String := Stmt.renderAll p

instance : ToString Expr := ⟨Expr.render⟩

theorem Expr.renderList_eq_map (es : List Expr) : Expr.renderList es = es.map Expr.render := by
  induction es with
  | nil => rfl
  | cons e es ih => simp [Expr.renderList, ih]

theorem Expr.renderPairs_eq_map (ps : List (Expr × Expr)) :
    Expr.renderPairs ps = ps.map fun p => p.1.render ++ ":" ++ p.2.render := by
  induction ps with
  | nil => rfl
  | cons p ps ih => simp [Expr.renderPairs, ih]

theorem Stmt.renderAll_append (ss ts : List Stmt) :
    Stmt.renderAll (ss ++ ts) = Stmt.renderAll ss ++ Stmt.renderAll ts := by
  induction ss with
  | nil => simp [Stmt.renderAll]
  | cons s ss ih => simp [Stmt.renderAll, ih, String.append_assoc]

end Monkey
