import Monkey.Expr.Basic

/-!
# Equality of syntax trees

Expressions hold lists of expressions and of statements, so the comparison is written out, one
function per kind of part, and shown to decide equality.
-/

namespace Monkey

mutual

/-- Whether two expressions are the same tree. -/
def Expr.same : Expr → Expr → Bool
  | .ident a, .ident b => a = b
  | .int a, .int b => a = b
  | .bool a, .bool b => a = b
  | .str a, .str b => a = b
  | .array as, .array bs => Expr.sameList as bs
  | .hash as, .hash bs => Expr.samePairs as bs
  | .unary o a, .unary p b => o = p && a.same b
  | .binary o a b, .binary p c d => o = p && a.same c && b.same d
  | .cond a as none, .cond b bs none => a.same b && Stmt.sameList as bs
  | .cond a as (some xs), .cond b bs (some ys) =>
    a.same b && Stmt.sameList as bs && Stmt.sameList xs ys
  | .fn ps as, .fn qs bs => ps = qs && Stmt.sameList as bs
  | .macroFn ps as, .macroFn qs bs => ps = qs && Stmt.sameList as bs
  | .call a as, .call b bs => a.same b && Expr.sameList as bs
  | .index a b, .index c d => a.same c && b.same d
  | _, _ => false
termination_by structural e => e

def Expr.sameList : List Expr → List Expr → Bool
  | [], [] => true
  | a :: as, b :: bs => a.same b && Expr.sameList as bs
  | _, _ => false
termination_by structural es => es

def Expr.samePairs : List (Expr × Expr) → List (Expr × Expr) → Bool
  | [], [] => true
  | (k, v) :: as, (l, w) :: bs => k.same l && v.same w && Expr.samePairs as bs
  | _, _ => false
termination_by structural ps => ps

/-- Whether two statements are the same tree. -/
def Stmt.same : Stmt → Stmt → Bool
  | .bind x a, .bind y b => x = y && a.same b
  | .ret a, .ret b => a.same b
  | .expr a, .expr b => a.same b
  | _, _ => false
termination_by structural s => s

def Stmt.sameList : List Stmt → List Stmt → Bool
  | [], [] => true
  | a :: as, b :: bs => a.same b && Stmt.sameList as bs
  | _, _ => false
termination_by structural ss => ss

end

mutual

theorem Expr.same_iff : ∀ (a b : Expr), a.same b = true ↔ a = b
  | .ident _, b | .int _, b | .bool _, b | .str _, b => by cases b <;> simp [Expr.same]
  | .array as, b => by cases b <;> simp [Expr.same, Expr.sameList_iff as]
  | .hash as, b => by cases b <;> simp [Expr.same, Expr.samePairs_iff as]
  | .unary _ a, b => by cases b <;> simp [Expr.same, Expr.same_iff a]
  | .binary _ a c, b => by cases b <;> simp [Expr.same, Expr.same_iff a, Expr.same_iff c, and_assoc]
  | .cond a as none, b => by
    rcases b with _ | _ | _ | _ | _ | _ | _ | _ | ⟨_, _, _ | _⟩ | _ | _ | _ | _ <;>
      simp [Expr.same, Expr.same_iff a, Stmt.sameList_iff as]
  | .cond a as (some xs), b => by
    rcases b with _ | _ | _ | _ | _ | _ | _ | _ | ⟨_, _, _ | _⟩ | _ | _ | _ | _ <;>
      simp [Expr.same, Expr.same_iff a, Stmt.sameList_iff as, Stmt.sameList_iff xs, and_assoc]
  | .fn _ as, b | .macroFn _ as, b => by cases b <;> simp [Expr.same, Stmt.sameList_iff as]
  | .call a as, b => by cases b <;> simp [Expr.same, Expr.same_iff a, Expr.sameList_iff as]
  | .index a c, b => by cases b <;> simp [Expr.same, Expr.same_iff a, Expr.same_iff c]

theorem Expr.sameList_iff : ∀ (as bs : List Expr), Expr.sameList as bs = true ↔ as = bs
  | [], bs => by cases bs <;> simp [Expr.sameList]
  | a :: as, bs => by cases bs <;> simp [Expr.sameList, Expr.same_iff a, Expr.sameList_iff as]

theorem Expr.samePairs_iff :
    ∀ (as bs : List (Expr × Expr)), Expr.samePairs as bs = true ↔ as = bs
  | [], bs => by cases bs <;> simp [Expr.samePairs]
  | (k, v) :: as, bs => by
    rcases bs with _ | ⟨⟨_, _⟩, _⟩ <;>
      simp [Expr.samePairs, Expr.same_iff k, Expr.same_iff v, Expr.samePairs_iff as]

theorem Stmt.same_iff : ∀ (a b : Stmt), a.same b = true ↔ a = b
  | .bind _ a, b => by cases b <;> simp [Stmt.same, Expr.same_iff a]
  | .ret a, b => by cases b <;> simp [Stmt.same, Expr.same_iff a]
  | .expr a, b => by cases b <;> simp [Stmt.same, Expr.same_iff a]

theorem Stmt.sameList_iff : ∀ (as bs : List Stmt), Stmt.sameList as bs = true ↔ as = bs
  | [], bs => by cases bs <;> simp [Stmt.sameList]
  | a :: as, bs => by cases bs <;> simp [Stmt.sameList, Stmt.same_iff a, Stmt.sameList_iff as]

end

instance : DecidableEq Expr := fun a b => decidable_of_iff _ (Expr.same_iff a b)

instance : DecidableEq Stmt := fun a b => decidable_of_iff _ (Stmt.same_iff a b)

end Monkey
