import MonkeyLang.Syntax.Known

/-!
# Trees in place

A tree is in place if each of its nodes stands where a node of its kind belongs: expressions,
statements and blocks where such are asked for, programs inside no other node, and no node of
unknown kind. The trees that the parser builds are in place; a tree that is built by hand may be
another.
-/

namespace MonkeyLang

/-! ## Trees in place -/

mutual

/-- Every node of an expression stands where a node of its kind belongs. -/
def Expr.isInPlace : Expr → Bool
  | .identifier .. | .integer .. | .string .. | .boolean .. => true
  | .prefixOp _ _ right => right.isInPlace
  | .infixOp _ left _ right => left.isInPlace && right.isInPlace
  | .conditional _ condition consequence alternative =>
    condition.isInPlace && consequence.isInPlace && elseInPlace alternative
  | .loop _ condition body => condition.isInPlace && body.isInPlace
  | .function _ _ body => body.isInPlace
  | .call _ function arguments => function.isInPlace && allInPlace arguments
  | .array _ elements => allInPlace elements
  | .index _ left index => left.isInPlace && index.isInPlace
  | .hash _ pairs => pairsInPlace pairs
  | .statement _ | .unknown .. => false

def elseInPlace : Option Block → Bool
  | none => true
  | some block => block.isInPlace

def allInPlace : List Expr → Bool
  | [] => true
  | e :: es => e.isInPlace && allInPlace es

def pairsInPlace : List (Expr × Expr) → Bool
  | [] => true
  | (key, value) :: pairs => key.isInPlace && value.isInPlace && pairsInPlace pairs

def Block.isInPlace : Block → Bool
  | .mk _ statements => stmtsInPlace statements
  | .program _ => false

def Stmt.isInPlace : Stmt → Bool
  | .binding _ _ value | .leave _ value | .expression _ value => value.isInPlace
  | .block block => block.isInPlace
  | .bare _ | .unknown .. => false

def stmtsInPlace : List Stmt → Bool
  | [] => true
  | s :: ss => s.isInPlace && stmtsInPlace ss

end

def Node.isInPlace : Node → Bool
  | .program p => stmtsInPlace p.statements
  | .statement s => s.isInPlace
  | .expression e => e.isInPlace

/-! ## A tree in place is known -/

mutual

theorem Expr.isKnown_of_isInPlace : ∀ e : Expr, e.isInPlace = true → e.isKnown = true
  | .identifier .., _ | .integer .., _ | .string .., _ | .boolean .., _ => rfl
  | .prefixOp _ _ r, h => r.isKnown_of_isInPlace h
  | .infixOp _ l _ r, h => by
      simp only [Expr.isInPlace, Bool.and_eq_true] at h
      simp [Expr.isKnown, l.isKnown_of_isInPlace h.1, r.isKnown_of_isInPlace h.2]
  | .conditional _ c t e, h => by
      simp only [Expr.isInPlace, Bool.and_eq_true] at h
      simp [Expr.isKnown, c.isKnown_of_isInPlace h.1.1, t.isKnown_of_isInPlace h.1.2,
        elseIsKnown_of_inPlace e h.2]
  | .loop _ c t, h => by
      simp only [Expr.isInPlace, Bool.and_eq_true] at h
      simp [Expr.isKnown, c.isKnown_of_isInPlace h.1, t.isKnown_of_isInPlace h.2]
  | .function _ _ t, h => t.isKnown_of_isInPlace h
  | .call _ f es, h => by
      simp only [Expr.isInPlace, Bool.and_eq_true] at h
      simp [Expr.isKnown, f.isKnown_of_isInPlace h.1, allKnown_of_inPlace es h.2]
  | .array _ es, h => allKnown_of_inPlace es h
  | .index _ l i, h => by
      simp only [Expr.isInPlace, Bool.and_eq_true] at h
      simp [Expr.isKnown, l.isKnown_of_isInPlace h.1, i.isKnown_of_isInPlace h.2]
  | .hash _ ps, h => pairsKnown_of_inPlace ps h

theorem elseIsKnown_of_inPlace : ∀ e, elseInPlace e = true → elseIsKnown e = true
  | none, _ => rfl
  | some b, h => b.isKnown_of_isInPlace h

theorem allKnown_of_inPlace : ∀ es, allInPlace es = true → allKnown es = true
  | [], _ => rfl
  | e :: es, h => by
      simp only [allInPlace, Bool.and_eq_true] at h
      simp [allKnown, e.isKnown_of_isInPlace h.1, allKnown_of_inPlace es h.2]

theorem pairsKnown_of_inPlace : ∀ ps, pairsInPlace ps = true → pairsKnown ps = true
  | [], _ => rfl
  | (k, v) :: ps, h => by
      simp only [pairsInPlace, Bool.and_eq_true] at h
      simp [pairsKnown, k.isKnown_of_isInPlace h.1.1, v.isKnown_of_isInPlace h.1.2,
        pairsKnown_of_inPlace ps h.2]

theorem Block.isKnown_of_isInPlace : ∀ b : Block, b.isInPlace = true → b.isKnown = true
  | .mk _ ss, h => stmtsKnown_of_inPlace ss h

theorem Stmt.isKnown_of_isInPlace : ∀ s : Stmt, s.isInPlace = true → s.isKnown = true
  | .binding _ _ v, h | .leave _ v, h | .expression _ v, h => v.isKnown_of_isInPlace h
  | .block b, h => b.isKnown_of_isInPlace h

theorem stmtsKnown_of_inPlace : ∀ ss, stmtsInPlace ss = true → stmtsKnown ss = true
  | [], _ => rfl
  | s :: ss, h => by
      simp only [stmtsInPlace, Bool.and_eq_true] at h
      simp [stmtsKnown, s.isKnown_of_isInPlace h.1, stmtsKnown_of_inPlace ss h.2]

end

theorem Node.isKnown_of_isInPlace {n : Node} (h : n.isInPlace = true) : n.isKnown = true := by
  cases n with
  | program p => exact stmtsKnown_of_inPlace p.statements h
  | statement s => exact s.isKnown_of_isInPlace h
  | expression e => exact e.isKnown_of_isInPlace h

end MonkeyLang
