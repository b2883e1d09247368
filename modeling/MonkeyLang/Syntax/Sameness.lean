import MonkeyLang.Syntax.Basic

/-!
# Sameness

Two nodes are the same when they are of one kind and agree in their places and in all their parts.
The texts of their marks play no role.
-/

namespace MonkeyLang

/-- Two marks have the same place. -/
def Mark.same (m n : Mark) : Bool :=
  m.place == n.place

def Name.same (m n : Name) : Bool :=
  m.mark.same n.mark && m.value == n.value

def sameNames : List Name → List Name → Bool
  | [], [] => true
  | m :: ms, n :: ns => m.same n && sameNames ms ns
  | _, _ => false

mutual

/-- Two expressions are the same. -/
def Expr.same : Expr → Expr → Bool
  | .identifier m v, .identifier n w => m.same n && v == w
  | .integer m v, .integer n w => m.same n && v == w
  | .string m v, .string n w => m.same n && v == w
  | .boolean m v, .boolean n w => m.same n && v == w
  | .prefixOp m o r, .prefixOp n o' r' => m.same n && o == o' && r.same r'
  | .infixOp m l o r, .infixOp n l' o' r' => m.same n && l.same l' && o == o' && r.same r'
  | .conditional m c t e, .conditional n c' t' e' =>
    m.same n && c.same c' && t.same t' && sameElse e e'
  | .loop m c b, .loop n c' b' => m.same n && c.same c' && b.same b'
  | .function m ps b, .function n ps' b' => m.same n && sameNames ps ps' && b.same b'
  | .call m f as, .call n f' as' => m.same n && f.same f' && sameAll as as'
  | .array m es, .array n es' => m.same n && sameAll es es'
  | .index m l i, .index n l' i' => m.same n && l.same l' && i.same i'
  | .hash m ps, .hash n ps' => m.same n && samePairs ps ps'
  | .statement s, .statement s' => s.same s'
  | .unknown m k, .unknown n k' => m.same n && k == k'
  | _, _ => false

def sameElse : Option Block → Option Block → Bool
  | none, none => true
  | some b, some b' => b.same b'
  | _, _ => false

def sameAll : List Expr → List Expr → Bool
  | [], [] => true
  | e :: es, e' :: es' => e.same e' && sameAll es es'
  | _, _ => false

def samePairs : List (Expr × Expr) → List (Expr × Expr) → Bool
  | [], [] => true
  | (k, v) :: ps, (k', v') :: ps' => k.same k' && v.same v' && samePairs ps ps'
  | _, _ => false

def Block.same : Block → Block → Bool
  | .mk m ss, .mk n ss' => m.same n && sameStmts ss ss'
  | .program ss, .program ss' => (firstMark ss).same (firstMark ss') && sameStmts ss ss'
  | _, _ => false

def Stmt.same : Stmt → Stmt → Bool
  | .binding m x v, .binding n x' v' => m.same n && x.same x' && v.same v'
  | .leave m v, .leave n v' => m.same n && v.same v'
  | .expression m e, .expression n e' => m.same n && e.same e'
  | .block b, .block b' => b.same b'
  | .bare e, .bare e' => e.same e'
  | .unknown m k, .unknown n k' => m.same n && k == k'
  | _, _ => false

def sameStmts : List Stmt → List Stmt → Bool
  | [], [] => true
  | s :: ss, s' :: ss' => s.same s' && sameStmts ss ss'
  | _, _ => false

end

def Program.same (p q : Program) : Bool :=
  p.mark.same q.mark && sameStmts p.statements q.statements

def Node.same : Node → Node → Bool
  | .program p, .program q => p.same q
  | .statement s, .statement t => s.same t
  | .expression e, .expression f => e.same f
  | _, _ => false

end MonkeyLang
