import MonkeyLang.Syntax.Basic

/-!
# Trees with other marks

A tree consists of what it says and of the marks that tell where it comes from.
`Expr.map` changes the marks and the values of string literals and keeps all
else. So two trees agree up to their places if they are equal without places
(`placeless`), and they say the same if they are equal without marks
(`unmarked`).
-/

namespace MonkeyLang

/-! ## Changing marks -/

/-- A name with another mark. -/
def Name.map (f : Mark → Mark) (name : Name) : Name :=
  ⟨f name.mark, name.value⟩

mutual

/-- An expression with other marks and other values of its string literals. -/
def Expr.map (f : Mark → Mark) (g : String → String) : Expr → Expr
  | .identifier m v => .identifier (f m) v
  | .integer m v => .integer (f m) v
  | .string m v => .string (f m) (g v)
  | .boolean m v => .boolean (f m) v
  | .prefixOp m o r => .prefixOp (f m) o (r.map f g)
  | .infixOp m l o r => .infixOp (f m) (l.map f g) o (r.map f g)
  | .conditional m c b e => .conditional (f m) (c.map f g) (b.map f g) (mapElse f g e)
  | .loop m c b => .loop (f m) (c.map f g) (b.map f g)
  | .function m ps b => .function (f m) (ps.map (Name.map f)) (b.map f g)
  | .call m h es => .call (f m) (h.map f g) (mapAll f g es)
  | .array m es => .array (f m) (mapAll f g es)
  | .index m l i => .index (f m) (l.map f g) (i.map f g)
  | .hash m ps => .hash (f m) (mapPairs f g ps)
  | .statement s => .statement (s.map f g)
  | .unknown m k => .unknown (f m) k

def mapElse (f : Mark → Mark) (g : String → String) : Option Block → Option Block
  | none => none
  | some b => some (b.map f g)

def mapAll (f : Mark → Mark) (g : String → String) : List Expr → List Expr
  | [] => []
  | e :: es => e.map f g :: mapAll f g es

def mapPairs (f : Mark → Mark) (g : String → String) : List (Expr × Expr) → List (Expr × Expr)
  | [] => []
  | (k, v) :: ps => (k.map f g, v.map f g) :: mapPairs f g ps

def Block.map (f : Mark → Mark) (g : String → String) : Block → Block
  | .mk m ss => .mk (f m) (mapStmts f g ss)
  | .program ss => .program (mapStmts f g ss)

def Stmt.map (f : Mark → Mark) (g : String → String) : Stmt → Stmt
  | .binding m x v => .binding (f m) (x.map f) (v.map f g)
  | .leave m v => .leave (f m) (v.map f g)
  | .expression m e => .expression (f m) (e.map f g)
  | .block b => .block (b.map f g)
  | .bare e => .bare (e.map f g)
  | .unknown m k => .unknown (f m) k

def mapStmts (f : Mark → Mark) (g : String → String) : List Stmt → List Stmt
  | [] => []
  | s :: ss => s.map f g :: mapStmts f g ss

end

/-! ## One change after another -/

section Compose

variable (f f' : Mark → Mark) (g g' : String → String)

theorem map_map_names (names : List Name) :
    (names.map (Name.map f)).map (Name.map f') = names.map (Name.map (f' ∘ f)) :=
  List.map_map

mutual

theorem Expr.map_map : ∀ e : Expr, (e.map f g).map f' g' = e.map (f' ∘ f) (g' ∘ g)
  | .identifier _ _ | .integer _ _ | .string _ _ | .boolean _ _ | .unknown _ _ => rfl
  | .prefixOp _ _ r => by simp only [Expr.map, r.map_map, Function.comp_apply]
  | .infixOp _ l _ r => by simp only [Expr.map, l.map_map, r.map_map, Function.comp_apply]
  | .conditional _ c b e => by
      simp only [Expr.map, c.map_map, b.map_map, mapElse_map e, Function.comp_apply]
  | .loop _ c b => by simp only [Expr.map, c.map_map, b.map_map, Function.comp_apply]
  | .function _ ps b => by
      simp only [Expr.map, map_map_names, b.map_map, Function.comp_apply]
  | .call _ h es => by simp only [Expr.map, h.map_map, mapAll_map es, Function.comp_apply]
  | .array _ es => by simp only [Expr.map, mapAll_map es, Function.comp_apply]
  | .index _ l i => by simp only [Expr.map, l.map_map, i.map_map, Function.comp_apply]
  | .hash _ ps => by simp only [Expr.map, mapPairs_map ps, Function.comp_apply]
  | .statement s => by simp only [Expr.map, s.map_map]

theorem mapElse_map : ∀ b, mapElse f' g' (mapElse f g b) = mapElse (f' ∘ f) (g' ∘ g) b
  | none => rfl
  | some b => by simp only [mapElse, b.map_map]

theorem mapAll_map : ∀ es, mapAll f' g' (mapAll f g es) = mapAll (f' ∘ f) (g' ∘ g) es
  | [] => rfl
  | e :: es => by simp only [mapAll, e.map_map, mapAll_map es]

theorem mapPairs_map : ∀ ps, mapPairs f' g' (mapPairs f g ps) = mapPairs (f' ∘ f) (g' ∘ g) ps
  | [] => rfl
  | (k, v) :: ps => by simp only [mapPairs, k.map_map, v.map_map, mapPairs_map ps]

theorem Block.map_map : ∀ b : Block, (b.map f g).map f' g' = b.map (f' ∘ f) (g' ∘ g)
  | .mk _ ss => by simp only [Block.map, mapStmts_map ss, Function.comp_apply]
  | .program ss => by simp only [Block.map, mapStmts_map ss]

theorem Stmt.map_map : ∀ s : Stmt, (s.map f g).map f' g' = s.map (f' ∘ f) (g' ∘ g)
  | .binding _ _ v => by simp only [Stmt.map, Name.map, v.map_map, Function.comp_apply]
  | .leave _ v => by simp only [Stmt.map, v.map_map, Function.comp_apply]
  | .expression _ e => by simp only [Stmt.map, e.map_map, Function.comp_apply]
  | .block b => by simp only [Stmt.map, b.map_map]
  | .bare e => by simp only [Stmt.map, e.map_map]
  | .unknown _ _ => rfl

theorem mapStmts_map : ∀ ss, mapStmts f' g' (mapStmts f g ss) = mapStmts (f' ∘ f) (g' ∘ g) ss
  | [] => rfl
  | s :: ss => by simp only [mapStmts, s.map_map, mapStmts_map ss]

end

end Compose

/-! ## Without places and without marks -/

/-- A mark without its place. -/
def Mark.placeless (m : Mark) : Mark := ⟨m.text, .start⟩

/-- A mark that tells nothing. -/
def Mark.blank (_ : Mark) : Mark := ⟨"", .start⟩

/-- A program without places. -/
def Program.placeless (p : Program) : Program := ⟨mapStmts .placeless id p.statements⟩

/-- A program without marks. -/
def Program.unmarked (p : Program) : Program := ⟨mapStmts .blank id p.statements⟩

/-- Programs that agree up to places agree up to marks. -/
theorem Program.unmarked_eq_of_placeless {p q : Program} (h : p.placeless = q.placeless) :
    p.unmarked = q.unmarked := by
  have hblank : ∀ r : Program, r.unmarked = r.placeless.unmarked := fun r =>
    congrArg Program.mk (mapStmts_map .placeless .blank id id r.statements).symm
  rw [hblank p, hblank q, h]

end MonkeyLang
