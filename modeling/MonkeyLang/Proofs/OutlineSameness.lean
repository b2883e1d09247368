import MonkeyLang.Proofs.ParsedNodes
import MonkeyLang.Syntax.Describe
import MonkeyLang.Syntax.Outline
import MonkeyLang.Syntax.Sameness

/-!
# Outlines and sameness

Two trees are compared in two ways: part by part (`Node.same`) and by their outlines. On trees
whose nodes all stand where their kind belongs the two agree: nodes are the same exactly if their
outlines are equal once the texts of the marks are deleted (`same_iff_without`). With these texts
an outline tells everything, so that it determines the tree (`outline_inj`).

Both ways first look at the kind of a node, and nodes in place of one kind are made by one
constructor (`Expr.sameKind_of_kind`, `Stmt.sameKind_of_kind`). This is the only place where the
constructors are taken in pairs.
-/

namespace MonkeyLang

/-! ## Kinds -/

/-- The second expression is made by the constructor of the first. -/
def Expr.SameKind : Expr → Expr → Prop
  | .identifier .., b => ∃ n w, b = .identifier n w
  | .integer .., b => ∃ n w, b = .integer n w
  | .string .., b => ∃ n w, b = .string n w
  | .boolean .., b => ∃ n w, b = .boolean n w
  | .prefixOp .., b => ∃ n o r, b = .prefixOp n o r
  | .infixOp .., b => ∃ n l o r, b = .infixOp n l o r
  | .conditional .., b => ∃ n c t e, b = .conditional n c t e
  | .loop .., b => ∃ n c t, b = .loop n c t
  | .function .., b => ∃ n ps t, b = .function n ps t
  | .call .., b => ∃ n f es, b = .call n f es
  | .array .., b => ∃ n es, b = .array n es
  | .index .., b => ∃ n l i, b = .index n l i
  | .hash .., b => ∃ n ps, b = .hash n ps
  | .statement _, b => ∃ s, b = .statement s
  | .unknown .., b => ∃ n k, b = .unknown n k

/-- The second statement is made by the constructor of the first. -/
def Stmt.SameKind : Stmt → Stmt → Prop
  | .binding .., b => ∃ n x v, b = .binding n x v
  | .leave .., b => ∃ n v, b = .leave n v
  | .expression .., b => ∃ n e, b = .expression n e
  | .block _, b => ∃ n ss, b = .block (.mk n ss)
  | .bare _, b => ∃ e, b = .bare e
  | .unknown .., b => ∃ n k, b = .unknown n k

theorem Expr.sameKind_of_kind {a b : Expr} (ha : a.isInPlace = true) (hb : b.isInPlace = true)
    (h : a.kind = b.kind) : a.SameKind b := by
  cases a <;> cases b <;> simp_all [Expr.isInPlace, Expr.kind, Expr.SameKind]

theorem Stmt.sameKind_of_kind {a b : Stmt} (ha : a.isInPlace = true) (hb : b.isInPlace = true)
    (h : a.kind = b.kind) : a.SameKind b := by
  rcases a with _ | _ | _ | (_ | _) | _ | _ <;> rcases b with _ | _ | _ | (_ | _) | _ | _ <;>
    simp_all [Stmt.isInPlace, Block.isInPlace, Stmt.kind, Stmt.SameKind]

/-! ## Outlines without some members -/

mutual

/-- A document without the members of a given name, at every depth. -/
@[simp] def Json.without (name : String) : Json → Json
  | .null => .null
  | .bool value => .bool value
  | .int value => .int value
  | .str value => .str value
  | .arr items => .arr (itemsWithout name items)
  | .obj members => .obj (membersWithout name members)

@[simp] def itemsWithout (name : String) : List Json → List Json
  | [] => []
  | x :: xs => x.without name :: itemsWithout name xs

@[simp] def membersWithout (name : String) : List (String × Json) → List (String × Json)
  | [] => []
  | (key, x) :: members =>
    if key = name then membersWithout name members
    else (key, x.without name) :: membersWithout name members

end

section Outlines

variable {kind kind' : String} {m n : Mark} {parts parts' : List (String × Json)}

/-- What is compared of a node once the text of its mark is deleted. -/
@[simp] theorem outlineNode_without_inj :
    (outlineNode kind m parts).without "token" = (outlineNode kind' n parts').without "token" ↔
      kind = kind' ∧ m.same n = true ∧
        membersWithout "token" parts = membersWithout "token" parts' := by
  obtain ⟨text, line, column⟩ := m
  obtain ⟨text', line', column'⟩ := n
  simp [outlineNode, Mark.same, and_assoc]

@[simp] theorem outlineNode_inj :
    outlineNode kind m parts = outlineNode kind' n parts' ↔
      kind = kind' ∧ m = n ∧ parts = parts' := by
  obtain ⟨text, line, column⟩ := m
  obtain ⟨text', line', column'⟩ := n
  simp [outlineNode, and_assoc]

/-- The outlines of two things tell whether they are the same and whether they are equal. -/
def Tells (x y : Json) (same : Bool) (equal : Prop) : Prop :=
  (same = true ↔ x.without "token" = y.without "token") ∧ (equal ↔ x = y)

theorem tells_arr {xs ys : List Json} {same : Bool} {equal : Prop} :
    Tells (.arr xs) (.arr ys) same equal ↔
      (same = true ↔ itemsWithout "token" xs = itemsWithout "token" ys) ∧ (equal ↔ xs = ys) := by
  simp [Tells]

/-- Outlines of nodes of two kinds tell these apart, so that it is enough to compare nodes of one
kind. -/
theorem tells_of_kind {x y : Json} {same : Bool} {equal : Prop}
    (hx : ∃ parts, x = outlineNode kind m parts) (hy : ∃ parts, y = outlineNode kind' n parts)
    (hsame : same = true → kind = kind') (hequal : equal → kind = kind')
    (h : kind = kind' → Tells x y same equal) : Tells x y same equal := by
  obtain ⟨parts, rfl⟩ := hx
  obtain ⟨parts', rfl⟩ := hy
  by_cases hkind : kind = kind'
  · exact h hkind
  · exact ⟨iff_of_false (hkind ∘ hsame) fun hwithout =>
        hkind (outlineNode_without_inj.mp hwithout).1,
      iff_of_false (hkind ∘ hequal) fun houtline => hkind (outlineNode_inj.mp houtline).1⟩

end Outlines

/-! ## What shows the kind -/

theorem Expr.kind_of_same {a b : Expr} (ha : a.isInPlace = true) (h : a.same b = true) :
    a.kind = b.kind := by
  fun_cases Expr.same a b <;> simp_all [Expr.isInPlace, Expr.kind, Expr.same]

theorem Stmt.kind_of_same {a b : Stmt} (ha : a.isInPlace = true) (hb : b.isInPlace = true)
    (h : a.same b = true) : a.kind = b.kind := by
  fun_cases Stmt.same a b with
  | case4 t t' =>
      obtain ⟨⟩ | ⟨⟩ := t <;> obtain ⟨⟩ | ⟨⟩ := t' <;>
        simp_all [Stmt.isInPlace, Block.isInPlace, Stmt.kind]
  | _ => simp_all [Stmt.isInPlace, Stmt.kind, Stmt.same]

theorem Expr.exists_outlineNode {e : Expr} (h : e.isInPlace = true) :
    ∃ parts, e.outline = outlineNode e.kind e.mark parts := by
  cases e with
  | statement => cases h
  | _ => exact ⟨_, rfl⟩

theorem Stmt.exists_outlineNode {s : Stmt} (h : s.isInPlace = true) :
    ∃ parts, s.outline = outlineNode s.kind s.mark parts := by
  rcases s with _ | _ | _ | (_ | _) | _ | _
  case bare => cases h
  all_goals exact ⟨_, rfl⟩

/-- It is enough to compare two expressions that are of one kind. -/
theorem Expr.tells_of_sameKind {a b : Expr} (ha : a.isInPlace = true) (hb : b.isInPlace = true)
    (h : a.SameKind b → Tells a.outline b.outline (a.same b) (a = b)) :
    Tells a.outline b.outline (a.same b) (a = b) :=
  tells_of_kind (exists_outlineNode ha) (exists_outlineNode hb) (kind_of_same ha) (congrArg kind)
    fun hkind => h (sameKind_of_kind ha hb hkind)

theorem Stmt.tells_of_sameKind {a b : Stmt} (ha : a.isInPlace = true) (hb : b.isInPlace = true)
    (h : a.SameKind b → Tells a.outline b.outline (a.same b) (a = b)) :
    Tells a.outline b.outline (a.same b) (a = b) :=
  tells_of_kind (exists_outlineNode ha) (exists_outlineNode hb) (kind_of_same ha hb)
    (congrArg kind) fun hkind => h (sameKind_of_kind ha hb hkind)

/-! ## Sameness and outlines -/

theorem Name.outline_tells (x y : Name) : Tells x.outline y.outline (x.same y) (x = y) := by
  obtain ⟨m, v⟩ := x
  obtain ⟨n, w⟩ := y
  simp [Tells, Name.same, Name.outline]

theorem outlineNames_tell : ∀ xs ys : List Name,
    Tells (.arr (xs.map Name.outline)) (.arr (ys.map Name.outline)) (sameNames xs ys) (xs = ys)
  | [], [] => by simp [Tells, sameNames]
  | [], _ :: _ | _ :: _, [] => by simp [Tells, sameNames]
  | x :: xs, y :: ys => by
      have hx := x.outline_tells y
      have hxs := tells_arr.mp (outlineNames_tell xs ys)
      simp [tells_arr, sameNames, hx.1, hx.2, hxs.1, hxs.2]

mutual

/-- The outlines of two expressions in place tell whether these are the same and whether they are
equal. -/
theorem Expr.outline_tells : ∀ a b : Expr, a.isInPlace = true → b.isInPlace = true →
    Tells a.outline b.outline (a.same b) (a = b)
  | .identifier .., b, ha, hb => Expr.tells_of_sameKind ha hb <| by
      rintro ⟨n, w, rfl⟩
      simp [Tells, Expr.same, Expr.outline]
  | .integer .., b, ha, hb => Expr.tells_of_sameKind ha hb <| by
      rintro ⟨n, w, rfl⟩
      simp [Tells, Expr.same, Expr.outline]
  | .string .., b, ha, hb => Expr.tells_of_sameKind ha hb <| by
      rintro ⟨n, w, rfl⟩
      simp [Tells, Expr.same, Expr.outline]
  | .boolean .., b, ha, hb => Expr.tells_of_sameKind ha hb <| by
      rintro ⟨n, w, rfl⟩
      simp [Tells, Expr.same, Expr.outline]
  | .prefixOp _ _ r, b, ha, hb => Expr.tells_of_sameKind ha hb <| by
      rintro ⟨n, o', r', rfl⟩
      have hr := r.outline_tells r' ha hb
      simp [Tells, Expr.same, Expr.outline, hr.1, hr.2, and_assoc]
  | .infixOp _ l _ r, b, ha, hb => Expr.tells_of_sameKind ha hb <| by
      rintro ⟨n, l', o', r', rfl⟩
      simp only [Expr.isInPlace, Bool.and_eq_true] at ha hb
      have hl := l.outline_tells l' ha.1 hb.1
      have hr := r.outline_tells r' ha.2 hb.2
      simp [Tells, Expr.same, Expr.outline, hl.1, hl.2, hr.1, hr.2, and_assoc]
  | .conditional _ c t e, b, ha, hb => Expr.tells_of_sameKind ha hb <| by
      rintro ⟨n, c', t', e', rfl⟩
      simp only [Expr.isInPlace, Bool.and_eq_true] at ha hb
      have hc := c.outline_tells c' ha.1.1 hb.1.1
      have ht := t.outline_tells t' ha.1.2 hb.1.2
      have he := outlineElse_tells e e' ha.2 hb.2
      simp [Tells, Expr.same, Expr.outline, hc.1, hc.2, ht.1, ht.2, he.1, he.2, and_assoc]
  | .loop _ c t, b, ha, hb => Expr.tells_of_sameKind ha hb <| by
      rintro ⟨n, c', t', rfl⟩
      simp only [Expr.isInPlace, Bool.and_eq_true] at ha hb
      have hc := c.outline_tells c' ha.1 hb.1
      have ht := t.outline_tells t' ha.2 hb.2
      simp [Tells, Expr.same, Expr.outline, hc.1, hc.2, ht.1, ht.2, and_assoc]
  | .function _ ps t, b, ha, hb => Expr.tells_of_sameKind ha hb <| by
      rintro ⟨n, ps', t', rfl⟩
      have hps := tells_arr.mp (outlineNames_tell ps ps')
      have ht := t.outline_tells t' ha hb
      simp [Tells, Expr.same, Expr.outline, hps.1, hps.2, ht.1, ht.2, and_assoc]
  | .call _ f es, b, ha, hb => Expr.tells_of_sameKind ha hb <| by
      rintro ⟨n, f', es', rfl⟩
      simp only [Expr.isInPlace, Bool.and_eq_true] at ha hb
      have hf := f.outline_tells f' ha.1 hb.1
      have hes := tells_arr.mp (outlineAll_tell es es' ha.2 hb.2)
      simp [Tells, Expr.same, Expr.outline, hf.1, hf.2, hes.1, hes.2, and_assoc]
  | .array _ es, b, ha, hb => Expr.tells_of_sameKind ha hb <| by
      rintro ⟨n, es', rfl⟩
      have hes := tells_arr.mp (outlineAll_tell es es' ha hb)
      simp [Tells, Expr.same, Expr.outline, hes.1, hes.2]
  | .index _ l i, b, ha, hb => Expr.tells_of_sameKind ha hb <| by
      rintro ⟨n, l', i', rfl⟩
      simp only [Expr.isInPlace, Bool.and_eq_true] at ha hb
      have hl := l.outline_tells l' ha.1 hb.1
      have hi := i.outline_tells i' ha.2 hb.2
      simp [Tells, Expr.same, Expr.outline, hl.1, hl.2, hi.1, hi.2, and_assoc]
  | .hash _ ps, b, ha, hb => Expr.tells_of_sameKind ha hb <| by
      rintro ⟨n, ps', rfl⟩
      have hps := tells_arr.mp (outlinePairs_tell ps ps' ha hb)
      simp [Tells, Expr.same, Expr.outline, hps.1, hps.2]

theorem outlineElse_tells : ∀ e e' : Option Block, elseInPlace e = true →
    elseInPlace e' = true → Tells (outlineElse e) (outlineElse e') (sameElse e e') (e = e')
  | none, none, _, _ => by simp [Tells, sameElse]
  | none, some b, _, hb | some b, none, hb, _ => by
      obtain ⟨m, ss⟩ | ⟨ss⟩ := b
      · simp [Tells, sameElse, outlineElse, Block.outline, outlineNode]
      · cases hb
  | some b, some b', ha, hb => by
      have ht := b.outline_tells b' ha hb
      simp [Tells, sameElse, outlineElse, ht.1, ht.2]

theorem outlineAll_tell : ∀ es es' : List Expr, allInPlace es = true → allInPlace es' = true →
    Tells (.arr (outlineAll es)) (.arr (outlineAll es')) (sameAll es es') (es = es')
  | [], [], _, _ => by simp [Tells, sameAll]
  | [], _ :: _, _, _ | _ :: _, [], _, _ => by simp [Tells, sameAll, outlineAll]
  | e :: es, e' :: es', ha, hb => by
      simp only [allInPlace, Bool.and_eq_true] at ha hb
      have he := e.outline_tells e' ha.1 hb.1
      have hes := tells_arr.mp (outlineAll_tell es es' ha.2 hb.2)
      simp [Tells, sameAll, outlineAll, he.1, he.2, hes.1, hes.2]

theorem outlinePairs_tell : ∀ ps ps' : List (Expr × Expr), pairsInPlace ps = true →
    pairsInPlace ps' = true →
    Tells (.arr (outlinePairs ps)) (.arr (outlinePairs ps')) (samePairs ps ps') (ps = ps')
  | [], [], _, _ => by simp [Tells, samePairs]
  | [], (_, _) :: _, _, _ | (_, _) :: _, [], _, _ => by simp [Tells, samePairs, outlinePairs]
  | (k, v) :: ps, (k', v') :: ps', ha, hb => by
      simp only [pairsInPlace, Bool.and_eq_true] at ha hb
      have hk := k.outline_tells k' ha.1.1 hb.1.1
      have hv := v.outline_tells v' ha.1.2 hb.1.2
      have hps := tells_arr.mp (outlinePairs_tell ps ps' ha.2 hb.2)
      simp [Tells, samePairs, outlinePairs, hk.1, hk.2, hv.1, hv.2, hps.1, hps.2]

theorem Block.outline_tells : ∀ a b : Block, a.isInPlace = true → b.isInPlace = true →
    Tells a.outline b.outline (a.same b) (a = b)
  | .mk _ ss, .mk _ ss', ha, hb => by
      have hss := tells_arr.mp (outlineStmts_tell ss ss' ha hb)
      simp [Tells, Block.same, Block.outline, hss.1, hss.2]

theorem Stmt.outline_tells : ∀ a b : Stmt, a.isInPlace = true → b.isInPlace = true →
    Tells a.outline b.outline (a.same b) (a = b)
  | .binding _ x v, b, ha, hb => Stmt.tells_of_sameKind ha hb <| by
      rintro ⟨n, x', v', rfl⟩
      have hx := x.outline_tells x'
      have hv := v.outline_tells v' ha hb
      simp [Tells, Stmt.same, Stmt.outline, hx.1, hx.2, hv.1, hv.2, and_assoc]
  | .leave _ v, b, ha, hb => Stmt.tells_of_sameKind ha hb <| by
      rintro ⟨n, v', rfl⟩
      have hv := v.outline_tells v' ha hb
      simp [Tells, Stmt.same, Stmt.outline, hv.1, hv.2]
  | .expression _ e, b, ha, hb => Stmt.tells_of_sameKind ha hb <| by
      rintro ⟨n, e', rfl⟩
      have he := e.outline_tells e' ha hb
      simp [Tells, Stmt.same, Stmt.outline, he.1, he.2]
  | .block t, b, ha, hb => Stmt.tells_of_sameKind ha hb <| by
      rintro ⟨n, ss, rfl⟩
      have ht := t.outline_tells (.mk n ss) ha hb
      simp [Tells, Stmt.same, Stmt.outline, ht.1, ht.2]

theorem outlineStmts_tell : ∀ ss ss' : List Stmt, stmtsInPlace ss = true →
    stmtsInPlace ss' = true →
    Tells (.arr (outlineStmts ss)) (.arr (outlineStmts ss')) (sameStmts ss ss') (ss = ss')
  | [], [], _, _ => by simp [Tells, sameStmts]
  | [], _ :: _, _, _ | _ :: _, [], _, _ => by simp [Tells, sameStmts, outlineStmts]
  | s :: ss, s' :: ss', ha, hb => by
      simp only [stmtsInPlace, Bool.and_eq_true] at ha hb
      have hs := s.outline_tells s' ha.1 hb.1
      have hss := tells_arr.mp (outlineStmts_tell ss ss' ha.2 hb.2)
      simp [Tells, sameStmts, outlineStmts, hs.1, hs.2, hss.1, hss.2]

end

/-! ## Programs and nodes -/

theorem Program.outline_tells (p q : Program) (hp : stmtsInPlace p.statements = true)
    (hq : stmtsInPlace q.statements = true) : Tells p.outline q.outline (p.same q) (p = q) := by
  obtain ⟨ss⟩ := p
  obtain ⟨ss'⟩ := q
  have hss := tells_arr.mp (outlineStmts_tell ss ss' hp hq)
  refine ⟨by simp [Program.same, Program.outline, hss.1], ?_⟩
  simp only [Program.outline, outlineNode_inj, Program.mk.injEq, hss.2, true_and, List.cons.injEq,
    Prod.mk.injEq, Json.arr.injEq, and_true]
  -- the mark of a program is that of its first statement, so it tells nothing more
  exact ⟨fun h => ⟨congrArg firstMark (hss.2.mpr h), h⟩, And.right⟩

theorem Stmt.kind_ne_program {s : Stmt} (h : s.isInPlace = true) : s.kind ≠ "program" := by
  rcases s with _ | _ | _ | (_ | _) | _ | _ <;>
    simp_all [Stmt.isInPlace, Block.isInPlace, Stmt.kind]

theorem Expr.kind_ne_program {e : Expr} (h : e.isInPlace = true) : e.kind ≠ "program" := by
  cases e <;> simp_all [Expr.isInPlace, Expr.kind]

theorem Expr.kind_ne_stmt {e : Expr} {s : Stmt} (he : e.isInPlace = true)
    (hs : s.isInPlace = true) : e.kind ≠ s.kind := by
  rcases s with _ | _ | _ | (_ | _) | _ | _ <;> cases e <;>
    simp_all [Expr.isInPlace, Expr.kind, Stmt.isInPlace, Block.isInPlace, Stmt.kind]

namespace Node

theorem exists_outlineNode {n : Node} (h : n.isInPlace = true) :
    ∃ parts, n.outline = outlineNode n.kind n.mark parts := by
  cases n with
  | program p => exact ⟨_, rfl⟩
  | statement s => exact s.exists_outlineNode h
  | expression e => exact e.exists_outlineNode h

theorem tells_of_kind_ne {a b : Node} (ha : a.isInPlace = true) (hb : b.isInPlace = true)
    (hkind : a.kind ≠ b.kind) (hsame : a.same b = false) :
    Tells a.outline b.outline (a.same b) (a = b) :=
  tells_of_kind (exists_outlineNode ha) (exists_outlineNode hb)
    (fun h => absurd h (Bool.eq_false_iff.mp hsame)) (congrArg kind) fun h => absurd h hkind

theorem outline_tells {a b : Node} (ha : a.isInPlace = true) (hb : b.isInPlace = true) :
    Tells a.outline b.outline (a.same b) (a = b) := by
  cases a with
  | program p =>
      cases b with
      | program q => simpa [Tells, Node.same, Node.outline] using p.outline_tells q ha hb
      | statement t => exact tells_of_kind_ne ha hb (Stmt.kind_ne_program hb).symm rfl
      | expression f => exact tells_of_kind_ne ha hb (Expr.kind_ne_program hb).symm rfl
  | statement s =>
      cases b with
      | program q => exact tells_of_kind_ne ha hb (Stmt.kind_ne_program ha) rfl
      | statement t => simpa [Tells, Node.same, Node.outline] using s.outline_tells t ha hb
      | expression f => exact tells_of_kind_ne ha hb (Expr.kind_ne_stmt hb ha).symm rfl
  | expression e =>
      cases b with
      | program q => exact tells_of_kind_ne ha hb (Expr.kind_ne_program ha) rfl
      | statement t => exact tells_of_kind_ne ha hb (Expr.kind_ne_stmt ha hb) rfl
      | expression f => simpa [Tells, Node.same, Node.outline] using e.outline_tells f ha hb

end Node

/-- Nodes in place, as the parser builds all of its nodes, are compared in the same way as their
outlines: they are the same exactly if the outlines are equal once the texts of the marks are
deleted. So to be the same is an equivalence. And nodes with equal outlines have equal texts,
descriptions and marks. -/
theorem sameness_is_equality_of_outlines :
    (∀ source, ∀ node ∈ (parse source).program.nodes, node.isInPlace = true) ∧
    (∀ a b : Node, a.isInPlace = true → b.isInPlace = true →
      (a.same b = true ↔ a.outline.without "token" = b.outline.without "token")) ∧
    Equivalence (fun a b : {n : Node // n.isInPlace = true} => a.1.same b.1 = true) ∧
    ∀ a b : Node, a.isInPlace = true → b.isInPlace = true → a.outline = b.outline →
      (∃ text, a.render? = some text ∧ b.render? = some text) ∧ a.describe = b.describe ∧
        a.mark.text = b.mark.text := by
  have hsame {a b : Node} (ha : a.isInPlace = true) (hb : b.isInPlace = true) :=
    (Node.outline_tells ha hb).1
  refine ⟨fun source => ?_, fun a b => hsame, ⟨fun a => (hsame a.2 a.2).mpr rfl,
    fun {a b} h => ?_, fun {a b c} h h' => ?_⟩, fun a b ha hb h => ?_⟩
  · have hplace := program_isInPlace source
    exact AllStand.cons hplace (stmtsNodes_allStand _ hplace)
  · exact (hsame b.2 a.2).mpr ((hsame a.2 b.2).mp h).symm
  · exact (hsame a.2 c.2).mpr (((hsame a.2 b.2).mp h).trans ((hsame b.2 c.2).mp h'))
  · obtain rfl := (Node.outline_tells ha hb).2.mpr h
    have htext : a.render? = some a.render := if_pos (Node.isKnown_of_isInPlace ha)
    exact ⟨⟨a.render, htext, htext⟩, rfl, rfl⟩

/-- Two statements with other words for `return` in their marks, and the node of an empty text. -/
theorem sameness_is_equality_of_outlines_words :
    let a : Node := .statement (.leave ⟨"return", ⟨1, 1⟩⟩ (.integer ⟨"1", ⟨1, 8⟩⟩ 1))
    let b : Node := .statement (.leave ⟨"give", ⟨1, 1⟩⟩ (.integer ⟨"one", ⟨1, 8⟩⟩ 1))
    (a.isInPlace = true ∧ b.isInPlace = true ∧
      a.outline.without "token" = b.outline.without "token" ∧ ∃ text, a.render? = some text) ∧
    Node.isInPlace (.program (parse "").program) = true := by
  intro a b
  obtain ⟨hparsed, hsame, -, hequal⟩ := sameness_is_equality_of_outlines
  have ha : a.isInPlace = true := rfl
  have hb : b.isInPlace = true := rfl
  have hab : a.same b = true := by cbv
  obtain ⟨text, htext, -⟩ := (hequal a a ha ha rfl).1
  exact ⟨⟨ha, hb, (hsame a b ha hb).mp hab, text, htext⟩, hparsed "" _ List.mem_cons_self⟩

end MonkeyLang
