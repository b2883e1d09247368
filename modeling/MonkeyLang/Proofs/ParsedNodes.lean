import MonkeyLang.Proofs.ParseProgress
import MonkeyLang.Proofs.ParsedForm
import MonkeyLang.Proofs.TreesInPlace

/-!
# The nodes of parsed trees

Every node that the parser builds fits the token that introduced it (`Node.fits`): names are
words, integers are in range, operators are those of the language and the texts of their tokens,
and keywords are the words that they stand for. This is so for every text, with syntax errors or
without, and wherever an error has made the parser go on: a rule is only ever asked to work on
tokens of the text, and whatever it parses is made of nodes that fit (`Reply.Yields`).

So all that the parser leaves of a text is in place (`program_isInPlace`).
-/

namespace MonkeyLang

/-! ## Nodes -/

/-- The node of a name. -/
def Name.node (x : Name) : Node := .expression (.identifier x.mark x.value)

mutual

/-- The nodes of an expression: the expression itself and all below it. -/
def Expr.nodes : Expr → List Node
  | .prefixOp m o r => .expression (.prefixOp m o r) :: r.nodes
  | .infixOp m l o r => .expression (.infixOp m l o r) :: (l.nodes ++ r.nodes)
  | .conditional m c t e =>
    .expression (.conditional m c t e) :: (c.nodes ++ t.nodes ++ elseNodes e)
  | .loop m c b => .expression (.loop m c b) :: (c.nodes ++ b.nodes)
  | .function m ps b => .expression (.function m ps b) :: (ps.map Name.node ++ b.nodes)
  | .call m f es => .expression (.call m f es) :: (f.nodes ++ allNodes es)
  | .array m es => .expression (.array m es) :: allNodes es
  | .index m l i => .expression (.index m l i) :: (l.nodes ++ i.nodes)
  | .hash m ps => .expression (.hash m ps) :: pairsNodes ps
  | .statement s => .expression (.statement s) :: s.nodes
  | .identifier m v => [.expression (.identifier m v)]
  | .integer m v => [.expression (.integer m v)]
  | .string m v => [.expression (.string m v)]
  | .boolean m v => [.expression (.boolean m v)]
  | .unknown m k => [.expression (.unknown m k)]

def elseNodes : Option Block → List Node
  | none => []
  | some b => b.nodes

def allNodes : List Expr → List Node
  | [] => []
  | e :: es => e.nodes ++ allNodes es

def pairsNodes : List (Expr × Expr) → List Node
  | [] => []
  | (k, v) :: ps => k.nodes ++ v.nodes ++ pairsNodes ps

def Block.nodes : Block → List Node
  | .mk m ss => .statement (.block (.mk m ss)) :: stmtsNodes ss
  | .program ss => .statement (.block (.program ss)) :: stmtsNodes ss

def Stmt.nodes : Stmt → List Node
  | .binding m x v => .statement (.binding m x v) :: x.node :: v.nodes
  | .leave m v => .statement (.leave m v) :: v.nodes
  | .expression m e => .statement (.expression m e) :: e.nodes
  | .block b => b.nodes
  | .bare e => .statement (.bare e) :: e.nodes
  | .unknown m k => [.statement (.unknown m k)]

def stmtsNodes : List Stmt → List Node
  | [] => []
  | s :: ss => s.nodes ++ stmtsNodes ss

end

def Program.nodes (p : Program) : List Node := .program p :: stmtsNodes p.statements

/-- A node is one that the parser may build, and it fits its own mark. -/
def Node.fits : Node → Bool
  | .expression (.identifier _ value) => isName value
  | .expression (.integer _ value) => 0 ≤ value && value ≤ maxLiteral
  | .expression (.boolean mark value) => mark.text == if value then "true" else "false"
  | .expression (.prefixOp mark operator _) =>
    prefixOperators.contains operator && operator == mark.text
  | .expression (.infixOp mark _ operator _) =>
    infixOperators.contains operator && operator == mark.text
  | .expression (.function mark _ _) => mark.text == "fn"
  | .statement (.binding mark _ _) => mark.text == "let"
  | .statement (.leave mark _) => mark.text == "return"
  | .expression (.statement _) | .expression (.unknown ..) | .statement (.bare _)
  | .statement (.block (.program _)) | .statement (.unknown ..) => false
  | _ => true

/-- Some nodes all fit. -/
def AllFit (nodes : List Node) : Prop := ∀ node ∈ nodes, node.fits = true

@[simp] theorem allFit_nil : AllFit [] := List.forall_mem_nil _

@[simp] theorem allFit_cons {node : Node} {nodes : List Node} :
    AllFit (node :: nodes) ↔ node.fits = true ∧ AllFit nodes :=
  List.forall_mem_cons

@[simp] theorem allFit_append {nodes nodes' : List Node} :
    AllFit (nodes ++ nodes') ↔ AllFit nodes ∧ AllFit nodes' :=
  List.forall_mem_append

/-! ## Trees of fitting nodes are in place -/

mutual

theorem Expr.isInPlace_of_allFit : ∀ e : Expr, AllFit e.nodes → e.isInPlace = true
  | .identifier .., _ | .integer .., _ | .string .., _ | .boolean .., _ => rfl
  | .prefixOp _ _ r, h => r.isInPlace_of_allFit (allFit_cons.mp h).2
  | .infixOp _ l _ r, h => by
      simp only [Expr.nodes, allFit_cons, allFit_append] at h
      rw [Expr.isInPlace, l.isInPlace_of_allFit h.2.1, r.isInPlace_of_allFit h.2.2]
      rfl
  | .conditional _ c t e, h => by
      simp only [Expr.nodes, allFit_cons, allFit_append] at h
      rw [Expr.isInPlace, c.isInPlace_of_allFit h.2.1.1, t.isInPlace_of_allFit h.2.1.2,
        elseInPlace_of_allFit e h.2.2]
      rfl
  | .loop _ c b, h => by
      simp only [Expr.nodes, allFit_cons, allFit_append] at h
      rw [Expr.isInPlace, c.isInPlace_of_allFit h.2.1, b.isInPlace_of_allFit h.2.2]
      rfl
  | .function _ ps b, h => by
      simp only [Expr.nodes, allFit_cons, allFit_append] at h
      exact b.isInPlace_of_allFit h.2.2
  | .call _ f es, h => by
      simp only [Expr.nodes, allFit_cons, allFit_append] at h
      rw [Expr.isInPlace, f.isInPlace_of_allFit h.2.1, allInPlace_of_allFit es h.2.2]
      rfl
  | .array _ es, h => allInPlace_of_allFit es (allFit_cons.mp h).2
  | .index _ l i, h => by
      simp only [Expr.nodes, allFit_cons, allFit_append] at h
      rw [Expr.isInPlace, l.isInPlace_of_allFit h.2.1, i.isInPlace_of_allFit h.2.2]
      rfl
  | .hash _ ps, h => pairsInPlace_of_allFit ps (allFit_cons.mp h).2
  | .statement _, h | .unknown .., h => nomatch (allFit_cons.mp h).1

theorem elseInPlace_of_allFit : ∀ b, AllFit (elseNodes b) → elseInPlace b = true
  | none, _ => rfl
  | some b, h => b.isInPlace_of_allFit h

theorem allInPlace_of_allFit : ∀ es, AllFit (allNodes es) → allInPlace es = true
  | [], _ => rfl
  | e :: es, h => by
      obtain ⟨he, hes⟩ := allFit_append.mp h
      rw [allInPlace, e.isInPlace_of_allFit he, allInPlace_of_allFit es hes]
      rfl

theorem pairsInPlace_of_allFit : ∀ ps, AllFit (pairsNodes ps) → pairsInPlace ps = true
  | [], _ => rfl
  | (k, v) :: ps, h => by
      simp only [pairsNodes, allFit_append] at h
      rw [pairsInPlace, k.isInPlace_of_allFit h.1.1, v.isInPlace_of_allFit h.1.2,
        pairsInPlace_of_allFit ps h.2]
      rfl

theorem Block.isInPlace_of_allFit : ∀ b : Block, AllFit b.nodes → b.isInPlace = true
  | .mk _ ss, h => stmtsInPlace_of_allFit ss (allFit_cons.mp h).2
  | .program _, h => nomatch (allFit_cons.mp h).1

theorem Stmt.isInPlace_of_allFit : ∀ s : Stmt, AllFit s.nodes → s.isInPlace = true
  | .binding _ _ v, h => v.isInPlace_of_allFit (allFit_cons.mp (allFit_cons.mp h).2).2
  | .leave _ v, h | .expression _ v, h => v.isInPlace_of_allFit (allFit_cons.mp h).2
  | .block b, h => b.isInPlace_of_allFit h
  | .bare _, h | .unknown .., h => nomatch (allFit_cons.mp h).1

theorem stmtsInPlace_of_allFit : ∀ ss, AllFit (stmtsNodes ss) → stmtsInPlace ss = true
  | [], _ => rfl
  | s :: ss, h => by
      obtain ⟨hs, hss⟩ := allFit_append.mp h
      rw [stmtsInPlace, s.isInPlace_of_allFit hs, stmtsInPlace_of_allFit ss hss]
      rfl

end

/-! ## The nodes of a tree in place are in place -/

/-- Some nodes are all in place. -/
def AllStand (nodes : List Node) : Prop := ∀ node ∈ nodes, node.isInPlace = true

theorem allStand_nil : AllStand [] := List.forall_mem_nil _

theorem AllStand.cons {node : Node} {nodes : List Node} (h : node.isInPlace = true)
    (h' : AllStand nodes) : AllStand (node :: nodes) :=
  List.forall_mem_cons.mpr ⟨h, h'⟩

theorem AllStand.append {nodes nodes' : List Node} (h : AllStand nodes) (h' : AllStand nodes') :
    AllStand (nodes ++ nodes') :=
  List.forall_mem_append.mpr ⟨h, h'⟩

theorem allStand_names (xs : List Name) : AllStand (xs.map Name.node) :=
  List.forall_mem_map.mpr fun _ _ => rfl

mutual

theorem Expr.allStand : ∀ e : Expr, e.isInPlace = true → AllStand e.nodes
  | .identifier .., h | .integer .., h | .string .., h | .boolean .., h => .cons h allStand_nil
  | .prefixOp _ _ r, h => .cons h (r.allStand h)
  | .infixOp _ l _ r, h => by
      obtain ⟨hl, hr⟩ := Bool.and_eq_true_iff.mp h
      exact .cons h ((l.allStand hl).append (r.allStand hr))
  | .conditional _ c t e, h => by
      obtain ⟨hct, he⟩ := Bool.and_eq_true_iff.mp h
      obtain ⟨hc, ht⟩ := Bool.and_eq_true_iff.mp hct
      exact .cons h (((c.allStand hc).append (t.allStand ht)).append (elseNodes_allStand e he))
  | .loop _ c b, h => by
      obtain ⟨hc, hb⟩ := Bool.and_eq_true_iff.mp h
      exact .cons h ((c.allStand hc).append (b.allStand hb))
  | .function _ ps b, h => .cons h ((allStand_names ps).append (b.allStand h))
  | .call _ f es, h => by
      obtain ⟨hf, hes⟩ := Bool.and_eq_true_iff.mp h
      exact .cons h ((f.allStand hf).append (allNodes_allStand es hes))
  | .array _ es, h => .cons h (allNodes_allStand es h)
  | .index _ l i, h => by
      obtain ⟨hl, hi⟩ := Bool.and_eq_true_iff.mp h
      exact .cons h ((l.allStand hl).append (i.allStand hi))
  | .hash _ ps, h => .cons h (pairsNodes_allStand ps h)

theorem elseNodes_allStand : ∀ b, elseInPlace b = true → AllStand (elseNodes b)
  | none, _ => allStand_nil
  | some b, h => b.allStand h

theorem allNodes_allStand : ∀ es, allInPlace es = true → AllStand (allNodes es)
  | [], _ => allStand_nil
  | e :: es, h => by
      obtain ⟨he, hes⟩ := Bool.and_eq_true_iff.mp h
      exact (e.allStand he).append (allNodes_allStand es hes)

theorem pairsNodes_allStand : ∀ ps, pairsInPlace ps = true → AllStand (pairsNodes ps)
  | [], _ => allStand_nil
  | (k, v) :: ps, h => by
      obtain ⟨hkv, hps⟩ := Bool.and_eq_true_iff.mp h
      obtain ⟨hk, hv⟩ := Bool.and_eq_true_iff.mp hkv
      exact ((k.allStand hk).append (v.allStand hv)).append (pairsNodes_allStand ps hps)

theorem Block.allStand : ∀ b : Block, b.isInPlace = true → AllStand b.nodes
  | .mk _ ss, h => .cons h (stmtsNodes_allStand ss h)

theorem Stmt.allStand : ∀ s : Stmt, s.isInPlace = true → AllStand s.nodes
  | .binding _ _ v, h => .cons h (.cons rfl (v.allStand h))
  | .leave _ v, h | .expression _ v, h => .cons h (v.allStand h)
  | .block b, h => b.allStand h

theorem stmtsNodes_allStand : ∀ ss, stmtsInPlace ss = true → AllStand (stmtsNodes ss)
  | [], _ => allStand_nil
  | s :: ss, h => by
      obtain ⟨hs, hss⟩ := Bool.and_eq_true_iff.mp h
      exact (s.allStand hs).append (stmtsNodes_allStand ss hss)

end

/-! ## Tokens -/

/-- A token that continues an operand, other than by a call or an index, is an infix operator. -/
theorem Token.IsSpelled.infixOperator_of_level {ok : String → Bool} {t : Token}
    (h : t.IsSpelled ok) (hlevel : lowestLevel < t.kind.level) (hcall : t.kind ≠ .lparen)
    (hindex : t.kind ≠ .lbracket) : infixOperators.contains t.text = true := by
  have htier : ∃ tier : Tier, t.kind ∈ tier.operators := by
    generalize t.kind = k at *
    cases k
    case eq | notEq => exact ⟨.equality, by decide⟩
    case lt | gt => exact ⟨.comparison, by decide⟩
    case plus | minus => exact ⟨.sum, by decide⟩
    case asterisk | slash => exact ⟨.product, by decide⟩
    case lparen => exact absurd rfl hcall
    case lbracket => exact absurd rfl hindex
    all_goals exact absurd hlevel (Nat.lt_irrefl _)
  obtain ⟨tier, hmem⟩ := htier
  exact h.infixOperator hmem

theorem le_maxLiteral_of_literalValue? {cs : List Char} {v : Nat} (h : literalValue? cs = some v) :
    v ≤ maxLiteral := by
  simp only [literalValue?, Option.ite_none_left_eq_some, Option.ite_none_right_eq_some,
    Option.some.injEq] at h
  obtain ⟨-, hle, rfl⟩ := h
  exact hle

/-! ## Rules -/

/-- The tokens that are still to be read fit their kinds. -/
def ParseState.Spelled (s : ParseState) : Prop := AllSpelled (fun _ => true) s.tokens

namespace ParseState.Spelled

variable {s s' : ParseState} (h : s.Spelled)

include h

theorem current : s.current.IsSpelled fun _ => true := h _ List.mem_cons_self

theorem reach (hreach : Reach s s') : s'.Spelled := fun t ht => h t (hreach.tokens.subset ht)

theorem advance : s.advance.Spelled := h.reach (reach_advance s)

theorem record (e : SyntaxError) : (s.record e).Spelled := h.reach (reach_record s e)

theorem skipOptional (k : TokenKind) : (s.skipOptional k).Spelled :=
  h.reach (reach_skipOptional s k)

theorem peek : s.peek.IsSpelled fun _ => true := current_advance s ▸ h.advance.current

end ParseState.Spelled

/-- What a rule parses satisfies `ok`, and the rule stops before tokens that fit their kinds. -/
def Reply.Yields {α : Type} (ok : α → Prop) : Reply α → Prop
  | .parsed a s => s.Spelled ∧ ok a
  | .failed s => s.Spelled
  | .exhausted => True

namespace Reply.Yields

variable {α β : Type} {ok : α → Prop} {ok' : β → Prop} {r : Reply α} {s : ParseState}

theorem andThen {f : α → ParseState → Reply β} (h : r.Yields ok)
    (hf : ∀ a s, s.Spelled → ok a → (f a s).Yields ok') : (r.andThen f).Yields ok' := by
  cases r with
  | parsed a s => exact hf a s h.1 h.2
  | failed s => exact h
  | exhausted => trivial

theorem either {f : Option α → ParseState → Reply β} (h : r.Yields ok)
    (hf : ∀ o s, s.Spelled → (∀ a ∈ o, ok a) → (f o s).Yields ok') : (r.either f).Yields ok' := by
  cases r with
  | parsed a s => exact hf (some a) s h.1 (by rintro _ ⟨⟩; exact h.2)
  | failed s => exact hf none s h nofun
  | exhausted => trivial

theorem skipOptional (h : r.Yields ok) (k : TokenKind) :
    (r.mapState (·.skipOptional k)).Yields ok := by
  cases r with
  | parsed a s => exact ⟨h.1.skipOptional k, h.2⟩
  | failed s => exact ParseState.Spelled.skipOptional h k
  | exhausted => trivial

theorem ofOption {o : Option α} (hs : s.Spelled) (h : ∀ a ∈ o, ok a) :
    (Reply.ofOption o s).Yields ok := by
  cases o with
  | none => exact hs
  | some a => exact ⟨hs, h a rfl⟩

theorem expect (hs : s.Spelled) (k : TokenKind) :
    (s.expect k).Yields fun t => t.kind = k ∧ t.IsSpelled fun _ => true := by
  unfold ParseState.expect
  split
  · rename_i hk
    exact ⟨hs.advance, hk, hs.peek⟩
  · exact hs.record _

end Reply.Yields

theorem Token.IsSpelled.fits_name {t : Token} (h : t.IsSpelled fun _ => true)
    (hk : t.kind = .ident) : t.name.node.fits = true :=
  h.name hk

theorem moreParameters_yields : ∀ n s, s.Spelled →
    (moreParameters n s).Yields fun names => AllFit (names.map Name.node)
  | 0, _, _ => trivial
  | n + 1, s, hs => by
      unfold moreParameters
      split
      · refine .andThen (.expect hs.advance _) fun t s₁ hs₁ ht => ?_
        refine .andThen (moreParameters_yields n s₁ hs₁) fun names s₂ hs₂ hnames => ?_
        exact ⟨hs₂, allFit_cons.mpr ⟨ht.2.fits_name ht.1, hnames⟩⟩
      · exact .andThen (.expect hs _) fun _ s₁ hs₁ _ => ⟨hs₁, allFit_nil⟩

theorem parameters_yields (n : Nat) (s : ParseState) (hs : s.Spelled) :
    (parameters n s).Yields fun names => AllFit (names.map Name.node) := by
  unfold parameters
  split
  · exact ⟨hs.advance, allFit_nil⟩
  · refine .andThen (.expect hs _) fun t s₁ hs₁ ht => ?_
    refine .andThen (moreParameters_yields n s₁ hs₁) fun names s₂ hs₂ hnames => ?_
    exact ⟨hs₂, allFit_cons.mpr ⟨ht.2.fits_name ht.1, hnames⟩⟩

mutual

theorem statement_yields : ∀ n s, s.Spelled → (statement n s).Yields fun st => AllFit st.nodes
  | 0, _, _ => trivial
  | n + 1, s, hs => by
      unfold statement
      split
      · rename_i hk
        refine .andThen (.expect hs _) fun name s₁ hs₁ hname => ?_
        refine .andThen (.expect hs₁ _) fun _ s₂ hs₂ _ => ?_
        refine .andThen (.skipOptional (expression_yields n _ _ hs₂.advance) _) ?_
        intro value s₃ hs₃ hvalue
        refine ⟨hs₃, allFit_cons.mpr ⟨?_, allFit_cons.mpr ⟨hname.2.fits_name hname.1, hvalue⟩⟩⟩
        exact beq_iff_eq.mpr (hs.current.word "let" (by rw [hk]; decide))
      · rename_i hk
        refine .andThen (.skipOptional (expression_yields n _ _ hs.advance) _) ?_
        intro value s₁ hs₁ hvalue
        refine ⟨hs₁, allFit_cons.mpr ⟨?_, hvalue⟩⟩
        exact beq_iff_eq.mpr (hs.current.word "return" (by rw [hk]; decide))
      · refine .andThen (.skipOptional (expression_yields n _ _ hs) _) ?_
        exact fun e s₁ hs₁ he => ⟨hs₁, allFit_cons.mpr ⟨rfl, he⟩⟩

theorem statements_yields : ∀ n inBlock s, s.Spelled →
    (statements n inBlock s).Yields fun ss => AllFit (stmtsNodes ss)
  | 0, _, _, _ => trivial
  | n + 1, inBlock, s, hs => by
      unfold statements
      split
      · exact ⟨hs, allFit_nil⟩
      · refine .either (statement_yields n s hs) fun first s₁ hs₁ hfirst => ?_
        refine .andThen (statements_yields n inBlock _ hs₁.advance) fun rest s₂ hs₂ hrest => ?_
        refine ⟨hs₂, ?_⟩
        cases first with
        | none => exact hrest
        | some st => exact allFit_append.mpr ⟨hfirst st rfl, hrest⟩

theorem block_yields : ∀ n s, s.Spelled → (block n s).Yields fun b => AllFit b.nodes
  | 0, _, _ => trivial
  | n + 1, s, hs => by
      unfold block
      refine .andThen (statements_yields n true _ hs.advance) fun body s₁ hs₁ hbody => ?_
      refine ⟨?_, allFit_cons.mpr ⟨rfl, hbody⟩⟩
      split
      · exact hs₁.record _
      · exact hs₁

theorem expression_yields : ∀ n level s, s.Spelled →
    (expression n level s).Yields fun e => AllFit e.nodes
  | 0, _, _, _ => trivial
  | n + 1, level, s, hs => by
      unfold expression
      exact .andThen (operand_yields n s hs) fun left s₁ hs₁ hleft =>
        extend_yields n level left s₁ hs₁ hleft

theorem operand_yields : ∀ n s, s.Spelled → (operand n s).Yields fun e => AllFit e.nodes
  | 0, _, _ => trivial
  | n + 1, s, hs => by
      unfold operand
      split
      case h_1 hk => exact ⟨hs, allFit_cons.mpr ⟨hs.current.name hk, allFit_nil⟩⟩
      case h_2 hk =>
        split
        · rename_i value hvalue
          have hle := le_maxLiteral_of_literalValue? hvalue
          refine ⟨hs, allFit_cons.mpr ⟨?_, allFit_nil⟩⟩
          simpa [Node.fits] using hle
        · exact hs.record _
      case h_3 => exact ⟨hs, allFit_cons.mpr ⟨rfl, allFit_nil⟩⟩
      case h_4 hk =>
        refine ⟨hs, allFit_cons.mpr ⟨?_, allFit_nil⟩⟩
        exact beq_iff_eq.mpr (hs.current.word "true" (by rw [hk]; decide))
      case h_5 hk =>
        refine ⟨hs, allFit_cons.mpr ⟨?_, allFit_nil⟩⟩
        exact beq_iff_eq.mpr (hs.current.word "false" (by rw [hk]; decide))
      case h_6 hk | h_7 hk =>
        refine .andThen (expression_yields n _ _ hs.advance) fun right s₁ hs₁ hright => ?_
        refine ⟨hs₁, allFit_cons.mpr ⟨?_, hright⟩⟩
        exact Bool.and_eq_true_iff.mpr
          ⟨hs.current.prefixOperator (by simp [hk]), beq_self_eq_true _⟩
      case h_8 =>
        refine .either (expression_yields n _ _ hs.advance) fun inner s₁ hs₁ hinner => ?_
        exact .andThen (.expect hs₁ _) fun _ s₂ hs₂ _ => .ofOption hs₂ hinner
      case h_9 =>
        exact .andThen (expressions_yields n _ s hs) fun elements s₁ hs₁ helements =>
          ⟨hs₁, allFit_cons.mpr ⟨rfl, helements⟩⟩
      case h_10 =>
        exact .andThen (pairs_yields n s hs) fun entries s₁ hs₁ hentries =>
          ⟨hs₁, allFit_cons.mpr ⟨rfl, hentries⟩⟩
      case h_11 =>
        refine .andThen (.expect hs _) fun _ s₁ hs₁ _ => ?_
        refine .either (expression_yields n _ _ hs₁.advance) fun condition s₂ hs₂ hc => ?_
        refine .andThen (.expect hs₂ _) fun _ s₃ hs₃ _ => ?_
        refine .andThen (.expect hs₃ _) fun _ s₄ hs₄ _ => ?_
        refine .andThen (block_yields n s₄ hs₄) fun consequence s₅ hs₅ hb => ?_
        refine .andThen (alternative_yields n s₅ hs₅) fun other s₆ hs₆ ho => ?_
        refine .ofOption hs₆ (Option.forall_mem_map.mpr fun c hmem => ?_)
        exact allFit_cons.mpr ⟨rfl, allFit_append.mpr ⟨allFit_append.mpr ⟨hc c hmem, hb⟩, ho⟩⟩
      case h_12 =>
        refine .andThen (.expect hs _) fun _ s₁ hs₁ _ => ?_
        refine .either (expression_yields n _ _ hs₁.advance) fun condition s₂ hs₂ hc => ?_
        refine .andThen (.expect hs₂ _) fun _ s₃ hs₃ _ => ?_
        refine .andThen (.expect hs₃ _) fun _ s₄ hs₄ _ => ?_
        refine .andThen (block_yields n s₄ hs₄) fun body s₅ hs₅ hb => ?_
        refine .ofOption hs₅ (Option.forall_mem_map.mpr fun c hmem => ?_)
        exact allFit_cons.mpr ⟨rfl, allFit_append.mpr ⟨hc c hmem, hb⟩⟩
      case h_13 hk =>
        refine .andThen (.expect hs _) fun _ s₁ hs₁ _ => ?_
        refine .andThen (parameters_yields n s₁ hs₁) fun names s₂ hs₂ hnames => ?_
        refine .andThen (.expect hs₂ _) fun _ s₃ hs₃ _ => ?_
        refine .andThen (block_yields n s₃ hs₃) fun body s₄ hs₄ hbody => ?_
        refine ⟨hs₄, allFit_cons.mpr ⟨?_, allFit_append.mpr ⟨hnames, hbody⟩⟩⟩
        exact beq_iff_eq.mpr (hs.current.word "fn" (by rw [hk]; decide))
      case h_14 => exact hs.record _

theorem alternative_yields : ∀ n s, s.Spelled →
    (alternative n s).Yields fun b => AllFit (elseNodes b)
  | 0, _, _ => trivial
  | n + 1, s, hs => by
      unfold alternative
      split
      · refine .andThen (.expect hs.advance _) fun _ s₁ hs₁ _ => ?_
        exact .andThen (block_yields n s₁ hs₁) fun b s₂ hs₂ hb => ⟨hs₂, hb⟩
      · exact ⟨hs, allFit_nil⟩

theorem extend_yields : ∀ n level (left : Expr) s, s.Spelled → AllFit left.nodes →
    (extend n level left s).Yields fun e => AllFit e.nodes
  | 0, _, _, _, _, _ => trivial
  | n + 1, level, left, s, hs, hleft => by
      unfold extend
      split
      · rename_i hlevel
        have hcurrent : lowestLevel < s.advance.current.kind.level := by
          rw [ParseState.current_advance]
          exact hlevel.2
        exact .andThen (continuation_yields n left _ hs.advance hcurrent hleft)
          fun left s₁ hs₁ hleft => extend_yields n level left s₁ hs₁ hleft
      · exact ⟨hs, hleft⟩

/-- Only operators, calls and indices continue an operand. -/
theorem continuation_yields : ∀ n (left : Expr) s, s.Spelled →
    lowestLevel < s.current.kind.level → AllFit left.nodes →
    (continuation n left s).Yields fun e => AllFit e.nodes
  | 0, _, _, _, _, _ => trivial
  | n + 1, left, s, hs, hlevel, hleft => by
      unfold continuation
      split
      · exact .andThen (expressions_yields n _ s hs) fun arguments s₁ hs₁ ha =>
          ⟨hs₁, allFit_cons.mpr ⟨rfl, allFit_append.mpr ⟨hleft, ha⟩⟩⟩
      · refine .either (expression_yields n _ _ hs.advance) fun index s₁ hs₁ hindex => ?_
        refine .andThen (.expect hs₁ _) fun _ s₂ hs₂ _ => ?_
        refine .ofOption hs₂ (Option.forall_mem_map.mpr fun i hi => ?_)
        exact allFit_cons.mpr ⟨rfl, allFit_append.mpr ⟨hleft, hindex i hi⟩⟩
      -- only an operator is left
      · rename_i hcall hindex
        refine .andThen (expression_yields n _ _ hs.advance) fun right s₁ hs₁ hright => ?_
        refine ⟨hs₁, allFit_cons.mpr ⟨?_, allFit_append.mpr ⟨hleft, hright⟩⟩⟩
        exact Bool.and_eq_true_iff.mpr
          ⟨hs.current.infixOperator_of_level hlevel hcall hindex, beq_self_eq_true _⟩

theorem expressions_yields : ∀ n closing s, s.Spelled →
    (expressions n closing s).Yields fun es => AllFit (allNodes es)
  | 0, _, _, _ => trivial
  | n + 1, closing, s, hs => by
      unfold expressions
      split
      · exact ⟨hs.advance, allFit_nil⟩
      · refine .andThen (expression_yields n _ _ hs.advance) fun e s₁ hs₁ he => ?_
        exact .andThen (moreExpressions_yields n closing s₁ hs₁) fun es s₂ hs₂ hes =>
          ⟨hs₂, allFit_append.mpr ⟨he, hes⟩⟩

theorem moreExpressions_yields : ∀ n closing s, s.Spelled →
    (moreExpressions n closing s).Yields fun es => AllFit (allNodes es)
  | 0, _, _, _ => trivial
  | n + 1, closing, s, hs => by
      unfold moreExpressions
      split
      · refine .andThen (expression_yields n _ _ hs.advance.advance) fun e s₁ hs₁ he => ?_
        exact .andThen (moreExpressions_yields n closing s₁ hs₁) fun es s₂ hs₂ hes =>
          ⟨hs₂, allFit_append.mpr ⟨he, hes⟩⟩
      · exact .andThen (.expect hs _) fun _ s₁ hs₁ _ => ⟨hs₁, allFit_nil⟩

theorem pairs_yields : ∀ n s, s.Spelled → (pairs n s).Yields fun ps => AllFit (pairsNodes ps)
  | 0, _, _ => trivial
  | n + 1, s, hs => by
      unfold pairs
      split
      · exact ⟨hs.advance, allFit_nil⟩
      · refine .either (expression_yields n _ _ hs.advance) fun key s₁ hs₁ hkey => ?_
        refine .andThen (.expect hs₁ _) fun _ s₂ hs₂ _ => ?_
        refine .either (expression_yields n _ _ hs₂.advance) fun value s₃ hs₃ hvalue => ?_
        split
        · rename_i key value
          have hpair := allFit_append.mpr ⟨hkey key rfl, hvalue value rfl⟩
          split
          · exact ⟨hs₃.advance, allFit_append.mpr ⟨hpair, allFit_nil⟩⟩
          · refine .andThen (.expect hs₃ _) fun _ s₄ hs₄ _ => ?_
            exact .andThen (pairs_yields n s₄ hs₄) fun rest s₅ hs₅ hrest =>
              ⟨hs₅, allFit_append.mpr ⟨hpair, hrest⟩⟩
        · exact hs₃

end

/-! ## Texts -/

/-- All nodes that the parser builds of a text fit. -/
theorem allFit_parse (source : String) : AllFit (parse source).program.nodes := by
  obtain ⟨ts, t, hts, -⟩ := tokensFrom_eq_append .start source.toList
  have hspelled : AllSpelled (fun _ => true) (tokenize source) :=
    fun t ht => isSpelled_of_mem_tokenize ht fun _ => rfl
  have hstart : (ParseState.ofTokens (tokenize source)).Spelled := by
    cases htokens : tokenize source with
    | nil => exact absurd (htokens.symm.trans hts) (by simp)
    | cons t ts => rwa [htokens] at hspelled
  have hyields := statements_yields (stepsFor (tokenize source).length) false _ hstart
  unfold parse parseTokens
  split
  · rename_i body s hbody
    rw [hbody] at hyields
    exact allFit_cons.mpr ⟨rfl, hyields.2⟩
  · exact allFit_cons.mpr ⟨rfl, allFit_nil⟩
  · exact allFit_cons.mpr ⟨rfl, allFit_nil⟩

/-- What the parser leaves of a text is in place. -/
theorem program_isInPlace (source : String) :
    stmtsInPlace (parse source).program.statements = true :=
  stmtsInPlace_of_allFit _ (allFit_cons.mp (allFit_parse source)).2

end MonkeyLang
