import MonkeyLang.Proofs.ParseComplete
import MonkeyLang.Proofs.Spelling

/-!
# Printing and parsing

What is printed of a well-formed tree is read as the tokens of that tree again.
The text of an expression stands between delimiters wherever it could run
together with what follows, so it is a phrase of the tier `applied`: it can be
an operand of every operator, and it can be called and indexed as it is.

The values of string literals are the one thing that printing may change. So
`ReadsBack` says of a tree that its text has the tokens of a tree with the same
nodes and fields, where `g` gives the new values of string literals.
-/

namespace MonkeyLang

/-! ## The ends of a text -/

section Ends

variable {ok : String → Bool}

theorem getLast?_append_of_some {c : Char} {cs ds : List Char} (h : ds.getLast? = some c) :
    (cs ++ ds).getLast? = some c := by
  rw [List.getLast?_append, h, Option.some_or]

theorem Block.getLast?_render {b : Block} (h : b.isWellFormed ok = true) :
    b.render.toList.getLast? = some '}' := by
  cases b with
  | program _ => exact nomatch h
  | mk _ stmts =>
      cases stmts with
      | nil => rw [Block.render]; rfl
      | cons s ss =>
          rw [Block.render, String.toList_append]
          exact getLast?_append_of_some (rfl : [' ', '}'].getLast? = some '}')

theorem getLast?_ne_of_isWord {w : String} (h : isWord w = true) :
    w.toList.getLast? ≠ some ';' := by
  obtain ⟨c, cs, hlist, hc, hcs⟩ := isWord_iff.mp h
  intro hlast
  rw [hlist] at hlast
  rcases List.mem_cons.mp (List.mem_of_getLast? hlast) with rfl | hmem
  · exact absurd hc (by decide)
  · exact absurd (hcs _ hmem) (by decide)

theorem getLast?_ne_of_append {a b : String} {c : Char} (hb : b.toList.getLast? = some c)
    (hc : c ≠ ';') : (a ++ b).toList.getLast? ≠ some ';' := by
  rw [String.toList_append, getLast?_append_of_some hb]
  exact fun hlast => hc (Option.some.inj hlast)

/-- The text of an expression does not end with a semicolon. -/
theorem Expr.getLast?_render {e : Expr} (h : e.isWellFormed ok = true) :
    e.render.toList.getLast? ≠ some ';' := by
  cases e with
  | statement _ => exact nomatch h
  | unknown _ _ => exact nomatch h
  | identifier _ v =>
      rw [isWellFormed, isName, Bool.and_eq_true] at h
      rw [render]
      exact getLast?_ne_of_isWord h.1
  | integer _ v =>
      rw [isWellFormed, Bool.and_eq_true, decide_eq_true_eq] at h
      obtain ⟨n, rfl⟩ := Int.eq_ofNat_of_zero_le h.1
      rw [render]
      intro hlast
      exact absurd (isDigit_of_mem_repr (List.mem_of_getLast? hlast)) (by decide)
  | boolean m v =>
      rw [isWellFormed, beq_iff_eq] at h
      rw [render, h]
      cases v <;> decide
  | string _ v => exact getLast?_ne_of_append rfl (by decide)
  | prefixOp _ _ _ => exact getLast?_ne_of_append rfl (by decide)
  | infixOp _ _ _ _ => exact getLast?_ne_of_append rfl (by decide)
  | call _ _ _ => exact getLast?_ne_of_append rfl (by decide)
  | array _ _ => exact getLast?_ne_of_append rfl (by decide)
  | index _ _ _ => exact getLast?_ne_of_append rfl (by decide)
  | hash _ _ => exact getLast?_ne_of_append rfl (by decide)
  | loop _ c b =>
      rw [isWellFormed, Bool.and_eq_true] at h
      exact getLast?_ne_of_append (Block.getLast?_render h.2) (by decide)
  | function _ ps b =>
      rw [isWellFormed, Bool.and_eq_true] at h
      exact getLast?_ne_of_append (Block.getLast?_render h.2) (by decide)
  | conditional _ c b alternative =>
      rw [isWellFormed, Bool.and_eq_true, Bool.and_eq_true] at h
      cases alternative with
      | none =>
          rw [render, renderElse, String.append_empty]
          exact getLast?_ne_of_append (Block.getLast?_render h.1.2) (by decide)
      | some other =>
          rw [render, renderElse, ← String.append_assoc]
          exact getLast?_ne_of_append (Block.getLast?_render h.2) (by decide)

theorem exists_eq_cons_of_isWord {w : String} (h : isWord w = true) :
    ∃ c cs, w.toList = c :: cs ∧ c ≠ '=' := by
  obtain ⟨c, cs, hlist, hc, -⟩ := isWord_iff.mp h
  refine ⟨c, cs, hlist, ?_⟩
  rintro rfl
  exact absurd hc (by decide)

theorem exists_append_eq_cons {text text' : String}
    (h : ∃ c cs, text.toList = c :: cs ∧ c ≠ '=') :
    ∃ c cs, (text ++ text').toList = c :: cs ∧ c ≠ '=' := by
  obtain ⟨c, cs, hlist, hc⟩ := h
  exact ⟨c, cs ++ text'.toList, by rw [String.toList_append, hlist, List.cons_append], hc⟩

/-- The text of an expression does not start with an equals sign, which would
make another operator of a prefix operator before it. -/
theorem Expr.render_eq_cons : ∀ e : Expr, e.isWellFormed ok = true →
    ∃ c cs, e.render.toList = c :: cs ∧ c ≠ '='
  | .identifier _ v, h => by
      rw [isWellFormed, isName, Bool.and_eq_true] at h
      rw [render]
      exact exists_eq_cons_of_isWord h.1
  | .integer _ v, h => by
      rw [isWellFormed, Bool.and_eq_true, decide_eq_true_eq] at h
      obtain ⟨n, rfl⟩ := Int.eq_ofNat_of_zero_le h.1
      obtain ⟨c, cs, hlist⟩ := exists_repr_eq_cons n
      refine ⟨c, cs, hlist, ?_⟩
      rintro rfl
      exact absurd (isDigit_of_mem_repr (hlist ▸ List.mem_cons_self)) (by decide)
  | .boolean m v, h => by
      rw [isWellFormed, beq_iff_eq] at h
      rw [render, h]
      cases v
      · exact ⟨_, _, rfl, by decide⟩
      · exact ⟨_, _, rfl, by decide⟩
  | .function m ps b, h => by
      rw [isWellFormed, Bool.and_eq_true, Bool.and_eq_true, beq_iff_eq] at h
      rw [render, h.1.1]
      simp only [String.append_assoc]
      exact exists_append_eq_cons ⟨_, _, rfl, by decide⟩
  | .call _ f _, h => by
      rw [isWellFormed, Bool.and_eq_true] at h
      rw [render]
      exact exists_append_eq_cons (exists_append_eq_cons (exists_append_eq_cons
        (f.render_eq_cons h.1)))
  | .string .., _ => by
      rw [render, renderString]
      simp only [String.append_assoc]
      exact exists_append_eq_cons ⟨_, _, rfl, by decide⟩
  | .prefixOp .., _ | .infixOp .., _ | .conditional .., _ | .loop .., _ | .array .., _
  | .index .., _ | .hash .., _ => by
      rw [render]
      simp only [String.append_assoc]
      exact exists_append_eq_cons ⟨_, _, rfl, by decide⟩
  | .statement _, h | .unknown _ _, h => nomatch h

end Ends

/-! ## Reading back -/

/-- The text of an expression has the tokens of the same expression, where `g`
tells the new values of string literals. -/
def Expr.ReadsBack (g : String → String) (e : Expr) : Prop :=
  ∃ ts e', Phrase .applied ts e' ∧ e'.map .blank id = e.map .blank g ∧ Spells e.render ts

def Block.ReadsBack (g : String → String) (b : Block) : Prop :=
  ∃ ts b', Braces ts b' ∧ b'.map .blank id = b.map .blank g ∧ Closes b.render ts

def ReadsBackElse (g : String → String) (b : Option Block) : Prop :=
  ∃ ts b', Otherwise ts b' ∧ mapElse .blank id b' = mapElse .blank g b ∧
    Closes (renderElse b) ts

def ReadsBackAll (g : String → String) (es : List Expr) : Prop :=
  ∃ ts es', Items ts es' ∧ mapAll .blank id es' = mapAll .blank g es ∧
    Spells (", ".intercalate (renderAll es)) ts

def ReadsBackPairs (g : String → String) (ps : List (Expr × Expr)) : Prop :=
  ∃ ts ps', Pairs ts ps' ∧ mapPairs .blank id ps' = mapPairs .blank g ps ∧
    Spells (", ".intercalate (renderPairs ps)) ts

/-- The same of a statement in a block, where a semicolon is printed after it. -/
def Stmt.ReadsBack (g : String → String) (stmt : Stmt) : Prop :=
  ∃ ts stmt', Clause ts stmt' ∧ stmt'.map .blank id = stmt.map .blank g ∧
    Closes (terminated stmt.render) (ts ++ [.of .semicolon ";"])

def ReadsBackStmts (g : String → String) (stmts : List Stmt) : Prop :=
  ∃ ts stmts', Lines .rbrace ts stmts' ∧ mapStmts .blank id stmts' = mapStmts .blank g stmts ∧
    Closes (" ".intercalate (renderTerminated stmts)) ts

/-- A string literal that is printed is read with the value that `g` tells. -/
def Respells (ok : String → Bool) (g : String → String) : Prop :=
  ∀ value, ok value = true → Closes (renderString value) [.of .string (g value)]

section ReadsBack

variable {ok : String → Bool} {g : String → String}

theorem Phrase.equality {tier : Tier} {ts : List Token} {e : Expr} (h : Phrase tier ts e) :
    Phrase .equality ts e :=
  h.of_ceiling_le (by decide) (by cases tier <;> decide)

theorem Expr.head?_render {e : Expr} (h : e.isWellFormed ok = true) (rest : List Char) :
    (e.render.toList ++ rest).head? ≠ some '=' := by
  obtain ⟨c, cs, hlist, hc⟩ := e.render_eq_cons h
  rw [hlist]
  exact fun heq => hc (Option.some.inj heq)

theorem Phrase.parens {tier : Tier} {ts : List Token} {e : Expr} (h : Phrase tier ts e) :
    Phrase .applied (.of .lparen "(" :: (ts ++ [.of .rparen ")"])) e :=
  .tighten rfl (.group rfl rfl h.equality)

theorem readsBack_prefixOp {mark : Mark} {operator : String} {right : Expr}
    (hoperator : prefixOperators.contains operator = true)
    (hwf : right.isWellFormed ok = true) (h : right.ReadsBack g) :
    (Expr.prefixOp mark operator right).ReadsBack g := by
  obtain ⟨k, hk, hop⟩ := contents_prefix hoperator
  obtain ⟨ts, right', hphrase, hmap, hspells⟩ := h
  have hunary : Phrase .unary (.of k operator :: ts) (.prefixOp _ operator right') :=
    .unary hk (hphrase.of_ceiling_le (by decide) (by decide))
  have htext : Spells (operator ++ right.render) (.of k operator :: ts) := fun rest hrest => by
    rw [String.toList_append, List.append_assoc, hop _ (right.head?_render hwf _),
      hspells rest hrest]
    rfl
  refine ⟨_, _, hunary.parens, ?_, ?_⟩
  · rw [Expr.map, Expr.map, hmap]
    rfl
  · have hrender : (Expr.prefixOp mark operator right).render =
        "(" ++ (operator ++ right.render) ++ ")" := by
      simp only [Expr.render, String.append_assoc]
    rw [hrender]
    exact (closes_parens htext).spells

theorem readsBack_infixOp {mark : Mark} {operator : String} {left right : Expr}
    (hoperator : infixOperators.contains operator = true) (hleft : left.ReadsBack g)
    (hright : right.ReadsBack g) : (Expr.infixOp mark left operator right).ReadsBack g := by
  obtain ⟨k, tier, tighter, hk, htier, hop⟩ := contents_infix hoperator
  obtain ⟨ts, left', hl, hlmap, hlspells⟩ := hleft
  obtain ⟨us, right', hr, hrmap, hrspells⟩ := hright
  have hne := ne_atom_of_mem_operators hk htier
  have hbinary : Phrase tier (ts ++ .of k operator :: us) (.infixOp _ left' operator right') :=
    .binary hk htier (hl.of_ceiling_le hne.1 (by cases tier <;> decide))
      (hr.of_ceiling_le hne.2 (by cases tighter <;> decide))
  refine ⟨_, _, hbinary.parens, ?_, ?_⟩
  · rw [Expr.map, Expr.map, hlmap, hrmap]
    rfl
  · have htext : Spells (left.render ++ " " ++ operator ++ " " ++ right.render)
        (ts ++ .of k operator :: us) := by
      intro rest hrest
      simp only [String.toList_append, List.append_assoc]
      show contents (left.render.toList ++ ' ' :: (operator.toList ++ ' ' ::
        (right.render.toList ++ rest))) = _
      rw [hlspells _ (wordEnds_cons rfl _), contents_space rfl, hop, hrspells rest hrest]
      simp only [List.map_cons, List.map_append, List.cons_append, List.append_assoc]
      rfl
    have hrender : (Expr.infixOp mark left operator right).render =
        "(" ++ (left.render ++ " " ++ operator ++ " " ++ right.render) ++ ")" := by
      simp only [Expr.render, String.append_assoc]
    rw [hrender]
    exact (closes_parens htext).spells

theorem readsBack_call {mark : Mark} {function : Expr} {arguments : List Expr}
    (hf : function.ReadsBack g) (ha : ReadsBackAll g arguments) :
    (Expr.call mark function arguments).ReadsBack g := by
  obtain ⟨ts, function', hphrase, hmap, hspells⟩ := hf
  obtain ⟨us, arguments', hitems, hmaps, hspellss⟩ := ha
  refine ⟨_, _, .call (Token.kind_of .lparen "(")
    (Token.kind_of .rparen ")") hphrase hitems, ?_, ?_⟩
  · rw [Expr.map, Expr.map, hmap, hmaps]
    rfl
  · have hrender : (Expr.call mark function arguments).render =
        function.render ++ ("(" ++ ", ".intercalate (renderAll arguments) ++ ")") := by
      simp only [Expr.render, String.append_assoc]
    rw [hrender]
    exact (hspells.append (closes_parens hspellss) (wordEnds_opening rfl _ _)).spells

theorem readsBack_index {mark : Mark} {left index : Expr}
    (hl : left.ReadsBack g) (hi : index.ReadsBack g) :
    (Expr.index mark left index).ReadsBack g := by
  obtain ⟨ts, left', hleft, hlmap, hlspells⟩ := hl
  obtain ⟨us, index', hindex, himap, hispells⟩ := hi
  have hphrase := Phrase.index (Token.kind_of .lbracket "[")
    (Token.kind_of .rbracket "]") hleft hindex.equality
  refine ⟨_, _, hphrase.parens, ?_, ?_⟩
  · rw [Expr.map, Expr.map, hlmap, himap]
    rfl
  · have htext := hlspells.append (closes_brackets hispells) (wordEnds_opening rfl _ _)
    have hrender : (Expr.index mark left index).render =
        "(" ++ (left.render ++ ("[" ++ index.render ++ "]")) ++ ")" := by
      simp only [Expr.render, String.append_assoc]
      rfl
    rw [hrender]
    exact (closes_parens htext.spells).spells

theorem closes_else : Closes " else " [.of .kwElse "else"] := by
  intro rest
  show contents (' ' :: ("else".toList ++ ' ' :: rest)) = _
  rw [contents_space rfl, contents_word (by decide) (wordEnds_cons rfl _), contents_space rfl]
  rfl

theorem readsBack_conditional {mark : Mark} {condition : Expr} {consequence : Block}
    {alternative : Option Block} (hc : condition.ReadsBack g) (ht : consequence.ReadsBack g)
    (he : ReadsBackElse g alternative) :
    (Expr.conditional mark condition consequence alternative).ReadsBack g := by
  obtain ⟨ts, condition', hcphrase, hcmap, hcspells⟩ := hc
  obtain ⟨us, consequence', htbraces, htmap, htcloses⟩ := ht
  obtain ⟨vs, alternative', heelse, hemap, hecloses⟩ := he
  have hphrase := Phrase.conditional (Token.kind_of .kwIf "if")
    (Token.kind_of .lparen "(") (Token.kind_of .rparen ")")
    hcphrase.equality htbraces heelse
  refine ⟨_, _, .tighten rfl hphrase, ?_, ?_⟩
  · rw [Expr.map, Expr.map, hcmap, htmap, hemap]
    rfl
  · have hkeyword : Spells "if" [.of .kwIf "if"] := spells_word (by decide) rfl
    have hif : Closes "if (" _ := (closes_keyword_space hkeyword :)
    rw [Expr.render]
    have htext := ((closes_header hif hcspells).append htcloses).append hecloses
    simp only [List.cons_append, List.append_assoc, List.nil_append] at htext
    exact htext.spells

theorem readsBack_loop {mark : Mark} {condition : Expr} {body : Block}
    (hc : condition.ReadsBack g) (hb : body.ReadsBack g) :
    (Expr.loop mark condition body).ReadsBack g := by
  obtain ⟨ts, condition', hcphrase, hcmap, hcspells⟩ := hc
  obtain ⟨us, body', hbbraces, hbmap, hbcloses⟩ := hb
  have hphrase := Phrase.loop (Token.kind_of .kwWhile "while")
    (Token.kind_of .lparen "(") (Token.kind_of .rparen ")")
    hcphrase.equality hbbraces
  refine ⟨_, _, .tighten rfl hphrase, ?_, ?_⟩
  · rw [Expr.map, Expr.map, hcmap, hbmap]
    rfl
  · have hkeyword : Spells "while" [.of .kwWhile "while"] := spells_word (by decide) rfl
    have hwhile : Closes "while (" _ := (closes_keyword_space hkeyword :)
    rw [Expr.render]
    have htext := (closes_header hwhile hcspells).append hbcloses
    simp only [List.cons_append, List.append_assoc, List.nil_append] at htext
    exact htext.spells

theorem readsBack_function {mark : Mark} {parameters : List Name} {body : Block}
    (hmark : mark.text = "fn") (hnames : parameters.all (isName ·.value) = true)
    (hb : body.ReadsBack g) : (Expr.function mark parameters body).ReadsBack g := by
  obtain ⟨ts, parameters', hnames', hnmap, hnspells⟩ := spells_names parameters hnames
  obtain ⟨us, body', hbbraces, hbmap, hbcloses⟩ := hb
  have hphrase := Phrase.function (Token.kind_of .kwFn "fn")
    (Token.kind_of .lparen "(") (Token.kind_of .rparen ")")
    hnames' hbbraces
  refine ⟨_, _, .tighten rfl hphrase, ?_, ?_⟩
  · rw [Expr.map, Expr.map, hnmap, hbmap]
    rfl
  · have hkeyword : Spells "fn" [.of .kwFn "fn"] := spells_word (by decide) rfl
    have hfn := closes_keyword hkeyword
    rw [Expr.render, hmark]
    have htext := (closes_header hfn hnspells).append hbcloses
    simp only [List.cons_append, List.append_assoc, List.nil_append] at htext
    exact htext.spells

theorem readsBackElse_some {b : Block} (h : b.ReadsBack g) : ReadsBackElse g (some b) := by
  obtain ⟨ts, b', hbraces, hmap, hcloses⟩ := h
  refine ⟨_, _, .present (Token.kind_of .kwElse "else") hbraces, ?_, ?_⟩
  · rw [mapElse, mapElse, hmap]
  · rw [renderElse]
    exact closes_else.append hcloses

theorem readsBackAll_cons {e : Expr} {es : List Expr} (he : e.ReadsBack g)
    (hes : ReadsBackAll g es) : ReadsBackAll g (e :: es) := by
  obtain ⟨ts, e', hphrase, hmap, hspells⟩ := he
  obtain ⟨us, es', hitems, hmaps, hspellss⟩ := hes
  cases es with
  | nil =>
      refine ⟨_, _, .cons hphrase.equality .nil, ?_, ?_⟩
      · rw [mapAll, mapAll, hmap]
        rfl
      · rw [renderAll, renderAll, String.intercalate_singleton, List.append_nil]
        exact hspells
  | cons e₂ es =>
      cases hitems with
      | nil => exact nomatch hmaps
      | cons hphrase₂ hmore =>
          have hcomma := MoreItems.cons (Token.kind_of .comma ",") hphrase₂ hmore
          refine ⟨_, _, .cons hphrase.equality hcomma, ?_, ?_⟩
          · rw [mapAll, hmap, hmaps]
            rfl
          · rw [renderAll, renderAll, String.intercalate_cons_cons]
            exact spells_comma hspells hspellss

theorem readsBackPairs_cons {key value : Expr} {ps : List (Expr × Expr)} (hk : key.ReadsBack g)
    (hv : value.ReadsBack g) (hps : ReadsBackPairs g ps) :
    ReadsBackPairs g ((key, value) :: ps) := by
  obtain ⟨ts, key', hkey, hkmap, hkspells⟩ := hk
  obtain ⟨us, value', hvalue, hvmap, hvspells⟩ := hv
  obtain ⟨vs, ps', hpairs, hmaps, hspells⟩ := hps
  have hcolon := Token.kind_of .colon ":"
  cases ps with
  | nil =>
      refine ⟨_, _, .last hcolon hkey.equality hvalue.equality, ?_, ?_⟩
      · rw [mapPairs, mapPairs, hkmap, hvmap]
        rfl
      · rw [renderPairs, renderPairs, String.intercalate_singleton]
        exact spells_colon hkspells hvspells
  | cons pair ps =>
      refine ⟨_, _, .cons hcolon (Token.kind_of .comma ",") hkey.equality
        hvalue.equality hpairs, ?_, ?_⟩
      · rw [mapPairs, mapPairs, hkmap, hvmap, hmaps]
      · rw [renderPairs, renderPairs, String.intercalate_cons_cons, ← renderPairs]
        have htext := spells_comma (spells_colon hkspells hvspells) hspells
        simp only [List.cons_append, List.append_assoc] at htext
        exact htext

theorem terminated_append (text : String) : terminated (text ++ ";") = text ++ ";" := by
  have hlast : (text ++ ";").toList.getLast? = some ';' := by
    rw [String.toList_append]
    exact getLast?_append_of_some (rfl : [';'].getLast? = some ';')
  rw [terminated, if_pos hlast]

theorem readsBack_binding {mark : Mark} {name : Name} {value : Expr} (hmark : mark.text = "let")
    (hname : isName name.value = true) (h : value.ReadsBack g) :
    (Stmt.binding mark name value).ReadsBack g := by
  obtain ⟨ts, value', hphrase, hmap, hspells⟩ := h
  refine ⟨_, _, .binding (Token.kind_of .kwLet "let")
    (Token.kind_of .ident name.value)
    (Token.kind_of .assign "=") hphrase.equality, ?_, ?_⟩
  · rw [Stmt.map, Stmt.map, hmap]
    rfl
  · have hlet : Spells "let" [.of .kwLet "let"] := spells_word (by decide) rfl
    rw [Stmt.render, hmark, terminated_append]
    exact closes_semicolon (spells_assign (hlet.space (spells_name hname)) hspells)

theorem readsBack_leave {mark : Mark} {value : Expr} (hmark : mark.text = "return")
    (h : value.ReadsBack g) : (Stmt.leave mark value).ReadsBack g := by
  obtain ⟨ts, value', hphrase, hmap, hspells⟩ := h
  refine ⟨_, _, .leave (Token.kind_of .kwReturn "return")
    hphrase.equality, ?_, ?_⟩
  · rw [Stmt.map, Stmt.map, hmap]
    rfl
  · have hreturn : Spells "return" [.of .kwReturn "return"] := spells_word (by decide) rfl
    rw [Stmt.render, hmark, terminated_append]
    exact closes_semicolon (hreturn.space hspells)

/-- The token of an expression statement is the first one of the expression. -/
theorem clause_expression {ts : List Token} {e : Expr} (h : Phrase .applied ts e) :
    ∃ mark, Clause ts (.expression mark e) := by
  obtain ⟨t, us, rfl, -⟩ := h.starts
  exact ⟨t.mark, .expression h.equality⟩

theorem readsBack_expression {mark : Mark} {e : Expr} (hwf : e.isWellFormed ok = true)
    (h : e.ReadsBack g) : (Stmt.expression mark e).ReadsBack g := by
  obtain ⟨ts, e', hphrase, hmap, hspells⟩ := h
  obtain ⟨mark', hclause⟩ := clause_expression hphrase
  refine ⟨_, _, hclause, ?_, ?_⟩
  · rw [Stmt.map, Stmt.map, hmap]
    rfl
  · rw [Stmt.render, terminated, if_neg (Expr.getLast?_render hwf)]
    exact closes_semicolon hspells

theorem Lines.eq_nil {next : TokenKind} {ts : List Token} {stmts : List Stmt}
    (h : Lines next ts stmts) {f : Mark → Mark} {k : String → String}
    (hmap : mapStmts f k stmts = []) : ts = [] := by
  cases h with
  | nil => rfl
  | closed _ _ _ | bare _ _ _ => exact nomatch hmap

theorem readsBackStmts_cons {stmt : Stmt} {stmts : List Stmt} (h : stmt.ReadsBack g)
    (hs : ReadsBackStmts g stmts) : ReadsBackStmts g (stmt :: stmts) := by
  obtain ⟨ts, stmt', hclause, hmap, hcloses⟩ := h
  obtain ⟨us, stmts', hlines, hmaps, hclosess⟩ := hs
  refine ⟨_, _, .closed (Token.kind_of .semicolon ";") hclause hlines,
    ?_, ?_⟩
  · rw [mapStmts, mapStmts, hmap, hmaps]
  · cases stmts with
    | nil =>
        obtain rfl := hlines.eq_nil hmaps
        rw [renderTerminated, renderTerminated, String.intercalate_singleton]
        exact hcloses
    | cons stmt₂ stmts =>
        rw [renderTerminated, renderTerminated, String.intercalate_cons_cons, ← renderTerminated]
        have htext := hcloses.space hclosess
        rw [List.append_assoc] at htext
        exact htext

theorem readsBack_block {mark : Mark} {stmts : List Stmt} (h : ReadsBackStmts g stmts) :
    (Block.mk mark stmts).ReadsBack g := by
  obtain ⟨ts, stmts', hlines, hmaps, hcloses⟩ := h
  refine ⟨_, _, .mk (Token.kind_of .lbrace "\x7b")
    (Token.kind_of .rbrace "\x7d") hlines, ?_, ?_⟩
  · rw [Block.map, Block.map, hmaps]
    rfl
  · cases stmts with
    | nil =>
        obtain rfl := hlines.eq_nil hmaps
        intro rest
        rw [Block.render]
        show contents ('{' :: ' ' :: '}' :: rest) = _
        rw [contents_delimiter '{' rfl (by decide), contents_space rfl,
          contents_delimiter '}' rfl (by decide)]
        rfl
    | cons stmt stmts =>
        rw [Block.render]
        exact closes_block hcloses

/-! ## Every tree -/

mutual

theorem Expr.readsBack (hg : Respells ok g) : ∀ e : Expr, e.isWellFormed ok = true →
    e.ReadsBack g
  | .identifier _ v, h => by
      rw [Expr.isWellFormed] at h
      refine ⟨_, _, .tighten rfl (.identifier (Token.kind_of .ident v)), rfl, ?_⟩
      rw [Expr.render]
      exact spells_name h
  | .integer m v, h => by
      rw [Expr.isWellFormed, Bool.and_eq_true, decide_eq_true_eq, decide_eq_true_eq] at h
      obtain ⟨n, rfl⟩ := Int.eq_ofNat_of_zero_le h.1
      have hle : n ≤ maxLiteral := Int.ofNat_le.mp h.2
      have hphrase := Phrase.integer (Token.kind_of .int n.repr)
        (fun c hc => isDigit_of_mem_repr hc) (by rw [Token.of, decimalValue_repr]; exact hle)
      refine ⟨_, _, .tighten rfl hphrase, ?_, spells_repr n⟩
      rw [Token.of, decimalValue_repr]
      rfl
  | .string _ v, h => by
      rw [Expr.isWellFormed] at h
      refine ⟨_, _, .tighten rfl (.string (Token.kind_of .string (g v))), rfl,
        ?_⟩
      rw [Expr.render]
      exact (hg v h).spells
  | .boolean m true, h => by
      rw [Expr.isWellFormed, beq_iff_eq, if_pos rfl] at h
      refine ⟨_, _, .tighten rfl (.truth (Token.kind_of .kwTrue "true")), rfl,
        ?_⟩
      rw [Expr.render, h]
      exact spells_word (by decide) rfl
  | .boolean m false, h => by
      rw [Expr.isWellFormed, beq_iff_eq, if_neg Bool.false_ne_true] at h
      refine ⟨_, _, .tighten rfl (.falsity (Token.kind_of .kwFalse "false")),
        rfl, ?_⟩
      rw [Expr.render, h]
      exact spells_word (by decide) rfl
  | .prefixOp _ _ right, h => by
      rw [Expr.isWellFormed, Bool.and_eq_true] at h
      exact readsBack_prefixOp h.1 h.2 (right.readsBack hg h.2)
  | .infixOp _ left _ right, h => by
      rw [Expr.isWellFormed, Bool.and_eq_true, Bool.and_eq_true] at h
      exact readsBack_infixOp h.1.1 (left.readsBack hg h.1.2) (right.readsBack hg h.2)
  | .conditional _ condition consequence alternative, h => by
      rw [Expr.isWellFormed, Bool.and_eq_true, Bool.and_eq_true] at h
      exact readsBack_conditional (condition.readsBack hg h.1.1) (consequence.readsBack hg h.1.2)
        (readsBackElse hg alternative h.2)
  | .loop _ condition body, h => by
      rw [Expr.isWellFormed, Bool.and_eq_true] at h
      exact readsBack_loop (condition.readsBack hg h.1) (body.readsBack hg h.2)
  | .function _ _ body, h => by
      rw [Expr.isWellFormed, Bool.and_eq_true, Bool.and_eq_true, beq_iff_eq] at h
      exact readsBack_function h.1.1 h.1.2 (body.readsBack hg h.2)
  | .call _ function arguments, h => by
      rw [Expr.isWellFormed, Bool.and_eq_true] at h
      exact readsBack_call (function.readsBack hg h.1) (readsBackAll hg arguments h.2)
  | .array _ elements, h => by
      rw [Expr.isWellFormed] at h
      obtain ⟨ts, elements', hitems, hmap, hspells⟩ := readsBackAll hg elements h
      refine ⟨_, _, .tighten rfl (.array (Token.kind_of .lbracket "[")
        (Token.kind_of .rbracket "]") hitems), ?_, ?_⟩
      · rw [Expr.map, Expr.map, hmap]
        rfl
      · rw [Expr.render]
        exact (closes_brackets hspells).spells
  | .index _ left index, h => by
      rw [Expr.isWellFormed, Bool.and_eq_true] at h
      exact readsBack_index (left.readsBack hg h.1) (index.readsBack hg h.2)
  | .hash _ pairs, h => by
      rw [Expr.isWellFormed] at h
      obtain ⟨ts, pairs', hpairs, hmap, hspells⟩ := readsBackPairs hg pairs h
      refine ⟨_, _, .tighten rfl (.hash (Token.kind_of .lbrace "\x7b")
        (Token.kind_of .rbrace "\x7d") hpairs), ?_, ?_⟩
      · rw [Expr.map, Expr.map, hmap]
        rfl
      · rw [Expr.render]
        exact (closes_braces hspells).spells
  | .statement _, h => nomatch h
  | .unknown _ _, h => nomatch h

theorem readsBackElse (hg : Respells ok g) : ∀ b, isWellFormedElse ok b = true →
    ReadsBackElse g b
  | none, _ => ⟨[], none, .missing, rfl, closes_empty⟩
  | some b, h => readsBackElse_some (b.readsBack hg h)

theorem readsBackAll (hg : Respells ok g) : ∀ es, isWellFormedAll ok es = true →
    ReadsBackAll g es
  | [], _ => ⟨[], [], .nil, rfl, closes_empty.spells⟩
  | e :: es, h => by
      rw [isWellFormedAll, Bool.and_eq_true] at h
      exact readsBackAll_cons (e.readsBack hg h.1) (readsBackAll hg es h.2)

theorem readsBackPairs (hg : Respells ok g) : ∀ ps, isWellFormedPairs ok ps = true →
    ReadsBackPairs g ps
  | [], _ => ⟨[], [], .nil, rfl, closes_empty.spells⟩
  | (key, value) :: ps, h => by
      rw [isWellFormedPairs, Bool.and_eq_true, Bool.and_eq_true] at h
      exact readsBackPairs_cons (key.readsBack hg h.1.1) (value.readsBack hg h.1.2)
        (readsBackPairs hg ps h.2)

theorem Block.readsBack (hg : Respells ok g) : ∀ b : Block, b.isWellFormed ok = true →
    b.ReadsBack g
  | .mk _ stmts, h => by
      rw [Block.isWellFormed] at h
      exact readsBack_block (readsBackStmts hg stmts h)
  | .program _, h => nomatch h

theorem Stmt.readsBack (hg : Respells ok g) : ∀ stmt : Stmt, stmt.isWellFormed ok = true →
    stmt.ReadsBack g
  | .binding _ _ value, h => by
      rw [Stmt.isWellFormed, Bool.and_eq_true, Bool.and_eq_true, beq_iff_eq] at h
      exact readsBack_binding h.1.1 h.1.2 (value.readsBack hg h.2)
  | .leave _ value, h => by
      rw [Stmt.isWellFormed, Bool.and_eq_true, beq_iff_eq] at h
      exact readsBack_leave h.1 (value.readsBack hg h.2)
  | .expression _ e, h => by
      rw [Stmt.isWellFormed] at h
      exact readsBack_expression h (e.readsBack hg h)
  | .block _, h => nomatch h
  | .bare _, h => nomatch h
  | .unknown _ _, h => nomatch h

theorem readsBackStmts (hg : Respells ok g) : ∀ stmts, isWellFormedStmts ok stmts = true →
    ReadsBackStmts g stmts
  | [], _ => ⟨[], [], .nil, rfl, closes_empty⟩
  | stmt :: stmts, h => by
      rw [isWellFormedStmts, Bool.and_eq_true] at h
      exact readsBackStmts_cons (stmt.readsBack hg h.1) (readsBackStmts hg stmts h.2)

end

/-! ## Whole programs -/

theorem Stmt.closes_render {stmt : Stmt} {ts : List Token}
    (h : Closes (terminated stmt.render) ts) (hstmt : stmt.isTerminated = true) :
    Closes stmt.render ts := by
  cases stmt with
  | binding _ _ _ | leave _ _ =>
      rw [Stmt.render, terminated_append] at h
      rw [Stmt.render]
      exact h
  | expression _ _ | block _ | bare _ | unknown _ _ => exact nomatch hstmt

/-- The last statement of a program may come without its semicolon. -/
theorem lines_last {stmt : Stmt} (hg : Respells ok g) (h : stmt.isWellFormed ok = true) :
    ∃ ts stmts', Lines .eof ts stmts' ∧
      mapStmts .blank id stmts' = mapStmts .blank g [stmt] ∧ Spells stmt.render ts := by
  have of_terminated (hstmt : stmt.isTerminated = true) : ∃ ts stmts', Lines .eof ts stmts' ∧
      mapStmts .blank id stmts' = mapStmts .blank g [stmt] ∧ Spells stmt.render ts := by
    obtain ⟨ts, stmt', hclause, hmap, hcloses⟩ := stmt.readsBack hg h
    exact ⟨_, _, .closed (Token.kind_of .semicolon ";") hclause .nil, congrArg (· :: []) hmap,
      (stmt.closes_render hcloses hstmt).spells⟩
  cases stmt with
  | binding _ _ _ => exact of_terminated rfl
  | leave _ _ => exact of_terminated rfl
  | expression mark e =>
      rw [Stmt.isWellFormed] at h
      obtain ⟨ts, e', hphrase, hmap, hspells⟩ := e.readsBack hg h
      obtain ⟨mark', hclause⟩ := clause_expression hphrase
      refine ⟨_, _, .bare (by decide) hclause .nil, ?_, ?_⟩
      · rw [mapStmts, Stmt.map, hmap]
        rfl
      · rw [Stmt.render, List.append_nil]
        exact hspells
  | block _ | bare _ | unknown _ _ => exact nomatch h

theorem lines_renderJoined (hg : Respells ok g) : ∀ stmts, isWellFormedStmts ok stmts = true →
    areDelimited stmts = true →
    ∃ ts stmts', Lines .eof ts stmts' ∧
      mapStmts .blank id stmts' = mapStmts .blank g stmts ∧ Spells (renderJoined stmts) ts
  | [], _, _ => ⟨[], [], .nil, rfl, closes_empty.spells⟩
  | [stmt], h, _ => by
      rw [isWellFormedStmts, Bool.and_eq_true] at h
      rw [renderJoined, renderJoined, String.append_empty]
      exact lines_last hg h.1
  | stmt :: stmt₂ :: stmts, h, hd => by
      rw [isWellFormedStmts, Bool.and_eq_true] at h
      obtain ⟨hstmt, hd⟩ : stmt.isTerminated = true ∧ areDelimited (stmt₂ :: stmts) = true :=
        Bool.and_eq_true_iff.mp hd
      obtain ⟨ts, stmt', hclause, hmap, hcloses⟩ := stmt.readsBack hg h.1
      obtain ⟨us, stmts', hlines, hmaps, hspells⟩ :=
        lines_renderJoined hg (stmt₂ :: stmts) h.2 hd
      refine ⟨_, _, .closed (Token.kind_of .semicolon ";") hclause hlines, ?_, ?_⟩
      · rw [mapStmts, hmap, hmaps]
        rfl
      · have htext := stmt.closes_render hcloses hstmt
        intro rest hrest
        rw [renderJoined, String.toList_append, List.append_assoc, htext, hspells rest hrest]
        simp only [List.map_append, List.map_cons, List.map_nil, List.append_assoc,
          List.cons_append, List.nil_append]

/-- What is printed of a well-formed program is parsed without an error, to the
same nodes and fields except for the values of string literals. -/
theorem parse_renderJoined (hg : Respells ok g) {p : Program}
    (hwf : isWellFormedStmts ok p.statements = true)
    (hd : areDelimited p.statements = true) :
    (parse p.render).errors = [] ∧
      (parse p.render).program.unmarked = ⟨mapStmts .blank g p.statements⟩ := by
  obtain ⟨ts, stmts', hlines, hmap, hspells⟩ := lines_renderJoined hg p.statements hwf hd
  have hsource : (tokenize p.render).map Token.content =
      ts.map Token.content ++ [(.eof, "")] := by
    have htext := hspells [] wordEnds_nil
    rw [List.append_nil, contents_nil] at htext
    exact htext
  have hderives : Derives ts ⟨stmts'⟩ := hlines
  obtain ⟨herrors, hplaceless⟩ := parse_of_contents hderives hsource
  exact ⟨herrors, (Program.unmarked_eq_of_placeless hplaceless).trans (congrArg Program.mk hmap)⟩

end ReadsBack

/-- The values of string literals that survive printing. -/
def isPrintable (value : String) : Bool :=
  StringBody.isPrintable value.toList

/-- **Round trip.** A well-formed program whose statements but the last one end
with semicolons is parsed from its text without an error, to the same nodes and
fields everywhere. -/
theorem parse_render {p : Program} (hwf : p.isWellFormed isPrintable = true)
    (hd : areDelimited p.statements = true) :
    (parse p.render).errors = [] ∧ (parse p.render).program.unmarked = p.unmarked := by
  have hg : Respells isPrintable id := fun _ h rest => contents_renderString h rest
  exact parse_renderJoined hg hwf hd

theorem parse_render_sample :
    let m : Mark := ⟨"", ⟨3, 7⟩⟩
    let f : Expr := .function ⟨"fn", ⟨3, 7⟩⟩ [⟨m, "a"⟩, ⟨m, "b_1"⟩]
      (.mk m [.expression m (.infixOp m (.identifier m "a") "!=" (.prefixOp m "!"
        (.prefixOp m "-" (.integer m 12)))),
        .leave ⟨"return", ⟨3, 7⟩⟩ (.boolean ⟨"true", ⟨3, 7⟩⟩ true)])
    let p : Program := ⟨[.binding ⟨"let", ⟨3, 7⟩⟩ ⟨m, "f"⟩ f,
      .expression m (.conditional m (.call m f [.string m "a\n\\\"", .array m []])
        (.mk m [.expression m (.loop m (.identifier m "x") (.mk m []))])
        (some (.mk m [.expression m (.index m (.hash m [(.identifier m "x", .integer m 0)])
          (.identifier m "x"))])))]⟩
    p.isWellFormed isPrintable = true ∧ areDelimited p.statements = true ∧
      (parse p.render).errors = [] ∧ (parse p.render).program.unmarked = p.unmarked := by
  intro m f p
  have hwf : p.isWellFormed isPrintable = true := by cbv
  have hd : areDelimited p.statements = true := by cbv
  exact ⟨hwf, hd, parse_render hwf hd⟩

end MonkeyLang
