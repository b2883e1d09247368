import MonkeyLang.Proofs.Binding
import MonkeyLang.Proofs.Lexing
import MonkeyLang.Proofs.Literal
import MonkeyLang.Proofs.ParseAllowance
import MonkeyLang.Proofs.Places

/-!
# The parser is complete

Every derivation of the grammar is found by the parser, with its tree and
without an error.

The grammar builds a chain of operators from the left, the parser from the
inside: it reads an operand and extends it. The two meet in `ReadAs`: on the
tokens of a phrase, the expression rule does the same as the loop that extends
an operand, entered behind the phrase with its tree. Whether the loop then goes
on is up to the next token, so a phrase may be the left part of a longer one.

Steps are counted by `ParseAllowance`, so here every rule is compared with its
answer only as far as its steps reach (`Upto`).
-/

namespace MonkeyLang

open ParseState

/-! ## As far as the steps reach -/

/-- `r` is `r'`, unless its steps were used up. -/
def Reply.Upto {α : Type} (r r' : Reply α) : Prop := r = .exhausted ∨ r = r'

section Upto

variable {α β : Type} {r r' r'' : Reply α} {s : ParseState}

theorem Reply.Upto.refl (r : Reply α) : r.Upto r := .inr rfl

theorem Reply.Upto.trans (h : r.Upto r') (h' : r'.Upto r'') : r.Upto r'' := by
  rcases h with h | rfl
  · exact .inl h
  · exact h'

theorem Reply.Upto.andThen {f : α → ParseState → Reply β} {a : α} {q : Reply β}
    (h : r.Upto (.parsed a s)) (hf : (f a s).Upto q) : (r.andThen f).Upto q := by
  rcases h with rfl | rfl
  · exact .inl rfl
  · exact hf

theorem Reply.Upto.either {f : Option α → ParseState → Reply β} {a : α} {q : Reply β}
    (h : r.Upto (.parsed a s)) (hf : (f (some a) s).Upto q) : (r.either f).Upto q := by
  rcases h with rfl | rfl
  · exact .inl rfl
  · exact hf

theorem Reply.Upto.mapState {a : α} (g : ParseState → ParseState)
    (h : r.Upto (.parsed a s)) : (r.mapState g).Upto (.parsed a (g s)) := by
  rcases h with rfl | rfl
  · exact .inl rfl
  · exact .inr rfl

theorem upto_expect {β : Type} {k : TokenKind} {t c : Token} {us : List Token}
    {f : Token → ParseState → Reply β} {q : Reply β} (hc : c.kind = k)
    (hf : (f c (ofTokens (c :: us))).Upto q) :
    (((ofTokens (t :: c :: us)).expect k).andThen f).Upto q := by
  have he : (ofTokens (t :: c :: us)).expect k = .parsed c (ofTokens (c :: us)) := if_pos hc
  rw [he]
  exact hf

end Upto

theorem advance_ofTokens {t : Token} {us : List Token} (h : us ≠ []) :
    (ofTokens (t :: us)).advance = ofTokens us := by
  cases us with
  | nil => exact absurd rfl h
  | cons u us => rfl

theorem advance_append {t c : Token} {ts rest : List Token} :
    (ofTokens (t :: (ts ++ c :: rest))).advance = ofTokens (ts ++ c :: rest) :=
  advance_ofTokens (by simp)

theorem peek_ofTokens (t u : Token) (us : List Token) : (ofTokens (t :: u :: us)).peek = u := rfl

theorem current_ofTokens (t : Token) (us : List Token) : (ofTokens (t :: us)).current = t := rfl

/-! ## How a phrase starts -/

/-- The kinds of token that an expression can start with. -/
def starters : List TokenKind :=
  [.ident, .int, .string, .kwTrue, .kwFalse, .bang, .minus, .lparen, .lbracket, .lbrace,
    .kwIf, .kwWhile, .kwFn]

theorem Phrase.starts : ∀ {tier : Tier} {ts : List Token} {e : Expr}, Phrase tier ts e →
    ∃ t us, ts = t :: us ∧ t.kind ∈ starters
  | _, _, _, .tighten _ h => h.starts
  | _, _, _, .binary _ _ h _ | _, _, _, .call _ _ h _ | _, _, _, .index _ _ h _ => by
      obtain ⟨t, us, rfl, ht⟩ := h.starts
      exact ⟨t, _, rfl, ht⟩
  | _, _, _, .unary h _ => by
      refine ⟨_, _, rfl, ?_⟩
      rcases h with h | h <;> rw [h] <;> decide
  | _, _, _, .identifier h | _, _, _, .integer h _ _ | _, _, _, .string h | _, _, _, .truth h
  | _, _, _, .falsity h | _, _, _, .group h _ _ | _, _, _, .array h _ _ | _, _, _, .hash h _ _
  | _, _, _, .conditional h _ _ _ _ _ | _, _, _, .loop h _ _ _ _
  | _, _, _, .function h _ _ _ _ => ⟨_, _, rfl, by rw [h]; decide⟩

theorem Clause.starts {ts : List Token} {stmt : Stmt} (h : Clause ts stmt) :
    ∃ t us, ts = t :: us ∧ (t.kind = .kwLet ∨ t.kind = .kwReturn ∨ t.kind ∈ starters) := by
  cases h with
  | binding hk => exact ⟨_, _, rfl, .inl hk⟩
  | leave hk => exact ⟨_, _, rfl, .inr (.inl hk)⟩
  | expression h =>
      obtain ⟨t, us, hts, ht⟩ := h.starts
      exact ⟨t, us, hts, .inr (.inr ht)⟩

theorem Braces.starts {ts : List Token} {b : Block} (h : Braces ts b) :
    ∃ t us, ts = t :: us ∧ t.kind = .lbrace := by
  cases h with
  | mk ho _ _ => exact ⟨_, _, rfl, ho⟩

theorem Phrase.starter {tier : Tier} {t : Token} {ts : List Token} {e : Expr}
    (h : Phrase tier (t :: ts) e) : t.kind ∈ starters := by
  obtain ⟨_, _, heq, ht⟩ := h.starts
  cases heq
  exact ht

theorem Phrase.peek_ne {tier : Tier} {ts : List Token} {e : Expr} (h : Phrase tier ts e)
    {k : TokenKind} (hk : k ∉ starters) {o : Token} {vs : List Token} :
    (ofTokens (o :: (ts ++ vs))).peek.kind ≠ k := by
  obtain ⟨t, us, rfl, ht⟩ := h.starts
  rintro rfl
  exact hk ht

theorem Clause.current_ne {ts : List Token} {stmt : Stmt} (h : Clause ts stmt) (inBlock : Bool)
    {vs : List Token} : ¬((ofTokens (ts ++ vs)).current.kind = .eof ∨
      (inBlock ∧ (ofTokens (ts ++ vs)).current.kind = .rbrace)) := by
  obtain ⟨t, us, rfl, ht⟩ := h.starts
  rw [List.cons_append, current_ofTokens]
  rintro (hk | ⟨-, hk⟩) <;> rw [hk] at ht <;> exact absurd ht (by decide)

/-! ## Single steps -/

theorem continuation_operator {n : Nat} {left : Expr} {op : Token} {us : List Token}
    (hcall : op.kind ≠ .lparen) (hindex : op.kind ≠ .lbracket) :
    continuation (n + 1) left (ofTokens (op :: us)) =
      (expression n op.kind.level (ofTokens (op :: us)).advance).andThen fun right s =>
        .parsed (.infixOp op.mark left op.text right) s := by
  unfold continuation
  split
  · exact absurd ‹_› hcall
  · exact absurd ‹_› hindex
  · rfl

theorem statement_expression {n : Nat} {t : Token} {us : List Token} (ht : t.kind ∈ starters) :
    statement (n + 1) (ofTokens (t :: us)) =
      ((expression n lowestLevel (ofTokens (t :: us))).mapState
        (·.skipOptional .semicolon)).andThen fun e s => .parsed (.expression t.mark e) s := by
  unfold statement
  split
  · rename_i hk
    rw [show t.kind = .kwLet from hk] at ht
    exact absurd ht (by decide)
  · rename_i hk
    rw [show t.kind = .kwReturn from hk] at ht
    exact absurd ht (by decide)
  · rfl

theorem skipOptional_ofTokens {k : TokenKind} {t c : Token} {us : List Token} (hc : c.kind = k) :
    (ofTokens (t :: c :: us)).skipOptional k = ofTokens (c :: us) := if_pos hc

theorem skipOptional_ofTokens_ne {k : TokenKind} {t c : Token} {us : List Token}
    (hc : c.kind ≠ k) :
    (ofTokens (t :: c :: us)).skipOptional k = ofTokens (t :: c :: us) := if_neg hc

/-! ## Parameters -/

theorem moreParameters_complete {ts : List Token} {names : List Name} (h : MoreNames ts names) :
    ∀ n t c rest, c.kind = .rparen →
      (moreParameters n (ofTokens (t :: (ts ++ c :: rest)))).Upto
        (.parsed names (ofTokens (c :: rest))) := by
  induction h with
  | nil =>
      intro n t c rest hc
      cases n with
      | zero => exact .inl rfl
      | succ n =>
          unfold moreParameters
          rw [if_neg (by rw [List.nil_append, peek_ofTokens, hc]; decide)]
          exact upto_expect hc (.refl _)
  | @cons comma u ts names hcomma hu _ ih =>
      intro n t c rest hc
      cases n with
      | zero => exact .inl rfl
      | succ n =>
          unfold moreParameters
          rw [if_pos (by exact hcomma)]
          refine upto_expect hu ?_
          exact .andThen (ih n u c rest hc) (.refl _)

theorem parameters_complete {ts : List Token} {names : List Name} (h : Names ts names)
    {n : Nat} {t c : Token} {rest : List Token} (hc : c.kind = .rparen) :
    (parameters n (ofTokens (t :: (ts ++ c :: rest)))).Upto
      (.parsed names (ofTokens (c :: rest))) := by
  unfold parameters
  cases h with
  | nil =>
      rw [if_pos (by exact hc)]
      exact .refl _
  | @cons u ts names hu hm =>
      rw [if_neg (by rw [List.cons_append, peek_ofTokens, hu]; decide)]
      refine upto_expect hu ?_
      exact .andThen (moreParameters_complete hm n u c rest hc) (.refl _)

/-! ## Reading a phrase -/

/-- The first of these tokens neither carries on an expression nor is an
`else`. -/
def Halts (vs : List Token) : Prop :=
  ∃ next rest, vs = next :: rest ∧ next.kind.level ≤ lowestLevel ∧ next.kind ≠ .kwElse

theorem halts_cons {next : Token} {k : TokenKind} (rest : List Token) (hk : next.kind = k)
    (h : k.level ≤ lowestLevel ∧ k ≠ .kwElse) : Halts (next :: rest) :=
  ⟨next, rest, rfl, hk ▸ h⟩

/-- On the tokens of a phrase, the expression rule comes to the loop that
extends an operand, at the last of the tokens and with their tree. -/
def ReadAs (tier : Tier) (ts : List Token) (e : Expr) : Prop :=
  ∀ n level next rest, level ≤ tier.floor → next.kind.level ≤ tier.ceiling →
    next.kind ≠ .kwElse →
    ∃ m last, (expression n level (ofTokens (ts ++ next :: rest))).Upto
      (extend m level e (ofTokens (last :: next :: rest)))

section ReadAs

variable {tier : Tier} {ts us : List Token} {e left : Expr}

theorem extend_stops {m level : Nat} {last next : Token} {rest : List Token}
    (h : next.kind.level ≤ level) :
    (extend m level e (ofTokens (last :: next :: rest))).Upto
      (.parsed e (ofTokens (last :: next :: rest))) := by
  cases m with
  | zero => exact .inl rfl
  | succ m =>
      unfold extend
      rw [if_neg (fun hk => absurd hk.1 (Nat.not_lt.mpr h))]
      exact .refl _

/-- A token that does not bind stops the loop. -/
theorem ReadAs.stops (h : ReadAs tier ts e) {level : Nat} {next : Token} (rest : List Token)
    (hlevel : level ≤ tier.floor) (hceil : next.kind.level ≤ tier.ceiling)
    (hstop : next.kind.level ≤ level) (helse : next.kind ≠ .kwElse) (n : Nat) :
    ∃ last, (expression n level (ofTokens (ts ++ next :: rest))).Upto
      (.parsed e (ofTokens (last :: next :: rest))) := by
  obtain ⟨m, last, hm⟩ := h n level next rest hlevel hceil helse
  exact ⟨last, hm.trans (extend_stops hstop)⟩

/-- So does the token that closes or separates what an expression stands in. -/
theorem ReadAs.closes (h : ReadAs .equality ts e) {vs : List Token} (hvs : Halts vs) (n : Nat) :
    ∃ last, (expression n lowestLevel (ofTokens (ts ++ vs))).Upto
      (.parsed e (ofTokens (last :: vs))) := by
  obtain ⟨next, rest, rfl, hstop, helse⟩ := hvs
  exact h.stops rest (by decide) (Nat.le_trans hstop (by decide)) hstop helse n

theorem ReadAs.tighten {tighter : Tier} (ht : tier.tighter? = some tighter)
    (h : ReadAs tighter ts e) : ReadAs tier ts e := fun n level next rest hlevel hceil helse =>
  h n level next rest (Nat.le_trans hlevel (Tier.floor_le_of_tighter? ht))
    (Nat.le_trans hceil (Tier.ceiling_le_of_tighter? ht)) helse

theorem ReadAs.of_operand
    (h : ∀ n next rest, next.kind.level ≤ tier.ceiling → next.kind ≠ .kwElse →
      ∃ last, (operand (n + 1) (ofTokens (ts ++ next :: rest))).Upto
        (.parsed e (ofTokens (last :: next :: rest)))) : ReadAs tier ts e := by
  intro n level next rest _ hceil helse
  match n with
  | 0 => exact ⟨0, next, .inl rfl⟩
  | 1 => exact ⟨0, next, .inl rfl⟩
  | n + 2 =>
      obtain ⟨last, hlast⟩ := h n next rest hceil helse
      refine ⟨n + 1, last, ?_⟩
      unfold expression
      exact .andThen hlast (.refl _)

/-- The loop goes on at a token that binds, and comes to itself again behind
what this token starts. -/
theorem ReadAs.of_continuation {op : Token} (hleft : ReadAs tier ts left)
    (hfloor : tier.floor < op.kind.level) (hop : op.kind.level ≤ tier.ceiling)
    (helse : op.kind ≠ .kwElse)
    (h : ∀ n next rest, next.kind.level ≤ tier.ceiling → next.kind ≠ .kwElse →
      ∃ last, (continuation (n + 1) left (ofTokens (op :: (us ++ next :: rest)))).Upto
        (.parsed e (ofTokens (last :: next :: rest)))) :
    ReadAs tier (ts ++ op :: us) e := by
  intro n level next rest hlevel hceil hne
  have hbinds : level < op.kind.level ∧ lowestLevel < op.kind.level :=
    ⟨Nat.lt_of_le_of_lt hlevel hfloor, Nat.lt_of_le_of_lt (lowestLevel_le_floor tier) hfloor⟩
  rw [List.append_assoc, List.cons_append]
  obtain ⟨m, last, hm⟩ := hleft n level op (us ++ next :: rest) hlevel hop helse
  match m with
  | 0 => exact ⟨0, next, hm.trans (.inl rfl)⟩
  | 1 =>
      refine ⟨0, next, hm.trans (.inl ?_)⟩
      unfold extend
      rw [peek_ofTokens, if_pos hbinds]
      rfl
  | m + 2 =>
      obtain ⟨last', hlast⟩ := h m next rest hceil hne
      refine ⟨m + 1, last', hm.trans ?_⟩
      unfold extend
      rw [peek_ofTokens, if_pos hbinds]
      exact .andThen hlast (.refl _)

end ReadAs

/-! ## What may follow -/

theorem MoreItems.halts {ts : List Token} {es : List Expr} (h : MoreItems ts es) {c : Token}
    (rest : List Token) (hc : c.kind = .rparen ∨ c.kind = .rbracket) : Halts (ts ++ c :: rest) := by
  cases h with
  | nil => rcases hc with hc | hc <;> exact halts_cons _ hc (by decide)
  | cons hcomma _ _ => exact halts_cons _ hcomma (by decide)

theorem Lines.starts {next : TokenKind} {ts : List Token} {stmts : List Stmt}
    (h : Lines next ts stmts) :
    ts = [] ∨ ∃ t us, ts = t :: us ∧
      (t.kind = .kwLet ∨ t.kind = .kwReturn ∨ t.kind ∈ starters) := by
  cases h with
  | nil => exact .inl rfl
  | closed _ hclause _ | bare _ hclause _ =>
      obtain ⟨t, us, rfl, ht⟩ := hclause.starts
      exact .inr ⟨t, _, rfl, ht⟩

/-- A statement without its semicolon ends before the statements that follow it. -/
theorem Lines.halts_append {next : TokenKind} {ts : List Token} {stmts : List Stmt}
    (h : Lines next ts stmts) (hbare : firstKind next ts ∉ continuers) (hts : ts ≠ [])
    (rest : List Token) :
    ∃ u us, ts ++ rest = u :: us ∧ Halts (u :: us) ∧ u.kind ≠ .semicolon := by
  obtain ⟨t, us, rfl, ht⟩ := h.starts.resolve_left hts
  have hlevel : t.kind.level ≤ lowestLevel :=
    Nat.le_of_not_lt fun hl => hbare (mem_continuers_iff.mpr hl)
  refine ⟨t, us ++ rest, rfl, ⟨t, _, rfl, hlevel, ?_⟩, ?_⟩
  · rintro hk
    rw [hk] at ht
    exact absurd ht (by decide)
  · rintro hk
    rw [hk] at ht
    exact absurd ht (by decide)

/-- A statement without its semicolon ends before what follows. -/
theorem Lines.halts {next : TokenKind} {ts : List Token} {stmts : List Stmt}
    (h : Lines next ts stmts) (hbare : firstKind next ts ∉ continuers) {c : Token}
    (rest : List Token) (hc : c.kind = next) (hend : next = .eof ∨ next = .rbrace) :
    ∃ u us, ts ++ c :: rest = u :: us ∧ Halts (u :: us) ∧ u.kind ≠ .semicolon := by
  by_cases hts : ts = []
  · subst hts
    refine ⟨c, rest, rfl, ?_⟩
    rcases hend with rfl | rfl
    · exact ⟨halts_cons _ hc (by decide), by rw [hc]; decide⟩
    · exact ⟨halts_cons _ hc (by decide), by rw [hc]; decide⟩
  · exact h.halts_append hbare hts (c :: rest)

/-! ## Every rule -/

mutual

theorem Phrase.readAs : ∀ {tier : Tier} {ts : List Token} {e : Expr}, Phrase tier ts e →
    ReadAs tier ts e
  | _, _, _, .tighten ht h => h.readAs.tighten ht
  | tier, _, _, @Phrase.binary _ tighter op ts us left right hop ht hleft hright => by
      obtain ⟨hceil, hfloor, htight, hcall, hindex, helse⟩ := level_of_mem_operators hop ht
      refine hleft.readAs.of_continuation hfloor (Nat.le_of_eq hceil) helse ?_
      intro n next rest hnext hne
      obtain ⟨last, hlast⟩ := hright.readAs.stops rest htight
        (Nat.le_trans hnext (Tier.ceiling_le_of_tighter? ht)) (hceil ▸ hnext) hne n
      refine ⟨last, ?_⟩
      rw [continuation_operator hcall hindex, advance_append]
      exact .andThen hlast (.refl _)
  | _, _, _, @Phrase.call o c ts us function arguments ho hc hf hi => by
      refine hf.readAs.of_continuation (by rw [ho]; decide) (by rw [ho]; decide)
        (by rw [ho]; decide) fun n next rest _ _ => ⟨c, ?_⟩
      unfold continuation
      simp only [current_ofTokens, ho]
      rw [List.append_assoc, List.cons_append, List.nil_append]
      exact .andThen (hi.complete n .rparen o c (next :: rest) (.inl rfl) hc) (.refl _)
  | _, _, _, @Phrase.index o c ts us left index ho hc hl hi => by
      refine hl.readAs.of_continuation (by rw [ho]; decide) (by rw [ho]; decide)
        (by rw [ho]; decide) fun n next rest _ _ => ⟨c, ?_⟩
      unfold continuation
      simp only [current_ofTokens, ho]
      rw [List.append_assoc, List.cons_append, List.nil_append, advance_append]
      obtain ⟨last, hlast⟩ := hi.readAs.closes
        (halts_cons (next :: rest) hc (by decide)) n
      exact .either hlast (upto_expect hc (.refl _))
  | _, _, _, @Phrase.unary op ts right hop h => by
      refine .of_operand ?_
      intro n next rest hnext hne
      obtain ⟨last, hlast⟩ := h.readAs.stops rest (Nat.le_refl _) hnext hnext hne n
      refine ⟨last, ?_⟩
      unfold operand
      rcases hop with hop | hop
      all_goals
        simp only [List.cons_append, current_ofTokens, hop]
        rw [advance_append]
        exact .andThen hlast (.refl _)
  | _, _, _, @Phrase.identifier t h | _, _, _, @Phrase.string t h | _, _, _, @Phrase.truth t h
  | _, _, _, @Phrase.falsity t h => by
      refine .of_operand fun n next rest _ _ => ⟨t, ?_⟩
      unfold operand
      simp only [List.cons_append, List.nil_append, current_ofTokens, h]
      exact .refl _
  | _, _, _, @Phrase.integer t h hdigits hmax => by
      refine .of_operand fun n next rest _ _ => ⟨t, ?_⟩
      unfold operand
      simp only [List.cons_append, List.nil_append, current_ofTokens, h]
      rw [literalValue?_eq hdigits, if_pos hmax]
      exact .refl _
  | _, _, _, @Phrase.group o c ts e ho hc h => by
      refine .of_operand fun n next rest _ _ => ⟨c, ?_⟩
      unfold operand
      simp only [List.cons_append, current_ofTokens, ho]
      rw [List.append_assoc, List.cons_append, List.nil_append, advance_append]
      obtain ⟨last, hlast⟩ := h.readAs.closes
        (halts_cons (next :: rest) hc (by decide)) n
      exact .either hlast (upto_expect hc (.refl _))
  | _, _, _, @Phrase.array o c ts elements ho hc h => by
      refine .of_operand fun n next rest _ _ => ⟨c, ?_⟩
      unfold operand
      simp only [List.cons_append, current_ofTokens, ho]
      rw [List.append_assoc, List.cons_append, List.nil_append]
      exact .andThen (h.complete n .rbracket o c (next :: rest) (.inr rfl) hc) (.refl _)
  | _, _, _, @Phrase.hash o c ts pairs ho hc h => by
      refine .of_operand fun n next rest _ _ => ⟨c, ?_⟩
      unfold operand
      simp only [List.cons_append, current_ofTokens, ho]
      rw [List.append_assoc, List.cons_append, List.nil_append]
      exact .andThen (h.complete n o c (next :: rest) hc) (.refl _)
  | _, _, _, @Phrase.conditional kw o c ts us vs condition consequence alternative hkw ho hc h
      hthen helse => by
      refine .of_operand ?_
      intro n next rest _ hne
      obtain ⟨last₁, hcond⟩ := h.readAs.closes
        (halts_cons (us ++ (vs ++ next :: rest)) hc (by decide)) n
      obtain ⟨last₂, hcons⟩ := hthen.complete n (vs ++ next :: rest)
      obtain ⟨last₃, halt⟩ := helse.complete n last₂ next rest hne
      refine ⟨last₃, ?_⟩
      obtain ⟨b, us', rfl, hb⟩ := hthen.starts
      unfold operand
      simp only [List.cons_append, List.append_assoc, current_ofTokens, hkw]
      refine upto_expect ho ?_
      rw [advance_append]
      refine .either hcond (upto_expect hc (upto_expect hb ?_))
      exact .andThen hcons (.andThen halt (.refl _))
  | _, _, _, @Phrase.loop kw o c ts us condition body hkw ho hc h hbody => by
      refine .of_operand ?_
      intro n next rest _ _
      obtain ⟨last₁, hcond⟩ := h.readAs.closes
        (halts_cons (us ++ next :: rest) hc (by decide)) n
      obtain ⟨last₂, hblock⟩ := hbody.complete n (next :: rest)
      refine ⟨last₂, ?_⟩
      obtain ⟨b, us', rfl, hb⟩ := hbody.starts
      unfold operand
      simp only [List.cons_append, List.append_assoc, current_ofTokens, hkw]
      refine upto_expect ho ?_
      rw [advance_append]
      refine .either hcond (upto_expect hc (upto_expect hb ?_))
      exact .andThen hblock (.refl _)
  | _, _, _, @Phrase.function kw o c ts us names body hkw ho hc h hbody => by
      refine .of_operand ?_
      intro n next rest _ _
      obtain ⟨last, hblock⟩ := hbody.complete n (next :: rest)
      refine ⟨last, ?_⟩
      obtain ⟨b, us', rfl, hb⟩ := hbody.starts
      unfold operand
      simp only [List.cons_append, List.append_assoc, current_ofTokens, hkw]
      refine upto_expect ho ?_
      refine .andThen (parameters_complete h hc) (upto_expect hb ?_)
      exact .andThen hblock (.refl _)

theorem Items.complete : ∀ {ts : List Token} {es : List Expr}, Items ts es →
    ∀ n closing o c rest, closing = .rparen ∨ closing = .rbracket → c.kind = closing →
      (expressions n closing (ofTokens (o :: (ts ++ c :: rest)))).Upto
        (.parsed es (ofTokens (c :: rest)))
  | _, _, _, 0, _, _, _, _, _, _ => .inl rfl
  | _, _, .nil, n + 1, closing, o, c, rest, _, hc => by
      unfold expressions
      rw [List.nil_append, peek_ofTokens, if_pos hc]
      exact .refl _
  | _, _, @Items.cons ts us e es he hes, n + 1, closing, o, c, rest, hclosing, hc => by
      have hstart : closing ∉ starters := by rcases hclosing with rfl | rfl <;> decide
      obtain ⟨last, hlast⟩ := he.readAs.closes
        (hes.halts rest (hc ▸ hclosing)) n
      unfold expressions
      rw [advance_append, List.append_assoc, if_neg (he.peek_ne hstart)]
      exact .andThen hlast
        (.andThen (hes.complete n closing last c rest hclosing hc) (.refl _))

theorem MoreItems.complete : ∀ {ts : List Token} {es : List Expr}, MoreItems ts es →
    ∀ n closing o c rest, closing = .rparen ∨ closing = .rbracket → c.kind = closing →
      (moreExpressions n closing (ofTokens (o :: (ts ++ c :: rest)))).Upto
        (.parsed es (ofTokens (c :: rest)))
  | _, _, _, 0, _, _, _, _, _, _ => .inl rfl
  | _, _, .nil, n + 1, closing, o, c, rest, hclosing, hc => by
      unfold moreExpressions
      rw [List.nil_append, peek_ofTokens, if_neg (by rcases hclosing with rfl | rfl <;> simp [hc])]
      exact upto_expect hc (.refl _)
  | _, _, @MoreItems.cons comma ts us e es hcomma he hes, n + 1, closing, o, c, rest, hclosing,
      hc => by
      obtain ⟨last, hlast⟩ := he.readAs.closes
        (hes.halts rest (hc ▸ hclosing)) n
      unfold moreExpressions
      rw [if_pos (by exact hcomma), advance_append, List.cons_append, advance_append,
        List.append_assoc]
      exact .andThen hlast
        (.andThen (hes.complete n closing last c rest hclosing hc) (.refl _))

theorem Pairs.complete : ∀ {ts : List Token} {ps : List (Expr × Expr)}, Pairs ts ps →
    ∀ n o c rest, c.kind = .rbrace →
      (pairs n (ofTokens (o :: (ts ++ c :: rest)))).Upto (.parsed ps (ofTokens (c :: rest)))
  | _, _, _, 0, _, _, _, _ => .inl rfl
  | _, _, .nil, n + 1, o, c, rest, hc => by
      unfold pairs
      rw [List.nil_append, peek_ofTokens, if_pos hc]
      exact .refl _
  | _, _, @Pairs.last colon ts us key value hcolon hkey hvalue, n + 1, o, c, rest, hc => by
      obtain ⟨last₁, h₁⟩ := hkey.readAs.closes
        (halts_cons (us ++ c :: rest) hcolon (by decide)) n
      obtain ⟨last₂, h₂⟩ := hvalue.readAs.closes (halts_cons rest hc (by decide)) n
      unfold pairs
      rw [advance_append, List.append_assoc, List.cons_append, if_neg (hkey.peek_ne (by decide))]
      refine .either h₁ (upto_expect hcolon ?_)
      rw [advance_append]
      refine .either h₂ ?_
      show Reply.Upto (if _ then _ else _) _
      rw [peek_ofTokens, if_pos hc]
      exact .refl _
  | _, _, @Pairs.cons colon comma ts us vs key value ps hcolon hcomma hkey hvalue hps, n + 1, o,
      c, rest, hc => by
      obtain ⟨last₁, h₁⟩ := hkey.readAs.closes
        (halts_cons (us ++ comma :: (vs ++ c :: rest)) hcolon (by decide)) n
      obtain ⟨last₂, h₂⟩ := hvalue.readAs.closes
        (halts_cons (vs ++ c :: rest) hcomma (by decide)) n
      unfold pairs
      rw [advance_append, List.append_assoc, List.cons_append, List.append_assoc,
        List.cons_append, if_neg (hkey.peek_ne (by decide))]
      refine .either h₁ (upto_expect hcolon ?_)
      rw [advance_append]
      refine .either h₂ ?_
      show Reply.Upto (if _ then _ else _) _
      rw [peek_ofTokens, if_neg (by rw [hcomma]; decide)]
      exact upto_expect hcomma (.andThen (hps.complete n comma c rest hc) (.refl _))

theorem Braces.complete : ∀ {ts : List Token} {b : Block}, Braces ts b → ∀ n rest,
    ∃ last, (block n (ofTokens (ts ++ rest))).Upto (.parsed b (ofTokens (last :: rest)))
  | _, _, _, 0, _ => ⟨⟨.eof, "", .start⟩, .inl rfl⟩
  | _, _, @Braces.mk o c ts body ho hc h, n + 1, rest => by
      refine ⟨c, ?_⟩
      unfold block
      rw [List.cons_append, List.append_assoc, List.cons_append, List.nil_append, advance_append]
      refine .andThen (h.complete n true c rest hc (.inr ⟨rfl, hc⟩)) ?_
      rw [if_neg (by rw [current_ofTokens, hc]; decide)]
      exact .refl _

theorem Otherwise.complete : ∀ {ts : List Token} {b : Option Block}, Otherwise ts b →
    ∀ n o next rest, next.kind ≠ .kwElse →
      ∃ last, (alternative n (ofTokens (o :: (ts ++ next :: rest)))).Upto
        (.parsed b (ofTokens (last :: next :: rest)))
  | _, _, _, 0, o, _, _, _ => ⟨o, .inl rfl⟩
  | _, _, .missing, n + 1, o, next, rest, hne => by
      refine ⟨o, ?_⟩
      unfold alternative
      rw [List.nil_append, peek_ofTokens, if_neg hne]
      exact .refl _
  | _, _, @Otherwise.present kw ts b hkw h, n + 1, o, next, rest, _ => by
      obtain ⟨last, hlast⟩ := h.complete n (next :: rest)
      obtain ⟨t, ts', rfl, ht⟩ := h.starts
      refine ⟨last, ?_⟩
      unfold alternative
      rw [if_pos (by exact hkw)]
      exact upto_expect ht (.andThen hlast (.refl _))

theorem Lines.complete : ∀ {next : TokenKind} {ts : List Token} {stmts : List Stmt},
    Lines next ts stmts → ∀ n inBlock c rest, c.kind = next →
      c.kind = .eof ∨ (inBlock = true ∧ c.kind = .rbrace) →
      (statements n inBlock (ofTokens (ts ++ c :: rest))).Upto
        (.parsed stmts (ofTokens (c :: rest)))
  | _, _, _, _, 0, _, _, _, _, _ => .inl rfl
  | _, _, _, .nil, n + 1, inBlock, c, rest, _, hend => by
      unfold statements
      rw [List.nil_append, current_ofTokens, if_pos hend]
      exact .refl _
  | _, _, _, @Lines.closed next semi ts us stmt stmts hsemi hclause hlines, n + 1, inBlock, c,
      rest, hc, hend => by
      obtain ⟨last, hlast⟩ := hclause.complete n
        (halts_cons (us ++ c :: rest) hsemi (by decide))
      unfold statements
      rw [List.append_assoc, List.cons_append, if_neg (hclause.current_ne inBlock)]
      refine .either hlast ?_
      rw [skipOptional_ofTokens hsemi, advance_append]
      exact .andThen (hlines.complete n inBlock c rest hc hend) (.refl _)
  | _, _, _, @Lines.bare next ts us stmt stmts hbare hclause hlines, n + 1, inBlock, c, rest, hc,
      hend => by
      obtain ⟨u, us', heq, hhalts, hne⟩ := hlines.halts hbare rest hc
        (hc ▸ hend.imp_right And.right)
      obtain ⟨last, hlast⟩ := hclause.complete n hhalts
      unfold statements
      rw [List.append_assoc, heq, if_neg (hclause.current_ne inBlock)]
      refine .either hlast ?_
      rw [skipOptional_ofTokens_ne hne, advance_ofTokens (List.cons_ne_nil u us'), ← heq]
      exact .andThen (hlines.complete n inBlock c rest hc hend) (.refl _)

theorem Clause.complete : ∀ {ts : List Token} {stmt : Stmt}, Clause ts stmt →
    ∀ n {vs : List Token}, Halts vs →
      ∃ last, (statement n (ofTokens (ts ++ vs))).Upto
        (.parsed stmt ((ofTokens (last :: vs)).skipOptional .semicolon))
  | _, _, _, 0, _, _ => ⟨⟨.eof, "", .start⟩, .inl rfl⟩
  | _, _, @Clause.binding kw t assign ts value hkw ht ha h, n + 1, vs, hvs => by
      obtain ⟨last, hlast⟩ := h.readAs.closes hvs n
      obtain ⟨v, vs, rfl, -⟩ := hvs
      refine ⟨last, ?_⟩
      unfold statement
      simp only [List.cons_append, current_ofTokens, hkw]
      refine upto_expect ht (upto_expect ha ?_)
      rw [advance_append]
      exact .andThen (.mapState _ hlast) (.refl _)
  | _, _, @Clause.leave kw ts value hkw h, n + 1, vs, hvs => by
      obtain ⟨last, hlast⟩ := h.readAs.closes hvs n
      obtain ⟨v, vs, rfl, -⟩ := hvs
      refine ⟨last, ?_⟩
      unfold statement
      simp only [List.cons_append, current_ofTokens, hkw]
      rw [advance_append]
      exact .andThen (.mapState _ hlast) (.refl _)
  | _, _, @Clause.expression t ts e h, n + 1, vs, hvs => by
      obtain ⟨last, hlast⟩ := h.readAs.closes hvs n
      refine ⟨last, ?_⟩
      rw [List.cons_append, statement_expression h.starter]
      exact .andThen (.mapState _ hlast) (.refl _)

end

/-! ## Whole texts -/

/-- The tokens of a derivation are parsed to its tree. -/
theorem parseTokens_of_derives {ts : List Token} {p : Program} (h : Derives ts p) {t : Token}
    (ht : t.kind = .eof) : parseTokens (ts ++ [t]) = ⟨p, []⟩ := by
  obtain ⟨body, s', hs'⟩ := statements_ofTokens ts ht
  have hup := Lines.complete h (stepsFor (ts ++ [t]).length) false t [] ht (.inl ht)
  rw [hs'] at hup
  unfold parseTokens
  rw [hs']
  rcases hup with hup | hup
  · exact nomatch hup
  · obtain ⟨rfl, rfl⟩ := Reply.parsed.inj hup
    rfl

theorem placeless_eq_of_content {ts us : List Token}
    (h : ts.map Token.content = us.map Token.content) :
    ts.map Token.placeless = us.map Token.placeless := by
  have hmap : ∀ vs : List Token, vs.map Token.placeless =
      (vs.map Token.content).map fun c => ⟨c.1, c.2, .start⟩ := fun vs => by
    rw [List.map_map]
    rfl
  rw [hmap ts, hmap us, h]

/-- A text whose tokens are those of a derivation, wherever they stand, is
parsed to its tree. -/
theorem parse_of_contents {ts : List Token} {p : Program} (h : Derives ts p) {source : String}
    (hsource : (tokenize source).map Token.content = ts.map Token.content ++ [(.eof, "")]) :
    (parse source).errors = [] ∧ (parse source).program.placeless = p.placeless := by
  let last : Token := ⟨.eof, "", .start⟩
  have hlast : ts.map Token.content ++ [(.eof, "")] = (ts ++ [last]).map Token.content := by
    rw [List.map_append]
    rfl
  obtain ⟨hprogram, herrors⟩ :=
    parseTokens_congr (placeless_eq_of_content (hsource.trans hlast))
  have hts : parseTokens (ts ++ [last]) = ⟨p, []⟩ := parseTokens_of_derives h rfl
  rw [hts] at hprogram herrors
  exact ⟨herrors, hprogram⟩

/-- **Completeness.** A text whose tokens are those of a program of the grammar
is parsed without an error, and to its tree. A sequence of tokens has one tree
at most. -/
theorem parse_complete {ts : List Token} {p : Program} (h : Derives ts p) :
    (∀ source : String,
      (tokenize source).map Token.content = ts.map Token.content ++ [(.eof, "")] →
      (parse source).errors = [] ∧ (parse source).program.placeless = p.placeless) ∧
    ∀ q, Derives ts q → q = p := by
  refine ⟨fun source hsource => parse_of_contents h hsource, fun q hq => ?_⟩
  let last : Token := ⟨.eof, "", .start⟩
  exact congrArg Parsed.program
    ((parseTokens_of_derives hq (rfl : last.kind = .eof)).symm.trans (parseTokens_of_derives h rfl))

theorem parse_complete_product :
    Derives [⟨.minus, "-", ⟨1, 1⟩⟩, ⟨.ident, "a", ⟨1, 2⟩⟩, ⟨.asterisk, "*", ⟨1, 4⟩⟩,
        ⟨.ident, "b", ⟨1, 6⟩⟩]
      ⟨[.expression ⟨"-", ⟨1, 1⟩⟩ (.infixOp ⟨"*", ⟨1, 4⟩⟩
        (.prefixOp ⟨"-", ⟨1, 1⟩⟩ "-" (.identifier ⟨"a", ⟨1, 2⟩⟩ "a")) "*"
        (.identifier ⟨"b", ⟨1, 6⟩⟩ "b"))]⟩ ∧
    (parse "- a\n*b").errors = [] ∧
    (parse "- a\n*b").program.placeless =
      ⟨[.expression ⟨"-", .start⟩ (.infixOp ⟨"*", .start⟩
        (.prefixOp ⟨"-", .start⟩ "-" (.identifier ⟨"a", .start⟩ "a")) "*"
        (.identifier ⟨"b", .start⟩ "b"))]⟩ := by
  have hatom : ∀ name place, Phrase .unary [⟨.ident, name, place⟩]
      (.identifier ⟨name, place⟩ name) :=
    fun _ _ => .tighten rfl (.tighten rfl (.identifier rfl))
  have hleft : Phrase .product [⟨.minus, "-", ⟨1, 1⟩⟩, ⟨.ident, "a", ⟨1, 2⟩⟩]
      (.prefixOp ⟨"-", ⟨1, 1⟩⟩ "-" (.identifier ⟨"a", ⟨1, 2⟩⟩ "a")) :=
    .tighten rfl (.unary (.inr rfl) (hatom "a" ⟨1, 2⟩))
  have hop : (⟨.asterisk, "*", ⟨1, 4⟩⟩ : Token).kind ∈ Tier.product.operators := by decide
  have hproduct := Phrase.binary hop rfl hleft (hatom "b" ⟨1, 6⟩)
  have hclause := Clause.expression
    (.tighten rfl (.tighten rfl (.tighten rfl hproduct)) : Phrase .equality _ _)
  have hderives : Lines .eof _ _ := .bare (by decide) hclause .nil
  exact ⟨hderives, (parse_complete hderives).1 _ (by cbv)⟩

end MonkeyLang
