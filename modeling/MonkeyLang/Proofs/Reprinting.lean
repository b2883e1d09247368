import MonkeyLang.Proofs.ParsedForm
import MonkeyLang.Proofs.RoundTrip

/-!
# Printing what has been printed

The text of an expression is a text of the language, and what is printed of the tree of
this text is the same text again (`parse_render_stable`). The tree need not be the same:
the value of a string literal may change where a backslash stands before a line feed or a
tab, but then both values are printed alike.

There is one exception. A string literal that no quote closes may end in a backslash
without a partner. When it is printed, the quote that should close it becomes the partner
of the backslash, so the text that is printed is read in another way.
-/

namespace MonkeyLang

/-! ## Printed literals -/

namespace StringBody

/-- Read from left to right, each backslash with the character after it, the text ends with
a backslash that has no partner. -/
def dangles : List Char → Bool
  | [] => false
  | ['\\'] => true
  | '\\' :: _ :: cs => dangles cs
  | _ :: cs => dangles cs

/-- Read in this way, every backslash of the text has a partner, and every quote is one. -/
def isPaired : List Char → Bool
  | [] => true
  | ['\\'] => false
  | '\\' :: _ :: cs => isPaired cs
  | c :: cs => c ≠ '"' && isPaired cs

theorem isPaired_cons {c : Char} (hslash : c ≠ '\\') (hquote : c ≠ '"') (cs : List Char) :
    isPaired (c :: cs) = isPaired cs := by
  rw [isPaired, decide_eq_true hquote, Bool.true_and]
  · rintro rfl
    exact absurd rfl hslash
  · rintro _ _ rfl
    exact absurd rfl hslash

theorem dangles_cons {c : Char} (hslash : c ≠ '\\') (cs : List Char) :
    dangles (c :: cs) = dangles cs := by
  rw [dangles]
  · rintro rfl
    exact absurd rfl hslash
  · rintro _ _ rfl
    exact absurd rfl hslash

theorem Means.isPaired {body text : List Char} (h : Means body text) : isPaired text = true := by
  induction h with
  | nil => rfl
  | lineFeed _ ih => rw [isPaired_cons (by decide) (by decide), ih]
  | tab _ ih => rw [isPaired_cons (by decide) (by decide), ih]
  | pair _ _ _ ih => rw [StringBody.isPaired, ih]
  | plain hslash hquote _ ih => rw [isPaired_cons hslash hquote, ih]

theorem Means.dangles {body text : List Char} (h : Means body text) :
    dangles (text ++ ['\\']) = true := by
  induction h with
  | nil => rfl
  | lineFeed _ ih => rw [List.cons_append, dangles_cons (by decide), ih]
  | tab _ ih => rw [List.cons_append, dangles_cons (by decide), ih]
  | pair _ _ _ ih => rw [List.cons_append, List.cons_append, StringBody.dangles, ih]
  | plain hslash _ _ ih => rw [List.cons_append, dangles_cons hslash, ih]

/-- What is printed of a paired text can stand between quotes, and it is printed of what it
stands for too. -/
theorem exists_means_escape {text : List Char} (h : isPaired text = true) :
    ∃ text', Means (escape text) text' ∧ escape text' = escape text := by
  fun_induction isPaired text with
  | case1 => exact ⟨[], .nil, rfl⟩
  | case2 => exact nomatch h
  | case3 c cs ih =>
      obtain ⟨text', hmeans, hescape⟩ := ih h
      by_cases hlf : c = '\n'
      · subst hlf
        refine ⟨'\\' :: '\\' :: 'n' :: text',
          .pair (by decide) (by decide) (.plain (by decide) (by decide) hmeans), ?_⟩
        simp only [escape_cons, hescape]
        rfl
      by_cases htab : c = '\t'
      · subst htab
        refine ⟨'\\' :: '\\' :: 't' :: text',
          .pair (by decide) (by decide) (.plain (by decide) (by decide) hmeans), ?_⟩
        simp only [escape_cons, hescape]
        rfl
      have hchar : escapeChar c = [c] := by rw [escapeChar, if_neg hlf, if_neg htab]
      have hpair : escape ('\\' :: c :: cs) = '\\' :: c :: escape cs := by
        rw [escape_cons, escape_cons, hchar]
        rfl
      rw [hpair]
      by_cases hn : c = 'n'
      · subst hn
        exact ⟨'\n' :: text', .lineFeed hmeans, by rw [escape_cons, hescape]; rfl⟩
      by_cases ht : c = 't'
      · subst ht
        exact ⟨'\t' :: text', .tab hmeans, by rw [escape_cons, hescape]; rfl⟩
      refine ⟨'\\' :: c :: text', .pair hn ht hmeans, ?_⟩
      rw [escape_cons, escape_cons, hchar, hescape]
      rfl
  | case4 c cs hsingle hpair ih =>
      rw [Bool.and_eq_true, decide_eq_true_eq] at h
      obtain ⟨text', hmeans, hescape⟩ := ih h.2
      have hslash : c ≠ '\\' := fun hc => by
        cases cs with
        | nil => exact hsingle hc rfl
        | cons d ds => exact hpair d ds hc rfl
      by_cases hlf : c = '\n'
      · subst hlf
        exact ⟨'\n' :: text', .lineFeed hmeans, by rw [escape_cons, escape_cons, hescape]⟩
      by_cases htab : c = '\t'
      · subst htab
        exact ⟨'\t' :: text', .tab hmeans, by rw [escape_cons, escape_cons, hescape]⟩
      have hchar : escapeChar c = [c] := by rw [escapeChar, if_neg hlf, if_neg htab]
      refine ⟨c :: text', ?_, by rw [escape_cons, escape_cons, hescape]⟩
      rw [escape_cons, hchar]
      exact .plain hslash h.1 hmeans

end StringBody

/-- A text that can be the value of a string literal that a quote closes. -/
def isPairedText (value : String) : Bool :=
  StringBody.isPaired value.toList

/-- The value of the literal that is printed for a text. -/
def reread (value : String) : String :=
  String.ofList (StringBody.unescape (StringBody.escape value.toList))

theorem respells_reread : Respells isPairedText reread := by
  intro value h rest
  obtain ⟨text, hmeans, -⟩ := StringBody.exists_means_escape h
  have htext : (renderString value).toList ++ rest =
      '"' :: (StringBody.escape value.toList ++ '"' :: rest) := by
    simp only [renderString, String.toList_append, String.toList_ofList, List.append_assoc]
    rfl
  rw [htext, contents_string (hmeans.split_closed rest)]
  rfl

theorem renderString_reread {value : String} (h : isPairedText value = true) :
    renderString (reread value) = renderString value := by
  obtain ⟨text, hmeans, hescape⟩ := StringBody.exists_means_escape h
  rw [renderString, reread, String.toList_ofList, hmeans.unescape, hescape]
  rfl

/-- A string of a text is paired, or it is the last token and dangles. -/
theorem isPairedText_of_mem_tokenize {source : String} {t : Token} (h : t ∈ tokenize source)
    (hk : t.kind = .string) (hd : StringBody.dangles t.text.toList = false) :
    isPairedText t.text = true := by
  rcases exists_lexeme_of_mem h with heof | ⟨x, q, rest, hx, rfl⟩
  · cases hk.symm.trans heof
  rw [Lexeme.token, String.toList_ofList] at hd
  rw [Lexeme.token, isPairedText, String.toList_ofList]
  have hwords : ∀ f ∈ keywords, f.2 ≠ .string := by decide
  have hsymbols : ∀ f ∈ fixedTexts, f.2 ≠ .string := by decide
  cases hx with
  | string hmeans => exact hmeans.isPaired
  | openString _ hmeans => exact hmeans.isPaired
  | danglingString _ hmeans => cases hmeans.dangles.symm.trans hd
  | keyword hmem _ => exact absurd hk (hwords _ hmem)
  | operator hmem _ => exact absurd hk (hsymbols _ hmem)
  | identifier _ _ _ | integer _ _ | illegal _ _ _ _ _ => cases hk

/-! ## Texts of well-formed trees -/

section Congruence

variable {ok ok' : String → Bool} {g g' : String → String}

/-- String literals that agree are printed alike. -/
def PrintsAlike (ok ok' : String → Bool) (g g' : String → String) : Prop :=
  ∀ v v', ok v = true → ok' v' = true → g v = g' v' → renderString v = renderString v'

theorem names_congr {ps ps' : List Name}
    (h : ps.map (Name.map .blank) = ps'.map (Name.map .blank)) :
    ps.map Name.value = ps'.map Name.value := by
  have hvalues := congrArg (List.map Name.value) h
  rw [List.map_map, List.map_map] at hvalues
  exact hvalues

mutual

/-- Marks do not show in the text of a well-formed tree. -/
theorem Expr.render_congr (hg : PrintsAlike ok ok' g g') : ∀ {e e' : Expr},
    e.isWellFormed ok = true → e'.isWellFormed ok' = true →
    e.map .blank g = e'.map .blank g' → e.render = e'.render
  | .identifier _ v, e', _, _, heq => by
      cases e' with
      | identifier _ v' =>
          simp only [Expr.map, Expr.identifier.injEq] at heq
          exact heq.2
      | _ => exact nomatch heq
  | .integer _ v, e', _, _, heq => by
      cases e' with
      | integer _ v' =>
          simp only [Expr.map, Expr.integer.injEq] at heq
          rw [Expr.render, Expr.render, heq.2]
      | _ => exact nomatch heq
  | .string _ v, e', h, h', heq => by
      cases e' with
      | string _ v' =>
          simp only [Expr.map, Expr.string.injEq] at heq
          exact hg v v' h h' heq.2
      | _ => exact nomatch heq
  | .boolean m v, e', h, h', heq => by
      cases e' with
      | boolean m' v' =>
          simp only [Expr.map, Expr.boolean.injEq] at heq
          simp only [Expr.isWellFormed, beq_iff_eq] at h h'
          rw [Expr.render, Expr.render, h, h', heq.2]
      | _ => exact nomatch heq
  | .prefixOp _ o r, e', h, h', heq => by
      cases e' with
      | prefixOp _ o' r' =>
          simp only [Expr.map, Expr.prefixOp.injEq] at heq
          simp only [Expr.isWellFormed, Bool.and_eq_true] at h h'
          rw [Expr.render, Expr.render, heq.2.1, Expr.render_congr hg h.2 h'.2 heq.2.2]
      | _ => exact nomatch heq
  | .infixOp _ l o r, e', h, h', heq => by
      cases e' with
      | infixOp _ l' o' r' =>
          simp only [Expr.map, Expr.infixOp.injEq] at heq
          simp only [Expr.isWellFormed, Bool.and_eq_true] at h h'
          rw [Expr.render, Expr.render, heq.2.2.1, Expr.render_congr hg h.1.2 h'.1.2 heq.2.1,
            Expr.render_congr hg h.2 h'.2 heq.2.2.2]
      | _ => exact nomatch heq
  | .conditional _ c b o, e', h, h', heq => by
      cases e' with
      | conditional _ c' b' o' =>
          simp only [Expr.map, Expr.conditional.injEq] at heq
          simp only [Expr.isWellFormed, Bool.and_eq_true] at h h'
          rw [Expr.render, Expr.render, Expr.render_congr hg h.1.1 h'.1.1 heq.2.1,
            Block.render_congr hg h.1.2 h'.1.2 heq.2.2.1,
            renderElse_congr hg h.2 h'.2 heq.2.2.2]
      | _ => exact nomatch heq
  | .loop _ c b, e', h, h', heq => by
      cases e' with
      | loop _ c' b' =>
          simp only [Expr.map, Expr.loop.injEq] at heq
          simp only [Expr.isWellFormed, Bool.and_eq_true] at h h'
          rw [Expr.render, Expr.render, Expr.render_congr hg h.1 h'.1 heq.2.1,
            Block.render_congr hg h.2 h'.2 heq.2.2]
      | _ => exact nomatch heq
  | .function m ps b, e', h, h', heq => by
      cases e' with
      | function m' ps' b' =>
          simp only [Expr.map, Expr.function.injEq] at heq
          simp only [Expr.isWellFormed, Bool.and_eq_true, beq_iff_eq] at h h'
          rw [Expr.render, Expr.render, h.1.1, h'.1.1, names_congr heq.2.1,
            Block.render_congr hg h.2 h'.2 heq.2.2]
      | _ => exact nomatch heq
  | .call _ f es, e', h, h', heq => by
      cases e' with
      | call _ f' es' =>
          simp only [Expr.map, Expr.call.injEq] at heq
          simp only [Expr.isWellFormed, Bool.and_eq_true] at h h'
          rw [Expr.render, Expr.render, Expr.render_congr hg h.1 h'.1 heq.2.1,
            renderAll_congr hg h.2 h'.2 heq.2.2]
      | _ => exact nomatch heq
  | .array _ es, e', h, h', heq => by
      cases e' with
      | array _ es' =>
          simp only [Expr.map, Expr.array.injEq] at heq
          rw [Expr.render, Expr.render, renderAll_congr hg h h' heq.2]
      | _ => exact nomatch heq
  | .index _ l i, e', h, h', heq => by
      cases e' with
      | index _ l' i' =>
          simp only [Expr.map, Expr.index.injEq] at heq
          simp only [Expr.isWellFormed, Bool.and_eq_true] at h h'
          rw [Expr.render, Expr.render, Expr.render_congr hg h.1 h'.1 heq.2.1,
            Expr.render_congr hg h.2 h'.2 heq.2.2]
      | _ => exact nomatch heq
  | .hash _ ps, e', h, h', heq => by
      cases e' with
      | hash _ ps' =>
          simp only [Expr.map, Expr.hash.injEq] at heq
          rw [Expr.render, Expr.render, renderPairs_congr hg h h' heq.2]
      | _ => exact nomatch heq
  | .statement _, _, h, _, _ => nomatch h
  | .unknown _ _, _, h, _, _ => nomatch h

theorem renderElse_congr (hg : PrintsAlike ok ok' g g') : ∀ {b b' : Option Block},
    isWellFormedElse ok b = true → isWellFormedElse ok' b' = true →
    mapElse .blank g b = mapElse .blank g' b' → renderElse b = renderElse b'
  | none, none, _, _, _ => rfl
  | none, some _, _, _, heq => nomatch heq
  | some _, none, _, _, heq => nomatch heq
  | some b, some b', h, h', heq => by
      rw [renderElse, renderElse, Block.render_congr hg h h' (Option.some.inj heq)]

theorem renderAll_congr (hg : PrintsAlike ok ok' g g') : ∀ {es es' : List Expr},
    isWellFormedAll ok es = true → isWellFormedAll ok' es' = true →
    mapAll .blank g es = mapAll .blank g' es' → renderAll es = renderAll es'
  | [], [], _, _, _ => rfl
  | [], _ :: _, _, _, heq => nomatch heq
  | _ :: _, [], _, _, heq => nomatch heq
  | e :: es, e' :: es', h, h', heq => by
      simp only [mapAll, List.cons.injEq] at heq
      simp only [isWellFormedAll, Bool.and_eq_true] at h h'
      rw [renderAll, renderAll, Expr.render_congr hg h.1 h'.1 heq.1,
        renderAll_congr hg h.2 h'.2 heq.2]

theorem renderPairs_congr (hg : PrintsAlike ok ok' g g') : ∀ {ps ps' : List (Expr × Expr)},
    isWellFormedPairs ok ps = true → isWellFormedPairs ok' ps' = true →
    mapPairs .blank g ps = mapPairs .blank g' ps' → renderPairs ps = renderPairs ps'
  | [], [], _, _, _ => rfl
  | [], _ :: _, _, _, heq => nomatch heq
  | _ :: _, [], _, _, heq => nomatch heq
  | (k, v) :: ps, (k', v') :: ps', h, h', heq => by
      simp only [mapPairs, List.cons.injEq, Prod.mk.injEq] at heq
      simp only [isWellFormedPairs, Bool.and_eq_true] at h h'
      rw [renderPairs, renderPairs, Expr.render_congr hg h.1.1 h'.1.1 heq.1.1,
        Expr.render_congr hg h.1.2 h'.1.2 heq.1.2, renderPairs_congr hg h.2 h'.2 heq.2]

theorem Block.render_congr (hg : PrintsAlike ok ok' g g') : ∀ {b b' : Block},
    b.isWellFormed ok = true → b'.isWellFormed ok' = true →
    b.map .blank g = b'.map .blank g' → b.render = b'.render
  | .program _, _, h, _, _ => nomatch h
  | .mk _ _, .program _, _, h', _ => nomatch h'
  | .mk _ [], .mk _ [], _, _, _ => rfl
  | .mk _ [], .mk _ (_ :: _), _, _, heq => nomatch heq
  | .mk _ (_ :: _), .mk _ [], _, _, heq => nomatch heq
  | .mk _ (s :: ss), .mk _ (s' :: ss'), h, h', heq => by
      simp only [Block.map, Block.mk.injEq] at heq
      rw [Block.render, Block.render, renderTerminated_congr hg h h' heq.2]

theorem Stmt.render_congr (hg : PrintsAlike ok ok' g g') : ∀ {s s' : Stmt},
    s.isWellFormed ok = true → s'.isWellFormed ok' = true →
    s.map .blank g = s'.map .blank g' → s.render = s'.render
  | .binding m x v, s', h, h', heq => by
      cases s' with
      | binding m' x' v' =>
          simp only [Stmt.map, Stmt.binding.injEq] at heq
          simp only [Stmt.isWellFormed, Bool.and_eq_true, beq_iff_eq] at h h'
          have hname : x.value = x'.value := (Name.mk.inj heq.2.1).2
          rw [Stmt.render, Stmt.render, h.1.1, h'.1.1, hname,
            Expr.render_congr hg h.2 h'.2 heq.2.2]
      | _ => exact nomatch heq
  | .leave m v, s', h, h', heq => by
      cases s' with
      | leave m' v' =>
          simp only [Stmt.map, Stmt.leave.injEq] at heq
          simp only [Stmt.isWellFormed, Bool.and_eq_true, beq_iff_eq] at h h'
          rw [Stmt.render, Stmt.render, h.1, h'.1, Expr.render_congr hg h.2 h'.2 heq.2]
      | _ => exact nomatch heq
  | .expression _ e, s', h, h', heq => by
      cases s' with
      | expression _ e' =>
          simp only [Stmt.map, Stmt.expression.injEq] at heq
          exact Expr.render_congr hg h h' heq.2
      | _ => exact nomatch heq
  | .block _, _, h, _, _ => nomatch h
  | .bare _, _, h, _, _ => nomatch h
  | .unknown _ _, _, h, _, _ => nomatch h

theorem renderTerminated_congr (hg : PrintsAlike ok ok' g g') : ∀ {ss ss' : List Stmt},
    isWellFormedStmts ok ss = true → isWellFormedStmts ok' ss' = true →
    mapStmts .blank g ss = mapStmts .blank g' ss' → renderTerminated ss = renderTerminated ss'
  | [], [], _, _, _ => rfl
  | [], _ :: _, _, _, heq => nomatch heq
  | _ :: _, [], _, _, heq => nomatch heq
  | s :: ss, s' :: ss', h, h', heq => by
      simp only [mapStmts, List.cons.injEq] at heq
      simp only [isWellFormedStmts, Bool.and_eq_true] at h h'
      rw [renderTerminated, renderTerminated, Stmt.render_congr hg h.1 h'.1 heq.1,
        renderTerminated_congr hg h.2 h'.2 heq.2]

end

theorem renderJoined_congr (hg : PrintsAlike ok ok' g g') : ∀ {ss ss' : List Stmt},
    isWellFormedStmts ok ss = true → isWellFormedStmts ok' ss' = true →
    mapStmts .blank g ss = mapStmts .blank g' ss' → renderJoined ss = renderJoined ss'
  | [], [], _, _, _ => rfl
  | [], _ :: _, _, _, heq => nomatch heq
  | _ :: _, [], _, _, heq => nomatch heq
  | s :: ss, s' :: ss', h, h', heq => by
      simp only [mapStmts, List.cons.injEq] at heq
      simp only [isWellFormedStmts, Bool.and_eq_true] at h h'
      rw [renderJoined, renderJoined, Stmt.render_congr hg h.1 h'.1 heq.1,
        renderJoined_congr hg h.2 h'.2 heq.2]

end Congruence

/-! ## Texts of texts -/

/-- What is printed of a well-formed program whose statements are delimited is printed
again of what is read there. -/
theorem render_parse_render {p : Program} (hwf : p.isWellFormed isPairedText = true)
    (hd : areDelimited p.statements = true) :
    (parse p.render).errors = [] ∧ (parse p.render).program.render = p.render := by
  obtain ⟨herrors, hsame⟩ := parse_renderJoined respells_reread hwf hd
  have hg : PrintsAlike (fun _ => true) isPairedText id reread := by
    rintro _ v' - h' rfl
    exact renderString_reread h'
  have hwf' : (parse p.render).program.isWellFormed (fun _ => true) = true :=
    isWellFormed_parse herrors fun _ _ _ => rfl
  exact ⟨herrors, renderJoined_congr hg hwf' hwf (congrArg Program.statements hsame)⟩

/-- If a text is read without an error as one expression, then the text of this expression
is read without an error too, and printed as it is; unless a string literal of the first
text ends with a backslash that has no partner. -/
theorem parse_render_stable {source : String} {m : Mark} {e : Expr}
    (h : (parse source).errors = [])
    (hs : (parse source).program.statements = [.expression m e])
    (hd : ∀ t ∈ tokenize source, t.kind = .string → StringBody.dangles t.text.toList = false) :
    (parse (parse source).program.render).errors = [] ∧
      (parse (parse source).program.render).program.render = (parse source).program.render := by
  have hwf := isWellFormed_parse h fun t ht hk => isPairedText_of_mem_tokenize ht hk (hd t ht hk)
  exact render_parse_render hwf (by rw [hs]; rfl)

theorem parse_render_stable_line_feed :
    (parse "-\"a\\\nb\"").errors = [] ∧
      (parse "-\"a\\\nb\"").program.statements = [.expression ⟨"-", ⟨1, 1⟩⟩
        (.prefixOp ⟨"-", ⟨1, 1⟩⟩ "-" (.string ⟨"a\\\nb", ⟨1, 2⟩⟩ "a\\\nb"))] ∧
      (∀ t ∈ tokenize "-\"a\\\nb\"", t.kind = .string →
        StringBody.dangles t.text.toList = false) ∧
      (parse (parse "-\"a\\\nb\"").program.render).errors = [] ∧
      (parse (parse "-\"a\\\nb\"").program.render).program.render =
        (parse "-\"a\\\nb\"").program.render := by
  have herrors : (parse "-\"a\\\nb\"").errors = [] := by cbv
  have hstatements : (parse "-\"a\\\nb\"").program.statements = [.expression ⟨"-", ⟨1, 1⟩⟩
      (.prefixOp ⟨"-", ⟨1, 1⟩⟩ "-" (.string ⟨"a\\\nb", ⟨1, 2⟩⟩ "a\\\nb"))] := by cbv
  have hdangles : ∀ t ∈ tokenize "-\"a\\\nb\"", t.kind = .string →
      StringBody.dangles t.text.toList = false := by
    have htokens : tokenize "-\"a\\\nb\"" = [⟨.minus, "-", ⟨1, 1⟩⟩,
      ⟨.string, "a\\\nb", ⟨1, 2⟩⟩, ⟨.eof, "", ⟨2, 3⟩⟩] := by cbv
    rw [htokens]
    decide
  exact ⟨herrors, hstatements, hdangles, parse_render_stable herrors hstatements hdangles⟩

/-- A text of the exception: one quote and one backslash. -/
theorem parse_render_dangling :
    (parse "\"\\").errors = [] ∧
      (parse "\"\\").program.statements =
        [.expression ⟨"\\", ⟨1, 1⟩⟩ (.string ⟨"\\", ⟨1, 1⟩⟩ "\\")] ∧
      (parse (parse "\"\\").program.render).program.render ≠ (parse "\"\\").program.render := by
  have hrender : (parse "\"\\").program.render = "\"\\\"" := by cbv
  refine ⟨by cbv, by cbv, ?_⟩
  have hagain : (parse "\"\\\"").program.render = "\"\\\"\"" := by cbv
  rw [hrender, hagain]
  decide

end MonkeyLang
