import MonkeyLang.Proofs.KeptParts
import MonkeyLang.Proofs.Lexing

/-!
# Nothing is dropped silently

What every rule keeps (`RuleCall.keeps`) holds of whole runs, by following the calls. The calls come
one after another and errors are only added (`LeadsTo.orderly`); an expression that is parsed
although errors have been added holds the blocks in which they were added (`error_in_block`); and
without errors no statement is lost (`LeadsTo.parts`).
-/

namespace MonkeyLang

open ParseState

/-! ## One rule -/

/-- A rule has stopped in a given state. -/
def Reply.StopsIn {α : Type} (r : Reply α) (s : ParseState) : Prop :=
  (∃ a, r = .parsed a s) ∨ r = .failed s

theorem Reply.StopsIn.of_parsed {α : Type} {a : α} {s t : ParseState}
    (h : (Reply.parsed a s).StopsIn t) : s = t := by
  obtain ⟨b, h⟩ | h := h
  · exact (Reply.parsed.inj h).2
  · exact nomatch h

theorem Reply.StopsIn.of_failed {α : Type} {s t : ParseState}
    (h : (Reply.failed s : Reply α).StopsIn t) : s = t := by
  obtain ⟨b, h⟩ | h := h
  · exact nomatch h
  · exact Reply.failed.inj h

theorem Reply.not_stopsIn_exhausted {α : Type} {t : ParseState} :
    ¬(Reply.exhausted : Reply α).StopsIn t := by
  rintro (⟨b, h⟩ | h)
  · exact nomatch h
  · exact nomatch h

namespace RuleCall

variable {c d : RuleCall} {t : ParseState}

theorem stop_of_parsed {a : c.rule.Answer} (h : c.reply = .parsed a t) : c.stop = t := by
  rw [stop, h]
  rfl

theorem stop_of_failed (h : c.reply = .failed t) : c.stop = t := by
  rw [stop, h]
  rfl

theorem reply_grows (c : RuleCall) : c.reply.Grows c.state := by
  obtain ⟨rule, n, s⟩ := c
  cases rule with
  | statement => exact statement_grows n s
  | statements inBlock => exact statements_grows n inBlock s
  | block => exact block_grows n s
  | expression level => exact expression_grows n level s
  | operand => exact operand_grows n s
  | alternative => exact alternative_grows n s
  | extend level left => exact extend_grows n level left s
  | continuation left => exact continuation_grows n left s
  | expressions closing => exact expressions_grows n closing s
  | moreExpressions closing => exact moreExpressions_grows n closing s
  | pairs => exact pairs_grows n s
  | parameters => exact parameters_grows n s
  | moreParameters => exact moreParameters_grows n s

end RuleCall

/-- Calls that are made one after another between two states: each stops before the next one
starts, and from each of these moments to the next the window only moves forward and errors are
only added. -/
inductive InTurn : ParseState → List RuleCall → ParseState → Prop
  | nil {s s'} (h : Reach s s') : InTurn s [] s'
  | cons {s s' d ds} (hstart : Reach s d.state) (hrun : Reach d.state d.stop)
      (hstops : d.reply.StopsIn d.stop) (hrest : InTurn d.stop ds s') : InTurn s (d :: ds) s'

namespace InTurn

variable {s s' : ParseState} {d : RuleCall} {ds : List RuleCall}

theorem reach (h : InTurn s ds s') : Reach s s' := by
  induction h with
  | nil h => exact h
  | cons hstart hrun _ _ ih => exact (hstart.trans hrun).trans ih

theorem of_mem (h : InTurn s ds s') (hd : d ∈ ds) :
    d.reply.StopsIn d.stop ∧ Reach s d.state ∧ Reach d.stop s' := by
  induction h with
  | nil => exact absurd hd List.not_mem_nil
  | cons hstart hrun hstops hrest ih =>
      obtain rfl | hd := List.mem_cons.mp hd
      · exact ⟨hstops, hstart, hrest.reach⟩
      · obtain ⟨hstops', hstart', hend⟩ := ih hd
        exact ⟨hstops', (hstart.trans hrun).trans hstart', hend⟩

end InTurn

namespace Script.Keeps

variable {α : Type} {c : RuleCall} {kept : α → List Stmt} {s s' : ParseState}
  {owed : Option (List Stmt)} {script : Script α} {a : α}

theorem inTurn (h : script.Keeps c kept s owed) (hrun : script.run.StopsIn s') :
    InTurn s script.calls s' := by
  induction h with
  | parsed hreach => exact .nil (hrun.of_parsed ▸ hreach)
  | failed hreach => exact .nil (hrun.of_failed ▸ hreach)
  | exhausted => exact absurd hrun Reply.not_stopsIn_exhausted
  | @call s owed d next hmoves _ _ _ ihparsed ihfailed =>
      have hgrows := d.reply_grows
      rw [Script.run_call] at hrun
      cases hd : d.reply with
      | parsed a t =>
          obtain rfl := d.stop_of_parsed hd
          rw [hd] at hrun hgrows
          rw [calls_call_parsed hd]
          exact .cons hmoves.reach hgrows (.inl ⟨a, hd⟩) (ihparsed a _ hd hrun)
      | failed t =>
          obtain rfl := d.stop_of_failed hd
          rw [hd] at hrun hgrows
          rw [calls_call_failed hd]
          exact .cons hmoves.reach hgrows.1 (.inr hd) (ihfailed _ hd hrun)
      | exhausted =>
          rw [hd] at hrun
          exact absurd hrun Reply.not_stopsIn_exhausted

/-- What the calls of a script have parsed is in what it parses. -/
theorem parts (h : script.Keeps c kept s owed) (hrun : script.run = .parsed a s') :
    (∃ l, owed = some l ∧ l ⊆ kept a) ∧
      ∀ d ∈ script.calls, ∀ b t, d.reply = .parsed b t → d.rule.parts b ⊆ kept a := by
  induction h with
  | parsed _ _ hparts =>
      cases hrun
      exact ⟨⟨_, rfl, hparts⟩, List.forall_mem_nil _⟩
  | failed => exact nomatch hrun
  | exhausted => exact nomatch hrun
  | @call s owed d next _ _ _ _ ihparsed ihfailed =>
      rw [Script.run_call] at hrun
      cases hd : d.reply with
      | parsed b t =>
          rw [hd] at hrun
          rw [calls_call_parsed hd]
          obtain ⟨⟨l, hl, hsub⟩, hrest⟩ := ihparsed b t hd hrun
          obtain ⟨l', rfl, rfl⟩ := Option.map_eq_some_iff.mp hl
          obtain ⟨hl', hb⟩ := List.append_subset.mp hsub
          refine ⟨⟨l', rfl, hl'⟩, fun e he => ?_⟩
          obtain rfl | he := List.mem_cons.mp he
          · intro b' t' hb'
            rw [hd] at hb'
            cases hb'
            exact hb
          · exact hrest e he
      | failed t =>
          rw [hd] at hrun
          rw [calls_call_failed hd]
          obtain ⟨⟨l, hl, hsub⟩, hrest⟩ := ihfailed t hd hrun
          refine ⟨⟨l, ?_, hsub⟩, fun e he => ?_⟩
          · split at hl
            · exact hl
            · exact nomatch hl
          · obtain rfl | he := List.mem_cons.mp he
            · exact fun b' t' hb' => nomatch hd.symm.trans hb'
            · exact hrest e he
      | exhausted =>
          rw [hd] at hrun
          exact nomatch hrun

/-- A call that may not go on after an error has parsed something only if all of its calls have,
and every error that it has added was added by one of them. -/
theorem errors (h : script.Keeps c kept s owed) (habsorbs : c.rule.absorbs = false)
    (hrun : script.run = .parsed a s') :
    (∀ d ∈ script.calls, ∃ b, d.reply = .parsed b d.stop) ∧
      ∀ i, s.errors.length ≤ i → i < s'.errors.length →
        ∃ d ∈ script.calls, d.state.errors.length ≤ i ∧ i < d.stop.errors.length := by
  induction h with
  | parsed _ herrors _ =>
      cases hrun
      refine ⟨List.forall_mem_nil _, fun i hi hi' => ?_⟩
      rw [herrors habsorbs] at hi'
      omega
  | failed => exact nomatch hrun
  | exhausted => exact nomatch hrun
  | @call s owed d next hmoves _ _ hfailed ihparsed _ =>
      rw [Script.run_call] at hrun
      cases hd : d.reply with
      | parsed b t =>
          rw [hd] at hrun
          rw [calls_call_parsed hd]
          have hstop := d.stop_of_parsed hd
          obtain ⟨hall, hrest⟩ := ihparsed b t hd hrun
          refine ⟨fun e he => ?_, fun i hi hi' => ?_⟩
          · obtain rfl | he := List.mem_cons.mp he
            · exact ⟨b, hstop ▸ hd⟩
            · exact hall e he
          · by_cases hit : i < t.errors.length
            · exact ⟨d, List.mem_cons_self, hmoves.errors ▸ hi, hstop ▸ hit⟩
            · obtain ⟨e, he, hspan⟩ := hrest i (Nat.le_of_not_lt hit) hi'
              exact ⟨e, List.mem_cons_of_mem d he, hspan⟩
      | failed t =>
          rw [hd] at hrun
          obtain ⟨⟨l, hl, -⟩, -⟩ := (hfailed t hd).parts hrun
          rw [habsorbs] at hl
          exact nomatch hl
      | exhausted =>
          rw [hd] at hrun
          exact nomatch hrun

theorem calls_below (h : script.Keeps c kept s owed) : ∀ d ∈ script.calls, d.Below c := by
  induction h with
  | parsed | failed | exhausted => exact List.forall_mem_nil _
  | @call s owed d next _ hbelow _ _ ihparsed ihfailed =>
      intro e he
      rw [Script.calls] at he
      obtain rfl | he := List.mem_cons.mp he
      · exact hbelow
      · cases hd : d.reply with
        | parsed a t => rw [hd] at he; exact ihparsed a t hd e he
        | failed t => rw [hd] at he; exact ihfailed t hd e he
        | exhausted => rw [hd] at he; exact absurd he List.not_mem_nil

end Script.Keeps

/-! ## Runs -/

/-- A call comes to an end, and the calls that it makes come one after another from its start to
its end. If it fails, at least one error has been added. -/
structure RuleCall.Orderly (c : RuleCall) : Prop where
  stops : c.reply.StopsIn c.stop
  inTurn : InTurn c.state c.calls c.stop
  failed : c.answer = none → c.state.errors.length < c.stop.errors.length

namespace RuleCall

variable {c d : RuleCall} {s' : ParseState}

theorem stopsIn_stop (h : c.reply ≠ .exhausted) : c.reply.StopsIn c.stop := by
  cases hc : c.reply with
  | parsed a t => exact .inl ⟨a, by rw [stop_of_parsed hc]⟩
  | failed t => exact .inr (by rw [stop_of_failed hc])
  | exhausted => exact absurd hc h

theorem orderly (h : c.reply.StopsIn c.stop) : c.Orderly := by
  refine ⟨h, c.keeps.inTurn (c.reply_eq_run ▸ h), fun hanswer => ?_⟩
  have hgrows := c.reply_grows
  obtain ⟨a, hc⟩ | hc := h
  · rw [answer, hc] at hanswer
    exact nomatch hanswer
  · rw [hc] at hgrows
    exact hgrows.2

/-- Every call that is led to lies in the run of the first one. -/
theorem LeadsTo.orderly (h : c.LeadsTo d) (hc : c.reply ≠ .exhausted) :
    d.Orderly ∧ Reach c.state d.state ∧ Reach d.stop c.stop := by
  induction h with
  | refl => exact ⟨RuleCall.orderly (stopsIn_stop hc), .refl _, .refl _⟩
  | tail _ hd ih =>
      obtain ⟨hcaller, hstart, hend⟩ := ih
      obtain ⟨hstops, hstart', hend'⟩ := hcaller.inTurn.of_mem hd
      exact ⟨RuleCall.orderly hstops, hstart.trans hstart', hend'.trans hend⟩

/-- Where no errors are left, every call has parsed something, and the first one has kept the
statements in it. -/
theorem LeadsTo.parts (h : c.LeadsTo d) {a : c.rule.Answer} (hc : c.reply = .parsed a s')
    (herrors : s'.errors = []) :
    ∃ b, d.reply = .parsed b d.stop ∧ d.rule.parts b ⊆ c.rule.parts a := by
  have hne : c.reply ≠ .exhausted := by rw [hc]; exact nofun
  induction h with
  | refl => exact ⟨a, stop_of_parsed hc ▸ hc, List.Subset.refl _⟩
  | @tail d e hd he ih =>
      obtain ⟨b, hb, hsub⟩ := ih
      obtain ⟨horderly, -, hend⟩ := LeadsTo.orderly (hd.tail he) hne
      have hnone : e.stop.errors = [] :=
        hend.errors_eq_nil (by rw [stop_of_parsed hc, herrors])
      have hparts := (d.keeps.parts (d.reply_eq_run ▸ hb)).2 e he
      obtain ⟨b', hb'⟩ | hfailed := horderly.stops
      · exact ⟨b', hb', List.Subset.trans (hparts b' _ hb') hsub⟩
      · have hmore := horderly.failed (by rw [answer, hfailed]; rfl)
        rw [hnone] at hmore
        exact absurd hmore (Nat.not_lt_zero _)

/-- An error that was added by a call that has parsed something all the same was added in a block
of what it has parsed. -/
theorem error_in_block (c : RuleCall) (habsorbs : c.rule.absorbs = false) {a : c.rule.Answer}
    {s' : ParseState} (hc : c.reply = .parsed a s') {i : Nat} (hi : c.state.errors.length ≤ i)
    (hi' : i < s'.errors.length) :
    ∃ n s b t, c.LeadsTo ⟨.block, n, s⟩ ∧ MonkeyLang.block n s = .parsed b t ∧
      s.errors.length ≤ i ∧ i < t.errors.length ∧ .block b ∈ c.rule.parts a := by
  have hrun := c.reply_eq_run ▸ hc
  obtain ⟨hall, hspan⟩ := c.keeps.errors habsorbs hrun
  obtain ⟨d, hd, hlow, hhigh⟩ := hspan i hi hi'
  obtain ⟨b, hb⟩ := hall d hd
  have hsub := (c.keeps.parts hrun).2 d hd b _ hb
  have hbelow := c.keeps.calls_below d hd
  by_cases hd' : d.rule.absorbs = false
  · obtain ⟨n, s, blk, t, hleads, hblock, hlow', hhigh', hmem⟩ :=
      error_in_block d hd' hb hlow hhigh
    exact ⟨n, s, blk, t, .head hd hleads, hblock, hlow', hhigh', hsub hmem⟩
  · obtain ⟨rule, n, s⟩ := d
    cases rule with
    | block => exact ⟨n, s, b, _, .single hd, hb, hlow, hhigh, hsub b.mem_parts⟩
    | statements inBlock => exact absurd rfl (hbelow.sequence habsorbs inBlock)
    | _ => exact absurd rfl hd'
termination_by c.size
decreasing_by exact hbelow.size

end RuleCall

/-! ## Texts -/

theorem ofText_reply (source : String) :
    ∃ s, (RuleCall.ofText source).reply = .parsed (parse source).program.statements s ∧
      s.errors = (parse source).errors := by
  obtain ⟨ts, e, htokens, he, -⟩ := tokensFrom_eq_append .start source.toList
  have htokens : tokenize source = ts ++ [e] := htokens
  obtain ⟨body, s, hbody⟩ := statements_ofTokens ts he
  rw [← htokens] at hbody
  refine ⟨s, ?_, ?_⟩
  · rw [parse, parseTokens, hbody]
    exact hbody
  · rw [parse, parseTokens, hbody]

/-- **Nothing is dropped silently.** Whatever the state, every call of a rule that comes to an end,
and every call that it leads to, only adds errors at the end of the list, one after another, and
has added at least one if it fails. An expression that is parsed although errors have been added
holds, for each of them, a block in which it was added. So a text without errors keeps all of its
statements, at every depth. -/
theorem nothing_dropped_silently :
    (∀ c d : RuleCall, c.reply ≠ .exhausted → c.LeadsTo d →
      d.Orderly ∧ Reach c.state d.state ∧ Reach d.stop c.stop) ∧
    (∀ n level s e s', expression n level s = .parsed e s' →
      ∀ i, s.errors.length ≤ i → i < s'.errors.length →
        ∃ m t b t', RuleCall.LeadsTo ⟨.expression level, n, s⟩ ⟨.block, m, t⟩ ∧
          block m t = .parsed b t' ∧ t.errors.length ≤ i ∧ i < t'.errors.length ∧
          .block b ∈ e.parts) ∧
    ∀ source,
      (∃ s, (RuleCall.ofText source).reply = .parsed (parse source).program.statements s ∧
        s.errors = (parse source).errors) ∧
      ((parse source).errors = [] → ∀ n s, (RuleCall.ofText source).LeadsTo ⟨.statement, n, s⟩ →
        ∃ stmt s', statement n s = .parsed stmt s' ∧ stmt ∈ (parse source).program.parts) := by
  refine ⟨fun c d hc h => h.orderly hc, fun n level s e s' h i => ?_, fun source => ?_⟩
  · exact (RuleCall.mk (.expression level) n s).error_in_block rfl h
  · obtain ⟨t, hreply, ht⟩ := ofText_reply source
    refine ⟨⟨t, hreply, ht⟩, fun hnone n s h => ?_⟩
    obtain ⟨stmt, hstmt, hparts⟩ := h.parts hreply (ht.trans hnone)
    exact ⟨stmt, _, hstmt, hparts stmt.mem_parts⟩

/-- The body of the function takes in the error; what is kept is the function's statement and its
body, without the statement that failed. -/
example :
    let parsed := parse "fn() \x7b ) \x7d"
    parsed.errors = [.noExpression .rparen] ∧ parsed.program.parts.length = 2 := by
  decide +kernel

end MonkeyLang
