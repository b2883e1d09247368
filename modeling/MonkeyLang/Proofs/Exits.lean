import MonkeyLang.Proofs.Agreement
import MonkeyLang.Proofs.Moments
import MonkeyLang.Syntax.Parser

/-!
# Errors and returns are exits

Errors and returned values travel as values, and yet they do what exceptions do. At
no moment of a run does an error get into a binding, an array, a hash, a returned
value or the arguments of a call, and the run comes to what it comes to if errors are
thrown (`errors_are_thrown`). If all returns of a program are disciplined, the same is
true of returned values (`disciplined_returns_are_thrown`).
-/

namespace MonkeyLang

variable {how : Returning} {exit : Bool}

/-! ## What an outcome says -/

namespace Telling.Tells

variable {α β : Type} {t : Telling how α β} {s : Store}

theorem done {b : β} {r : Verdict α} (h : t.Tells exit (.done b s) r) :
    s.All (Value.AtRest how) ∧
      ((∃ a, b = t.answer a ∧ t.ok a) ∨ ∃ x : Exit, b = t.exit x.value ∧ x.Allowed how exit) := by
  cases r with
  | value a _ =>
      obtain ⟨heq, ha, hs⟩ := h
      obtain ⟨rfl, rfl⟩ := Outcome.done.inj heq
      exact ⟨hs, .inl ⟨a, rfl, ha⟩⟩
  | thrown x _ =>
      obtain ⟨heq, hx, hs⟩ := h
      obtain ⟨rfl, rfl⟩ := Outcome.done.inj heq
      exact ⟨hs, .inr ⟨x, rfl, hx⟩⟩
  | fault _ => exact nomatch h
  | exhausted => exact nomatch h

/-- A part whose value is used has come to a value at rest, or to an error. -/
theorem operand_done {v : Value} {r : Verdict Value}
    (h : (Telling.value how).Tells false (.done v s) r) (hv : v.isError = false) :
    v.AtRest how ∧ s.All (Value.AtRest how) := by
  obtain ⟨hs, ⟨a, rfl, ha⟩ | ⟨x, rfl, hx⟩⟩ := h.done
  · exact ⟨ha, hs⟩
  · exact absurd (hv.symm.trans hx.isError) nofun

theorem values_done {vs : List Value} {r : Verdict (List Value)}
    (h : (Telling.values how).Tells false (.done (.ok vs) s) r) :
    (∀ v ∈ vs, v.AtRest how) ∧ s.All (Value.AtRest how) := by
  obtain ⟨hs, ⟨a, heq, ha⟩ | ⟨x, heq, -⟩⟩ := h.done
  · exact ⟨Except.ok.inj heq ▸ ha, hs⟩
  · exact nomatch heq

theorem last_done {v : Option Value} {r : Verdict (Option Value)}
    (h : (Telling.last how).Tells exit (.done v s) r) (hv : v.any Value.endsBlock = false) :
    (∀ w ∈ v, w.AtRest how) ∧ s.All (Value.AtRest how) := by
  obtain ⟨hs, ⟨a, rfl, ha⟩ | ⟨x, rfl, -⟩⟩ := h.done
  · exact ⟨ha, hs⟩
  · exact absurd (hv.symm.trans x.endsBlock) nofun

end Telling.Tells

/-! ## Sound moments -/

/-- All returns in the code of a task are disciplined. -/
def Task.isDisciplined (exit : Bool) : Task → Bool
  | .expr e _ => e.isDisciplined exit
  | .all es _ => allDisciplined es
  | .pairs ps _ _ => pairsDisciplined ps
  | .loop condition body _ => condition.isDisciplined false && body.isDisciplined exit
  | .block b _ => b.isDisciplined exit
  | .stmts ss _ _ => stmtsDisciplined exit ss
  | .stmt st _ => st.isDisciplined exit
  | .call _ _ => true

/-- All values of a moment are at rest, and its code passes the test that returns
ask for. -/
structure Moment.Sound (how : Returning) (exit : Bool) (m : Moment) : Prop where
  store : m.store.All (Value.AtRest how)
  values : ∀ v ∈ m.task.values, v.AtRest how
  code : how.Asks (m.task.isDisciplined exit)

/-- Whether a `return` leads out of a task that is entered in a role. `exit` says
whether one leads out of the task that enters it. -/
def Role.leads (exit : Bool) : Role → Bool
  | .part => false
  | .rest => exit
  | .body => true

/-- A part whose value is used has come to a value at rest, or to an error. -/
theorem part_done {n : Nat} {e : Expr} {scope : ScopeId} {s s₁ : Store} {v : Value}
    (hcode : how.Asks (e.isDisciplined false)) (hs : s.All (Value.AtRest how))
    (hv : evalExpr n e scope s = .done v s₁) (hok : v.isError = false) :
    v.AtRest how ∧ s₁.All (Value.AtRest how) := by
  have htells := expr_tells n e false scope s hcode hs
  rw [hv] at htells
  exact htells.operand_done hok

/-- **Step.** A moment that is entered by a sound one is sound. -/
theorem Enters.sound {role : Role} {m m' : Moment} (h : Enters role m m')
    (hm : m.Sound how exit) : m'.Sound how (role.leads exit) := by
  obtain ⟨hs, hvalues, hcode⟩ := hm
  cases h with
  | operand | loop | elements | hash | statement | bound | expression | program | block | bare =>
      exact ⟨hs, nofun, hcode⟩
  | left | function | indexed | first | test | head =>
      exact ⟨hs, nofun, (Returning.Asks.and hcode).1⟩
  | condition | key => exact ⟨hs, nofun, (Returning.Asks.and (Returning.Asks.and hcode).1).1⟩
  | returned => exact ⟨hs, nofun, (Returning.Asks.and hcode).2⟩
  | statements =>
      exact ⟨hs, nofun, fun ht => (Block.isDisciplined_eq exit _).symm.trans (hcode ht)⟩
  | right h hok | arguments h hok | index h hok | others h hok | iteration h hok _ =>
      obtain ⟨hpart, hrest⟩ := Returning.Asks.and hcode
      obtain ⟨-, hs₁⟩ := part_done hpart hs h hok
      exact ⟨hs₁, nofun, hrest⟩
  | consequence h hok _ | value h hok _ =>
      obtain ⟨hpart, hrest⟩ := Returning.Asks.and (Returning.Asks.and hcode).1
      obtain ⟨-, hs₁⟩ := part_done hpart hs h hok
      exact ⟨hs₁, nofun, hrest⟩
  | alternative hc hok _ =>
      obtain ⟨hcode, hce⟩ := Returning.Asks.and hcode
      obtain ⟨hcc, -⟩ := Returning.Asks.and hcode
      obtain ⟨-, hs₁⟩ := part_done hcc hs hc hok
      exact ⟨hs₁, nofun, hce⟩
  | call hf hok hvs =>
      obtain ⟨hcf, hca⟩ := Returning.Asks.and hcode
      obtain ⟨hf, hs₁⟩ := part_done hcf hs hf hok
      obtain ⟨hvs, hs₂⟩ := (hvs ▸ all_tells _ _ _ _ hca hs₁).values_done
      exact ⟨hs₂, List.forall_mem_cons.mpr ⟨hf, hvs⟩, fun _ => rfl⟩
  | entry hk hok _ hv hok' =>
      obtain ⟨hcode, hcps⟩ := Returning.Asks.and hcode
      obtain ⟨hck, hcv⟩ := Returning.Asks.and hcode
      obtain ⟨hk, hs₁⟩ := part_done hck hs hk hok
      obtain ⟨hv, hs₂⟩ := part_done hcv hs₁ hv hok'
      exact ⟨hs₂, forall_mem_flatMap (Pervasive.insert hk hv (forall_mem_entries hvalues)), hcps⟩
  | again hc hok _ hv _ =>
      obtain ⟨hcc, hcb⟩ := Returning.Asks.and hcode
      obtain ⟨-, hs₁⟩ := part_done hcc hs hc hok
      obtain ⟨hs₂, -⟩ := (hv ▸ block_tells _ _ exit _ _ hcb hs₁).done
      exact ⟨hs₂, nofun, hcode⟩
  | next hv hplain =>
      obtain ⟨hcst, hcss⟩ := Returning.Asks.and hcode
      obtain ⟨hv, hs₁⟩ := (hv ▸ stmt_tells _ _ exit _ _ hcst hs).last_done hplain
      exact ⟨hs₁, fun w hw => hv w (Option.mem_toList.mp hw), hcss⟩
  | body _ =>
      obtain ⟨hf, harguments⟩ := List.forall_mem_cons.mp hvalues
      exact ⟨(hs.openScope _).bindAll _ _ harguments, nofun, hf.self⟩

/-- **Run.** All moments of a run are sound, if its first one is. -/
theorem Program.Reaches.sound {p : Program} {role : Role} {m : Moment} (h : p.Reaches role m)
    (hp : how.Asks p.isDisciplined) :
    ∃ exit, (role = .part → exit = false) ∧ m.Sound how exit := by
  induction h with
  | start => exact ⟨true, nofun, Store.all_empty.openScope none, nofun, hp⟩
  | @enter _ role' _ _ _ henters ih =>
      obtain ⟨exit, -, hm⟩ := ih
      refine ⟨role'.leads exit, ?_, henters.sound hm⟩
      rintro rfl
      rfl

/-- What comes of a task: values at rest, or just one value, which stands for an exit. -/
def Comes (how : Returning) (exit : Bool) (vs : List Value) (s : Store) : Prop :=
  s.All (Value.AtRest how) ∧
    ((∀ v ∈ vs, v.AtRest how) ∨ ∃ x : Exit, vs = [x.value] ∧ x.Allowed how exit)

theorem Telling.Tells.comes {α β : Type} {t : Telling how α β} {o : Outcome β} {r : Verdict α}
    {vs : List Value} {s : Store} (list : β → List Value) (h : t.Tells exit o r)
    (hanswer : ∀ a, t.ok a → ∀ v ∈ list (t.answer a), v.AtRest how)
    (hexit : ∀ v, list (t.exit v) = [v])
    (hrun : (o.andThen fun b s => .done (list b) s) = .done vs s) : Comes how exit vs s := by
  cases o with
  | done b s' =>
      obtain ⟨rfl, rfl⟩ := Outcome.done.inj hrun
      obtain ⟨hs, ⟨a, rfl, ha⟩ | ⟨x, rfl, hx⟩⟩ := h.done
      · exact ⟨hs, .inl (hanswer a ha)⟩
      · exact ⟨hs, .inr ⟨x, hexit x.value, hx⟩⟩
  | fault e => exact nomatch hrun
  | exhausted => exact nomatch hrun

theorem Telling.Tells.value_comes {o : Outcome Value} {r : Verdict Value} {vs : List Value}
    {s : Store} (h : (Telling.value how).Tells exit o r)
    (hrun : (o.andThen fun v s => .done [v] s) = .done vs s) : Comes how exit vs s := by
  refine h.comes (fun v => [v]) (fun v hv => ?_) (fun _ => rfl) hrun
  exact List.forall_mem_singleton.mpr hv

theorem Telling.Tells.last_comes {o : Outcome (Option Value)} {r : Verdict (Option Value)}
    {vs : List Value} {s : Store} (h : (Telling.last how).Tells exit o r)
    (hrun : (o.andThen fun v s => .done v.toList s) = .done vs s) : Comes how exit vs s :=
  h.comes Option.toList (fun _ hlast v hv => hlast v (Option.mem_toList.mp hv)) (fun _ => rfl)
    hrun

theorem Moment.Sound.comes {m : Moment} (hm : m.Sound how exit) {n : Nat} {vs : List Value}
    {s : Store} (h : m.run n = .done vs s) : Comes how exit vs s := by
  obtain ⟨task, store⟩ := m
  obtain ⟨hs, hvalues, hcode⟩ := hm
  cases task with
  | expr e scope => exact (expr_tells n e exit scope store hcode hs).value_comes h
  | all es scope =>
      obtain ⟨hall, hx⟩ := (all_tells n es scope store hcode hs).comes valuesOrError
        (fun _ hvs => hvs) (fun _ => rfl) h
      exact ⟨hall, hx.imp_right fun ⟨x, heq, hx⟩ => ⟨x, heq, hx.of_false⟩⟩
  | pairs ps entries scope =>
      have hentries := forall_mem_entries hvalues
      exact (pairs_tells n ps entries exit scope store hcode hentries hs).value_comes h
  | loop condition body scope =>
      obtain ⟨hc, hb⟩ := Returning.Asks.and hcode
      exact (loop_tells n condition body exit scope store hc hb hs).value_comes h
  | block b scope => exact (block_tells n b exit scope store hcode hs).value_comes h
  | stmts ss last scope =>
      have hlast : ∀ v ∈ last, v.AtRest how := fun v hv => hvalues v (Option.mem_toList.mpr hv)
      exact (stmts_tells n ss last exit scope store hcode hlast hs).last_comes h
  | stmt st scope => exact (stmt_tells n st exit scope store hcode hs).last_comes h
  | call f arguments =>
      obtain ⟨hf, harguments⟩ := List.forall_mem_cons.mp hvalues
      exact (call_tells n f arguments exit store hf harguments hs).value_comes h

/-! ## Errors and returns -/

/-- No value of a type is in the store or among the values of a task, or is part of one
of these. -/
def Moment.FreeOf (t : TypeTag) (m : Moment) : Prop :=
  m.store.FreeOf t ∧ ∀ v ∈ m.task.values, v.FreeOf t

/-- A run comes to what it comes to with exceptions: to the same value, which is no
error, or it ends at the same point with the error that is thrown. -/
def Verdict.Describes : Verdict (Option Value) → Outcome (Option Value) → Prop
  | .value v s, o => o = .done v s ∧ ∀ w ∈ v, w.isError = false
  | .thrown (.failure id e) s, o => o = .done (some (.error id e)) s
  | .thrown (.leaving _ _) _, _ => False
  | .fault e, o => ∃ s, o = .fault (t := s) e
  | .exhausted, o => o.RunsOut

/-- A program run on its own with exceptions, for so many steps at most. -/
def Throwing.runFor (how : Returning) (n : Nat) (p : Program) : Verdict (Option Value) :=
  Throwing.program how n p Store.fresh.1 Store.fresh.2

theorem Program.described {p : Program} (hp : how.Asks p.isDisciplined) (n : Nat) :
    (Throwing.runFor how n p).Describes (p.runFor n) := by
  have hstmts := stmts_tells n p.statements none true Store.fresh.1 Store.fresh.2 hp
    forall_mem_none (Store.all_empty.openScope none)
  have htells : (Telling.last how).Tells false (p.runFor n) (Throwing.runFor how n p) :=
    hstmts.caught_last
  cases hrun : Throwing.runFor how n p with
  | value v s =>
      rw [hrun] at htells
      obtain ⟨heq, hv, -⟩ := htells
      exact ⟨heq, fun w hw => (hv w hw).isError⟩
  | thrown x s =>
      rw [hrun] at htells
      obtain ⟨heq, hx, -⟩ := htells
      cases x with
      | failure id e => exact heq
      | leaving id v => exact absurd hx.2.1 Bool.false_ne_true
  | fault e =>
      rw [hrun] at htells
      exact htells
  | exhausted =>
      rw [hrun] at htells
      exact htells

theorem Moment.Sound.freeOf {t : TypeTag} (ht : ∀ v : Value, v.AtRest how → v.FreeOf t)
    {m : Moment} (hm : m.Sound how exit) : m.FreeOf t :=
  ⟨hm.store.mono ht, fun v hv => ht v (hm.values v hv)⟩

/-- **Errors are thrown.** At no moment of a run does an error stand in the store, in
an array, a hash, a returned value or among the arguments of a call: a value that
comes of a task is an error, or holds none. And the run comes to what it comes to if
errors are thrown by the rules that make them, and caught by none. -/
theorem errors_are_thrown (p : Program) :
    (∀ role m, p.Reaches role m → m.FreeOf .error ∧
      ∀ n vs s, m.run n = .done vs s →
        s.FreeOf .error ∧ ∀ v ∈ vs, v.isError = false → v.FreeOf .error) ∧
    ∀ n, (Throwing.runFor .wrapped n p).Describes (p.runFor n) := by
  have hp : Returning.wrapped.Asks p.isDisciplined := nofun
  refine ⟨fun role m hm => ?_, Program.described hp⟩
  obtain ⟨exit, -, hsound⟩ := hm.sound hp
  refine ⟨hsound.freeOf fun _ => Value.AtRest.freeOf_error, fun n vs s hrun => ?_⟩
  obtain ⟨hs, hvs | ⟨x, rfl, hx⟩⟩ := hsound.comes hrun
  · exact ⟨hs.mono fun _ => Value.AtRest.freeOf_error, fun v hv _ => (hvs v hv).freeOf_error⟩
  · refine ⟨hs.mono fun _ => Value.AtRest.freeOf_error, fun v hv hplain => ?_⟩
    obtain rfl := List.mem_singleton.mp hv
    cases x with
    | failure id e => exact nomatch hplain
    | leaving id v => exact nomatch hx.1

/-- The first error in the order of evaluation ends the program. The binding before it
is kept, its own and the one after it are not made. -/
example :
    match Throwing.runFor .wrapped 40
        (parse "let a = 1; let b = a + true; let a = -true;").program with
    | .thrown (.failure _ e) s =>
      e = .typeMismatch .integer "+" .boolean ∧ s.bindings 0 = [("a", .integer 0 1)]
    | _ => False := by
  cbv

/-- **Disciplined returns are thrown.** If all returns of a program are disciplined, at
no moment of a run does a returned value stand in the store, in an array, a hash or
another returned value, or among the arguments of a call; a value that comes of a task
whose values are used is none. And the run comes to what it comes to if each `return`
throws its operand, which is caught at the end of the innermost call or of the
program. -/
theorem disciplined_returns_are_thrown {p : Program} (h : p.isDisciplined = true) :
    (∀ role m, p.Reaches role m → m.FreeOf .returned ∧
      ∀ n vs s, m.run n = .done vs s →
        s.FreeOf .returned ∧ ∀ v ∈ vs, v.FreeOf .returned ∨
          role ≠ .part ∧ ∃ id w, v = .returned id w ∧ w.FreeOf .returned) ∧
    ∀ n, (Throwing.runFor .thrown n p).Describes (p.runFor n) := by
  have hp : Returning.thrown.Asks p.isDisciplined := fun _ => h
  refine ⟨fun role m hm => ?_, Program.described hp⟩
  obtain ⟨exit, hpart, hsound⟩ := hm.sound hp
  refine ⟨hsound.freeOf fun _ => Value.AtRest.freeOf_returned, fun n vs s hrun => ?_⟩
  obtain ⟨hs, hvs | ⟨x, rfl, hx⟩⟩ := hsound.comes hrun
  · refine ⟨hs.mono fun _ => Value.AtRest.freeOf_returned, fun v hv => ?_⟩
    exact .inl (hvs v hv).freeOf_returned
  · refine ⟨hs.mono fun _ => Value.AtRest.freeOf_returned, fun v hv => ?_⟩
    obtain rfl := List.mem_singleton.mp hv
    cases x with
    | failure id e =>
        left
        rintro w ⟨⟩
        exact nofun
    | leaving id v =>
        obtain ⟨-, hexit, hv⟩ := hx
        refine .inr ⟨fun hrole => ?_, id, v, rfl, hv.freeOf_returned⟩
        rw [hpart hrole] at hexit
        exact nomatch hexit

/-- A `return` in a conditional in a loop. -/
theorem disciplined_returns_are_thrown_loop :
    let p := (parse "fn(n) \x7b while (true) \x7b if (n) \x7b return n \x7d \x7d \x7d(5)").program
    p.isDisciplined = true ∧ (∀ role m, p.Reaches role m → m.FreeOf .returned) ∧
      ∀ n, (Throwing.runFor .thrown n p).Describes (p.runFor n) := by
  intro p
  have h : p.isDisciplined = true := by
    change (parse _).program.isDisciplined = true
    cbv
  obtain ⟨hmoments, hruns⟩ := disciplined_returns_are_thrown h
  exact ⟨h, fun role m hm => (hmoments role m hm).1, hruns⟩

end MonkeyLang
