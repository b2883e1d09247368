import MonkeyLang.Proofs.BraceCount
import MonkeyLang.Proofs.JoinedTexts
import MonkeyLang.Proofs.Layout
import MonkeyLang.Proofs.Moments
import MonkeyLang.Proofs.StatementRuns
import MonkeyLang.Source

/-!
# Entries as one program

Programs that are run one after another in one scope do what the program of all their
statements does, as long as none but the last ends before its last statement
(`allAlike_of_join`). So the entries of a session can be joined to one text
(`entries_are_one_program`).

The runs are compared as outcomes with allowances: whatever one of them answers, the other
one answers with enough steps (`Outcome.Extends`).
-/

namespace MonkeyLang

/-! ## Runs one after another -/

/-- Programs run one after another in one scope, each for so many steps at most. The value is
that of the last one. -/
def runAll (n : Nat) (scope : ScopeId) : List Program → Store → Outcome (Option Value)
  | [], s => .done none s
  | [p], s => evalProgram n p scope s
  | p :: q :: ps, s => (evalProgram n p scope s).andThen fun _ s => runAll n scope (q :: ps) s

/-- No statement of a program that is run in a store returns or is an error. -/
def Program.RunsThrough (p : Program) (scope : ScopeId) (s : Store) : Prop :=
  ∀ n v s', evalStmts n p.statements none scope s = .done v s' → v.any Value.endsBlock = false

/-- Of programs run one after another, none but the last ends early. -/
def RunThrough (scope : ScopeId) : List Program → Store → Prop
  | p :: q :: ps, s => p.RunsThrough scope s ∧
      ∀ n v s', evalProgram n p scope s = .done v s' → RunThrough scope (q :: ps) s'
  | _, _ => True

/-- The same, checked with so many steps. -/
def runThroughFor (n : Nat) (scope : ScopeId) : List Program → Store → Bool
  | p :: q :: ps, s =>
    match evalStmts n p.statements none scope s with
    | .done v s' => !v.any Value.endsBlock && runThroughFor n scope (q :: ps) s'
    | _ => false
  | _, _ => true

section Runs

variable {scope : ScopeId} {s : Store}

theorem evalProgram_extends (n : Nat) (p : Program) (scope : ScopeId) (s : Store) :
    (evalProgram n p scope s).Extends (evalProgram (n + 1) p scope s) :=
  (evalStmts_extends n p.statements none scope s).andThen fun _ _ => .refl _

/-- The value before some statements is forgotten. -/
theorem evalStmts_last {stmts : List Stmt} (h : stmts ≠ []) (n : Nat) (last : Option Value)
    (scope : ScopeId) (s : Store) :
    evalStmts n stmts last scope s = evalStmts n stmts none scope s := by
  obtain ⟨stmt, stmts, rfl⟩ := List.exists_cons_of_ne_nil h
  cases n with
  | zero => simp only [evalStmts]
  | succ n => simp only [evalStmts]

/-! ## Programs one after another -/

theorem RunThrough.of_check {n : Nat} {ps : List Program}
    (h : runThroughFor n scope ps s = true) : RunThrough scope ps s := by
  induction ps generalizing s with
  | nil => trivial
  | cons p ps ih =>
      cases ps with
      | nil => trivial
      | cons q ps =>
          rw [runThroughFor] at h
          split at h
          · rename_i v s' hrun
            obtain ⟨hv, hrest⟩ := Bool.and_eq_true_iff.mp h
            have hunique := fun k w t (hk : evalStmts k p.statements none scope s = .done w t) =>
              Outcome.Extends.unique (fun n => evalStmts_extends n p.statements none scope s)
                hrun hk
            refine ⟨fun k w t hk => ?_, fun k w t hk => ?_⟩
            · rw [← (hunique k w t hk).1]
              simpa using hv
            · obtain ⟨last, t₁, hstmts, hdone⟩ := Outcome.andThen_eq_done hk
              obtain ⟨-, rfl⟩ := Outcome.done.inj hdone
              exact (hunique k last t₁ hstmts).2 ▸ ih hrest
          · exact nomatch h

/-- The program of all the statements of some programs. -/
def Program.join (ps : List Program) : Program := ⟨ps.flatMap Program.statements⟩

theorem join_statements_ne_nil {p : Program} (ps : List Program) (h : p.statements ≠ []) :
    (Program.join (p :: ps)).statements ≠ [] := by
  simp [Program.join, h]

/-- A program that runs through and, behind it, one with statements. -/
theorem evalBoth_of_runsThrough {p q : Program} (h : p.RunsThrough scope s)
    (hq : q.statements ≠ []) (n : Nat) :
    (evalBoth n p.statements q.statements none scope s).andThen
        (fun last s => .done (last.map Value.unwrapped) s) =
      (evalProgram n p scope s).andThen fun _ s => evalProgram n q scope s := by
  unfold evalBoth evalProgram
  cases hp : evalStmts n p.statements none scope s with
  | exhausted => rfl
  | fault e => rfl
  | done v s₁ =>
      simp only [Outcome.andThen_done, h n v s₁ hp, evalStmts_last hq n v scope s₁]
      rfl

theorem join_singleton (p : Program) : Program.join [p] = p := by
  simp [Program.join]

/-- The programs behind the first one are run where that one ends. -/
theorem RunThrough.extends {p q : Program} {ps : List Program}
    {f g : Store → Outcome (Option Value)} (h : RunThrough scope (p :: q :: ps) s)
    (hfg : ∀ s', RunThrough scope (q :: ps) s' → (f s').Extends (g s')) {n m : Nat}
    (hnm : n ≤ m) :
    ((evalProgram n p scope s).andThen fun _ s => f s).Extends
      ((evalProgram m p scope s).andThen fun _ s => g s) := by
  rcases Outcome.Extends.of_le (fun n => evalProgram_extends n p scope s) hnm with hp | hp
  · obtain ⟨t, hp⟩ := hp
    exact .inl ⟨t, by rw [hp]; rfl⟩
  · rw [← hp]
    cases hrun : evalProgram n p scope s with
    | @exhausted t => exact .inl ⟨t, rfl⟩
    | fault e => exact .inr rfl
    | done v s' => exact hfg s' (h.2 n v s' hrun)

/-- What the program of all statements answers, the programs one after another answer too. -/
theorem evalProgram_join {ps : List Program} (hps : ∀ p ∈ ps, p.statements ≠ [])
    (h : RunThrough scope ps s) (n : Nat) :
    (evalProgram n (.join ps) scope s).Extends (runAll n scope ps s) := by
  induction ps generalizing s with
  | nil =>
      cases n with
      | zero => exact .inl ⟨s, by simp only [evalProgram, evalStmts, Outcome.andThen_exhausted]⟩
      | succ n => exact .inr (by simp [evalProgram, Program.join, evalStmts, runAll])
  | cons p ps ih =>
      obtain ⟨hp, hrest⟩ := List.forall_mem_cons.mp hps
      cases ps with
      | nil =>
          rw [join_singleton]
          exact .refl _
      | cons q ps =>
          have hq : (Program.join (q :: ps)).statements ≠ [] :=
            join_statements_ne_nil ps (hrest q List.mem_cons_self)
          have hboth := (evalStmts_append n p.statements (Program.join (q :: ps)).statements
            endsBlock_none scope s).andThen
            (f := fun last s => .done (last.map Value.unwrapped) s) fun _ _ => .refl _
          rw [evalBoth_of_runsThrough h.1 hq] at hboth
          exact hboth.trans (h.extends (fun s' hs' => ih hrest hs') (Nat.le_refl n))

/-- What the programs one after another answer, the program of all statements answers too. -/
theorem runAll_join {ps : List Program} (hps : ∀ p ∈ ps, p.statements ≠ [])
    (h : RunThrough scope ps s) (n : Nat) :
    (runAll n scope ps s).Extends
      (evalProgram (n + 1 + (Program.join ps).statements.length) (.join ps) scope s) := by
  induction ps generalizing s with
  | nil => exact .inr (by simp [evalProgram, Program.join, evalStmts, runAll])
  | cons p ps ih =>
      obtain ⟨hp, hrest⟩ := List.forall_mem_cons.mp hps
      cases ps with
      | nil =>
          rw [join_singleton]
          exact .of_le (fun n => evalProgram_extends n p scope s) (by omega)
      | cons q ps =>
          have hq : (Program.join (q :: ps)).statements ≠ [] :=
            join_statements_ne_nil ps (hrest q List.mem_cons_self)
          let m := n + 1 + (Program.join (q :: ps)).statements.length
          have hboth := (evalBoth_extends m p.statements (Program.join (q :: ps)).statements
            endsBlock_none scope s).andThen
            (f := fun last s => .done (last.map Value.unwrapped) s) fun _ _ => .refl _
          rw [evalBoth_of_runsThrough h.1 hq] at hboth
          have hlength : n + 1 + (Program.join (p :: q :: ps)).statements.length =
              m + p.statements.length := by
            simp [m, Program.join]
            omega
          rw [hlength]
          exact (h.extends (fun s' hs' => ih hrest hs') (by omega : n ≤ m)).trans hboth

end Runs

/-! ## Entries -/

theorem evaluate_eq_ran {source : String} (h : (parse source).errors = []) (scope : ScopeId)
    (s : Store) : evaluate source scope s =
      .ran (parse source).program ((parse source).program.run scope s) := by
  rw [evaluate, h]
  rfl

/-- Texts that are evaluated one after another come to what their programs come to, each with
the allowance of a run. -/
theorem evaluateAll_eq_runAll {scope : ScopeId} {sources : List String} {s s' : Store}
    {v : Option Value} (hne : sources ≠ []) (h : ∀ source ∈ sources, (parse source).errors = [])
    (hrun : runAll stepLimit scope (sources.map fun source => (parse source).program) s =
      .done v s') :
    ∃ p, (evaluateAll scope sources s).getLast? = some (.ran p (.done v s'), s') := by
  induction sources generalizing s with
  | nil => exact (hne rfl).elim
  | cons source sources ih =>
      obtain ⟨hsource, hsources⟩ := List.forall_mem_cons.mp h
      have hevaluate := evaluate_eq_ran hsource scope s
      cases sources with
      | nil =>
          have hdone : (parse source).program.run scope s = .done v s' := hrun
          rw [hdone] at hevaluate
          refine ⟨(parse source).program, ?_⟩
          simp only [evaluateAll, hevaluate, Evaluation.store, Outcome.store,
            List.getLast?_singleton]
      | cons next sources =>
          obtain ⟨w, s₁, hdone, hrest⟩ := Outcome.andThen_eq_done hrun
          have hfirst : (parse source).program.run scope s = .done w s₁ := hdone
          rw [hfirst] at hevaluate
          obtain ⟨p, hp⟩ := ih (List.cons_ne_nil _ _) hsources hrest
          refine ⟨p, ?_⟩
          rw [evaluateAll, hevaluate, ← hp]
          simp only [Evaluation.store, Outcome.store, evaluateAll, List.getLast?_cons_cons]

/-- A user sees no difference between programs run one after another in a fresh scope and a
program run there: both never end, or both end, with values of the same type and text or with
none, and with each name bound to values of the same type and text, or in neither. -/
def AllAlike (ps : List Program) (q : Program) : Prop :=
  ((∀ n, (runAll n Store.fresh.1 ps Store.fresh.2).RunsOut) ∧ q.Diverges) ∨
    ∃ v w s t, (∃ n, runAll n Store.fresh.1 ps Store.fresh.2 = .done v s) ∧ q.Ends w t ∧
      v.map Value.shown = w.map Value.shown ∧
      ∀ name, (s.find? Store.fresh.1 name).map Value.shown =
        (t.find? Store.fresh.1 name).map Value.shown

/-- Programs that run through do what the program of all their statements does. -/
theorem allAlike_of_join {ps : List Program} {q : Program} (hps : ∀ p ∈ ps, p.statements ≠ [])
    (h : RunThrough Store.fresh.1 ps Store.fresh.2) (hq : (Program.join ps).Alike q) :
    AllAlike ps q := by
  have hjoin := fun n => evalProgram_join hps h n
  have hall := fun n => runAll_join hps h n
  rcases hq with ⟨hdiverges, hq⟩ | ⟨v, w, s, t, ⟨n, hv⟩, hw, hshown, hnames⟩
  · refine .inl ⟨fun n => ?_, hq⟩
    rcases hall n with hout | heq
    · exact hout
    · exact heq ▸ hdiverges _
  · refine .inr ⟨v, w, s, t, ⟨n, ?_⟩, hw, hshown, hnames⟩
    rcases hjoin n with hout | heq
    · obtain ⟨_, hout⟩ := hout
      exact nomatch hout.symm.trans hv
    · exact heq.symm.trans hv

/-- **A session is one program.** Entries joined by semicolons have no syntax errors. If none of
them but the last ends early when they are run one after another in one scope, a user sees no
difference between this and running the joined text. -/
theorem entries_are_one_program {sources : List String}
    (h : ∀ source ∈ sources, IsEntry source) :
    (parse (";".intercalate sources)).errors = [] ∧
      let programs := sources.map fun source => (parse source).program
      (RunThrough Store.fresh.1 programs Store.fresh.2 →
        AllAlike programs (parse (";".intercalate sources)).program) := by
  obtain ⟨herrors, hplaces⟩ := parse_joined h
  refine ⟨herrors, fun hruns => allAlike_of_join ?_ hruns ?_⟩
  · intro p hp
    obtain ⟨source, hsource, rfl⟩ := List.mem_map.mp hp
    obtain ⟨ts, -, hne, -, hlines⟩ := (h source hsource).exists_lines
    exact hlines.stmts_ne_nil hne
  · have hjoin : Program.join (sources.map fun source => (parse source).program) =
        ⟨statementsOf sources⟩ := congrArg Program.mk (List.flatMap_map ..)
    obtain ⟨ts, -, hlines⟩ := exists_lines_joined h
    rw [hjoin]
    exact Program.alike_of_placeless hplaces.symm hlines.stmtsKnown

/-- A closure that an entry makes, called by the next ones. -/
theorem entries_are_one_program_closure :
    let sources := ["let f = fn(x) \x7b x + 1 \x7d", "let y = f(2)", "[y, f(y)]"]
    let programs := sources.map fun source => (parse source).program
    (∀ source ∈ sources, IsEntry source) ∧
      RunThrough Store.fresh.1 programs Store.fresh.2 ∧
      AllAlike programs (parse (";".intercalate sources)).program := by
  intro sources programs
  have hentries : ∀ source ∈ sources, IsEntry source := by
    simp only [sources, List.forall_mem_cons, List.not_mem_nil, false_implies, implies_true,
      and_true]
    exact ⟨⟨by cbv, by cbv, not_endsInString_of_balance (by cbv)⟩,
      ⟨by cbv, by cbv, not_endsInString_of_balance (by cbv)⟩,
      ⟨by cbv, by cbv, not_endsInString_of_balance (by cbv)⟩⟩
  have hruns : RunThrough Store.fresh.1 programs Store.fresh.2 :=
    .of_check (n := 20) (by cbv)
  exact ⟨hentries, hruns, (entries_are_one_program hentries).2 hruns⟩

end MonkeyLang
