import MonkeyLang.Proofs.CopiedRuns
import MonkeyLang.Proofs.KnownRuns
import MonkeyLang.Proofs.Moments
import MonkeyLang.Proofs.ParsedTrees

/-!
# The stores of a run

The stores of all moments of a run are closed: each scope lies inside an earlier one, and the
functions, arrays and other objects that are bound, or that a task is given, have been made
before. If the program is known, all these values are known as well.

In a session, programs are run one after another, each in a scope of its own or in one that the
runs before it have left or opened. `Store.Met` says which stores are met on the way: the store
between two runs, and that of every moment of a run. No code in them is unknown, because all of it
has been parsed.
-/

namespace MonkeyLang

/-! ## Runs in a closed store -/

namespace Outcome.Copies

variable {α : Type} {act : Relabeling → α → α} {g : Gap} {s t : Store} {a : α}

/-- What a run in a closed store comes to fits the store after it, which is closed. -/
theorem of_eq {o o' : Outcome α} (h : o.Copies act g s o') (heq : o = .done a t) :
    t.Covers act a ∧ s.Grows t ∧ t.Closed := by
  subst heq
  cases h with
  | done ha hgrows ht => exact ⟨ha, hgrows, ht.closed⟩

end Outcome.Copies

theorem Store.covers_last_iff {s : Store} {last : Option Value} :
    s.Covers relabelLast last ↔ ∀ v ∈ last.toList, v.Fits s := by
  cases last with
  | none => exact iff_of_true (fun _ _ => rfl) nofun
  | some v =>
      rw [Option.toList_some, List.forall_mem_singleton, Value.fits_iff]
      exact forall₂_congr fun g _ => Option.some_inj

/-! ## Closed moments -/

/-- The scope of a task is in a store. -/
def Task.IsIn (s : Store) : Task → Prop
  | .expr _ scope | .all _ scope | .pairs _ _ scope | .loop _ _ scope | .block _ scope
  | .stmts _ _ scope | .stmt _ scope => scope < s.scopes.size
  | .call _ _ => True

/-- The store of a moment is closed, and the task is in it with all its values. -/
structure Moment.Closed (m : Moment) : Prop where
  store : m.store.Closed
  scope : m.task.IsIn m.store
  values : ∀ v ∈ m.task.values, v.Fits m.store

section Closed

variable {n : Nat} {scope : ScopeId} {s s₁ : Store}

/-- An expression that is evaluated on the way leaves a closed store with room for the
scope. -/
theorem Store.Closed.expr (hs : s.Closed) (hscope : scope < s.scopes.size) {e : Expr}
    {v : Value} (h : evalExpr n e scope s = .done v s₁) :
    s₁.Closed ∧ scope < s₁.scopes.size ∧ v.Fits s₁ ∧ s.Grows s₁ := by
  obtain ⟨hv, hgrows, hs₁⟩ := (evalExpr_copies n e (.refl hs) hscope).of_eq h
  exact ⟨hs₁, hgrows.scope_lt hscope, Value.fits_iff.mpr hv, hgrows⟩

/-- **Step.** A moment that is entered by a closed one is closed. -/
theorem Enters.closed {role : Role} {m m' : Moment} (h : Enters role m m') (hm : m.Closed) :
    m'.Closed := by
  obtain ⟨hs, hscope, hvalues⟩ := hm
  cases h with
  | operand | left | condition | function | indexed | loop | elements | hash | statement | first
  | key | test | statements | head | bound | returned | expression | program | block | bare =>
      exact ⟨hs, hscope, nofun⟩
  | right h _ | consequence h _ _ | alternative h _ _ | arguments h _ | index h _ | others h _
  | value h _ _ | iteration h _ _ =>
      obtain ⟨hs₁, hscope₁, -, -⟩ := hs.expr hscope h
      exact ⟨hs₁, hscope₁, nofun⟩
  | call hf _ hvs =>
      obtain ⟨hs₁, hscope₁, hf, -⟩ := hs.expr hscope hf
      obtain ⟨hvs, hgrows, hs₂⟩ := (evalAll_copies _ _ (.refl hs₁) hscope₁).of_eq hvs
      refine ⟨hs₂, trivial, List.forall_mem_cons.mpr ⟨hgrows.fits hf, ?_⟩⟩
      exact Store.covers_all_iff.mp fun g hg => Except.ok.inj (hvs g hg)
  | entry hk _ _ hv _ =>
      obtain ⟨hs₁, hscope₁, hk, hgrows⟩ := hs.expr hscope hk
      obtain ⟨hs₂, hscope₂, hv, hgrows₁⟩ := hs₁.expr hscope₁ hv
      refine ⟨hs₂, hscope₂, forall_mem_flatMap (Pervasive.insert (hgrows₁.fits hk) hv ?_)⟩
      exact forall_mem_entries fun v hv => (hgrows.trans hgrows₁).fits (hvalues v hv)
  | again hc _ _ hv _ =>
      obtain ⟨hs₁, hscope₁, -, -⟩ := hs.expr hscope hc
      obtain ⟨-, hgrows, hs₂⟩ := (evalBlock_copies _ _ (.refl hs₁) hscope₁).of_eq hv
      exact ⟨hs₂, hgrows.scope_lt hscope₁, nofun⟩
  | next hv _ =>
      obtain ⟨hv, hgrows, hs₁⟩ := (evalStmt_copies _ _ (.refl hs) hscope).of_eq hv
      exact ⟨hs₁, hgrows.scope_lt hscope, Store.covers_last_iff.mp hv⟩
  | body _ =>
      obtain ⟨hf, harguments⟩ := List.forall_mem_cons.mp hvalues
      obtain ⟨-, hnew, hinner⟩ := (Store.Copies.refl hs).enter hf.self.2 _ harguments
      exact ⟨hinner.closed, hnew, nofun⟩

theorem Store.closed_empty : Store.empty.Closed where
  outer_lt i sc hsc := by simp [Store.empty] at hsc
  fits := Store.all_empty

theorem Store.closed_fresh : Store.fresh.2.Closed := Store.closed_empty.openScope nofun

/-- **Run.** All moments of a run are closed. -/
theorem Program.Reaches.closed {p : Program} {role : Role} {m : Moment} (h : p.Reaches role m) :
    m.Closed := by
  induction h with
  | start => exact ⟨Store.closed_fresh, Nat.lt_succ_self _, nofun⟩
  | enter _ henters ih => exact henters.closed ih

end Closed

/-! ## Known moments -/

/-- All code of a task is known. -/
def Task.isKnown : Task → Bool
  | .expr e _ => e.isKnown
  | .all es _ => allKnown es
  | .pairs ps _ _ => pairsKnown ps
  | .loop condition body _ => condition.isKnown && body.isKnown
  | .block b _ => b.isKnown
  | .stmts ss _ _ => stmtsKnown ss
  | .stmt st _ => st.isKnown
  | .call _ _ => true

/-- All code of a moment is known, wherever it stands. -/
structure Moment.Known (m : Moment) : Prop where
  store : m.store.All Value.Known
  code : m.task.isKnown = true
  values : ∀ v ∈ m.task.values, v.Known

namespace Outcome.Knows

variable {α : Type} {ok : α → Prop} {o : Outcome α} {a : α} {s : Store}

theorem of_eq (h : o.Knows ok) (heq : o = .done a s) : ok a ∧ s.All Value.Known := by
  subst heq
  exact h

end Outcome.Knows

/-- **Step.** A moment that is entered by a known one is known. -/
theorem Enters.known {role : Role} {m m' : Moment} (h : Enters role m m') (hm : m.Known) :
    m'.Known := by
  obtain ⟨hs, hcode, hvalues⟩ := hm
  have part {n : Nat} {e : Expr} {scope : ScopeId} {s s₁ : Store} {v : Value}
      (hs : s.All Value.Known) (he : e.isKnown = true) (h : evalExpr n e scope s = .done v s₁) :
      s₁.All Value.Known ∧ v.Known := (evalExpr_known n e scope s he hs).of_eq h |>.symm
  cases h with
  | operand | loop | elements | hash | statement | bound | returned | expression | program
  | block | bare => exact ⟨hs, hcode, nofun⟩
  | left | function | indexed | first | test | head =>
      exact ⟨hs, (Bool.and_eq_true_iff.mp hcode).1, nofun⟩
  | condition | key =>
      exact ⟨hs, (Bool.and_eq_true_iff.mp (Bool.and_eq_true_iff.mp hcode).1).1, nofun⟩
  | right h _ | arguments h _ | index h _ | others h _ | iteration h _ _ =>
      obtain ⟨h₁, h₂⟩ := Bool.and_eq_true_iff.mp hcode
      exact ⟨(part hs h₁ h).1, h₂, nofun⟩
  | consequence h _ _ | value h _ _ =>
      obtain ⟨h₁, h₂⟩ := Bool.and_eq_true_iff.mp (Bool.and_eq_true_iff.mp hcode).1
      exact ⟨(part hs h₁ h).1, h₂, nofun⟩
  | alternative hc _ _ =>
      obtain ⟨hcode, he⟩ := Bool.and_eq_true_iff.mp hcode
      obtain ⟨h₁, -⟩ := Bool.and_eq_true_iff.mp hcode
      exact ⟨(part hs h₁ hc).1, he, nofun⟩
  | @statements b _ _ => cases b <;> exact ⟨hs, hcode, nofun⟩
  | call hf _ hvs =>
      obtain ⟨h₁, h₂⟩ := Bool.and_eq_true_iff.mp hcode
      obtain ⟨hs₁, hf⟩ := part hs h₁ hf
      obtain ⟨hvs, hs₂⟩ := (evalAll_known _ _ _ _ h₂ hs₁).of_eq hvs
      exact ⟨hs₂, rfl, List.forall_mem_cons.mpr ⟨hf, hvs⟩⟩
  | entry hk _ _ hv _ =>
      obtain ⟨hcode, hps⟩ := Bool.and_eq_true_iff.mp hcode
      obtain ⟨h₁, h₂⟩ := Bool.and_eq_true_iff.mp hcode
      obtain ⟨hs₁, hk⟩ := part hs h₁ hk
      obtain ⟨hs₂, hv⟩ := part hs₁ h₂ hv
      exact ⟨hs₂, hps, forall_mem_flatMap (Pervasive.insert hk hv (forall_mem_entries hvalues))⟩
  | again hc _ _ hv _ =>
      obtain ⟨h₁, h₂⟩ := Bool.and_eq_true_iff.mp hcode
      obtain ⟨hs₁, -⟩ := part hs h₁ hc
      exact ⟨((evalBlock_known _ _ _ _ h₂ hs₁).of_eq hv).2, hcode, nofun⟩
  | next hv _ =>
      obtain ⟨h₁, h₂⟩ := Bool.and_eq_true_iff.mp hcode
      obtain ⟨hv, hs₁⟩ := (evalStmt_known _ _ _ _ h₁ hs).of_eq hv
      exact ⟨hs₁, h₂, fun w hw => hv w (Option.mem_toList.mp hw)⟩
  | body _ =>
      obtain ⟨hf, harguments⟩ := List.forall_mem_cons.mp hvalues
      exact ⟨(hs.openScope _).bindAll _ _ harguments, hf, nofun⟩

/-- **Run.** All moments of a run of a known program are known. -/
theorem Program.Reaches.known {p : Program} (hp : stmtsKnown p.statements = true) {role : Role}
    {m : Moment} (h : p.Reaches role m) : m.Known := by
  induction h with
  | start => exact ⟨Store.all_empty.openScope none, hp, nofun⟩
  | enter _ henters ih => exact henters.known ih

/-! ## Stores that are met -/

/-- A run that takes up the first task takes up the second one after it, or it is the same. -/
def Moment.LeadsTo : Moment → Moment → Prop :=
  Relation.ReflTransGen fun m m' => ∃ role, Enters role m m'

/-- A store that is met in a session: the empty one, one with a scope opened for a program, and
one that is met while a program without syntax errors runs in a scope, or that its run leaves. -/
inductive Store.Met : Store → Prop
  | empty : Store.Met .empty
  | opened {s : Store} : s.Met → (s.openScope none).2.Met
  | running {s : Store} {source : String} {scope : ScopeId} {m : Moment} : s.Met →
    (parse source).errors = [] →
    Moment.LeadsTo ⟨.stmts (parse source).program.statements none scope, s⟩ m → m.store.Met
  | left {s t : Store} {source : String} {scope : ScopeId} {n : Nat} {v : Option Value} : s.Met →
    (parse source).errors = [] → evalProgram n (parse source).program scope s = .done v t → t.Met

theorem Moment.LeadsTo.known {m m' : Moment} (h : m.LeadsTo m') (hm : m.Known) : m'.Known := by
  induction h with
  | refl => exact hm
  | tail _ henters ih =>
      obtain ⟨_, henters⟩ := henters
      exact henters.known ih

theorem Store.Met.known {s : Store} (h : s.Met) : s.All Value.Known := by
  induction h with
  | empty => exact Store.all_empty
  | opened _ ih => exact ih.openScope none
  | running _ hsource hleads ih => exact (hleads.known ⟨ih, stmtsKnown_parse hsource, nofun⟩).store
  | left _ hsource hrun ih =>
      exact ((evalProgram_known _ _ _ _ (stmtsKnown_parse hsource) ih).of_eq hrun).2

end MonkeyLang
