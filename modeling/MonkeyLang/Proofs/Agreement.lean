import MonkeyLang.Proofs.AtRest

/-!
# Values on their way are exceptions

The evaluation and the one with exceptions go the same way, step by step and with the
same stores: where one throws, the other has the value that stands for the exit. What
carries the proof is that everything else is at rest: an operand, a binding or an
element that is taken for a plain value is never an error, and where returns are
thrown, it is no returned value either.
-/

namespace MonkeyLang

variable {how : Returning} {exit : Bool} {α β γ δ : Type}

/-! ## Outcomes that tell verdicts -/

/-- How a type of answers `β` tells answers `α` and exits. -/
structure Telling (how : Returning) (α β : Type) where
  answer : α → β
  exit : Value → β
  /-- What the answers that are told satisfy. -/
  ok : α → Prop

namespace Telling

/-- A value tells itself; an exit is told by the value that stands for it. -/
def value (how : Returning) : Telling how Value Value :=
  ⟨id, id, Value.AtRest how⟩

/-- Values are told as they are, an exit by the value that stands for it, marked. -/
def values (how : Returning) : Telling how (List Value) (Except Value (List Value)) :=
  ⟨.ok, .error, fun vs => ∀ v ∈ vs, v.AtRest how⟩

/-- The value of a statement tells itself. An exit is told by some value. -/
def last (how : Returning) : Telling how (Option Value) (Option Value) :=
  ⟨id, some, fun last => ∀ v ∈ last, v.AtRest how⟩

end Telling

/-- What may be thrown by code from which a `return` leads, or does not lead, out. -/
def Exit.Allowed (how : Returning) (exit : Bool) : Exit → Prop
  | .failure _ _ => True
  | .leaving _ v => how = .thrown ∧ exit = true ∧ v.AtRest .thrown

/-- An outcome tells a verdict, with all values at rest. -/
def Telling.Tells (t : Telling how α β) (exit : Bool) (o : Outcome β) (r : Verdict α) : Prop :=
  match r with
  | .value a s => o = .done (t.answer a) s ∧ t.ok a ∧ s.All (Value.AtRest how)
  | .thrown x s => o = .done (t.exit x.value) s ∧ x.Allowed how exit ∧ s.All (Value.AtRest how)
  | .fault e => ∃ s, o = .fault (t := s) e
  | .exhausted => o.RunsOut

theorem Exit.Allowed.of_false {x : Exit} (h : x.Allowed how false) : x.Allowed how exit := by
  cases x with
  | failure _ _ => trivial
  | leaving _ _ => exact nomatch h.2.1

theorem Exit.Allowed.isError {x : Exit} (h : x.Allowed how false) : x.value.isError = true := by
  cases x with
  | failure _ _ => rfl
  | leaving _ _ => exact nomatch h.2.1

namespace Telling.Tells

variable {t : Telling how α β} {t' : Telling how γ δ} {o : Outcome β} {r : Verdict α} {s : Store}

/-- What follows an answer is told, and an exit passes through what follows. -/
theorem andThen {exit' : Bool} {f : β → Store → Outcome δ} {g : α → Store → Verdict γ}
    (h : t.Tells exit o r)
    (hexit : ∀ (x : Exit) s, x.Allowed how exit → f (t.exit x.value) s = .done (t'.exit x.value) s ∧
      x.Allowed how exit')
    (hf : ∀ a s, t.ok a → s.All (Value.AtRest how) → t'.Tells exit' (f (t.answer a) s) (g a s)) :
    t'.Tells exit' (o.andThen f) (r.andThen g) := by
  cases r with
  | value a s =>
      obtain ⟨rfl, ha, hs⟩ := h
      exact hf a s ha hs
  | thrown x s =>
      obtain ⟨rfl, hx, hs⟩ := h
      obtain ⟨hthrough, hx'⟩ := hexit x s hx
      exact ⟨hthrough, hx', hs⟩
  | fault e =>
      obtain ⟨s, rfl⟩ := h
      exact ⟨s, rfl⟩
  | exhausted =>
      obtain ⟨s, rfl⟩ := h
      exact ⟨s, rfl⟩

/-- The rule of a part that is used: an error is passed on at once. -/
theorem operand {o : Outcome Value} {r : Verdict Value} {f : Value → Store → Outcome β}
    {g : Value → Store → Verdict α} (h : (Telling.value how).Tells false o r)
    (hf : ∀ v s, v.AtRest how → s.All (Value.AtRest how) → t.Tells exit (f v s) (g v s)) :
    t.Tells exit
      (o.andThen fun v s => if v.isError then .done (t.exit v) s else f v s) (r.andThen g) := by
  refine h.andThen (fun x s hx => ⟨if_pos hx.isError, hx.of_false⟩) fun v s hv hs => ?_
  have hplain : ¬ v.isError = true := by rw [hv.isError]; exact nofun
  rw [show (Telling.value how).answer v = v from rfl, if_neg hplain]
  exact hf v s hv hs

theorem unlessError {o : Outcome Value} {r : Verdict Value} {f : Value → Store → Outcome Value}
    {g : Value → Store → Verdict Value} (h : (Telling.value how).Tells false o r)
    (hf : ∀ v s, v.AtRest how → s.All (Value.AtRest how) →
      (Telling.value how).Tells exit (f v s) (g v s)) :
    (Telling.value how).Tells exit (o.unlessError f) (r.andThen g) := by
  have hrule : o.unlessError f =
      o.andThen fun v s => if v.isError then .done v s else f v s := by
    cases o <;> rfl
  rw [hrule]
  exact h.operand hf

theorem ite {p : Prop} [Decidable p] {o' : Outcome β} {r' : Verdict α} (h : t.Tells exit o r)
    (h' : t.Tells exit o' r') :
    t.Tells exit (if p then o else o') (if p then r else r') := by
  split
  · exact h
  · exact h'

theorem error (hs : s.All (Value.AtRest how)) (e : RuntimeError) :
    (Telling.value how).Tells exit (s.yield (.error e)) (s.conclude (.error e)) :=
  ⟨rfl, trivial, hs.make (.error e)⟩

theorem conclude (hs : s.All (Value.AtRest how)) {d : Draft} (hd : d.Has (Value.AtRest how)) :
    (Telling.value how).Tells exit (s.yield d) (s.conclude d) := by
  rcases hd with ⟨e, rfl⟩ | hd
  · exact .error hs e
  · cases d with
    | error e => exact .error hs e
    | _ => exact ⟨rfl, hd s.nextId, hs.make _⟩

/-- The rule of a part whose value becomes that of the whole, with or without an end. -/
theorem answer {o : Outcome Value} {r : Verdict Value} (h : (Telling.value how).Tells exit o r) :
    (Telling.last how).Tells exit (o.andThen fun v s => .done (some v) s)
      (r.andThen fun v s => .value (some v) s) :=
  h.andThen (fun _ _ hx => ⟨rfl, hx⟩) fun _ _ hv hs =>
    ⟨rfl, fun _ hw => Option.some.inj hw ▸ hv, hs⟩

/-- The rule of a `return`. -/
theorem leave {o : Outcome Value} {r : Verdict Value} (h : (Telling.value how).Tells false o r)
    (hexit : how.Asks exit) :
    (Telling.last how).Tells exit
      ((o.unlessError fun v s => s.yield (.returned v)).andThen fun v s => .done (some v) s)
      (r.andThen fun v s => s.leave how v) := by
  have hrule : ((o.unlessError fun v s => s.yield (.returned v)).andThen
      fun v s => .done (some v) s) = o.andThen fun v s => if v.isError then .done (some v) s
        else (s.yield (.returned v)).andThen fun v s => .done (some v) s := by
    cases o with
    | done v s =>
        rw [Outcome.unlessError_done, Outcome.andThen_done]
        split <;> rfl
    | _ => rfl
  rw [hrule]
  refine h.operand (t := Telling.last how) ?_
  intro v s hv hs
  cases how with
  | wrapped =>
      refine ⟨rfl, ?_, hs.make _⟩
      rintro w ⟨⟩
      exact .returned rfl hv
  | thrown => exact ⟨rfl, ⟨rfl, hexit rfl, hv⟩, hs.make _⟩

/-- The value of a statement, or null if it has none. -/
theorem getD {o : Outcome (Option Value)} {r : Verdict (Option Value)}
    (h : (Telling.last how).Tells exit o r) :
    (Telling.value how).Tells exit (o.andThen fun last s => .done (last.getD .null) s)
      (r.andThen fun last s => .value (last.getD .null) s) :=
  h.andThen (fun _ _ hx => ⟨rfl, hx⟩) fun _ _ hlast hs =>
    ⟨rfl, (pervasive_atRest how).getD_null fun v hv => hlast v hv, hs⟩

/-- A `return` ends here: the wrapper of its operand is taken off, where it has one. -/
theorem caught {f : β → δ} {pass : α → γ} {receive : Value → γ} (h : t.Tells true o r)
    (hanswer : ∀ a, t.ok a → f (t.answer a) = t'.answer (pass a) ∧ t'.ok (pass a))
    (hfailure : ∀ id e, f (t.exit (.error id e)) = t'.exit (.error id e))
    (hleaving : ∀ id v, v.AtRest how →
      f (t.exit (.returned id v)) = t'.answer (receive v) ∧ t'.ok (receive v)) :
    t'.Tells exit (o.andThen fun b s => .done (f b) s) (r.caught pass receive) := by
  cases r with
  | value a s =>
      obtain ⟨rfl, ha, hs⟩ := h
      obtain ⟨hpass, hok⟩ := hanswer a ha
      exact ⟨congrArg (Outcome.done · s) hpass, hok, hs⟩
  | thrown x s =>
      obtain ⟨rfl, hx, hs⟩ := h
      cases x with
      | failure id e => exact ⟨congrArg (Outcome.done · s) (hfailure id e), trivial, hs⟩
      | leaving id v =>
          obtain ⟨rfl, -, hv⟩ := hx
          obtain ⟨hreceive, hok⟩ := hleaving id v hv
          exact ⟨congrArg (Outcome.done · s) hreceive, hok, hs⟩
  | fault e =>
      obtain ⟨s, rfl⟩ := h
      exact ⟨s, rfl⟩
  | exhausted =>
      obtain ⟨s, rfl⟩ := h
      exact ⟨s, rfl⟩

/-- The end of a function. -/
theorem caught_value {o : Outcome Value} {r : Verdict Value}
    (h : (Telling.value how).Tells true o r) :
    (Telling.value how).Tells exit (o.andThen fun v s => .done v.unwrapped s)
      (r.caught how.received id) :=
  h.caught (fun _ hv => ⟨hv.unwrapped, hv.received⟩) (fun _ _ => rfl) fun _ _ hv => ⟨rfl, hv⟩

/-- The end of a program. -/
theorem caught_last {o : Outcome (Option Value)} {r : Verdict (Option Value)}
    (h : (Telling.last how).Tells true o r) :
    (Telling.last how).Tells exit (o.andThen fun last s => .done (last.map Value.unwrapped) s)
      (r.caught (Option.map how.received) some) := by
  refine h.caught (fun last hlast => ?_) (fun _ _ => rfl) fun _ v hv => ⟨rfl, ?_⟩
  · cases last with
    | none => exact ⟨rfl, hlast⟩
    | some v =>
        have hv : v.AtRest how := hlast v rfl
        refine ⟨congrArg some hv.unwrapped, ?_⟩
        rintro w ⟨⟩
        exact hv.received
  · rintro w ⟨⟩
    exact hv

end Telling.Tells

/-! ## Rules -/

theorem Exit.endsBlock (x : Exit) : x.value.endsBlock = true := by
  cases x <;> rfl

theorem forall_mem_none {P : Value → Prop} : ∀ v ∈ (none : Option Value), P v :=
  fun v hv => absurd hv (Option.not_mem_none v)

theorem any_endsBlock {last : Option Value} (h : ∀ v ∈ last, v.AtRest how) :
    last.any Value.endsBlock = last.any how.ends := by
  cases last with
  | none => rfl
  | some v => exact (h v rfl).endsBlock

open Telling in
mutual

theorem expr_tells : ∀ n (e : Expr) exit scope s, how.Asks (e.isDisciplined exit) →
    s.All (Value.AtRest how) →
    (value how).Tells exit (evalExpr n e scope s) (Throwing.expr how n e scope s)
  | 0, _, _, _, _, _, _ => by unfold evalExpr Throwing.expr; exact ⟨_, rfl⟩
  | n + 1, e, exit, scope, s, h, hs => by
      have hp := pervasive_atRest how
      unfold evalExpr Throwing.expr
      cases e with
      | identifier _ name => exact .conclude hs (hs.valueOf hp.builtin scope name)
      | integer _ value => exact .conclude hs (hp.has_integer value)
      | string _ value => exact .conclude hs (hp.has_string value)
      | boolean _ value => exact .conclude hs (hp.has_boolean value)
      | function _ parameters body => exact .conclude hs (.inr fun _ => .function h)
      | unknown _ _ => exact ⟨_, rfl⟩
      | prefixOp _ operator right =>
          refine (expr_tells n right false scope s h hs).unlessError ?_
          intro r s₁ _ hs₁
          exact .conclude hs₁ (hp.has_prefixOp operator r)
      | infixOp _ left operator right =>
          obtain ⟨hl, hr⟩ := Returning.Asks.and h
          refine (expr_tells n left false scope s hl hs).unlessError ?_
          intro l s₁ _ hs₁
          refine (expr_tells n right false scope s₁ hr hs₁).unlessError ?_
          intro r s₂ _ hs₂
          exact .conclude hs₂ (hp.has_infixOp l operator r)
      | conditional _ condition consequence alternative =>
          obtain ⟨h, he⟩ := Returning.Asks.and h
          obtain ⟨hc, ht⟩ := Returning.Asks.and h
          refine (expr_tells n condition false scope s hc hs).unlessError ?_
          intro _ s₁ _ hs₁
          refine .ite (block_tells n consequence exit scope s₁ ht hs₁) ?_
          cases alternative with
          | none => exact ⟨rfl, hp.null, hs₁⟩
          | some other => exact block_tells n other exit scope s₁ he hs₁
      | loop _ condition body =>
          obtain ⟨hc, hb⟩ := Returning.Asks.and h
          exact loop_tells n condition body exit scope s hc hb hs
      | call _ function arguments =>
          obtain ⟨hf, ha⟩ := Returning.Asks.and h
          refine (expr_tells n function false scope s hf hs).unlessError ?_
          intro f s₁ hf hs₁
          refine (all_tells n arguments scope s₁ ha hs₁).andThen
            (fun _ _ hx => ⟨rfl, hx.of_false⟩) ?_
          intro vs s₂ hvs hs₂
          exact call_tells n f vs exit s₂ hf hvs hs₂
      | array _ elements =>
          refine (all_tells n elements scope s h hs).andThen (fun _ _ hx => ⟨rfl, hx.of_false⟩) ?_
          intro vs s₁ hvs hs₁
          exact .conclude hs₁ (.inr fun id => (hp.array_iff id vs).mpr hvs)
      | index _ left index =>
          obtain ⟨hl, hi⟩ := Returning.Asks.and h
          refine (expr_tells n left false scope s hl hs).unlessError ?_
          intro l s₁ hl hs₁
          refine (expr_tells n index false scope s₁ hi hs₁).unlessError ?_
          intro i s₂ _ hs₂
          exact .conclude hs₂ (hp.has_indexOp hl i)
      | hash _ pairs => exact pairs_tells n pairs [] exit scope s h nofun hs
      | statement stmt => exact (stmt_tells n stmt exit scope s h hs).getD

theorem all_tells : ∀ n es scope s, how.Asks (allDisciplined es) → s.All (Value.AtRest how) →
    (values how).Tells false (evalAll n es scope s) (Throwing.all how n es scope s)
  | 0, _, _, _, _, _ => by unfold evalAll Throwing.all; exact ⟨_, rfl⟩
  | n + 1, [], scope, s, _, hs => by
      unfold evalAll Throwing.all
      exact ⟨rfl, List.forall_mem_nil _, hs⟩
  | n + 1, e :: es, scope, s, h, hs => by
      obtain ⟨he, hes⟩ := Returning.Asks.and h
      unfold evalAll Throwing.all
      refine (expr_tells n e false scope s he hs).operand (t := values how) ?_
      intro v s₁ hv hs₁
      refine (all_tells n es scope s₁ hes hs₁).andThen (fun _ _ hx => ⟨rfl, hx⟩) ?_
      intro vs s₂ hvs hs₂
      exact ⟨rfl, List.forall_mem_cons.mpr ⟨hv, hvs⟩, hs₂⟩

theorem pairs_tells : ∀ n pairs entries exit scope s, how.Asks (pairsDisciplined pairs) →
    (∀ e ∈ entries, e.1.AtRest how ∧ e.2.AtRest how) → s.All (Value.AtRest how) →
    (value how).Tells exit (evalPairs n pairs entries scope s)
      (Throwing.pairs how n pairs entries scope s)
  | 0, _, _, _, _, _, _, _, _ => by unfold evalPairs Throwing.pairs; exact ⟨_, rfl⟩
  | n + 1, [], entries, exit, scope, s, _, hes, hs => by
      unfold evalPairs Throwing.pairs
      exact .conclude hs (.inr fun id => ((pervasive_atRest how).hash_iff id entries).mpr hes)
  | n + 1, (key, value) :: pairs, entries, exit, scope, s, h, hes, hs => by
      obtain ⟨h, hps⟩ := Returning.Asks.and h
      obtain ⟨hk, hv⟩ := Returning.Asks.and h
      unfold evalPairs Throwing.pairs
      refine (expr_tells n key false scope s hk hs).unlessError ?_
      intro k s₁ hk hs₁
      refine .ite (.error hs₁ _) ?_
      refine (expr_tells n value false scope s₁ hv hs₁).unlessError ?_
      intro v s₂ hv hs₂
      exact pairs_tells n pairs _ exit scope s₂ hps (Pervasive.insert hk hv hes) hs₂

theorem loop_tells : ∀ n (condition : Expr) (body : Block) exit scope s,
    how.Asks (condition.isDisciplined false) → how.Asks (body.isDisciplined exit) →
    s.All (Value.AtRest how) →
    (value how).Tells exit (evalLoop n condition body scope s)
      (Throwing.loop how n condition body scope s)
  | 0, _, _, _, _, _, _, _, _ => by unfold evalLoop Throwing.loop; exact ⟨_, rfl⟩
  | n + 1, condition, body, exit, scope, s, hc, hb, hs => by
      unfold evalLoop Throwing.loop
      refine (expr_tells n condition false scope s hc hs).unlessError ?_
      intro _ s₁ _ hs₁
      refine .ite ?_ ⟨rfl, (pervasive_atRest how).null, hs₁⟩
      refine (block_tells n body exit scope s₁ hb hs₁).andThen
        (fun x _ hx => ⟨if_pos x.endsBlock, hx⟩) ?_
      intro v s₂ hv hs₂
      rw [show (value how).answer v = v from rfl, hv.endsBlock]
      exact .ite ⟨rfl, hv, hs₂⟩ (loop_tells n condition body exit scope s₂ hc hb hs₂)

theorem block_tells : ∀ n (b : Block) exit scope s, how.Asks (b.isDisciplined exit) →
    s.All (Value.AtRest how) →
    (value how).Tells exit (evalBlock n b scope s) (Throwing.block how n b scope s)
  | 0, _, _, _, _, _, _ => by unfold evalBlock Throwing.block; exact ⟨_, rfl⟩
  | n + 1, b, exit, scope, s, h, hs => by
      rw [b.isDisciplined_eq] at h
      unfold evalBlock Throwing.block
      exact (stmts_tells n b.statements none exit scope s h forall_mem_none hs).getD

theorem stmts_tells : ∀ n stmts last exit scope s, how.Asks (stmtsDisciplined exit stmts) →
    (∀ v ∈ last, v.AtRest how) → s.All (Value.AtRest how) →
    (Telling.last how).Tells exit (evalStmts n stmts last scope s)
      (Throwing.stmts how n stmts last scope s)
  | 0, _, _, _, _, _, _, _, _ => by unfold evalStmts Throwing.stmts; exact ⟨_, rfl⟩
  | n + 1, [], last, exit, scope, s, _, hlast, hs => by
      unfold evalStmts Throwing.stmts
      exact ⟨rfl, hlast, hs⟩
  | n + 1, stmt :: stmts, last, exit, scope, s, h, _, hs => by
      obtain ⟨hstmt, hstmts⟩ := Returning.Asks.and h
      unfold evalStmts Throwing.stmts
      refine (stmt_tells n stmt exit scope s hstmt hs).andThen
        (fun x _ hx => ⟨if_pos x.endsBlock, hx⟩) ?_
      intro v s₁ hv hs₁
      rw [show (Telling.last how).answer v = v from rfl, any_endsBlock hv]
      exact .ite ⟨rfl, hv, hs₁⟩ (stmts_tells n stmts v exit scope s₁ hstmts hv hs₁)

theorem stmt_tells : ∀ n (stmt : Stmt) exit scope s, how.Asks (stmt.isDisciplined exit) →
    s.All (Value.AtRest how) →
    (Telling.last how).Tells exit (evalStmt n stmt scope s) (Throwing.stmt how n stmt scope s)
  | 0, _, _, _, _, _, _ => by unfold evalStmt Throwing.stmt; exact ⟨_, rfl⟩
  | n + 1, stmt, exit, scope, s, h, hs => by
      unfold evalStmt Throwing.stmt
      match stmt with
      | .binding _ name value =>
          refine (expr_tells n value false scope s h hs).operand (t := Telling.last how) ?_
          intro v s₁ hv hs₁
          exact ⟨rfl, nofun, hs₁.bind scope name.value hv⟩
      | .leave _ value =>
          obtain ⟨hexit, hv⟩ := Returning.Asks.and h
          exact (expr_tells n value false scope s hv hs).leave hexit
      | .expression _ e => exact (expr_tells n e exit scope s h hs).answer
      | .block (.program stmts) =>
          exact (stmts_tells n stmts none true scope s h forall_mem_none hs).caught_last
      | .block (.mk mark stmts) =>
          exact (block_tells n (.mk mark stmts) exit scope s h hs).answer
      | .bare e => exact (expr_tells n e exit scope s h hs).answer
      | .unknown _ _ => exact ⟨_, rfl⟩

theorem call_tells : ∀ n (f : Value) arguments exit s, f.AtRest how →
    (∀ v ∈ arguments, v.AtRest how) → s.All (Value.AtRest how) →
    (value how).Tells exit (apply n f arguments s) (Throwing.call how n f arguments s)
  | 0, _, _, _, _, _, _, _ => by unfold apply Throwing.call; exact ⟨_, rfl⟩
  | n + 1, f, arguments, exit, s, hf, ha, hs => by
      unfold apply Throwing.call
      cases f with
      | function id parameters body outer =>
          refine .ite (.error hs _) ?_
          have hbound := (hs.openScope (some outer)).bindAll (s.openScope (some outer)).1
            (parameters.map Name.value) ha
          exact (block_tells n body true _ _ hf.self hbound).caught_value
      | builtin b => exact .conclude hs ((pervasive_atRest how).has_apply b ha)
      | _ => exact .error hs _

end

end MonkeyLang
