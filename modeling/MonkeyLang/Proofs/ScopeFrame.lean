import Mathlib
import MonkeyLang.Eval

/-!
# What an evaluation writes

Scopes are shared: a closure keeps the scope that it was made in, and everything
that runs in this scope binds names in it. Still an evaluation writes only into
the scope that it runs in, and there only names that a `let` of the tree itself
binds, outside of its function literals. A call runs in a scope of its own, so it
leaves all scopes that existed before as they were.

`Store.Frame` says this of two stores. It is reflexive and transitive, so each
rule of the evaluator needs no more than the frames of its parts.
-/

namespace MonkeyLang

/-! ## Names of bindings -/

mutual

/-- The names that the `let` statements of an expression bind, function bodies
left out. -/
def Expr.letNames : Expr → List String
  | .identifier .. | .integer .. | .string .. | .boolean .. | .function .. | .unknown .. => []
  | .prefixOp _ _ right => right.letNames
  | .infixOp _ left _ right => left.letNames ++ right.letNames
  | .conditional _ condition consequence alternative =>
    condition.letNames ++ (consequence.letNames ++ letNamesElse alternative)
  | .loop _ condition body => condition.letNames ++ body.letNames
  | .call _ function arguments => function.letNames ++ letNamesAll arguments
  | .array _ elements => letNamesAll elements
  | .index _ left index => left.letNames ++ index.letNames
  | .hash _ pairs => letNamesPairs pairs
  | .statement stmt => stmt.letNames

def letNamesElse : Option Block → List String
  | none => []
  | some b => b.letNames

def letNamesAll : List Expr → List String
  | [] => []
  | e :: es => e.letNames ++ letNamesAll es

def letNamesPairs : List (Expr × Expr) → List String
  | [] => []
  | (key, value) :: pairs => key.letNames ++ (value.letNames ++ letNamesPairs pairs)

def Block.letNames : Block → List String
  | .mk _ stmts | .program stmts => letNamesStmts stmts

def Stmt.letNames : Stmt → List String
  | .binding _ name value => name.value :: value.letNames
  | .leave _ value => value.letNames
  | .expression _ e | .bare e => e.letNames
  | .block b => b.letNames
  | .unknown .. => []

def letNamesStmts : List Stmt → List String
  | [] => []
  | stmt :: stmts => stmt.letNames ++ letNamesStmts stmts

end

/-- The names that the `let` statements of a node bind, function bodies left
out. -/
def Node.letNames : Node → List String
  | .program p => letNamesStmts p.statements
  | .statement stmt => stmt.letNames
  | .expression e => e.letNames

theorem Block.letNames_eq (b : Block) : b.letNames = letNamesStmts b.statements := by
  cases b <;> rfl

/-! ## One scope -/

theorem lookup_bindIn_self (name : String) (v : Value) (bs : List (String × Value)) :
    (bindIn name v bs).lookup name = some v := by
  induction bs with
  | nil => simp [bindIn]
  | cons b bs ih =>
      unfold bindIn
      split
      · simp
      · rename_i hne
        rw [List.lookup_cons, beq_false_of_ne (Ne.symm hne)]
        exact ih

theorem lookup_bindIn_ne {name x : String} (hx : x ≠ name) (v : Value)
    (bs : List (String × Value)) : (bindIn name v bs).lookup x = bs.lookup x := by
  induction bs with
  | nil => simp [bindIn, List.lookup_cons, beq_false_of_ne hx]
  | cons b bs ih =>
      unfold bindIn
      split
      · rename_i heq
        rw [List.lookup_cons, List.lookup_cons, heq, beq_false_of_ne hx]
      · rw [List.lookup_cons, List.lookup_cons, ih]

/-- A scope has kept its place and its names, and only some names have been
bound in it. -/
structure Scope.Extends (names : List String) (sc sc' : Scope) : Prop where
  outer_eq : sc'.outer = sc.outer
  keeps : ∀ x, sc.own? x ≠ none → sc'.own? x ≠ none
  only : ∀ x, x ∉ names → sc'.own? x = sc.own? x

namespace Scope.Extends

variable {names : List String} {sc sc' sc'' : Scope}

theorem refl (names : List String) (sc : Scope) : Extends names sc sc :=
  ⟨rfl, fun _ h => h, fun _ _ => rfl⟩

theorem trans (h : Extends names sc sc') (h' : Extends names sc' sc'') :
    Extends names sc sc'' where
  outer_eq := h'.outer_eq.trans h.outer_eq
  keeps x hx := h'.keeps x (h.keeps x hx)
  only x hx := (h'.only x hx).trans (h.only x hx)

theorem bind {name : String} (hname : name ∈ names) (sc : Scope) (v : Value) :
    Extends names sc (sc.bind name v) where
  outer_eq := rfl
  keeps x hx := by
    by_cases heq : x = name
    · rw [heq, Scope.own?, Scope.bind, lookup_bindIn_self]
      exact nofun
    · rwa [Scope.own?, Scope.bind, lookup_bindIn_ne heq]
  only x hx := lookup_bindIn_ne (fun heq : x = name => hx (heq ▸ hname)) v sc.bindings

end Scope.Extends

/-! ## All scopes -/

namespace Store

/-- Of the scopes of `s` only one has changed in `s'`, and in it only some names
have been bound. -/
structure Frame (scope : ScopeId) (names : List String) (s s' : Store) : Prop where
  size_le : s.scopes.size ≤ s'.scopes.size
  elsewhere : ∀ i, i < s.scopes.size → i ≠ scope → s'.scopes[i]? = s.scopes[i]?
  here : ∀ sc, s.scopes[scope]? = some sc →
    ∃ sc', s'.scopes[scope]? = some sc' ∧ sc.Extends names sc'

/-- All scopes of `s` are the same in `s'`. -/
def Untouched (s s' : Store) : Prop :=
  ∀ i, i < s.scopes.size → s'.scopes[i]? = s.scopes[i]?

variable {scope : ScopeId} {names : List String} {s s' s'' : Store}

theorem Untouched.size_le (h : s.Untouched s') : s.scopes.size ≤ s'.scopes.size := by
  refine Nat.le_of_not_lt ?_
  intro hlt
  have hlast := h s'.scopes.size hlt
  rw [Array.getElem?_eq_none (Nat.le_refl _), Array.getElem?_eq_getElem hlt] at hlast
  exact nomatch hlast

theorem Untouched.frame (h : s.Untouched s') (scope : ScopeId) (names : List String) :
    s.Frame scope names s' where
  size_le := h.size_le
  elsewhere i hi _ := h i hi
  here sc hsc := by
    have hlt : scope < s.scopes.size := (Array.getElem?_eq_some_iff.mp hsc).1
    exact ⟨sc, (h scope hlt).trans hsc, .refl names sc⟩

theorem Frame.refl (s : Store) : s.Frame scope names s :=
  Untouched.frame (fun _ _ => rfl) scope names

theorem Frame.trans (h : s.Frame scope names s') (h' : s'.Frame scope names s'') :
    s.Frame scope names s'' where
  size_le := Nat.le_trans h.size_le h'.size_le
  elsewhere i hi hne :=
    (h'.elsewhere i (Nat.lt_of_lt_of_le hi h.size_le) hne).trans (h.elsewhere i hi hne)
  here sc hsc := by
    obtain ⟨sc', hsc', hext⟩ := h.here sc hsc
    obtain ⟨sc'', hsc'', hext'⟩ := h'.here sc' hsc'
    exact ⟨sc'', hsc'', hext.trans hext'⟩

theorem scopes_make (s : Store) (d : Draft) : (s.make d).2.scopes = s.scopes := by
  unfold make
  cases d.isNew <;> rfl

/-- Making an object touches no scope. -/
theorem untouched_make (s : Store) (d : Draft) : s.Untouched (s.make d).2 := fun i _ => by
  rw [scopes_make]

theorem frame_bind {name : String} (hname : name ∈ names) (s : Store) (v : Value) :
    s.Frame scope names (s.bind scope name v) where
  size_le := Nat.le_of_eq Array.size_modify.symm
  elsewhere i _ hne := by
    rw [bind, Array.getElem?_modify, if_neg (Ne.symm hne)]
  here sc hsc := by
    refine ⟨sc.bind name v, ?_, .bind hname sc v⟩
    rw [bind, Array.getElem?_modify, if_pos rfl, hsc]
    rfl

theorem frame_bindAll : ∀ {xs : List String} (vs : List Value) (s : Store), xs ⊆ names →
    s.Frame scope names (s.bindAll scope xs vs)
  | [], _, s, _ => .refl s
  | _ :: _, [], s, _ => .refl s
  | x :: xs, v :: vs, s, h => by
      obtain ⟨hx, hxs⟩ := List.cons_subset.mp h
      exact (frame_bind hx s v).trans (frame_bindAll vs _ hxs)

/-- What runs in a new scope leaves the scopes before it as they are. -/
theorem Frame.untouched {outer : Option ScopeId}
    (h : (s.openScope outer).2.Frame (s.openScope outer).1 names s') : s.Untouched s' := by
  intro i hi
  have hnew : i < (s.openScope outer).2.scopes.size := by
    rw [openScope, Array.size_push]
    exact Nat.lt_succ_of_lt hi
  rw [h.elsewhere i hnew (Nat.ne_of_lt hi), openScope, Array.getElem?_push,
    if_neg (Nat.ne_of_lt hi)]

end Store

/-! ## Outcomes -/

/-- If the evaluation comes to an answer, it has written within a frame. -/
def Outcome.Frames {α : Type} (scope : ScopeId) (names : List String) (s : Store)
    (o : Outcome α) : Prop :=
  ∀ a s', o = .done a s' → s.Frame scope names s'

namespace Outcome.Frames

variable {α β : Type} {scope : ScopeId} {names : List String} {s : Store}

theorem exhausted (t : Store) :
    (Outcome.exhausted (t := t) : Outcome α).Frames scope names s := nofun

theorem fault (t : Store) (e : Fault) :
    (Outcome.fault (t := t) e : Outcome α).Frames scope names s := nofun

theorem done (a : α) (s : Store) : (Outcome.done a s).Frames scope names s := by
  rintro _ _ ⟨⟩
  exact Store.Frame.refl s

theorem yield (d : Draft) (s : Store) : (s.yield d).Frames scope names s := by
  rintro _ _ ⟨⟩
  exact (s.untouched_make d).frame scope names

theorem andThen {o : Outcome α} {f : α → Store → Outcome β} (h : o.Frames scope names s)
    (hf : ∀ a s', (f a s').Frames scope names s') : (o.andThen f).Frames scope names s := by
  intro b s'' hdone
  cases o with
  | done a s' => exact (h a s' rfl).trans (hf a s' b s'' hdone)
  | fault e => exact nomatch hdone
  | exhausted => exact nomatch hdone

theorem unlessError {o : Outcome Value} {f : Value → Store → Outcome Value}
    (h : o.Frames scope names s) (hf : ∀ v s', (f v s').Frames scope names s') :
    (o.unlessError f).Frames scope names s := by
  intro w s'' hdone
  cases o with
  | done v s' =>
      rw [unlessError_done] at hdone
      split at hdone
      · cases hdone
        exact h _ _ rfl
      · exact (h v s' rfl).trans (hf v s' w s'' hdone)
  | fault e => exact nomatch hdone
  | exhausted => exact nomatch hdone

theorem ite {p : Prop} [Decidable p] {o o' : Outcome α} (h : o.Frames scope names s)
    (h' : o'.Frames scope names s) : (if p then o else o').Frames scope names s := by
  split
  · exact h
  · exact h'

end Outcome.Frames

/-! ## Rules -/

open Outcome in
mutual

theorem evalExpr_frames : ∀ n (e : Expr) scope s names, e.letNames ⊆ names →
    (evalExpr n e scope s).Frames scope names s
  | 0, _, _, _, _, _ => by unfold evalExpr; exact .exhausted _
  | n + 1, e, scope, s, names, h => by
      unfold evalExpr
      cases e with
      | identifier _ _ => exact .yield _ s
      | integer _ _ => exact .yield _ s
      | string _ _ => exact .yield _ s
      | boolean _ _ => exact .yield _ s
      | function _ _ _ => exact .yield _ s
      | unknown _ _ => exact .fault _ _
      | prefixOp _ _ right =>
          exact (evalExpr_frames n right scope s names h).unlessError fun _ _ => .yield _ _
      | infixOp _ left _ right =>
          obtain ⟨hl, hr⟩ := List.append_subset.mp h
          refine (evalExpr_frames n left scope s names hl).unlessError ?_
          intro _ s₁
          exact (evalExpr_frames n right scope s₁ names hr).unlessError fun _ _ => .yield _ _
      | conditional _ condition consequence alternative =>
          obtain ⟨hc, h⟩ := List.append_subset.mp h
          obtain ⟨ht, he⟩ := List.append_subset.mp h
          refine (evalExpr_frames n condition scope s names hc).unlessError ?_
          intro _ s₁
          refine .ite (evalBlock_frames n consequence scope s₁ names ht) ?_
          cases alternative with
          | none => exact .done _ s₁
          | some other => exact evalBlock_frames n other scope s₁ names he
      | loop _ condition body =>
          obtain ⟨hc, hb⟩ := List.append_subset.mp h
          exact evalLoop_frames n condition body scope s names hc hb
      | call _ function arguments =>
          obtain ⟨hf, ha⟩ := List.append_subset.mp h
          refine (evalExpr_frames n function scope s names hf).unlessError ?_
          intro f s₁
          refine (evalAll_frames n arguments scope s₁ names ha).andThen ?_
          intro vs s₂
          cases vs with
          | error e => exact .done e s₂
          | ok vs => exact fun v s' hv => (apply_untouched n f vs s₂ v s' hv).frame scope names
      | array _ elements =>
          refine (evalAll_frames n elements scope s names h).andThen ?_
          intro vs s₁
          cases vs with
          | error e => exact .done e s₁
          | ok vs => exact .yield _ s₁
      | index _ left index =>
          obtain ⟨hl, hi⟩ := List.append_subset.mp h
          refine (evalExpr_frames n left scope s names hl).unlessError ?_
          intro _ s₁
          exact (evalExpr_frames n index scope s₁ names hi).unlessError fun _ _ => .yield _ _
      | hash _ pairs => exact evalPairs_frames n pairs [] scope s names h
      | statement stmt =>
          exact (evalStmt_frames n stmt scope s names h).andThen fun _ _ => .done _ _

theorem evalAll_frames : ∀ n (es : List Expr) scope s names, letNamesAll es ⊆ names →
    (evalAll n es scope s).Frames scope names s
  | 0, _, _, _, _, _ => by unfold evalAll; exact .exhausted _
  | n + 1, [], scope, s, names, _ => by unfold evalAll; exact .done _ s
  | n + 1, e :: es, scope, s, names, h => by
      obtain ⟨he, hes⟩ := List.append_subset.mp h
      unfold evalAll
      refine (evalExpr_frames n e scope s names he).andThen ?_
      intro _ s₁
      refine .ite (.done _ s₁) ?_
      exact (evalAll_frames n es scope s₁ names hes).andThen fun _ _ => .done _ _

theorem evalPairs_frames : ∀ n pairs entries scope s names, letNamesPairs pairs ⊆ names →
    (evalPairs n pairs entries scope s).Frames scope names s
  | 0, _, _, _, _, _, _ => by unfold evalPairs; exact .exhausted _
  | n + 1, [], entries, scope, s, names, _ => by unfold evalPairs; exact .yield _ s
  | n + 1, (key, value) :: pairs, entries, scope, s, names, h => by
      obtain ⟨hk, h⟩ := List.append_subset.mp h
      obtain ⟨hv, hps⟩ := List.append_subset.mp h
      unfold evalPairs
      refine (evalExpr_frames n key scope s names hk).unlessError ?_
      intro _ s₁
      refine .ite (.yield _ s₁) ?_
      refine (evalExpr_frames n value scope s₁ names hv).unlessError ?_
      intro _ s₂
      exact evalPairs_frames n pairs _ scope s₂ names hps

theorem evalLoop_frames : ∀ n (condition : Expr) (body : Block) scope s names,
    condition.letNames ⊆ names → body.letNames ⊆ names →
    (evalLoop n condition body scope s).Frames scope names s
  | 0, _, _, _, _, _, _, _ => by unfold evalLoop; exact .exhausted _
  | n + 1, condition, body, scope, s, names, hc, hb => by
      unfold evalLoop
      refine (evalExpr_frames n condition scope s names hc).unlessError ?_
      intro _ s₁
      refine .ite ?_ (.done _ s₁)
      refine (evalBlock_frames n body scope s₁ names hb).andThen ?_
      intro _ s₂
      exact .ite (.done _ s₂) (evalLoop_frames n condition body scope s₂ names hc hb)

theorem evalBlock_frames : ∀ n (b : Block) scope s names, b.letNames ⊆ names →
    (evalBlock n b scope s).Frames scope names s
  | 0, _, _, _, _, _ => by unfold evalBlock; exact .exhausted _
  | n + 1, b, scope, s, names, h => by
      rw [b.letNames_eq] at h
      unfold evalBlock
      exact (evalStmts_frames n b.statements none scope s names h).andThen fun _ _ => .done _ _

theorem evalStmts_frames : ∀ n stmts last scope s names, letNamesStmts stmts ⊆ names →
    (evalStmts n stmts last scope s).Frames scope names s
  | 0, _, _, _, _, _, _ => by unfold evalStmts; exact .exhausted _
  | n + 1, [], last, scope, s, names, _ => by unfold evalStmts; exact .done last s
  | n + 1, stmt :: stmts, last, scope, s, names, h => by
      obtain ⟨hs, hss⟩ := List.append_subset.mp h
      unfold evalStmts
      refine (evalStmt_frames n stmt scope s names hs).andThen ?_
      intro v s₁
      exact .ite (.done v s₁) (evalStmts_frames n stmts v scope s₁ names hss)

theorem evalStmt_frames : ∀ n (stmt : Stmt) scope s names, stmt.letNames ⊆ names →
    (evalStmt n stmt scope s).Frames scope names s
  | 0, _, _, _, _, _ => by unfold evalStmt; exact .exhausted _
  | n + 1, stmt, scope, s, names, h => by
      unfold evalStmt
      match stmt with
      | .binding _ name value =>
          obtain ⟨hname, hvalue⟩ := List.cons_subset.mp h
          refine (evalExpr_frames n value scope s names hvalue).andThen ?_
          intro v s₁
          refine .ite (.done _ s₁) ?_
          rintro _ _ ⟨⟩
          exact s₁.frame_bind hname v
      | .leave _ value =>
          refine Frames.andThen ?_ fun _ _ => .done _ _
          exact (evalExpr_frames n value scope s names h).unlessError fun _ _ => .yield _ _
      | .expression _ e =>
          exact (evalExpr_frames n e scope s names h).andThen fun _ _ => .done _ _
      | .block (.program stmts) =>
          exact (evalStmts_frames n stmts none scope s names h).andThen fun _ _ => .done _ _
      | .block (.mk mark stmts) =>
          exact (evalBlock_frames n (.mk mark stmts) scope s names h).andThen fun _ _ => .done _ _
      | .bare e => exact (evalExpr_frames n e scope s names h).andThen fun _ _ => .done _ _
      | .unknown _ _ => exact .fault _ _

theorem apply_untouched : ∀ n f arguments s v s', apply n f arguments s = .done v s' →
    s.Untouched s'
  | 0, _, _, _, _, _, h => by unfold apply at h; exact nomatch h
  | n + 1, f, arguments, s, v, s', h => by
      unfold apply at h
      split at h
      · rename_i _ parameters body outer
        split at h
        · cases h
          exact s.untouched_make _
        · -- the parameters are bound in the new scope, and so is what the body binds
          let names := parameters.map Name.value ++ body.letNames
          have hbound : (s.openScope (some outer)).2.Frame (s.openScope (some outer)).1 names _ :=
            Store.frame_bindAll arguments _ (List.subset_append_left ..)
          have hbody := fun s₁ => evalBlock_frames n body (s.openScope (some outer)).1 s₁ names
            (List.subset_append_right ..)
          exact (hbound.trans ((hbody _).andThen (fun _ _ => .done _ _) v s' h)).untouched
      · cases h
        exact s.untouched_make _
      · cases h
        exact s.untouched_make _

end

/-- **Writes stay local.** An evaluation that comes to an answer changes one
scope at most, the one that it runs in: this scope keeps its place and its names,
and only names of `let` statements of the node are bound in it. A call changes
none at all. -/
theorem evaluation_frame (n : Nat) :
    (∀ node scope s v s', evalNode n node scope s = .done v s' →
      s.Frame scope node.letNames s') ∧
    ∀ f arguments s v s', apply n f arguments s = .done v s' → s.Untouched s' := by
  refine ⟨fun node scope s v s' h => ?_, apply_untouched n⟩
  cases node with
  | program p =>
      have hstmts := evalStmts_frames n p.statements none scope s _ (List.Subset.refl _)
      exact hstmts.andThen (fun _ _ => .done _ _) v s' h
  | statement stmt => exact evalStmt_frames n stmt scope s _ (List.Subset.refl _) v s' h
  | expression e =>
      have hexpr := evalExpr_frames n e scope s _ (List.Subset.refl _)
      exact hexpr.andThen (fun _ _ => .done _ _) v s' h

theorem evaluation_frame_call :
    let m : Mark := ⟨"", .start⟩
    let body : Block := .mk m [.binding m ⟨m, "x"⟩ (.identifier m "y")]
    let f : Value := .function 0 [⟨m, "y"⟩] body 0
    let s : Store := ⟨#[⟨[("x", .null), ("f", f)], none⟩], 1⟩
    let called : Scope := ⟨[("y", .boolean false), ("x", .boolean false)], some 0⟩
    let node : Node := .expression (.conditional m (.boolean m true)
      (.mk m [.binding m ⟨m, "z"⟩ (.call m (.identifier m "f") [.boolean m false])]) none)
    let s₁ : Store := ⟨#[⟨[("x", .null), ("f", f), ("z", .null)], none⟩, called], 1⟩
    let s₂ : Store := ⟨#[⟨[("x", .null), ("f", f)], none⟩, called], 1⟩
    (evalNode 12 node 0 s = .done (some .null) s₁ ∧ s.Frame 0 ["z"] s₁) ∧
      apply 12 f [.boolean false] s = .done .null s₂ ∧ s.Untouched s₂ := by
  intro m body f s called node s₁ s₂
  have hnode : evalNode 12 node 0 s = .done (some .null) s₁ := by cbv
  have happly : apply 12 f [.boolean false] s = .done .null s₂ := by cbv
  exact ⟨⟨hnode, (evaluation_frame 12).1 node 0 s _ s₁ hnode⟩,
    happly, (evaluation_frame 12).2 f _ s _ s₂ happly⟩

end MonkeyLang
