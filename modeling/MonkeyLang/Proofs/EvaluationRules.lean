import MonkeyLang.Proofs.RepeatedCalls
import MonkeyLang.Proofs.ScopeChains
import MonkeyLang.Proofs.StatementRuns

/-!
# Rules for what trees come to

What an expression comes to, told by what its parts come to and without allowances of steps: a
name, a literal, a call, a conditional, statements. Each rule is one of the evaluation, for an end
that is no error.

A run of this kind goes from one store to a later one (`Store.Before`), in which all scopes of the
first one are as they were. So what a name stands for in one of these scopes stays, too.
-/

namespace MonkeyLang

/-! ## Common allowances -/

/-- Two runs that come to an end do so with one allowance. -/
theorem Outcome.Extends.exists_common {α β : Type} {r : Nat → Outcome α} {r' : Nat → Outcome β}
    (h : ∀ n, (r n).Extends (r (n + 1))) (h' : ∀ n, (r' n).Extends (r' (n + 1))) {a : α} {b : β}
    {s t : Store} (hr : ∃ n, r n = .done a s) (hr' : ∃ n, r' n = .done b t) :
    ∃ n, ∀ k, n ≤ k → r k = .done a s ∧ r' k = .done b t := by
  obtain ⟨i, hi⟩ := hr
  obtain ⟨j, hj⟩ := hr'
  refine ⟨max i j, fun k hk => ⟨done_of_le h ?_ hi, done_of_le h' ?_ hj⟩⟩
  · exact Nat.le_trans (Nat.le_max_left i j) hk
  · exact Nat.le_trans (Nat.le_max_right i j) hk

/-- Expressions come to values, one after another. -/
def AllComeTo (es : List Expr) (scope : ScopeId) (s : Store) (vs : List Value) (t : Store) : Prop :=
  ∃ n, evalAll n es scope s = .done (.ok vs) t

/-- Statements come to the value of the last one. -/
def StmtsComeTo (stmts : List Stmt) (scope : ScopeId) (s : Store) (v : Value) (t : Store) : Prop :=
  ∃ n, evalStmts n stmts none scope s = .done (some v) t

/-! ## Expressions -/

section Rules

variable {scope : ScopeId} {s s₁ s₂ t : Store} {v w f : Value} {vs : List Value} {e : Expr}
  {es : List Expr}

namespace Expr.ComesTo

theorem identifier (mark : Mark) {name : String} (h : s.valueOf scope name = .existing v) :
    (Expr.identifier mark name).ComesTo scope s v s :=
  ⟨1, by rw [evalExpr, h]; rfl⟩

theorem bound (mark : Mark) {name : String} (h : s.find? scope name = some v) :
    (Expr.identifier mark name).ComesTo scope s v s :=
  identifier mark (by rw [Store.valueOf, h])

theorem integer (mark : Mark) (n : Int) : (Expr.integer mark n).ComesTo scope s
    (s.make (.integer n)).1 (s.make (.integer n)).2 :=
  ⟨1, by rw [evalExpr]; rfl⟩

theorem function (mark : Mark) (parameters : List Name) (body : Block) :
    (Expr.function mark parameters body).ComesTo scope s
      (s.make (.function parameters body scope)).1 (s.make (.function parameters body scope)).2 :=
  ⟨1, by rw [evalExpr]; rfl⟩

theorem array (mark : Mark) (h : AllComeTo es scope s vs t) :
    (Expr.array mark es).ComesTo scope s (t.make (.array vs)).1 (t.make (.array vs)).2 := by
  obtain ⟨n, hn⟩ := h
  exact ⟨n + 1, by rw [evalExpr, hn]; rfl⟩

theorem call (mark : Mark) (hf : e.ComesTo scope s f s₁) (hok : f.isError = false)
    (hes : AllComeTo es scope s₁ vs s₂) (hcall : s₂.CallEnds f vs v t) :
    (Expr.call mark e es).ComesTo scope s v t := by
  obtain ⟨i, hi⟩ := Outcome.Extends.exists_common (fun n => evalExpr_extends n e scope s)
    (fun n => evalAll_extends n es scope s₁) hf hes
  obtain ⟨j, hj⟩ := hcall
  have happly := Outcome.Extends.done_of_le (fun n => apply_extends n f vs s₂)
    (Nat.le_max_right i j) hj
  obtain ⟨hf, hes⟩ := hi _ (Nat.le_max_left i j)
  refine ⟨max i j + 1, ?_⟩
  rw [evalExpr, hf, Outcome.unlessError_done, hok, hes]
  exact happly

theorem consequence (mark : Mark) {consequence : Block} (alternative : Option Block)
    (hc : e.ComesTo scope s w s₁) (hok : w.isError = false) (htrue : w.isTruthy = true)
    (hb : consequence.ComesTo scope s₁ v t) :
    (Expr.conditional mark e consequence alternative).ComesTo scope s v t := by
  obtain ⟨n, hn⟩ := Outcome.Extends.exists_common (fun n => evalExpr_extends n e scope s)
    (fun n => evalBlock_extends n consequence scope s₁) hc hb
  obtain ⟨hc, hb⟩ := hn n (Nat.le_refl n)
  refine ⟨n + 1, ?_⟩
  rw [evalExpr, hc, Outcome.unlessError_done, hok]
  simp only [Bool.false_eq_true, ↓reduceIte, htrue, hb]

theorem alternative (mark : Mark) (consequence : Block) {alternative : Block}
    (hc : e.ComesTo scope s w s₁) (hok : w.isError = false) (hfalse : w.isTruthy = false)
    (hb : alternative.ComesTo scope s₁ v t) :
    (Expr.conditional mark e consequence (some alternative)).ComesTo scope s v t := by
  obtain ⟨n, hn⟩ := Outcome.Extends.exists_common (fun n => evalExpr_extends n e scope s)
    (fun n => evalBlock_extends n alternative scope s₁) hc hb
  obtain ⟨hc, hb⟩ := hn n (Nat.le_refl n)
  refine ⟨n + 1, ?_⟩
  rw [evalExpr, hc, Outcome.unlessError_done, hok]
  simp only [Bool.false_eq_true, ↓reduceIte, hfalse, hb]

end Expr.ComesTo

theorem AllComeTo.nil : AllComeTo [] scope s [] s := ⟨1, by rw [evalAll]⟩

theorem AllComeTo.cons (he : e.ComesTo scope s v s₁) (hok : v.isError = false)
    (hes : AllComeTo es scope s₁ vs t) : AllComeTo (e :: es) scope s (v :: vs) t := by
  obtain ⟨n, hn⟩ := Outcome.Extends.exists_common (fun n => evalExpr_extends n e scope s)
    (fun n => evalAll_extends n es scope s₁) he hes
  obtain ⟨he, hes⟩ := hn n (Nat.le_refl n)
  refine ⟨n + 1, ?_⟩
  rw [evalAll, he, Outcome.andThen_done, hok, hes]
  rfl

/-! ## Statements and calls -/

/-- Names are bound in a scope that is opened for them, as a call does it. -/
def Store.enter (s : Store) (outer : Option ScopeId) (names : List String) (vs : List Value) :
    Store :=
  (s.openScope outer).2.bindAll s.scopes.size names vs

theorem StmtsComeTo.expression (mark : Mark) (h : e.ComesTo scope s v t) :
    StmtsComeTo [.expression mark e] scope s v t := by
  obtain ⟨n, hn⟩ := h
  exact ⟨n + 2, by rw [evalStmts_singleton, hn]; rfl⟩

theorem StmtsComeTo.binding (mark : Mark) (name : Name) {stmts : List Stmt}
    (he : e.ComesTo scope s w s₁) (hok : w.isError = false)
    (hmore : StmtsComeTo stmts scope (s₁.bind scope name.value w) v t) :
    StmtsComeTo (.binding mark name e :: stmts) scope s v t := by
  obtain ⟨n, hn⟩ := Outcome.Extends.exists_common (fun n => evalExpr_extends n e scope s)
    (fun n => evalStmts_extends n stmts none scope (s₁.bind scope name.value w)) he hmore
  obtain ⟨he, -⟩ := hn n (Nat.le_refl n)
  obtain ⟨-, hmore⟩ := hn (n + 1) (Nat.le_succ n)
  refine ⟨n + 2, ?_⟩
  rw [evalStmts, evalStmt, he, Outcome.andThen_done, hok]
  exact hmore

theorem Block.ComesTo.of_stmts {b : Block} (h : StmtsComeTo b.statements scope s v t) :
    b.ComesTo scope s v t := by
  obtain ⟨n, hn⟩ := h
  exact ⟨n + 1, by rw [evalBlock, hn]; rfl⟩

namespace Store.CallEnds

/-- A function is called: its parameters are bound in a new scope, and there its body comes to the
value of the call. -/
theorem function {id : ObjectId} {parameters : List Name} {body : Block} {outer : ScopeId}
    (hlength : vs.length = parameters.length)
    (hbody : body.ComesTo s.scopes.size (s.enter (some outer) (parameters.map Name.value) vs) v t)
    (hv : v.unwrapped = w) : s.CallEnds (.function id parameters body outer) vs w t := by
  obtain ⟨n, hn⟩ := hbody
  refine ⟨n + 1, ?_⟩
  rw [apply, if_neg (not_not_intro hlength), ← hv]
  exact congrArg (Outcome.andThen · fun v s => .done v.unwrapped s) hn

theorem builtin (b : Builtin) (vs : List Value) :
    s.CallEnds (.builtin b) vs (s.make (b.apply vs)).1 (s.make (b.apply vs)).2 :=
  ⟨1, by rw [apply]; rfl⟩

end Store.CallEnds

end Rules

/-! ## Functions with a name -/

namespace Store

/-- A function is made in a scope and gets a name there. -/
def define (t : Store) (scope : ScopeId) (name : String) (parameters : List Name)
    (body : Block) : Store :=
  (t.make (.function parameters body scope)).2.bind scope name
    (.function t.nextId parameters body scope)

variable {t : Store} {scope : ScopeId}

theorem grows_define (scope : ScopeId) (name : String) (parameters : List Name) (body : Block) :
    t.Grows (t.define scope name parameters body) :=
  (t.grows_make _).trans (grows_bind _ _ _ _)

theorem ownAt_define (hscope : scope < t.scopes.size) (name : String) (parameters : List Name)
    (body : Block) (i : ScopeId) (x : String) :
    (t.define scope name parameters body).ownAt i x =
      if scope = i ∧ name = x then some (.function t.nextId parameters body scope)
      else t.ownAt i x := by
  rw [define, ownAt_bind _ ((t.grows_make _).scope_lt hscope), ownAt_make]

theorem link_define (name : String) (parameters : List Name) (body : Block) (i : ScopeId) :
    (t.define scope name parameters body).link i = t.link i := by
  rw [define, link_bind, link_make]

end Store

theorem StmtsComeTo.define (mark mark' : Mark) (name : Name) (parameters : List Name)
    (body : Block) {stmts : List Stmt} {scope : ScopeId} {s t : Store} {v : Value}
    (hmore : StmtsComeTo stmts scope (s.define scope name.value parameters body) v t) :
    StmtsComeTo (.binding mark name (.function mark' parameters body) :: stmts) scope s v t :=
  .binding mark name (.function mark' parameters body) rfl hmore

/-! ## Later stores -/

namespace Store

theorem lt_enter (s : Store) (outer : Option ScopeId) (names : List String) (vs : List Value) :
    s.scopes.size < (s.enter outer names vs).scopes.size :=
  (grows_bindAll names vs _ _).scope_lt (s.lt_openScope outer)

/-- A closed store that comes after another one and in which nothing of that one has been
touched. -/
structure Before (s t : Store) : Prop where
  closed : t.Closed
  grows : s.Grows t
  untouched : s.Untouched t

variable {s t u : Store} {scope : ScopeId}

theorem Untouched.trans (h : s.Untouched t) (h' : t.Untouched u) : s.Untouched u := fun i hi =>
  (h' i (Nat.lt_of_lt_of_le hi h.size_le)).trans (h i hi)

/-- Nothing that is looked up in an untouched scope changes. -/
theorem Untouched.findWithin_eq (h : s.Untouched t) (hs : s.Closed) (name : String) :
    ∀ {n : Nat} {i : ScopeId}, i < s.scopes.size → t.findWithin n i name = s.findWithin n i name
  | 0, _, _ => rfl
  | n + 1, i, hi => by
      have hsc := Array.getElem?_eq_getElem hi
      rw [findWithin, findWithin, h i hi, hsc]
      cases hown : s.scopes[i].own? name with
      | some v => simp only [hown]
      | none =>
          cases houter : s.scopes[i].outer with
          | none => simp only [hown, houter]
          | some outer =>
              have hlt := Nat.lt_trans (hs.outer_lt i _ hsc outer houter) hi
              simp only [hown, houter]
              exact h.findWithin_eq hs name hlt

theorem Untouched.find?_eq (h : s.Untouched t) (hs : s.Closed) (hscope : scope < s.scopes.size)
    (name : String) : t.find? scope name = s.find? scope name :=
  h.findWithin_eq hs name hscope

theorem Untouched.valueOf_eq (h : s.Untouched t) (hs : s.Closed) (hscope : scope < s.scopes.size)
    (name : String) : t.valueOf scope name = s.valueOf scope name := by
  rw [valueOf, valueOf, h.find?_eq hs hscope]

/-- A name is bound in a scope, or it has the value that it has outward of it. -/
theorem Closed.valueOf_inside (hs : s.Closed) {i outer : ScopeId}
    (hi : s.link i = some (some outer)) (name : String) :
    s.valueOf i name = ((s.ownAt i name).map Draft.existing).getD (s.valueOf outer name) := by
  rw [valueOf, hs.find?_inside hi, valueOf]
  cases s.ownAt i name <;> rfl

namespace Before

theorem trans (h : s.Before t) (h' : t.Before u) : s.Before u :=
  ⟨h'.closed, h.grows.trans h'.grows, h.untouched.trans h'.untouched⟩

theorem make (hs : s.Closed) (d : Draft) : s.Before (s.make d).2 :=
  ⟨hs.make d, s.grows_make d, s.untouched_make d⟩

/-- A name is bound in a new scope. -/
theorem bind (h : s.Before t) (hscope : s.scopes.size ≤ scope) (name : String) {v : Value}
    (hv : v.Fits t) : s.Before (t.bind scope name v) where
  closed := h.closed.bind scope name hv
  grows := h.grows.trans (t.grows_bind scope name v)
  untouched i hi := by
    rw [Store.bind, Array.getElem?_modify, if_neg (Nat.ne_of_gt (Nat.lt_of_lt_of_le hi hscope))]
    exact h.untouched i hi

/-- A function is made in a new scope and gets a name there. -/
theorem define (h : s.Before t) (hscope : s.scopes.size ≤ scope) (hlt : scope < t.scopes.size)
    (name : String) (parameters : List Name) (body : Block) :
    s.Before (t.define scope name parameters body) := by
  refine (h.trans (make h.closed (.function parameters body scope))).bind hscope name
    (.function ⟨?_, ?_⟩)
  · exact Nat.lt_succ_self _
  · rw [scopes_make]
    exact hlt

theorem enter (hs : s.Closed) {outer : Option ScopeId} (houter : ∀ o ∈ outer, o < s.scopes.size)
    (names : List String) {vs : List Value} (hvs : ∀ v ∈ vs, v.Fits s) :
    s.Before (s.enter outer names vs) where
  closed :=
    (((Copies.refl hs).openScope houter).bindAll s.scopes.size names fun v hv =>
      (s.grows_openScope outer).fits (hvs v hv)).closed
  grows := (s.grows_openScope outer).trans (grows_bindAll names vs _ _)
  untouched := (frame_bindAll vs _ (List.Subset.refl _)).untouched

/-- A call touches nothing, and what it comes to fits the store after it. -/
theorem call (hs : s.Closed) {f v : Value} {arguments : List Value} (hf : f.Fits s)
    (harguments : ∀ v ∈ arguments, v.Fits s) (h : s.CallEnds f arguments v t) :
    s.Before t ∧ v.Fits t := by
  obtain ⟨n, hn⟩ := h
  obtain ⟨hv, hgrows, ht⟩ := (apply_copies n (.refl hs) (Value.fits_iff.mp hf)
    (covers_all_iff.mpr harguments)).of_eq hn
  exact ⟨⟨ht, hgrows, apply_untouched n f arguments s v t hn⟩, Value.fits_iff.mpr hv⟩

/-- So does a call of a built-in function. -/
theorem builtin (hs : s.Closed) (b : Builtin) {vs : List Value} (hvs : ∀ v ∈ vs, v.Fits s) :
    s.Before (s.make (b.apply vs)).2 ∧ (s.make (b.apply vs)).1.Fits (s.make (b.apply vs)).2 := by
  refine call hs ?_ hvs (.builtin b vs)
  rintro w ⟨⟩
  trivial

end Before

end Store

end MonkeyLang
