import MonkeyLang.Proofs.ClosedMoments
import MonkeyLang.Proofs.MoreSteps

/-!
# Identities of objects

A new object gets the next identity, and no operation changes an object. So an identity belongs to
one object only: two values that are met together, in a store or on their way through a run, and
that cannot be told apart by their identities, are the same value (`Store.Met.eq_of_identity`).

The values on their way are a frame that is carried along: what a part of a run makes is told apart
from them as well (`Store.Distinct`).
-/

namespace MonkeyLang

/-! ## Objects -/

/-- A value has an identity of its own. -/
def Value.IsObject (v : Value) : Prop := ∃ id, v.identity = .object id

/-- The values that exist once are told apart by their identities. -/
theorem Value.eq_of_identity {v w : Value} (hv : ¬v.IsObject) (h : v.identity = w.identity) :
    v = w := by
  cases v with
  | boolean _ | null | builtin _ =>
      cases w <;> cases h
      rfl
  | _ => exact absurd ⟨_, rfl⟩ hv

/-- A value that is held in a store or by a value at hand. -/
def Store.Holds (s : Store) (vs : List Value) (w : Value) : Prop :=
  (∃ v ∈ vs, v.Holds w) ∨ ∃ sc ∈ s.scopes, ∃ b ∈ sc.bindings, b.2.Holds w

/-- Objects that are held in a store or by a value at hand have identities that have been handed
out, and two of them with one identity are one. -/
structure Store.Distinct (s : Store) (vs : List Value) : Prop where
  below : ∀ w id, s.Holds vs w → w.identity = .object id → id < s.nextId
  one : ∀ v w, s.Holds vs v → s.Holds vs w → v.identity = w.identity → v = w

/-- All objects that a value holds are held in a store or by a value at hand. -/
def Store.Offers (s : Store) (vs : List Value) (v : Value) : Prop :=
  v.HoldsOnly fun w => w.IsObject → s.Holds vs w

/-- A draft is made from values that a store offers. -/
def Draft.From (s : Store) (vs : List Value) : Draft → Prop
  | .existing v | .returned v => s.Offers vs v
  | .array elements => ∀ v ∈ elements, s.Offers vs v
  | .hash entries => ∀ e ∈ entries, s.Offers vs e.1 ∧ s.Offers vs e.2
  | .integer _ | .string _ | .function _ _ _ | .error _ => True

section Offers

variable {s : Store} {vs : List Value}

theorem Store.offers_of_not_object {v : Value} (hv : ¬v.IsObject) : s.Offers vs v := by
  intro w hw hobject
  cases hw with
  | self => exact absurd hobject hv
  | _ => exact absurd ⟨_, rfl⟩ hv

theorem Store.offers_null : s.Offers vs .null := offers_of_not_object nofun

theorem Store.offers_of_mem {v : Value} (hv : v ∈ vs) : s.Offers vs v :=
  fun _ hw _ => .inl ⟨v, hv, hw⟩

theorem Store.offers_of_bound {sc : Scope} (hsc : sc ∈ s.scopes) {b : String × Value}
    (hb : b ∈ sc.bindings) : s.Offers vs b.2 := fun _ hw _ => .inr ⟨sc, hsc, b, hb, hw⟩

theorem Store.Offers.element {id : ObjectId} {elements : List Value} {v : Value}
    (h : s.Offers vs (.array id elements)) (hv : v ∈ elements) : s.Offers vs v :=
  fun w hw => h w (.element hv hw)

theorem Store.Offers.entries {id : ObjectId} {entries : Entries}
    (h : s.Offers vs (.hash id entries)) : ∀ e ∈ entries, s.Offers vs e.1 ∧ s.Offers vs e.2 :=
  fun _ he => ⟨fun w hw => h w (.key he hw), fun w hw => h w (.entry he hw)⟩

theorem Store.Offers.getD_null {o : Option Value} (h : ∀ v, o = some v → s.Offers vs v) :
    s.Offers vs (o.getD .null) := by
  cases o with
  | none => exact offers_null
  | some v => exact h v rfl

theorem Draft.from_boolean (b : Bool) : (Draft.boolean b).From s vs :=
  Store.offers_of_not_object nofun

theorem Draft.from_prefixOp (operator : String) (right : Value) :
    (right.prefixOp operator).From s vs := by
  unfold Value.prefixOp
  split
  · exact from_boolean _
  · split <;> trivial
  · trivial

theorem Draft.from_infixOp (left : Value) (operator : String) (right : Value) :
    (left.infixOp operator right).From s vs := by
  unfold Value.infixOp
  split
  · unfold Value.integerOp
    repeat' split
    all_goals first | trivial | exact from_boolean _
  · unfold Value.stringOp
    split <;> first | trivial | exact from_boolean _
  · unfold Value.mixedOp
    split
    · exact from_boolean _
    · exact from_boolean _
    · split <;> trivial

theorem Draft.from_indexOp {left : Value} (hleft : s.Offers vs left) (index : Value) :
    (left.indexOp index).From s vs := by
  unfold Value.indexOp
  split
  · unfold Value.elementAt
    split
    · exact Store.offers_null
    · exact .getD_null fun v hv => hleft.element (List.mem_of_getElem? hv)
  · split
    · exact .getD_null fun v hv => Pervasive.find? hleft.entries hv
    · trivial
  · trivial

theorem Draft.from_ofOne {f : Value → Draft} (hf : ∀ v, s.Offers vs v → (f v).From s vs)
    {arguments : List Value} (h : ∀ v ∈ arguments, s.Offers vs v) :
    (Builtin.ofOne f arguments).From s vs := by
  unfold Builtin.ofOne
  split
  · exact hf _ (h _ List.mem_cons_self)
  · trivial

theorem Draft.from_apply (b : Builtin) {arguments : List Value}
    (h : ∀ v ∈ arguments, s.Offers vs v) : (b.apply arguments).From s vs := by
  cases b with
  | len => exact from_ofOne (fun v _ => by cases v <;> trivial) h
  | first =>
      refine from_ofOne (fun v hv => ?_) h
      cases v with
      | array _ _ => exact .getD_null fun _ hw => hv.element (List.mem_of_head? hw)
      | _ => trivial
  | last =>
      refine from_ofOne (fun v hv => ?_) h
      cases v with
      | array _ _ => exact .getD_null fun _ hw => hv.element (List.mem_of_getLast? hw)
      | _ => trivial
  | rest =>
      refine from_ofOne (fun v hv => ?_) h
      cases v with
      | array _ elements =>
          cases elements with
          | nil => exact Store.offers_null
          | cons _ _ => exact fun _ hw => hv.element (List.mem_cons_of_mem _ hw)
      | _ => trivial
  | push =>
      cases arguments with
      | nil => trivial
      | cons v more =>
          obtain ⟨hv, hmore⟩ := List.forall_mem_cons.mp h
          cases v with
          | array _ _ => exact List.forall_mem_append.mpr ⟨fun _ hw => hv.element hw, hmore⟩
          | _ => trivial

theorem Draft.from_valueOf (scope : ScopeId) (name : String) :
    (s.valueOf scope name).From s vs := by
  have hall : s.All (s.Offers vs) := fun _ hsc _ hb => Store.offers_of_bound hsc hb
  unfold Store.valueOf
  split
  · rename_i hv
    exact hall.find? hv
  · split
    · exact Store.offers_of_not_object nofun
    · trivial

end Offers

/-! ## Stores -/

namespace Store.Distinct

variable {s t : Store} {vs ws : List Value}

/-- A store that binds what another one offers and has handed out no fewer identities. -/
theorem of_all (h : s.Distinct vs) (hid : s.nextId ≤ t.nextId) (hall : t.All (s.Offers vs))
    (hws : ∀ v ∈ ws, s.Offers vs v) : t.Distinct ws := by
  have hheld : ∀ w, t.Holds ws w → w.IsObject → s.Holds vs w := by
    rintro w (⟨v, hv, hw⟩ | ⟨sc, hsc, b, hb, hw⟩) hobject
    · exact hws v hv w hw hobject
    · exact hall sc hsc b hb w hw hobject
  refine ⟨fun w id hw hwid => ?_, fun v w hv hw heq => ?_⟩
  · exact Nat.lt_of_lt_of_le (h.below w id (hheld w hw ⟨id, hwid⟩) hwid) hid
  · by_cases hobject : v.IsObject
    · obtain ⟨id, hid⟩ := hobject
      exact h.one v w (hheld v hv ⟨id, hid⟩) (hheld w hw ⟨id, heq.symm.trans hid⟩) heq
    · exact v.eq_of_identity hobject heq

theorem offered (h : s.Distinct vs) (hws : ∀ v ∈ ws, s.Offers vs v) : s.Distinct ws :=
  h.of_all (Nat.le_refl _) (fun _ hsc _ hb => offers_of_bound hsc hb) hws

theorem subset (h : s.Distinct vs) (hws : ws ⊆ vs) : s.Distinct ws :=
  h.offered fun _ hv => offers_of_mem (hws hv)

theorem eq_of_mem (h : s.Distinct vs) {v w : Value} (hv : v ∈ vs) (hw : w ∈ vs)
    (heq : v.identity = w.identity) : v = w :=
  h.one v w (.inl ⟨v, hv, .self⟩) (.inl ⟨w, hw, .self⟩) heq

theorem bind (h : s.Distinct vs) (scope : ScopeId) (name : String) {v : Value} (hv : v ∈ vs) :
    (s.bind scope name v).Distinct vs := by
  have hall : s.All (s.Offers vs) := fun _ hsc _ hb => offers_of_bound hsc hb
  exact h.of_all (Nat.le_refl _) (hall.bind scope name (offers_of_mem hv)) fun _ => offers_of_mem

/-- A call binds its arguments in a new scope. -/
theorem enter (h : s.Distinct vs) (outer : Option ScopeId) (scope : ScopeId) (names : List String)
    {arguments : List Value} (harguments : ∀ v ∈ arguments, v ∈ vs) :
    ((s.openScope outer).2.bindAll scope names arguments).Distinct vs := by
  have hall : s.All (s.Offers vs) := fun _ hsc _ hb => offers_of_bound hsc hb
  have hopen := h.of_all (t := (s.openScope outer).2) (Nat.le_refl _) (hall.openScope outer)
    fun _ => offers_of_mem
  generalize (s.openScope outer).2 = t at hopen
  clear h hall
  induction names generalizing t arguments with
  | nil => exact hopen
  | cons name names ih =>
      cases arguments with
      | nil => exact hopen
      | cons v arguments =>
          obtain ⟨hv, harguments⟩ := List.forall_mem_cons.mp harguments
          exact ih harguments _ (hopen.bind scope name hv)

end Store.Distinct

theorem Draft.identity_value {d : Draft} (h : d.isNew = true) (id : ObjectId) :
    (d.value id).identity = .object id := by
  cases d <;> first | rfl | cases h

/-- An object that the value of a draft holds is the new object itself, or it was offered. -/
theorem Draft.From.holds {s : Store} {vs : List Value} {d : Draft} (hd : d.From s vs)
    (hnew : d.isNew = true) {id : ObjectId} {w : Value} (hw : (d.value id).Holds w)
    (hobject : w.IsObject) : w = d.value id ∨ s.Holds vs w := by
  cases d with
  | existing _ => cases hnew
  | array _ =>
      cases hw with
      | self => exact .inl rfl
      | element hv hw => exact .inr (hd _ hv w hw hobject)
  | hash _ =>
      cases hw with
      | self => exact .inl rfl
      | key he hw => exact .inr ((hd _ he).1 w hw hobject)
      | entry he hw => exact .inr ((hd _ he).2 w hw hobject)
  | returned _ =>
      cases hw with
      | self => exact .inl rfl
      | operand hw => exact .inr (hd w hw hobject)
  | _ =>
      cases hw
      exact .inl rfl

/-- What is made of values that are at hand can be told apart from them. -/
theorem Store.Distinct.make {s : Store} {vs : List Value} (h : s.Distinct vs) {d : Draft}
    (hd : d.From s vs) : (s.make d).2.Distinct ((s.make d).1 :: vs) := by
  unfold Store.make
  cases hnew : d.isNew with
  | false =>
      cases d with
      | existing v => exact h.offered (List.forall_mem_cons.mpr ⟨hd, fun _ => offers_of_mem⟩)
      | _ => cases hnew
  | true =>
      have hidentity := Draft.identity_value hnew s.nextId
      have hheld : ∀ w, Store.Holds ⟨s.scopes, s.nextId + 1⟩ (d.value s.nextId :: vs) w →
          w.IsObject → w = d.value s.nextId ∨ s.Holds vs w := by
        rintro w (⟨v, hv, hw⟩ | hw) hobject
        · rcases List.mem_cons.mp hv with rfl | hv
          · exact hd.holds hnew hw hobject
          · exact .inr (.inl ⟨v, hv, hw⟩)
        · exact .inr (.inr hw)
      refine ⟨fun w id hw hwid => ?_, fun v w hv hw heq => ?_⟩
      · rcases hheld w hw ⟨id, hwid⟩ with rfl | hold
        · exact Identity.object.inj (hwid.symm.trans hidentity) ▸ Nat.lt_succ_self _
        · exact Nat.lt_succ_of_lt (h.below w id hold hwid)
      · by_cases hobject : v.IsObject
        · obtain ⟨id, hid⟩ := hobject
          have hwid := heq.symm.trans hid
          rcases hheld v hv ⟨id, hid⟩ with rfl | hv <;> rcases hheld w hw ⟨id, hwid⟩ with rfl | hw
          · rfl
          · exact absurd (h.below w _ hw (heq.symm.trans hidentity)) (Nat.lt_irrefl _)
          · exact absurd (h.below v _ hv (heq.trans hidentity)) (Nat.lt_irrefl _)
          · exact h.one v w hv hw heq
        · exact v.eq_of_identity hobject heq

/-! ## Outcomes -/

/-- What a run comes to can be told apart from the values at hand. -/
def Outcome.Distinct {α : Type} (values : α → List Value) (vs : List Value) : Outcome α → Prop
  | .done a s => s.Distinct (values a ++ vs)
  | _ => True

namespace Outcome.Distinct

variable {α β : Type} {values : α → List Value} {values' : β → List Value} {vs ws : List Value}
  {s : Store}

theorem subset {o : Outcome α} (h : o.Distinct values ws) (hvs : vs ⊆ ws) :
    o.Distinct values vs := by
  cases o with
  | done a s =>
      refine Store.Distinct.subset h (List.append_subset.mpr ⟨List.subset_append_left _ _, ?_⟩)
      exact List.subset_append_of_subset_right _ hvs
  | _ => trivial

/-- The answer so far is at hand for what comes next. -/
theorem andThen {o : Outcome α} {f : α → Store → Outcome β} (h : o.Distinct values vs)
    (hf : ∀ a s, s.Distinct (values a ++ vs) → (f a s).Distinct values' (values a ++ vs)) :
    (o.andThen f).Distinct values' vs := by
  cases o with
  | done a s => exact (hf a s h).subset (List.subset_append_right _ _)
  | _ => trivial

theorem unlessError {o : Outcome Value} {f : Value → Store → Outcome Value}
    (h : o.Distinct ([·]) vs)
    (hf : ∀ v s, s.Distinct (v :: vs) → (f v s).Distinct ([·]) (v :: vs)) :
    (o.unlessError f).Distinct ([·]) vs := by
  cases o with
  | done v s =>
      rw [unlessError_done]
      split
      · exact h
      · exact (hf v s h).subset (List.subset_cons_self _ _)
  | _ => trivial

theorem ite {p : Prop} [Decidable p] {o o' : Outcome α} (h : o.Distinct values vs)
    (h' : o'.Distinct values vs) : (if p then o else o').Distinct values vs := by
  split
  · exact h
  · exact h'

theorem yield (hs : s.Distinct vs) {d : Draft} (hd : d.From s vs) :
    (s.yield d).Distinct ([·]) vs := hs.make hd

theorem done (hs : s.Distinct vs) {a : α} (ha : ∀ v ∈ values a, s.Offers vs v) :
    (Outcome.done a s).Distinct values vs :=
  hs.offered (List.forall_mem_append.mpr ⟨ha, fun _ => Store.offers_of_mem⟩)

/-- The answer is at hand already. -/
theorem answer (hs : s.Distinct vs) {a : α} (ha : values a ⊆ vs) :
    (Outcome.done a s).Distinct values vs := done hs fun _ hv => Store.offers_of_mem (ha hv)

theorem of_eq {o : Outcome α} {a : α} (h : o.Distinct values vs) (heq : o = .done a s) :
    s.Distinct (values a ++ vs) := by
  subst heq
  exact h

end Outcome.Distinct

/-! ## Rules -/

theorem Store.offers_unwrapped {s : Store} {vs : List Value} {v : Value} (h : s.Offers vs v) :
    s.Offers vs v.unwrapped := by
  cases v with
  | returned _ _ => exact Value.HoldsOnly.operand h
  | _ => exact h

theorem Store.offers_map_unwrapped {s : Store} {vs : List Value} {last : Option Value}
    (h : ∀ v ∈ last.toList, s.Offers vs v) :
    ∀ v ∈ (last.map Value.unwrapped).toList, s.Offers vs v := by
  cases last with
  | none => exact nofun
  | some v => exact List.forall_mem_singleton.mpr (offers_unwrapped (h v List.mem_cons_self))

open Outcome.Distinct (yield done answer)

mutual

theorem evalExpr_distinct : ∀ n (e : Expr) scope {s vs}, s.Distinct vs →
    (evalExpr n e scope s).Distinct ([·]) vs
  | 0, _, _, _, _, _ => by unfold evalExpr; trivial
  | n + 1, e, scope, s, vs, hs => by
      unfold evalExpr
      cases e with
      | identifier _ name => exact yield hs (Draft.from_valueOf scope name)
      | integer _ _ | string _ _ | function _ _ _ => exact yield hs trivial
      | boolean _ value => exact yield hs (Draft.from_boolean value)
      | unknown _ _ => trivial
      | prefixOp _ operator right =>
          refine (evalExpr_distinct n right scope hs).unlessError fun r _ hs₁ => ?_
          exact yield hs₁ (Draft.from_prefixOp operator r)
      | infixOp _ left operator right =>
          refine (evalExpr_distinct n left scope hs).unlessError fun l _ hs₁ => ?_
          refine (evalExpr_distinct n right scope hs₁).unlessError fun r _ hs₂ => ?_
          exact yield hs₂ (Draft.from_infixOp l operator r)
      | conditional _ condition consequence alternative =>
          refine (evalExpr_distinct n condition scope hs).unlessError fun _ _ hs₁ => ?_
          refine .ite (evalBlock_distinct n consequence scope hs₁) ?_
          cases alternative with
          | none => exact done hs₁ (List.forall_mem_singleton.mpr Store.offers_null)
          | some other => exact evalBlock_distinct n other scope hs₁
      | loop _ condition body => exact evalLoop_distinct n condition body scope hs
      | call _ function arguments =>
          refine (evalExpr_distinct n function scope hs).unlessError fun f _ hs₁ => ?_
          refine (evalAll_distinct n arguments scope hs₁).andThen fun values _ hs₂ => ?_
          cases values with
          | error e => exact answer hs₂ (List.subset_append_left _ _)
          | ok values =>
              exact apply_distinct n f values hs₂
                (List.mem_append_right _ List.mem_cons_self) fun _ hv => List.mem_append_left _ hv
      | array _ elements =>
          refine (evalAll_distinct n elements scope hs).andThen fun values _ hs₁ => ?_
          cases values with
          | error e => exact answer hs₁ (List.subset_append_left _ _)
          | ok values =>
              exact yield hs₁ fun _ hv => Store.offers_of_mem (List.mem_append_left _ hv)
      | index _ left index =>
          refine (evalExpr_distinct n left scope hs).unlessError fun l _ hs₁ => ?_
          refine (evalExpr_distinct n index scope hs₁).unlessError fun i _ hs₂ => ?_
          refine yield hs₂ (Draft.from_indexOp (Store.offers_of_mem ?_) i)
          exact List.mem_cons_of_mem _ List.mem_cons_self
      | hash _ pairs => exact evalPairs_distinct n pairs scope hs nofun
      | statement stmt =>
          refine (evalStmt_distinct n stmt scope hs).andThen fun v _ hs₁ => ?_
          refine done hs₁ (List.forall_mem_singleton.mpr (.getD_null ?_))
          rintro w rfl
          exact Store.offers_of_mem List.mem_cons_self

theorem evalAll_distinct : ∀ n es scope {s vs}, s.Distinct vs →
    (evalAll n es scope s).Distinct valuesOrError vs
  | 0, _, _, _, _, _ => by unfold evalAll; trivial
  | n + 1, [], scope, s, vs, hs => by unfold evalAll; exact hs
  | n + 1, e :: es, scope, s, vs, hs => by
      unfold evalAll
      refine (evalExpr_distinct n e scope hs).andThen fun v _ hs₁ => ?_
      refine .ite (answer hs₁ (List.subset_append_left _ _)) ?_
      refine (evalAll_distinct n es scope hs₁).andThen fun values _ hs₂ => ?_
      cases values with
      | error e => exact answer hs₂ (List.subset_append_left _ _)
      | ok values =>
          refine done hs₂ (List.forall_mem_cons.mpr ⟨?_, fun _ hv => ?_⟩)
          · exact Store.offers_of_mem (List.mem_append_right _ List.mem_cons_self)
          · exact Store.offers_of_mem (List.mem_append_left _ hv)

theorem evalPairs_distinct : ∀ n pairs {entries : Entries} scope {s vs}, s.Distinct vs →
    (∀ e ∈ entries, e.1 ∈ vs ∧ e.2 ∈ vs) →
    (evalPairs n pairs entries scope s).Distinct ([·]) vs
  | 0, _, _, _, _, _, _, _ => by unfold evalPairs; trivial
  | n + 1, [], entries, scope, s, vs, hs, hes => by
      unfold evalPairs
      exact yield hs fun e he =>
        ⟨Store.offers_of_mem (hes e he).1, Store.offers_of_mem (hes e he).2⟩
  | n + 1, (key, value) :: pairs, entries, scope, s, vs, hs, hes => by
      unfold evalPairs
      refine (evalExpr_distinct n key scope hs).unlessError fun k _ hs₁ => ?_
      refine .ite (yield hs₁ trivial) ?_
      refine (evalExpr_distinct n value scope hs₁).unlessError fun v _ hs₂ => ?_
      refine evalPairs_distinct n pairs scope hs₂ ?_
      refine Pervasive.insert (P := (· ∈ v :: k :: vs)) ?_ ?_ ?_
      · exact List.mem_cons_of_mem _ List.mem_cons_self
      · exact List.mem_cons_self
      · exact fun e he => ⟨List.mem_cons_of_mem _ (List.mem_cons_of_mem _ (hes e he).1),
          List.mem_cons_of_mem _ (List.mem_cons_of_mem _ (hes e he).2)⟩

theorem evalLoop_distinct : ∀ n (condition : Expr) (body : Block) scope {s vs}, s.Distinct vs →
    (evalLoop n condition body scope s).Distinct ([·]) vs
  | 0, _, _, _, _, _, _ => by unfold evalLoop; trivial
  | n + 1, condition, body, scope, s, vs, hs => by
      unfold evalLoop
      refine (evalExpr_distinct n condition scope hs).unlessError fun _ _ hs₁ => ?_
      refine .ite ?_ (done hs₁ (List.forall_mem_singleton.mpr Store.offers_null))
      refine (evalBlock_distinct n body scope hs₁).andThen fun _ _ hs₂ => ?_
      refine .ite (answer hs₂ (List.subset_append_left _ _)) ?_
      exact evalLoop_distinct n condition body scope hs₂

theorem evalBlock_distinct : ∀ n (b : Block) scope {s vs}, s.Distinct vs →
    (evalBlock n b scope s).Distinct ([·]) vs
  | 0, _, _, _, _, _ => by unfold evalBlock; trivial
  | n + 1, b, scope, s, vs, hs => by
      unfold evalBlock
      refine (evalStmts_distinct n b.statements none scope hs nofun).andThen fun last _ hs₁ => ?_
      refine done hs₁ (List.forall_mem_singleton.mpr (.getD_null ?_))
      rintro w rfl
      exact Store.offers_of_mem List.mem_cons_self

theorem evalStmts_distinct : ∀ n stmts (last : Option Value) scope {s vs}, s.Distinct vs →
    (∀ v ∈ last, v ∈ vs) → (evalStmts n stmts last scope s).Distinct Option.toList vs
  | 0, _, _, _, _, _, _, _ => by unfold evalStmts; trivial
  | n + 1, [], last, scope, s, vs, hs, hlast => by
      unfold evalStmts
      exact done hs fun v hv => Store.offers_of_mem (hlast v (Option.mem_toList.mp hv))
  | n + 1, stmt :: stmts, last, scope, s, vs, hs, _ => by
      unfold evalStmts
      refine (evalStmt_distinct n stmt scope hs).andThen fun v _ hs₁ => ?_
      refine .ite (answer hs₁ (List.subset_append_left _ _)) ?_
      exact evalStmts_distinct n stmts v scope hs₁ fun w hw =>
        List.mem_append_left _ (Option.mem_toList.mpr hw)

theorem evalStmt_distinct : ∀ n (stmt : Stmt) scope {s vs}, s.Distinct vs →
    (evalStmt n stmt scope s).Distinct Option.toList vs
  | 0, _, _, _, _, _ => by unfold evalStmt; trivial
  | n + 1, stmt, scope, s, vs, hs => by
      unfold evalStmt
      match stmt with
      | .binding _ name value =>
          refine (evalExpr_distinct n value scope hs).andThen fun v _ hs₁ => ?_
          refine .ite (answer hs₁ (List.subset_append_left _ _)) ?_
          exact done (hs₁.bind scope name.value List.mem_cons_self) nofun
      | .leave _ value =>
          have hvalue := (evalExpr_distinct n value scope hs).unlessError
            (f := fun v s => s.yield (.returned v)) fun _ _ hs₁ =>
              yield hs₁ (Store.offers_of_mem List.mem_cons_self)
          exact hvalue.andThen fun _ _ hs₁ =>
            answer hs₁ (List.subset_append_left _ _)
      | .expression _ e | .bare e =>
          exact (evalExpr_distinct n e scope hs).andThen fun _ _ hs₁ =>
            answer hs₁ (List.subset_append_left _ _)
      | .block (.program stmts) =>
          refine (evalStmts_distinct n stmts none scope hs nofun).andThen fun last _ hs₁ => ?_
          refine done hs₁ (Store.offers_map_unwrapped fun _ hv => ?_)
          exact Store.offers_of_mem (List.mem_append_left _ hv)
      | .block (.mk mark stmts) =>
          exact (evalBlock_distinct n (.mk mark stmts) scope hs).andThen fun _ _ hs₁ =>
            answer hs₁ (List.subset_append_left _ _)
      | .unknown _ _ => trivial

theorem apply_distinct : ∀ n (f : Value) arguments {s vs}, s.Distinct vs → f ∈ vs →
    (∀ v ∈ arguments, v ∈ vs) → (apply n f arguments s).Distinct ([·]) vs
  | 0, _, _, _, _, _, _, _ => by unfold apply; trivial
  | n + 1, f, arguments, s, vs, hs, _, harguments => by
      unfold apply
      cases f with
      | function _ parameters body outer =>
          refine .ite (yield hs trivial) ?_
          refine (evalBlock_distinct n body _ (hs.enter _ _ _ harguments)).andThen fun v _ hs₁ => ?_
          refine done hs₁ (List.forall_mem_singleton.mpr (Store.offers_unwrapped ?_))
          exact Store.offers_of_mem List.mem_cons_self
      | builtin b =>
          exact yield hs (Draft.from_apply b fun _ hv => Store.offers_of_mem (harguments _ hv))
      | _ => exact yield hs trivial

end

/-! ## Stores that are met -/

theorem evalProgram_distinct (n : Nat) (p : Program) (scope : ScopeId) {s : Store}
    {vs : List Value} (hs : s.Distinct vs) :
    (evalProgram n p scope s).Distinct Option.toList vs := by
  refine (evalStmts_distinct n p.statements none scope hs nofun).andThen fun last _ hs₁ => ?_
  refine done hs₁ (Store.offers_map_unwrapped fun _ hv => ?_)
  exact Store.offers_of_mem (List.mem_append_left _ hv)

theorem Expr.ComesTo.distinct {e : Expr} {scope : ScopeId} {s s' : Store} {v : Value}
    {vs : List Value} (h : e.ComesTo scope s v s') (hs : s.Distinct vs) :
    s'.Distinct (v :: vs) := by
  obtain ⟨n, hn⟩ := h
  exact (evalExpr_distinct n e scope hs).of_eq hn

/-- **Step.** What a moment is given, and other values at hand, can be told apart if they can in
the moment that enters it. -/
theorem Enters.distinct {role : Role} {m m' : Moment} (h : Enters role m m') {ws : List Value}
    (hm : m.store.Distinct (m.task.values ++ ws)) :
    m'.store.Distinct (m'.task.values ++ ws) := by
  cases h with
  | operand | left | condition | function | indexed | loop | elements | hash | statement | first
  | key | test | statements | head | bound | returned | expression | program | block | bare =>
      exact hm.subset (List.subset_append_right _ _)
  | right h _ | consequence h _ _ | alternative h _ _ | arguments h _ | index h _ | others h _
  | value h _ _ | iteration h _ _ =>
      exact ((evalExpr_distinct _ _ _ hm).of_eq h).subset
        (List.subset_cons_of_subset _ (List.subset_append_right _ _))
  | call hf _ hvs =>
      have hs₁ := (evalExpr_distinct _ _ _ hm).of_eq hf
      refine ((evalAll_distinct _ _ _ hs₁).of_eq hvs).subset (List.cons_subset.mpr ⟨?_, ?_⟩)
      · exact List.mem_append_right _ List.mem_cons_self
      · exact List.append_subset.mpr ⟨List.subset_append_left _ _,
          List.subset_append_of_subset_right _ (List.subset_cons_self _ _)⟩
  | entry hk _ _ hv _ =>
      have hs₁ := (evalExpr_distinct _ _ _ hm).of_eq hk
      have hs₂ := (evalExpr_distinct _ _ _ hs₁).of_eq hv
      refine hs₂.subset (List.append_subset.mpr ⟨fun _ hw => ?_, ?_⟩)
      · refine forall_mem_flatMap (P := fun w => w ∈ _) ?_ _ hw
        refine Pervasive.insert (List.mem_cons_of_mem _ List.mem_cons_self) List.mem_cons_self ?_
        exact forall_mem_entries fun _ hv =>
          List.mem_append_right _ (List.mem_append_right _ (List.mem_append_left _ hv))
      · exact List.subset_append_of_subset_right _ (List.subset_append_of_subset_right _
          (List.subset_append_right _ _))
  | again hc _ _ hv _ =>
      have hs₁ := (evalExpr_distinct _ _ _ hm).of_eq hc
      exact ((evalBlock_distinct _ _ _ hs₁).of_eq hv).subset
        (List.subset_cons_of_subset _ (List.subset_cons_self _ _))
  | next hv _ =>
      refine ((evalStmt_distinct _ _ _ hm).of_eq hv).subset (List.append_subset.mpr ⟨?_, ?_⟩)
      · exact List.subset_append_left _ _
      · exact List.subset_append_of_subset_right _ (List.subset_append_right _ _)
  | body _ =>
      refine (hm.enter _ _ _ fun _ hv => ?_).subset (List.subset_append_right _ _)
      exact List.mem_append_left _ (List.mem_cons_of_mem _ hv)

theorem Moment.LeadsTo.distinct {m m' : Moment} (h : m.LeadsTo m') (ws : List Value)
    (hm : m.store.Distinct (m.task.values ++ ws)) :
    m'.store.Distinct (m'.task.values ++ ws) := by
  induction h with
  | refl => exact hm
  | tail _ henters ih =>
      obtain ⟨_, henters⟩ := henters
      exact henters.distinct ih

theorem Store.distinct_empty : Store.empty.Distinct [] := by
  have hnone : ∀ w, ¬Store.empty.Holds [] w := by
    rintro w (⟨_, hv, -⟩ | ⟨_, hsc, -⟩)
    · exact nomatch hv
    · exact nomatch hsc
  exact ⟨fun w _ hw => absurd hw (hnone w), fun v _ hv => absurd hv (hnone v)⟩

/-- **Run.** In every store that is met, the objects that are bound can be told apart. -/
theorem Store.Met.distinct {s : Store} (h : s.Met) : s.Distinct [] := by
  induction h with
  | empty => exact distinct_empty
  | opened _ ih => exact ih.enter none 0 [] (List.forall_mem_nil _)
  | running _ _ hleads ih => exact (hleads.distinct [] ih).offered nofun
  | left _ _ hrun ih => exact ((evalProgram_distinct _ _ _ ih).of_eq hrun).offered nofun

/-- **An identity belongs to one object.** Two values that are held in a store that is met in a
session, or that are at hand when expressions have been evaluated there one after another, are the
same if they have the same identity. -/
theorem Store.Met.eq_of_identity {s : Store} (h : s.Met) :
    (∀ v w, s.Holds [] v → s.Holds [] w → v.identity = w.identity → v = w) ∧
    ∀ scope left right a b s₁ s₂, Expr.ComesTo left scope s a s₁ →
      Expr.ComesTo right scope s₁ b s₂ → a.identity = b.identity → a = b := by
  refine ⟨h.distinct.one, fun scope left right a b s₁ s₂ hleft hright heq => ?_⟩
  have hs₂ := hright.distinct (hleft.distinct h.distinct)
  exact hs₂.eq_of_mem (List.mem_cons_of_mem _ List.mem_cons_self) List.mem_cons_self heq

end MonkeyLang
