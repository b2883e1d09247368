import MonkeyLang.Proofs.AtRest
import MonkeyLang.Proofs.RunValues
import MonkeyLang.Syntax.Parser

/-!
# What calls hand back

A call removes one level of `return` and no more. So it hands back a returned value only if
one has been handed on before: as the operand of a `return`, so that there were two levels,
or as an element of an array from which a built-in function fetches it. In a run in which
neither happens, no call hands back a returned value, and a statement that is a call does not
end the block in which it stands, unless it fails (`calls_hand_back_no_return`).

Neither happens if no `return` leads out of code whose value is kept, and that can be read
off the program (`handsOnNoReturn_of_containsReturns`).
-/

namespace MonkeyLang

/-- The built-in function yields an element of its argument. -/
def Builtin.fetches : Builtin → Bool
  | first | last => true
  | len | rest | push => false

/-- No element of an array is a returned value. -/
def Value.ElementsPlain : Value → Prop
  | .array _ elements => ∀ v ∈ elements, v.type ≠ .returned
  | _ => True

/-- At this moment no returned value is handed on: none is the operand of a `return`, and none
stands in an array from which a built-in function fetches an element. -/
def Moment.HandsOnNoReturn (m : Moment) : Prop :=
  match m.task with
  | .stmt (.leave _ value) scope =>
    ∀ n v s, evalExpr n value scope m.store = .done v s → v.type ≠ .returned
  | .call (.builtin b) arguments => b.fetches = true → ∀ v ∈ arguments, v.ElementsPlain
  | _ => True

/-! ## Contained returns -/

/-- The test that the returns in all code whose value is kept are contained. -/
def containment : CodeTest := ⟨fun _ => true, true⟩

/-- No `return` leads out of an expression that is bound by a `let`, returned, passed to a
function or put into an array or, as a value, into a hash. -/
def Program.containsReturns (p : Program) : Bool := p.passes containment

/-- What a kept value and each of its parts are, if returns are contained: no returned
value, and no function that would yield one. -/
def Value.Contained : Value → Prop
  | .function _ _ body _ => body.passes containment true = true
  | .returned _ _ => False
  | _ => True

theorem pervasive_contained : Pervasive (Value.HoldsOnly Value.Contained) := by
  refine pervasive_holdsOnly fun v hfunction hreturned _ => ?_
  cases v with
  | function _ _ _ _ => exact absurd rfl hfunction
  | returned _ _ => exact absurd rfl hreturned
  | _ => trivial

theorem kept_contained :
    Kept containment (fun _ => True) (Value.HoldsOnly Value.Contained) where
  toComposite := pervasive_contained.toComposite
  enters _ _ := trivial
  literal id n _ := pervasive_contained.integer id n
  function_iff id parameters body scope := ⟨fun h => h.self, fun h => .function h⟩
  error id e := by
    rintro w ⟨⟩
    trivial
  returned _ _ _ h _ := absurd h nofun
  operand _ _ h := h.self.elim
  length _ _ _ h := Pervasive.has_ofOne (fun v _ => pervasive_contained.has_lenOf v) h

theorem type_ne_returned_of_contained {v : Value} (h : v.HoldsOnly Value.Contained) :
    v.type ≠ .returned := by
  intro htype
  obtain ⟨id, w, rfl⟩ := Value.exists_of_type_eq_returned htype
  exact h.self

/-- Where returns are contained, no returned value is handed on. -/
theorem handsOnNoReturn_of_containsReturns {p : Program} (h : p.containsReturns = true)
    {role : Role} {m : Moment} (hm : p.Reaches role m) : m.HandsOnNoReturn := by
  obtain ⟨exit, hs, hvalues, hcode⟩ := hm.keeps kept_contained (fun _ _ _ => trivial) h
  unfold Moment.HandsOnNoReturn
  split
  · rename_i mark value scope htask
    intro n v s hv
    rw [htask] at hcode
    have hkeeps := evalExpr_keeps kept_contained n value false scope m.store trivial
      (Bool.and_eq_true_iff.mp hcode).2 hs
    exact type_ne_returned_of_contained (hkeeps.of_eq hv).1.of_false
  · rename_i b arguments htask
    intro _ v hv
    rw [htask] at hvalues
    cases v with
    | array id elements =>
        have helements := (kept_contained.array_iff id elements).mp (hvalues.2 _ hv)
        exact fun w hw => type_ne_returned_of_contained (helements w hw)
    | _ => trivial
  · trivial

/-! ## Single returns -/

/-- What a value and each of its parts are, if none is handed on: if it is a returned value,
there is one level only. -/
def Value.Single : Value → Prop
  | .returned _ v => v.type ≠ .returned
  | _ => True

theorem pervasive_single : Pervasive (Value.HoldsOnly Value.Single) := by
  refine pervasive_holdsOnly fun v _ hreturned _ => ?_
  cases v with
  | returned _ _ => exact absurd rfl hreturned
  | _ => trivial

theorem kept_single {p : Program} (h : ∀ role m, p.Reaches role m → m.HandsOnNoReturn) :
    Kept anyCode (fun m => ∃ role, p.Reaches role m) (Value.HoldsOnly Value.Single) where
  toComposite := pervasive_single.toComposite
  enters := fun ⟨role, hm⟩ henters => ⟨_, hm.enter henters⟩
  literal id n _ := pervasive_single.integer id n
  function_iff id parameters body scope :=
    ⟨fun _ => body.passes_anyCode true, fun _ => .function trivial⟩
  error id e := by
    rintro w ⟨⟩
    trivial
  returned id hm hvalue _ hv := by
    obtain ⟨role, hm⟩ := hm
    exact .returned (h role _ hm _ _ _ hvalue) hv
  operand _ _ h := h.operand
  length _ _ _ h := Pervasive.has_ofOne (fun v _ => pervasive_single.has_lenOf v) h

theorem error_type_ne_returned {id : ObjectId} {e : RuntimeError} :
    (Value.error id e).type ≠ .returned := nofun

theorem type_unwrapped_ne_returned {v : Value} (h : v.Single) : v.unwrapped.type ≠ .returned := by
  cases v with
  | returned _ _ => exact h
  | _ => nofun

/-! ## Built-in functions -/

section Builtins

variable {v : Value}

theorem getD_null_type_ne {o : Option Value} (h : ∀ v, o = some v → v.type ≠ .returned) :
    (o.getD .null).type ≠ .returned := by
  cases o with
  | none => nofun
  | some v => exact h v rfl

theorem lenOf_plain (v : Value) : (Builtin.lenOf v).Has (Value.type · ≠ .returned) := by
  cases v with
  | string _ _ | array _ _ => exact .inr fun _ => nofun
  | _ => exact .error _

theorem firstOf_plain (h : v.ElementsPlain) :
    (Builtin.firstOf v).Has (Value.type · ≠ .returned) := by
  cases v with
  | array _ elements =>
      exact .inr fun _ => getD_null_type_ne fun w hw => h w (List.mem_of_head? hw)
  | _ => exact .error _

theorem lastOf_plain (h : v.ElementsPlain) :
    (Builtin.lastOf v).Has (Value.type · ≠ .returned) := by
  cases v with
  | array _ elements =>
      exact .inr fun _ => getD_null_type_ne fun w hw => h w (List.mem_of_getLast? hw)
  | _ => exact .error _

theorem restOf_plain (v : Value) : (Builtin.restOf v).Has (Value.type · ≠ .returned) := by
  cases v with
  | array _ elements => cases elements <;> exact .inr fun _ => nofun
  | _ => exact .error _

theorem pushOnto_plain (more : List Value) (v : Value) :
    (Builtin.pushOnto more v).Has (Value.type · ≠ .returned) := by
  cases v with
  | array _ _ => exact .inr fun _ => nofun
  | _ => exact .error _

/-- What a built-in function yields is an element of an array, or no returned value. -/
theorem builtin_plain (b : Builtin) {arguments : List Value}
    (h : b.fetches = true → ∀ v ∈ arguments, v.ElementsPlain) :
    (b.apply arguments).Has (Value.type · ≠ .returned) := by
  cases b with
  | len => exact Pervasive.has_ofOne (fun v _ => lenOf_plain v) fun _ _ => trivial
  | first => exact Pervasive.has_ofOne (fun _ hv => firstOf_plain hv) (h rfl)
  | last => exact Pervasive.has_ofOne (fun _ hv => lastOf_plain hv) (h rfl)
  | rest => exact Pervasive.has_ofOne (fun v _ => restOf_plain v) fun _ _ => trivial
  | push =>
      cases arguments with
      | nil => exact .error _
      | cons v more => exact pushOnto_plain more v

end Builtins

/-! ## Calls -/

open Outcome in
/-- What stands for the values of some expressions is an error. -/
theorem isError_of_evalAll {n : Nat} {es : List Expr} {scope : ScopeId} {s s' : Store} {v : Value}
    (h : evalAll n es scope s = .done (.error v) s') : v.isError = true := by
  induction n generalizing es s v s' with
  | zero =>
      unfold evalAll at h
      exact nomatch h
  | succ n ih =>
      cases es with
      | nil =>
          unfold evalAll at h
          exact nomatch h
      | cons e es =>
          unfold evalAll at h
          obtain ⟨w, s₁, -, h⟩ := andThen_eq_done h
          split at h
          · rename_i herror
            cases h
            exact herror
          · obtain ⟨vs, s₂, hvs, h⟩ := andThen_eq_done h
            cases vs with
            | error e =>
                cases h
                exact ih hvs
            | ok vs => exact nomatch h

open Outcome in
/-- A call comes to what is handed back, or to the error of a part. -/
theorem evalExpr_call {n : Nat} {mark : Mark} {function : Expr} {arguments : List Expr}
    {scope : ScopeId} {s s' : Store} {v : Value}
    (h : evalExpr n (.call mark function arguments) scope s = .done v s') :
    v.isError = true ∨ ∃ f values s₁ k,
      Enters .rest ⟨.expr (.call mark function arguments) scope, s⟩ ⟨.call f values, s₁⟩ ∧
        apply k f values s₁ = .done v s' := by
  cases n with
  | zero =>
      unfold evalExpr at h
      exact nomatch h
  | succ n =>
      unfold evalExpr at h
      rcases unlessError_eq_done h with herror | ⟨f, s₁, hf, hok, h⟩
      · exact .inl herror
      obtain ⟨vs, s₂, hvs, h⟩ := andThen_eq_done h
      cases vs with
      | error e =>
          cases h
          exact .inl (isError_of_evalAll hvs)
      | ok values => exact .inr ⟨f, values, s₂, n, .call hf hok hvs, h⟩

/-- A statement that comes to a value which does not end its block is followed by the next
one. -/
theorem evalStmts_expression {n : Nat} {mark : Mark} {e : Expr} {rest : List Stmt}
    {last : Option Value} {scope : ScopeId} {s s' : Store} {v : Value}
    (h : evalExpr n e scope s = .done v s') (hv : v.endsBlock = false) :
    evalStmts (n + 2) (.expression mark e :: rest) last scope s =
      evalStmts (n + 1) rest (some v) scope s' := by
  have hstmt : evalStmt (n + 1) (.expression mark e) scope s = .done (some v) s' := by
    unfold evalStmt
    simp only [h, Outcome.andThen_done]
  rw [evalStmts, hstmt, Outcome.andThen_done, Option.any_some, hv, if_neg Bool.false_ne_true]

/-- What a call hands back has been unwrapped: it is what a single `return` has returned, or
comes of a built-in function. -/
theorem apply_type_ne_returned {p : Program}
    (h : ∀ role m, p.Reaches role m → m.HandsOnNoReturn) {role : Role} {f : Value}
    {arguments : List Value} {s s' : Store} (hm : p.Reaches role ⟨.call f arguments, s⟩) {n : Nat}
    {v : Value} (happly : apply n f arguments s = .done v s') : v.type ≠ .returned := by
  have hP := kept_single h
  obtain ⟨_, hs, ⟨-, harguments⟩, -⟩ :=
    hm.keeps hP (fun role m hm => ⟨role, hm⟩) (p.passes_anyCode)
  cases n with
  | zero =>
      unfold apply at happly
      cases happly
  | succ n =>
      unfold apply at happly
      split at happly
      · rename_i id parameters body outer
        split at happly
        · cases happly
          exact error_type_ne_returned
        · rename_i hcount
          obtain ⟨w, s₁, hbody, happly⟩ := Outcome.andThen_eq_done happly
          have hr := hP.enters ⟨role, hm⟩ (.body (Decidable.not_not.mp hcount))
          have hkeeps := evalBlock_keeps hP n body false _ _ hr (body.passes_anyCode false)
            ((hs.openScope _).bindAll _ _ harguments)
          cases happly
          exact type_unwrapped_ne_returned (hkeeps.of_eq hbody).1.of_false.self
      · rename_i b
        cases happly
        rcases builtin_plain b (h role _ hm) with ⟨e, he⟩ | hplain
        · rw [he]
          exact error_type_ne_returned
        · exact hplain _
      · cases happly
        exact error_type_ne_returned

/-- **Calls hand back no return.** In a run in which no returned value is handed on, no call
hands back a returned value. A statement that is a call comes to an error, or to a value that
does not end its block, loop, function or program, which goes on with the next statement. -/
theorem calls_hand_back_no_return {p : Program}
    (h : ∀ role m, p.Reaches role m → m.HandsOnNoReturn) :
    (∀ role f arguments s, p.Reaches role ⟨.call f arguments, s⟩ → ∀ n v s',
      apply n f arguments s = .done v s' → v.type ≠ .returned) ∧
    ∀ role mark mark' function arguments rest last scope s,
      p.Reaches role
        ⟨.stmts (.expression mark (.call mark' function arguments) :: rest) last scope, s⟩ →
      ∀ n v s', evalExpr n (.call mark' function arguments) scope s = .done v s' →
        v.isError = true ∨ v.endsBlock = false ∧
          evalStmts (n + 2) (.expression mark (.call mark' function arguments) :: rest) last scope
            s = evalStmts (n + 1) rest (some v) scope s' := by
  refine ⟨fun role f arguments s hm n v s' => apply_type_ne_returned h hm, ?_⟩
  intro role mark mark' function arguments rest last scope s hm n v s' hv
  rcases evalExpr_call hv with herror | ⟨f, values, s₁, k, henters, happly⟩
  · exact .inl herror
  have hcalled := ((hm.enter .head).enter .expression).enter henters
  have hplain := apply_type_ne_returned h hcalled happly
  cases hends : v.endsBlock with
  | false => exact .inr ⟨rfl, evalStmts_expression hv hends⟩
  | true =>
      cases v with
      | returned _ _ => exact absurd rfl hplain
      | error _ _ => exact .inl rfl
      | _ => exact nomatch hends

/-- A call with a `return` in a conditional, which is looked at, but not kept. -/
theorem calls_hand_back_no_return_condition :
    let p := (parse "fn(x) \x7b if (x == 1) \x7b return x \x7d \x7d(1); 2").program
    (∀ role m, p.Reaches role m → m.HandsOnNoReturn) ∧
      ∀ role f arguments s, p.Reaches role ⟨.call f arguments, s⟩ → ∀ n v s',
        apply n f arguments s = .done v s' → v.type ≠ .returned := by
  intro p
  have hp : p.containsReturns = true := by
    change (parse _).program.containsReturns = true
    cbv
  have h : ∀ role m, p.Reaches role m → m.HandsOnNoReturn :=
    fun _ _ hm => handsOnNoReturn_of_containsReturns hp hm
  exact ⟨h, (calls_hand_back_no_return h).1⟩

/-- Where a `return` leads out of the operand of another, the call hands back a returned
value, and ends the program in which it stands as a statement. -/
theorem call_hands_back_return :
    let p := (parse "fn() \x7b return if (true) \x7b return 1 \x7d \x7d(); 2").program
    (∃ role f arguments s n id w s', p.Reaches role ⟨.call f arguments, s⟩ ∧
      apply n f arguments s = .done (.returned id w) s') ∧
    ∃ id s, p.runFor 20 = .done (some (.integer id 1)) s := by
  intro p
  let inner : Block := .mk ⟨"\x7b", ⟨1, 25⟩⟩ [.leave ⟨"return", ⟨1, 27⟩⟩ (.integer ⟨"1", ⟨1, 34⟩⟩ 1)]
  let body : Block := .mk ⟨"\x7b", ⟨1, 6⟩⟩ [.leave ⟨"return", ⟨1, 8⟩⟩
    (.conditional ⟨"if", ⟨1, 15⟩⟩ (.boolean ⟨"true", ⟨1, 19⟩⟩ true) inner none)]
  have hp : p = ⟨[.expression ⟨"fn", ⟨1, 1⟩⟩
      (.call ⟨"(", ⟨1, 39⟩⟩ (.function ⟨"fn", ⟨1, 1⟩⟩ [] body) []),
      .expression ⟨"2", ⟨1, 43⟩⟩ (.integer ⟨"2", ⟨1, 43⟩⟩ 2)]⟩ := by
    change (parse _).program = _
    cbv
  let f : Value := .function 0 [] body 0
  let s : Store := ⟨#[⟨[], none⟩], 1⟩
  let s' : Store := ⟨#[⟨[], none⟩, ⟨[], some 0⟩], 4⟩
  have hfunction : evalExpr 1 (.function ⟨"fn", ⟨1, 1⟩⟩ [] body) 0 Store.fresh.2 = .done f s := by
    cbv
  have harguments : evalAll 1 [] 0 s = .done (.ok []) s := by cbv
  have hreaches : p.Reaches .rest ⟨.call f [], s⟩ := by
    have hstart := Program.Reaches.start (p := p)
    rw [hp] at hstart ⊢
    exact ((hstart.enter .head).enter .expression).enter (.call hfunction rfl harguments)
  have happly : apply 20 f [] s = .done (.returned 2 (.integer 1 1)) s' := by cbv
  have hrun : p.runFor 20 = .done (some (.integer 1 1)) s' := by
    rw [hp]
    cbv
  exact ⟨⟨_, f, [], s, 20, _, _, s', hreaches, happly⟩, 1, s', hrun⟩

/-- So does a call of a built-in function that fetches one from an array. -/
example :
    match (parse "first([if (true) \x7b return 1 \x7d]); 2").program.runFor 20 with
    | .done (some (.integer _ n)) _ => n = 1
    | _ => False := by
  cbv

end MonkeyLang
