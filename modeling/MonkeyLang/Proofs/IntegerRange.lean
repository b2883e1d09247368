import MonkeyLang.Proofs.AtRest
import MonkeyLang.Proofs.MoreSteps
import MonkeyLang.Proofs.ParsedForm
import MonkeyLang.Proofs.RunValues

/-!
# The range of integers

Integers are signed numbers of 64 bits. A literal that is larger is a syntax error, the
arithmetic operators wrap their results around, and no string or array of a real machine is
as long as the largest integer. So in a run of a program that has been parsed without an
error all integers are in range: those that a task comes to, and those that names are bound
to or that arrays and hashes are made of (`integers_in_range`).
-/

namespace MonkeyLang

/-! ## Range and size -/

/-- An integer is a signed number of 64 bits. -/
def Value.IsInRange : Value → Prop
  | .integer _ n => -2 ^ 63 ≤ n ∧ n ≤ 2 ^ 63 - 1
  | _ => True

/-- The length of a string, in bytes, or of an array is in range. -/
def Value.IsSmall : Value → Prop
  | .string _ text => text.utf8ByteSize < 2 ^ 63
  | .array _ elements => elements.length < 2 ^ 63
  | _ => True

/-- All values of a moment have a property, with all values that they hold. -/
def Moment.HoldsOnly (P : Value → Prop) (m : Moment) : Prop :=
  m.store.All (Value.HoldsOnly P) ∧ ∀ v ∈ m.task.values, v.HoldsOnly P

theorem wrap_in_range (n : Int) : -2 ^ 63 ≤ wrap n ∧ wrap n ≤ 2 ^ 63 - 1 := by
  have hlow : -2 ^ 63 ≤ wrap n := Int.le_bmod (by decide)
  have hhigh : wrap n < 2 ^ 63 := Int.bmod_lt (by decide)
  exact ⟨hlow, by omega⟩

/-! ## Literals -/

/-- The test that all integer literals are in range. -/
def literalRange : CodeTest := ⟨fun n => 0 ≤ n && n ≤ maxLiteral, false⟩

section WellFormed

variable {ok : String → Bool}

mutual

theorem Expr.passes_of_isWellFormed : ∀ {e : Expr} {exit : Bool}, e.isWellFormed ok = true →
    e.passes literalRange exit = true
  | .identifier _ _, _, _ | .string _ _, _, _ | .boolean _ _, _, _ => rfl
  | .integer _ _, _, h => h
  | .prefixOp _ _ _, _, h => by
      simp only [Expr.isWellFormed, Bool.and_eq_true] at h
      rw [Expr.passes, Expr.passes_of_isWellFormed h.2]
  | .infixOp _ _ _ _, _, h => by
      simp only [Expr.isWellFormed, Bool.and_eq_true] at h
      rw [Expr.passes, Expr.passes_of_isWellFormed h.1.2, Expr.passes_of_isWellFormed h.2]
      rfl
  | .conditional _ _ _ _, _, h => by
      simp only [Expr.isWellFormed, Bool.and_eq_true] at h
      rw [Expr.passes, Expr.passes_of_isWellFormed h.1.1, Block.passes_of_isWellFormed h.1.2,
        elsePasses_of_isWellFormed h.2]
      rfl
  | .loop _ _ _, _, h => by
      simp only [Expr.isWellFormed, Bool.and_eq_true] at h
      rw [Expr.passes, Expr.passes_of_isWellFormed h.1, Block.passes_of_isWellFormed h.2]
      rfl
  | .function _ _ _, _, h => Block.passes_of_isWellFormed (Bool.and_eq_true_iff.mp h).2
  | .call _ _ _, _, h => by
      simp only [Expr.isWellFormed, Bool.and_eq_true] at h
      rw [Expr.passes, Expr.passes_of_isWellFormed h.1, allPass_of_isWellFormed h.2]
      rfl
  | .array _ _, _, h => allPass_of_isWellFormed h
  | .index _ _ _, _, h => by
      simp only [Expr.isWellFormed, Bool.and_eq_true] at h
      rw [Expr.passes, Expr.passes_of_isWellFormed h.1, Expr.passes_of_isWellFormed h.2]
      rfl
  | .hash _ _, _, h => pairsPass_of_isWellFormed h
  | .statement _, _, h | .unknown _ _, _, h => nomatch h

theorem elsePasses_of_isWellFormed : ∀ {b : Option Block} {exit : Bool},
    isWellFormedElse ok b = true → elsePasses literalRange exit b = true
  | none, _, _ => rfl
  | some _, _, h => Block.passes_of_isWellFormed h

theorem allPass_of_isWellFormed : ∀ {es : List Expr}, isWellFormedAll ok es = true →
    allPass literalRange es = true
  | [], _ => rfl
  | _ :: _, h => by
      simp only [isWellFormedAll, Bool.and_eq_true] at h
      rw [allPass, Expr.passes_of_isWellFormed h.1, allPass_of_isWellFormed h.2]
      rfl

theorem pairsPass_of_isWellFormed : ∀ {ps : List (Expr × Expr)}, isWellFormedPairs ok ps = true →
    pairsPass literalRange ps = true
  | [], _ => rfl
  | (_, _) :: _, h => by
      simp only [isWellFormedPairs, Bool.and_eq_true] at h
      rw [pairsPass, Expr.passes_of_isWellFormed h.1.1, Expr.passes_of_isWellFormed h.1.2,
        pairsPass_of_isWellFormed h.2]
      rfl

theorem Block.passes_of_isWellFormed : ∀ {b : Block} {exit : Bool}, b.isWellFormed ok = true →
    b.passes literalRange exit = true
  | .mk _ _, _, h => stmtsPass_of_isWellFormed h
  | .program _, _, h => nomatch h

theorem Stmt.passes_of_isWellFormed : ∀ {stmt : Stmt} {exit : Bool},
    stmt.isWellFormed ok = true → stmt.passes literalRange exit = true
  | .binding _ _ _, _, h => Expr.passes_of_isWellFormed (Bool.and_eq_true_iff.mp h).2
  | .leave _ _, _, h => by
      rw [Stmt.passes, Expr.passes_of_isWellFormed (Bool.and_eq_true_iff.mp h).2, Bool.and_true]
      exact Bool.or_true _
  | .expression _ _, _, h => Expr.passes_of_isWellFormed h
  | .block _, _, h | .bare _, _, h | .unknown _ _, _, h => nomatch h

theorem stmtsPass_of_isWellFormed : ∀ {stmts : List Stmt} {exit : Bool},
    isWellFormedStmts ok stmts = true → stmtsPass literalRange exit stmts = true
  | [], _, _ => rfl
  | _ :: _, _, h => by
      simp only [isWellFormedStmts, Bool.and_eq_true] at h
      rw [stmtsPass, Stmt.passes_of_isWellFormed h.1, stmtsPass_of_isWellFormed h.2]
      rfl

end

end WellFormed

/-- The integer literals of a text without syntax errors are in range. -/
theorem passes_parse {source : String} (h : (parse source).errors = []) :
    (parse source).program.passes literalRange = true := by
  have hwf : (parse source).program.isWellFormed (fun _ => true) = true :=
    isWellFormed_parse h fun _ _ _ => rfl
  exact stmtsPass_of_isWellFormed hwf

/-! ## Runs -/

/-- What a value and each of its parts are: an integer is in range, and so are the literals
in the body of a function. -/
def Value.Ranged : Value → Prop
  | .integer _ n => -2 ^ 63 ≤ n ∧ n ≤ 2 ^ 63 - 1
  | .function _ _ body _ => body.passes literalRange true = true
  | _ => True

theorem Value.Ranged.isInRange {v : Value} (h : v.Ranged) : v.IsInRange := by
  cases v with
  | integer _ _ => exact h
  | _ => trivial

theorem holdsOnly_integer {id : ObjectId} {n : Int} (h : -2 ^ 63 ≤ n ∧ n ≤ 2 ^ 63 - 1) :
    (Value.integer id n).HoldsOnly Value.Ranged := by
  rintro w ⟨⟩
  exact h

/-- The length of a small value is in range. -/
theorem has_lenOf_of_isSmall {v : Value} (h : v.IsSmall) :
    (Builtin.lenOf v).Has (Value.HoldsOnly Value.Ranged) := by
  cases v with
  | string id text =>
      have hsize : text.utf8ByteSize < 2 ^ 63 := h
      exact .inr fun _ => holdsOnly_integer (by omega)
  | array id elements =>
      have hsize : elements.length < 2 ^ 63 := h
      exact .inr fun _ => holdsOnly_integer (by omega)
  | _ => exact .error _

theorem kept_ranged {p : Program}
    (hsmall : ∀ role m, p.Reaches role m → m.HoldsOnly Value.IsSmall) :
    Kept literalRange (fun m => ∃ role, p.Reaches role m) (Value.HoldsOnly Value.Ranged) where
  toComposite := by
    refine composite_holdsOnly (fun _ n => wrap_in_range n) fun v hinteger hfunction _ _ => ?_
    cases v with
    | integer _ _ => exact absurd rfl hinteger
    | function _ _ _ _ => exact absurd rfl hfunction
    | _ => trivial
  enters := fun ⟨role, hm⟩ henters => ⟨_, hm.enter henters⟩
  literal id n h := by
    have hmax : (maxLiteral : Int) = 2 ^ 63 - 1 := by decide
    have hn : 0 ≤ n ∧ n ≤ maxLiteral := by simpa [literalRange] using h
    exact holdsOnly_integer (by omega)
  function_iff id parameters body scope := ⟨fun h => h.self, fun h => .function h⟩
  error id e := by
    rintro w ⟨⟩
    trivial
  returned _ _ _ _ h := .returned trivial h
  operand _ _ h := h.operand
  length arguments s hm h := by
    obtain ⟨role, hm⟩ := hm
    obtain ⟨-, hvalues⟩ := hsmall role _ hm
    obtain ⟨-, harguments⟩ := List.forall_mem_cons.mp hvalues
    exact Pervasive.has_ofOne (fun v hv => has_lenOf_of_isSmall hv) fun v hv =>
      (harguments v hv).self

theorem Task.Carries.values {P : Value → Prop} (hreturned : ∀ id v, P v → P (.returned id v))
    {task : Task} (h : task.Carries P) : ∀ v ∈ task.values, P v := by
  cases task with
  | pairs ps entries scope => exact forall_mem_flatMap h
  | stmts stmts last scope => exact fun v hv => h v (Option.mem_toList.mp hv)
  | call f arguments =>
      refine List.forall_mem_cons.mpr ⟨?_, h.2⟩
      rcases h.1 with hf | ⟨-, id, w, rfl, hw⟩
      · exact hf
      · exact hreturned id w hw
  | _ => nofun

/-- **Integers are in range.** In a run of a program that has been parsed without an error,
all integers in the store, among the values of a task and among what comes of it are signed
numbers of 64 bits, and so are the integers that these values hold; if no string and no
array is so long that its length is none. -/
theorem integers_in_range {source : String} (h : (parse source).errors = [])
    (hsmall : ∀ role m, (parse source).program.Reaches role m → m.HoldsOnly Value.IsSmall) :
    (∀ role m, (parse source).program.Reaches role m → m.HoldsOnly Value.IsInRange ∧
      ∀ n vs s, m.run n = .done vs s →
        s.All (Value.HoldsOnly Value.IsInRange) ∧ ∀ v ∈ vs, v.HoldsOnly Value.IsInRange) ∧
    ∀ n v s, (parse source).program.runFor n = .done v s →
      s.All (Value.HoldsOnly Value.IsInRange) ∧ ∀ w ∈ v, w.HoldsOnly Value.IsInRange := by
  have hP := kept_ranged hsmall
  have hreturned : ∀ (id : ObjectId) (v : Value), v.HoldsOnly Value.Ranged →
      (Value.returned id v).HoldsOnly Value.Ranged := fun _ _ hv => .returned trivial hv
  have range : ∀ v : Value, v.HoldsOnly Value.Ranged → v.HoldsOnly Value.IsInRange :=
    fun v hv => hv.mono fun _ => Value.Ranged.isInRange
  have carried {exit : Bool} (v : Value) (hv : v.Carries (Value.HoldsOnly Value.Ranged) exit) :
      v.HoldsOnly Value.IsInRange := by
    rcases hv with hv | ⟨-, id, w, rfl, hw⟩
    · exact range v hv
    · exact range _ (hreturned id w hw)
  have hkeeps {role : Role} {m : Moment} (hm : (parse source).program.Reaches role m) :=
    hm.keeps hP (fun role m hm => ⟨role, hm⟩) (passes_parse h)
  refine ⟨fun role m hm => ?_, fun n v s hrun => ?_⟩
  · obtain ⟨exit, hmoment⟩ := hkeeps hm
    have hvalues := hmoment.values.values hreturned
    refine ⟨⟨hmoment.store.mono range, fun v hv => range v (hvalues v hv)⟩, fun n vs s hrun => ?_⟩
    obtain ⟨hs, hvs⟩ := hmoment.comes hP ⟨role, hm⟩ hrun
    exact ⟨hs.mono range, fun v hv => carried v (hvs v hv)⟩
  · have hstart := Program.Reaches.start (p := (parse source).program)
    obtain ⟨last, s', hlast, hanswer⟩ := Outcome.andThen_eq_done hrun
    obtain ⟨exit, hmoment⟩ := hkeeps hstart
    have hstmts := evalStmts_keeps hP n _ none exit _ _ ⟨_, hstart⟩ hmoment.code carries_none
      hmoment.store
    obtain ⟨hcarries, hs⟩ := hstmts.of_eq hlast
    cases hanswer
    refine ⟨hs.mono range, fun w hw => ?_⟩
    obtain ⟨u, hu, rfl⟩ := Option.map_eq_some_iff.mp hw
    exact range _ ((hcarries u hu).unwrapped hP)

/-! ### The run of a call -/

/-- The statement `len("ab")`. -/
def lengthStmt : Stmt :=
  .expression ⟨"len", ⟨1, 1⟩⟩ (.call ⟨"(", ⟨1, 4⟩⟩ (.identifier ⟨"len", ⟨1, 1⟩⟩ "len")
    [.string ⟨"ab", ⟨1, 5⟩⟩ "ab"])

/-- The store of its run after so many objects. -/
def lengthStore (objects : ObjectId) : Store := { Store.fresh.2 with nextId := objects }

/-- The moments of its run. -/
def lengthMoments : List Moment :=
  [⟨.stmts [lengthStmt] none 0, lengthStore 0⟩,
    ⟨.stmt lengthStmt 0, lengthStore 0⟩,
    ⟨.expr (.call ⟨"(", ⟨1, 4⟩⟩ (.identifier ⟨"len", ⟨1, 1⟩⟩ "len")
      [.string ⟨"ab", ⟨1, 5⟩⟩ "ab"]) 0, lengthStore 0⟩,
    ⟨.expr (.identifier ⟨"len", ⟨1, 1⟩⟩ "len") 0, lengthStore 0⟩,
    ⟨.all [.string ⟨"ab", ⟨1, 5⟩⟩ "ab"] 0, lengthStore 0⟩,
    ⟨.expr (.string ⟨"ab", ⟨1, 5⟩⟩ "ab") 0, lengthStore 0⟩,
    ⟨.all [] 0, lengthStore 1⟩,
    ⟨.call (.builtin .len) [.string 0 "ab"], lengthStore 1⟩,
    ⟨.stmts [] (some (.integer 1 2)) 0, lengthStore 2⟩]

open Outcome.Extends (unique) in
theorem lengthMoments_closed {role : Role} {m m' : Moment} (hm : m ∈ lengthMoments)
    (henters : Enters role m m') : m' ∈ lengthMoments := by
  have hfunction {n v s} (h : evalExpr n (.identifier ⟨"len", ⟨1, 1⟩⟩ "len") 0 (lengthStore 0) =
      .done v s) : v = .builtin .len ∧ s = lengthStore 0 :=
    unique (evalExpr_extends · _ _ _) h (k := 1) (by cbv)
  have hargument {n v s} (h : evalExpr n (.string ⟨"ab", ⟨1, 5⟩⟩ "ab") 0 (lengthStore 0) =
      .done v s) : v = .string 0 "ab" ∧ s = lengthStore 1 :=
    unique (evalExpr_extends · _ _ _) h (k := 1) (by cbv)
  have harguments {n vs s} (h : evalAll n [.string ⟨"ab", ⟨1, 5⟩⟩ "ab"] 0 (lengthStore 0) =
      .done vs s) : vs = .ok [.string 0 "ab"] ∧ s = lengthStore 1 :=
    unique (evalAll_extends · _ _ _) h (k := 2) (by cbv)
  have hstmt {n v s} (h : evalStmt n lengthStmt 0 (lengthStore 0) = .done v s) :
      v = some (.integer 1 2) ∧ s = lengthStore 2 :=
    unique (evalStmt_extends · _ _ _) h (k := 4) (by cbv)
  simp only [lengthMoments, List.mem_cons, List.not_mem_nil, or_false] at hm ⊢
  rcases hm with rfl | rfl | rfl | rfl | rfl | rfl | rfl | rfl | rfl <;> cases henters
  case head => simp
  case next hdone =>
    obtain ⟨rfl, rfl⟩ := hstmt hdone
    simp
  case expression => simp
  case function => simp
  case arguments hdone =>
    obtain ⟨rfl, rfl⟩ := hfunction hdone
    simp
  case call _ hvalues hdone =>
    obtain ⟨rfl, rfl⟩ := hfunction hdone
    obtain ⟨⟨⟩, rfl⟩ := harguments hvalues
    simp
  case first => simp
  case others hdone =>
    obtain ⟨rfl, rfl⟩ := hargument hdone
    simp

/-- The values of these moments are small. -/
theorem lengthMoments_small {m : Moment} (hm : m ∈ lengthMoments) :
    m.HoldsOnly Value.IsSmall := by
  have hstore (objects : ObjectId) : (lengthStore objects).All (Value.HoldsOnly Value.IsSmall) :=
    Store.all_empty.openScope none
  have hstring : (Value.string 0 "ab").HoldsOnly Value.IsSmall := by
    rintro w ⟨⟩
    exact (by decide : "ab".utf8ByteSize < 2 ^ 63)
  have hbuiltin : (Value.builtin .len).HoldsOnly Value.IsSmall := by
    rintro w ⟨⟩
    trivial
  have hinteger : (Value.integer 1 2).HoldsOnly Value.IsSmall := by
    rintro w ⟨⟩
    trivial
  revert m
  simp [lengthMoments, Moment.HoldsOnly, Task.values, hstore, hstring, hbuiltin, hinteger]

theorem integers_in_range_length :
    let p := (parse "len(\"ab\")").program
    (parse "len(\"ab\")").errors = [] ∧
      (∀ role m, p.Reaches role m → m.HoldsOnly Value.IsSmall) ∧
      ∀ n v s, p.runFor n = .done v s →
        s.All (Value.HoldsOnly Value.IsInRange) ∧ ∀ w ∈ v, w.HoldsOnly Value.IsInRange := by
  intro p
  have hp : p.statements = [lengthStmt] := by
    change (parse _).program.statements = _
    cbv
  have herrors : (parse "len(\"ab\")").errors = [] := by cbv
  have hmem {role m} (h : p.Reaches role m) : m ∈ lengthMoments := by
    induction h with
    | start => exact hp ▸ .head _
    | enter _ henters ih => exact lengthMoments_closed ih henters
  have hsmall : ∀ role m, p.Reaches role m → m.HoldsOnly Value.IsSmall :=
    fun _ _ h => lengthMoments_small (hmem h)
  exact ⟨herrors, hsmall, (integers_in_range herrors hsmall).2⟩

end MonkeyLang
