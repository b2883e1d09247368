import MonkeyLang.Proofs.KeyEquality
import MonkeyLang.Proofs.Layout
import MonkeyLang.Proofs.Snapshots

/-!
# Equality of values

The operator `==` compares two integers and two strings by their contents and all else by
identity. That is an equality of one datum, which each value has (`Value.compared`), as soon as no
object has two contents; and in the runs of programs an identity belongs to one object. So `==`
is an equivalence on the values that come up in runs (`equality_is_an_equivalence`).

An integer or a string is its content to all other operators (`Value.SameContent`): they yield
the same for one that is equal, up to the identity of the result. Integers are ordered by `<`, and
`==` agrees with the order.
-/

namespace MonkeyLang

/-! ## What is compared -/

/-- What `==` compares: the content of an integer or a string, or else the identity. -/
inductive Compared
  | integer (value : Int)
  | string (text : String)
  | other (identity : Identity)
deriving DecidableEq, Repr

namespace Value

def compared : Value → Compared
  | integer _ n => .integer n
  | string _ text => .string text
  | v => .other v.identity

variable {v w : Value}

/-- Two values are equal exactly if what is compared of them is, where an identity belongs to one
object. -/
theorem equals_iff (hone : v.identity = w.identity → v = w) :
    v.Equals w ↔ v.compared = w.compared := by
  cases v with
  | integer i m =>
      cases w with
      | integer j n => simp only [equals_integer, compared, Compared.integer.injEq]
      | _ => exact (equals_mixed rfl).trans ⟨fun h => (nomatch hone h), nofun⟩
  | string i t =>
      cases w with
      | string j u => simp only [equals_string, compared, Compared.string.injEq]
      | _ => exact (equals_mixed rfl).trans ⟨fun h => (nomatch hone h), nofun⟩
  | _ =>
      refine (equals_mixed rfl).trans ⟨fun h => congrArg compared (hone h), fun h => ?_⟩
      cases w with
      | integer _ _ | string _ _ => cases h
      | _ => exact Compared.other.inj h

/-- Equality and inequality answer for any two values, and they contradict each other. -/
theorem equality_answers (v w : Value) : ∃ answer : Bool,
    v.infixOp "==" w = .boolean answer ∧ v.infixOp "!=" w = .boolean (!answer) := by
  unfold infixOp
  split
  · exact ⟨_, rfl, rfl⟩
  · exact ⟨_, rfl, rfl⟩
  · exact ⟨_, rfl, rfl⟩

end Value

/-- **Equivalence.** Where an identity belongs to one object, equality is an equivalence. -/
theorem Store.Distinct.equivalence {s : Store} {vs : List Value} (h : s.Distinct vs) :
    Equivalence fun v w : {v // v ∈ vs} => v.1.Equals w.1 := by
  have hiff : ∀ v w : {v // v ∈ vs}, v.1.Equals w.1 ↔ v.1.compared = w.1.compared :=
    fun v w => Value.equals_iff (h.eq_of_mem v.2 w.2)
  refine ⟨fun v => ?_, fun {v w} hvw => ?_, fun {u v w} huv hvw => ?_⟩
  · exact (hiff v v).mpr rfl
  · exact (hiff w v).mpr ((hiff v w).mp hvw).symm
  · exact (hiff u w).mpr (((hiff u v).mp huv).trans ((hiff v w).mp hvw))

/-! ## The same content -/

/-- Two integers or two strings with the same content. -/
inductive Value.SameContent : Value → Value → Prop
  | integer (i j : ObjectId) (n : Int) : SameContent (.integer i n) (.integer j n)
  | string (i j : ObjectId) (text : String) : SameContent (.string i text) (.string j text)

/-- Between operands of different kinds all operators but the two equalities look at the types
only. -/
theorem Value.mixedOp_congr {operator : String} (heq : operator ≠ "==") (hne : operator ≠ "!=")
    {v v' w w' : Value} (hv : v.type = v'.type) (hw : w.type = w'.type) :
    mixedOp operator v w = mixedOp operator v' w' := by
  unfold mixedOp
  split
  · exact absurd rfl heq
  · exact absurd rfl hne
  · rw [hv, hw]

namespace Value.SameContent

variable {v w u : Value} {operator : String}

/-- An integer or a string has the content of what equals it. -/
theorem of_equals (hone : v.identity = w.identity → v = w)
    (htype : v.type = .integer ∨ v.type = .string) (h : v.Equals w) : SameContent v w := by
  have hcompared := (equals_iff hone).mp h
  cases v with
  | integer i m =>
      cases w with
      | integer j n => exact Compared.integer.inj hcompared ▸ .integer i j m
      | _ => exact nomatch hcompared
  | string i t =>
      cases w with
      | string j u => exact Compared.string.inj hcompared ▸ .string i j t
      | _ => exact nomatch hcompared
  | _ => exact nomatch htype

theorem prefixOp (h : SameContent v w) : v.prefixOp operator = w.prefixOp operator := by
  cases h <;> rfl

theorem infixOp_left (h : SameContent v w) (heq : operator ≠ "==") (hne : operator ≠ "!=") :
    v.infixOp operator u = w.infixOp operator u := by
  cases h with
  | integer i j n =>
      cases u with
      | integer _ _ => rfl
      | _ => exact mixedOp_congr heq hne rfl rfl
  | string i j text =>
      cases u with
      | string _ _ => rfl
      | _ => exact mixedOp_congr heq hne rfl rfl

theorem infixOp_right (h : SameContent v w) (heq : operator ≠ "==") (hne : operator ≠ "!=") :
    u.infixOp operator v = u.infixOp operator w := by
  cases h with
  | integer i j n =>
      cases u with
      | integer _ _ => rfl
      | _ => exact mixedOp_congr heq hne rfl rfl
  | string i j text =>
      cases u with
      | string _ _ => rfl
      | _ => exact mixedOp_congr heq hne rfl rfl

end Value.SameContent

/-- What a user sees of the value of a draft does not depend on its identity. -/
theorem Draft.shown_value (d : Draft) (i j : ObjectId) :
    (d.value i).shown = (d.value j).shown := by
  cases d <;> simp [value, Value.shown, Value.type, Value.inspect]

/-! ## Order -/

/-- An infix operator answers true. -/
def Value.Confirms (operator : String) (v w : Value) : Prop :=
  v.infixOp operator w = .boolean true

section Order

variable {i j : ObjectId} {m n : Int}

open Value

theorem confirms_less : Confirms "<" (.integer i m) (.integer j n) ↔ m < n :=
  boolean_eq_true_iff.trans decide_eq_true_iff

theorem confirms_greater : Confirms ">" (.integer i m) (.integer j n) ↔ n < m :=
  boolean_eq_true_iff.trans decide_eq_true_iff

theorem confirms_equal : Confirms "==" (.integer i m) (.integer j n) ↔ m = n := equals_integer

theorem confirms_order {operator : String} : (operator ∈ ["<", "==", ">"] ∧
    Confirms operator (.integer i m) (.integer j n)) ↔
      operator = "<" ∧ m < n ∨ operator = "==" ∧ m = n ∨ operator = ">" ∧ n < m := by
  simp only [List.mem_cons, List.not_mem_nil, or_false, or_and_right]
  refine or_congr ?_ (or_congr ?_ ?_) <;> refine and_congr_right ?_
  · rintro rfl
    exact confirms_less
  · rintro rfl
    exact confirms_equal
  · rintro rfl
    exact confirms_greater

/-- **Trichotomy.** Of two integers exactly one is less than, equal to or greater than the
other. -/
theorem existsUnique_confirms (i j : ObjectId) (m n : Int) :
    ∃! operator, operator ∈ ["<", "==", ">"] ∧
      Confirms operator (.integer i m) (.integer j n) := by
  simp only [confirms_order]
  rcases lt_trichotomy m n with hlt | rfl | hgt
  · refine ⟨"<", .inl ⟨rfl, hlt⟩, ?_⟩
    rintro operator (⟨h, -⟩ | ⟨-, heq⟩ | ⟨-, hgt⟩)
    · exact h
    · exact absurd heq hlt.ne
    · exact absurd hgt hlt.asymm
  · refine ⟨"==", .inr (.inl ⟨rfl, rfl⟩), ?_⟩
    rintro operator (⟨-, hlt⟩ | ⟨h, -⟩ | ⟨-, hgt⟩)
    · exact absurd hlt (lt_irrefl m)
    · exact h
    · exact absurd hgt (lt_irrefl m)
  · refine ⟨">", .inr (.inr ⟨rfl, hgt⟩), ?_⟩
    rintro operator (⟨-, hlt⟩ | ⟨-, heq⟩ | ⟨h, -⟩)
    · exact absurd hlt hgt.asymm
    · exact absurd heq hgt.ne'
    · exact h

end Order

/-! ## Runs -/

/-- **Equality is an equivalence.** On the values that come up in runs, `==` and `!=` answer and
contradict each other, and `==` is an equivalence. An integer or a string may be replaced by one
that it equals: every other operator then yields what a user sees no difference in. Of two integers
exactly one is less than, equal to or greater than the other, and `<` is transitive. -/
theorem equality_is_an_equivalence {c : Snapshot} (hc : c.Reachable) :
    (∀ v ∈ c.values, ∀ w ∈ c.values, ∃ answer : Bool,
      v.infixOp "==" w = .boolean answer ∧ v.infixOp "!=" w = .boolean (!answer)) ∧
    Equivalence (fun v w : {v // v ∈ c.values} => v.1.Equals w.1) ∧
    (∀ v ∈ c.values, ∀ w ∈ c.values, v.type = .integer ∨ v.type = .string → v.Equals w →
      ∀ (operator : String) (s t : Store),
        (s.make (v.prefixOp operator)).1.shown = (t.make (w.prefixOp operator)).1.shown ∧
        (operator ≠ "==" → operator ≠ "!=" → ∀ u : Value,
          (s.make (v.infixOp operator u)).1.shown = (t.make (w.infixOp operator u)).1.shown ∧
          (s.make (u.infixOp operator v)).1.shown = (t.make (u.infixOp operator w)).1.shown)) ∧
    (∀ i j m n, ∃! operator, operator ∈ ["<", "==", ">"] ∧
      Value.Confirms operator (.integer i m) (.integer j n)) ∧
    ∀ i j k l m n, Value.Confirms "<" (.integer i l) (.integer j m) →
      Value.Confirms "<" (.integer j m) (.integer k n) →
      Value.Confirms "<" (.integer i l) (.integer k n) := by
  have hdistinct := hc.sound.distinct
  refine ⟨fun v _ w _ => v.equality_answers w, hdistinct.equivalence,
    fun v hv w hw htype hequals operator s t => ?_, existsUnique_confirms,
    fun i j k l m n hlm hmn => ?_⟩
  · have hsame : v.SameContent w := .of_equals (hdistinct.eq_of_mem hv hw) htype hequals
    refine ⟨?_, fun heq hne u => ⟨?_, ?_⟩⟩
    · rw [hsame.prefixOp]
      exact Draft.shown_value _ _ _
    · rw [hsame.infixOp_left heq hne]
      exact Draft.shown_value _ _ _
    · rw [hsame.infixOp_right heq hne]
      exact Draft.shown_value _ _ _
  · exact confirms_less.mpr ((confirms_less.mp hlm).trans (confirms_less.mp hmn))

/-- Two integers with one content, and a returned value that has become an element. -/
theorem equality_is_an_equivalence_returned :
    let source := "[5, 5, if (true) \x7b return 5 \x7d]"
    let elements : List Value := [.integer 0 5, .integer 1 5, .returned 3 (.integer 2 5)]
    let c : Snapshot := ⟨⟨#[⟨[], none⟩], 5⟩, elements ++ [.array 4 elements]⟩
    Moment.run 12 ⟨.stmts (parse source).program.statements none 0, Store.fresh.2⟩ =
        .done [.array 4 elements] c.store ∧
      c.Reachable ∧ Equivalence (fun v w : {v // v ∈ c.values} => v.1.Equals w.1) ∧
      (Value.integer 0 5).Equals (.integer 1 5) ∧
      ∀ u : Value, (c.store.make ((Value.integer 0 5).infixOp "+" u)).1.shown =
        (c.store.make ((Value.integer 1 5).infixOp "+" u)).1.shown := by
  intro source elements c
  have hrun : Moment.run 12 ⟨.stmts (parse source).program.statements none 0, Store.fresh.2⟩ =
      .done [.array 4 elements] c.store := by
    change Moment.run 12 ⟨.stmts (parse "[5, 5, if (true) \x7b return 5 \x7d]"
      ).program.statements none 0, Store.fresh.2⟩ = _
    cbv
  have hin : Task.IsIn Store.fresh.2 (.stmts (parse source).program.statements none 0) :=
    Nat.zero_lt_succ 0
  have hended : Snapshot.Reachable ⟨c.store, [.array 4 elements]⟩ :=
    .tail (.tail .refl .opened) (.ended hin (List.forall_mem_nil _) hrun)
  have helement : ∀ {vs : List Value} {v : Value}, .array 4 elements ∈ vs → v ∈ elements →
      c.store.Holds vs v := fun harray hv => .inl ⟨_, harray, .element hv .self⟩
  have hc : c.Reachable :=
    .tail (.tail (.tail hended (.held (helement (by simp) (by simp [elements]))))
      (.held (helement (by simp) (by simp [elements]))))
      (.held (helement (by simp) (by simp [elements])))
  obtain ⟨-, hequivalence, hcontent, -, -⟩ := equality_is_an_equivalence hc
  have hequals : (Value.integer 0 5).Equals (.integer 1 5) := by rfl
  have hsame := hcontent (.integer 0 5) (by simp [c, elements]) (.integer 1 5)
    (by simp [c, elements]) (.inl rfl) hequals
  exact ⟨hrun, hc, hequivalence, hequals,
    fun u => ((hsame "+" c.store c.store).2 (by decide) (by decide) u).1⟩

end MonkeyLang
