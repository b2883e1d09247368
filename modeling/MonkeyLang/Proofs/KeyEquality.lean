import MonkeyLang.Proofs.ObjectIdentity

/-!
# Equality of keys

A hash knows a string only by its hash of 64 bits, while the operator `==` compares the texts. So
two values that can be keys are one key exactly if they are equal, or if they are two strings whose
bytes have the same hash (`Value.hashKey?_eq_iff`). What a hash does with two keys follows from
that: whether the second is written over the first, and whether one is found under the other
(`keys_agree`). There are such strings (`keys_collide`).

Values of different types are compared by identity. That they are never equal is because no object
has two types, which is true of the values that are met in a session.
-/

namespace MonkeyLang

namespace Value

/-- The operator `==` answers true. -/
def Equals (a b : Value) : Prop :=
  a.infixOp "==" b = .boolean true

/-- Two different strings whose bytes have the same hash. -/
def Collides : Value → Value → Prop
  | string _ t, string _ u =>
    t ≠ u ∧ Fnv.hash (Utf8.encode t.toList) = Fnv.hash (Utf8.encode u.toList)
  | _, _ => False

variable {a b : Value}

theorem boolean_eq_true_iff {p : Bool} : Draft.boolean p = .boolean true ↔ p = true :=
  ⟨fun h => Value.boolean.inj (Draft.existing.inj h), fun h => by rw [h]⟩

theorem equals_integer {i j : ObjectId} {m n : Int} :
    (integer i m).Equals (integer j n) ↔ m = n :=
  boolean_eq_true_iff.trans beq_iff_eq

theorem equals_string {i j : ObjectId} {t u : String} :
    (string i t).Equals (string j u) ↔ t = u :=
  boolean_eq_true_iff.trans beq_iff_eq

/-- Values are compared by identity where not both are integers and not both are strings. -/
theorem equals_mixed (h : a.infixOp "==" b = mixedOp "==" a b) :
    a.Equals b ↔ a.identity = b.identity := by
  rw [Equals, h]
  exact boolean_eq_true_iff.trans beq_iff_eq

/-- Two values of different types are never equal if no object has two types. -/
theorem not_equals_of_type (hobject : a.identity = b.identity → a.type = b.type)
    (htype : a.type ≠ b.type) : ¬a.Equals b := by
  have hmixed : a.infixOp "==" b = mixedOp "==" a b := by
    unfold infixOp
    split <;> first | rfl | exact absurd rfl htype
  exact fun h => htype (hobject ((equals_mixed hmixed).mp h))

/-- A hash key keeps the type. -/
theorem type_of_hashKey? {k : HashKey} (h : a.hashKey? = some k) : k.type = a.type := by
  cases a <;> cases h <;> rfl

theorem Collides.type_eq (h : a.Collides b) : a.type = b.type := by
  unfold Collides at h
  split at h
  · rfl
  · exact h.elim

/-- Two values that can be keys are one key exactly if they are equal or two strings that
collide. -/
theorem hashKey?_eq_iff (ha : a.hashKey?.isSome) (hb : b.hashKey?.isSome)
    (hobject : a.identity = b.identity → a.type = b.type) :
    a.hashKey? = b.hashKey? ↔ a.Equals b ∨ a.Collides b := by
  by_cases htype : a.type = b.type
  · cases a with
    | integer i m =>
        cases b with
        | integer j n => simp [hashKey?, Collides, equals_integer]
        | _ => cases htype
    | boolean p =>
        cases b with
        | boolean q =>
            have hmixed : (boolean p).Equals (boolean q) ↔ _ := equals_mixed rfl
            simp [hashKey?, Collides, hmixed, identity]
        | _ => cases htype
    | string i t =>
        cases b with
        | string j u =>
            simp only [hashKey?, Collides, equals_string, Option.some.injEq, HashKey.string.injEq]
            by_cases htext : t = u <;> simp [htext]
        | _ => cases htype
    | _ => cases ha
  · refine ⟨fun h => ?_, fun h => ?_⟩
    · obtain ⟨k, hk⟩ := Option.isSome_iff_exists.mp ha
      exact absurd ((type_of_hashKey? hk).symm.trans (type_of_hashKey? (h.symm.trans hk))) htype
    · rcases h with hequals | hcollides
      · exact absurd hequals (not_equals_of_type hobject htype)
      · exact absurd hcollides.type_eq htype

end Value

/-- The values are equal, or they are strings that collide. -/
def Value.SharesKey (a b : Value) : Prop := a.Equals b ∨ a.Collides b

/-- Two values that are at hand are one key exactly if they are equal or collide. -/
theorem Store.Distinct.hashKey?_eq_iff {s : Store} {vs : List Value} (h : s.Distinct vs)
    {v w : Value} (hv : v ∈ vs) (hw : w ∈ vs) (hv' : v.hashKey?.isSome) (hw' : w.hashKey?.isSome) :
    v.hashKey? = w.hashKey? ↔ v.SharesKey w :=
  Value.hashKey?_eq_iff hv' hw' fun heq => congrArg Value.type (h.eq_of_mem hv hw heq)

/-! ## Entries -/

namespace Entries

variable {a b v w : Value}

/-- Writes entries one after another. -/
def insertAll : (written : List (Value × Value)) → Entries → Entries
  | [], entries => entries
  | (key, value) :: written, entries => insertAll written (insert key value entries)

theorem insert_nil : insert a v [] = [(a, v)] := rfl

/-- A second key leaves one entry exactly if it is the first one. -/
theorem length_insert_insert :
    (insert b w (insert a v [])).length = 1 ↔ a.hashKey? = b.hashKey? := by
  rw [insert_nil, insert]
  split <;> simp_all [insert]

end Entries

/-- Of a hash with one entry, a key reads that entry or null. -/
theorem Value.indexOp_insert (id : ObjectId) {a b v : Value} (hb : b.hashKey?.isSome) :
    (Value.hash id (Entries.insert a v [])).indexOp b =
      if a.hashKey? = b.hashKey? then .existing v else .null := by
  obtain ⟨k, hk⟩ := Option.isSome_iff_exists.mp hb
  rw [indexOp, hk, Entries.insert_nil]
  simp only [Entries.find?]
  split <;> rfl

/-! ## Evaluated keys -/

/-- Pairs of expressions come to keys and values, one after another. -/
inductive PairsComeTo (scope : ScopeId) : List (Expr × Expr) → Store → Entries → Store → Prop
  | nil {s : Store} : PairsComeTo scope [] s [] s
  | cons {key value : Expr} {k v : Value} {pairs : List (Expr × Expr)} {written : Entries}
    {s s₁ s₂ t : Store} : key.ComesTo scope s k s₁ → value.ComesTo scope s₁ v s₂ →
    k.hashKey?.isSome → v.isError = false → PairsComeTo scope pairs s₂ written t →
    PairsComeTo scope ((key, value) :: pairs) s ((k, v) :: written) t

theorem Value.isError_of_hashKey? {a : Value} (h : a.hashKey?.isSome) : a.isError = false := by
  cases a <;> first | rfl | cases h

section Evaluated

variable {scope : ScopeId} {s s₁ s₂ : Store} {a b v : Value} {mark : Mark} {left right : Expr}

/-- Two keys that are compared come to true exactly if they are equal. -/
theorem equality_comesTo_iff (hleft : left.ComesTo scope s a s₁)
    (hright : right.ComesTo scope s₁ b s₂) (ha : a.hashKey?.isSome) (hb : b.hashKey?.isSome) :
    (Expr.infixOp mark left "==" right).ComesTo scope s (.boolean true) s₂ ↔ a.Equals b := by
  obtain ⟨p, hp⟩ : ∃ p, a.infixOp "==" b = .boolean p := by
    unfold Value.infixOp
    split <;> exact ⟨_, rfl⟩
  have hrun : (Expr.infixOp mark left "==" right).ComesTo scope s (.boolean p) s₂ := by
    have hmade := hleft.infixOp mark "==" hright (Value.isError_of_hashKey? ha)
      (Value.isError_of_hashKey? hb)
    rwa [hp] at hmade
  rw [Value.Equals, hp, Value.boolean_eq_true_iff]
  exact ⟨fun h => Value.boolean.inj (hrun.unique h).1, fun h => h ▸ hrun⟩

/-- The pairs of a hash literal are written onto the entries one after another. -/
theorem PairsComeTo.exists_evalPairs {pairs : List (Expr × Expr)} {written : Entries}
    (h : PairsComeTo scope pairs s written s₁) (entries : Entries) :
    ∃ n, evalPairs n pairs entries scope s =
      .done (.hash s₁.nextId (Entries.insertAll written entries)) ⟨s₁.scopes, s₁.nextId + 1⟩ := by
  induction h generalizing entries with
  | nil => exact ⟨1, by rw [evalPairs]; rfl⟩
  | @cons key value k v pairs written s s₁ s₂ t hkey hvalue hk hv _ ih =>
      obtain ⟨i, hkey⟩ := hkey.eventually
      obtain ⟨j, hvalue⟩ := hvalue.eventually
      obtain ⟨l, hpairs⟩ := ih (Entries.insert k v entries)
      refine ⟨max l (i + j) + 1, ?_⟩
      rw [evalPairs, hkey _ (by omega), Outcome.unlessError_done, Value.isError_of_hashKey? hk,
        Option.isNone_eq_false_iff.mpr hk, hvalue _ (by omega), Outcome.unlessError_done, hv]
      exact Outcome.Extends.done_of_le (fun n => evalPairs_extends n pairs _ scope s₂)
        (Nat.le_max_left _ _) hpairs

theorem PairsComeTo.hash_comesTo {pairs : List (Expr × Expr)} {written : Entries}
    (h : PairsComeTo scope pairs s written s₁) (mark : Mark) :
    (Expr.hash mark pairs).ComesTo scope s (.hash s₁.nextId (Entries.insertAll written []))
      ⟨s₁.scopes, s₁.nextId + 1⟩ := by
  obtain ⟨n, hn⟩ := h.exists_evalPairs []
  exact ⟨n + 1, by rw [evalExpr, hn]⟩

theorem index_comesTo (hleft : left.ComesTo scope s a s₁) (hindex : right.ComesTo scope s₁ b s₂)
    (ha : a.isError = false) (hb : b.isError = false) (hv : a.indexOp b = .existing v) :
    (Expr.index mark left right).ComesTo scope s v s₂ := by
  obtain ⟨i, hleft⟩ := hleft.eventually
  obtain ⟨j, hindex⟩ := hindex.eventually
  refine ⟨i + j + 1, ?_⟩
  rw [evalExpr, hleft _ (Nat.le_add_right i j), Outcome.unlessError_done, ha,
    hindex _ (Nat.le_add_left j i), Outcome.unlessError_done, hb, hv]
  rfl

end Evaluated

/-- **Keys agree with equality, but for collisions.** Two expressions come to values that can be
keys, one after the other, in a store that is met in a session. The values are one key exactly if
the operator `==` finds them equal, or if they are different strings whose bytes have the same
hash. In these cases, and in no others, a hash that is written with the two keys has one entry, and
the second key reads what was written with the first. -/
theorem keys_agree {s : Store} (hs : s.Met) (scope : ScopeId) :
    (∀ mark left right a b s₁ s₂, a.hashKey?.isSome → b.hashKey?.isSome →
      Expr.ComesTo left scope s a s₁ → Expr.ComesTo right scope s₁ b s₂ →
      ((Expr.infixOp mark left "==" right).ComesTo scope s (.boolean true) s₂ ↔ a.Equals b) ∧
      (a.hashKey? = b.hashKey? ↔ a.SharesKey b)) ∧
    (∀ mark left x right y a v b w s₁ s₂ s₃ s₄, a.hashKey?.isSome → b.hashKey?.isSome →
      v.isError = false → w.isError = false →
      Expr.ComesTo left scope s a s₁ → Expr.ComesTo x scope s₁ v s₂ →
      Expr.ComesTo right scope s₂ b s₃ → Expr.ComesTo y scope s₃ w s₄ →
      ∃ id entries t,
        (Expr.hash mark [(left, x), (right, y)]).ComesTo scope s (.hash id entries) t ∧
        (entries.length = 1 ↔ a.SharesKey b)) ∧
    ∀ mark mark' left x right a v b s₁ s₂ s₃, a.hashKey?.isSome → b.hashKey?.isSome →
      v.isError = false →
      Expr.ComesTo left scope s a s₁ → Expr.ComesTo x scope s₁ v s₂ →
      Expr.ComesTo right scope ⟨s₂.scopes, s₂.nextId + 1⟩ b s₃ →
      (a.SharesKey b →
        (Expr.index mark (.hash mark' [(left, x)]) right).ComesTo scope s v s₃) ∧
      (¬a.SharesKey b →
        (Expr.index mark (.hash mark' [(left, x)]) right).ComesTo scope s .null s₃) := by
  refine ⟨?_, ?_, ?_⟩
  · intro mark left right a b s₁ s₂ ha hb hleft hright
    have hs₂ := hright.distinct (hleft.distinct hs.distinct)
    exact ⟨equality_comesTo_iff hleft hright ha hb, hs₂.hashKey?_eq_iff (by simp) (by simp) ha hb⟩
  · intro mark left x right y a v b w s₁ s₂ s₃ s₄ ha hb hv hw hleft hx hright hy
    have hs₃ := hright.distinct (hx.distinct (hleft.distinct hs.distinct))
    have hpairs := PairsComeTo.cons hleft hx ha hv (.cons hright hy hb hw .nil)
    have hkeys := hs₃.hashKey?_eq_iff (v := a) (by simp) (by simp) ha hb
    exact ⟨_, _, _, hpairs.hash_comesTo mark, Entries.length_insert_insert.trans hkeys⟩
  · intro mark mark' left x right a v b s₁ s₂ s₃ ha hb hv hleft hx hright
    have hs₂ := hx.distinct (hleft.distinct hs.distinct)
    have hmade := hs₂.make (d := .hash (Entries.insert a v []))
      (Pervasive.insert (Store.offers_of_mem (by simp)) (Store.offers_of_mem (by simp)) (by simp))
    have hkeys := (hright.distinct hmade).hashKey?_eq_iff (v := a) (by simp) (by simp) ha hb
    have hhash := (PairsComeTo.cons hleft hx ha hv .nil).hash_comesTo mark'
    have hread := Value.indexOp_insert s₂.nextId (a := a) (v := v) hb
    have hb' := Value.isError_of_hashKey? hb
    refine ⟨fun h => ?_, fun h => ?_⟩
    · rw [if_pos (hkeys.mpr h)] at hread
      exact index_comesTo hhash hright rfl hb' hread
    · rw [if_neg (mt hkeys.mp h)] at hread
      exact index_comesTo hhash hright rfl hb' hread

/-- The number one and the boolean that has its number are two keys. -/
theorem keys_agree_types :
    let m : Mark := ⟨"", .start⟩
    let s : Store := Store.fresh.2
    s.Met ∧ (Value.integer 0 1).hashKey? ≠ (Value.boolean true).hashKey? ∧
      (Expr.index m (.hash m [(.integer m 1, .boolean m false)]) (.boolean m true)).ComesTo 0 s
        .null ⟨s.scopes, 2⟩ := by
  intro m s
  have hs : s.Met := .opened .empty
  obtain ⟨hequality, -, hindex⟩ := keys_agree hs 0
  have hone : (Expr.integer m 1).ComesTo 0 s (.integer 0 1) ⟨s.scopes, 1⟩ := ⟨1, by cbv⟩
  have hfalse : (Expr.boolean m false).ComesTo 0 ⟨s.scopes, 1⟩ (.boolean false) ⟨s.scopes, 1⟩ :=
    ⟨1, by cbv⟩
  have htrue : ∀ n, (Expr.boolean m true).ComesTo 0 ⟨s.scopes, n⟩ (.boolean true) ⟨s.scopes, n⟩ :=
    fun n => ⟨1, by cbv⟩
  have hkeys := (hequality m _ _ _ _ _ _ rfl rfl hone (htrue 1)).2
  have hdiffer : (Value.integer 0 1).hashKey? ≠ (Value.boolean true).hashKey? := by
    decide
  have hread := hindex m m _ _ _ _ _ _ _ _ _ rfl rfl rfl hone hfalse (htrue 2)
  exact ⟨hs, hdiffer, hread.2 (mt hkeys.mpr hdiffer)⟩

/-- Two different strings with the same hash, which is zero: one is written over the other, and
one is found under the other. -/
theorem keys_collide :
    let a : Value := .string 0 "77kepQFQ8Kl"
    let b : Value := .string 1 "!0IC=VloaY"
    a.hashKey? = b.hashKey? ∧ ¬a.Equals b ∧
    (parse "\"77kepQFQ8Kl\" == \"!0IC=VloaY\"").program.Ends (some (.boolean false))
      ⟨#[⟨[], none⟩], 2⟩ ∧
    (parse "\x7b\"77kepQFQ8Kl\": 1, \"!0IC=VloaY\": 2\x7d").program.Ends
      (some (.hash 4 [(.string 2 "!0IC=VloaY", .integer 3 2)])) ⟨#[⟨[], none⟩], 5⟩ ∧
    (parse "\x7b\"77kepQFQ8Kl\": 1\x7d[\"!0IC=VloaY\"]").program.Ends
      (some (.integer 1 1)) ⟨#[⟨[], none⟩], 4⟩ := by
  refine ⟨by cbv, ?_, ⟨12, by cbv⟩, ⟨12, by cbv⟩, ⟨12, by cbv⟩⟩
  exact fun h => absurd (Value.equals_string.mp h) (by decide)

end MonkeyLang
