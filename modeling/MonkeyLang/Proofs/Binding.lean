import MonkeyLang.Proofs.Grammar

/-!
# Binding strength and tiers

The parser compares numbers where the grammar names tiers. `Tier.ofLevel` is
the tier of what the parser reads at a level, and `Tier.ceiling` the binding
strength up to which a token may follow an expression of a tier: a token that
binds more tightly would have been read with the last part of the expression
alone.
-/

namespace MonkeyLang

namespace Tier

/-- How many tiers are looser. -/
def rank : Tier → Nat
  | equality => 0
  | comparison => 1
  | sum => 2
  | product => 3
  | unary => 4
  | applied => 5
  | atom => 6

/-- The binding strength up to which a token may follow an expression of a
tier without carrying on a part of it only. -/
def ceiling : Tier → Nat
  | equality => 2
  | comparison => 3
  | sum => 4
  | product => 5
  | unary => 6
  | applied => 8
  | atom => 8

/-- The highest level at which the parser reads a whole expression of a tier. -/
def floor : Tier → Nat
  | equality => 1
  | comparison => 2
  | sum => 3
  | product => 4
  | unary | applied | atom => 6

/-- The tier of the expressions whose operators all bind more tightly than a
level. -/
def ofLevel : Nat → Tier
  | 0 | 1 => equality
  | 2 => comparison
  | 3 => sum
  | 4 => product
  | _ => unary

theorem rank_of_tighter? {tier tighter : Tier} (h : tier.tighter? = some tighter) :
    tighter.rank = tier.rank + 1 := by
  cases tier <;> cases h <;> rfl

theorem floor_le_of_tighter? {tier tighter : Tier} (h : tier.tighter? = some tighter) :
    tier.floor ≤ tighter.floor := by
  cases tier <;> cases h <;> decide

theorem ceiling_le_of_tighter? {tier tighter : Tier} (h : tier.tighter? = some tighter) :
    tier.ceiling ≤ tighter.ceiling := by
  cases tier <;> cases h <;> decide

theorem eq_of_rank_eq {tier tier' : Tier} (h : tier.rank = tier'.rank) : tier = tier' := by
  cases tier <;> cases tier' <;> first | rfl | cases h

theorem rank_le_of_ceiling_le {tier tier' : Tier} (hne : tier ≠ .atom)
    (h : tier.ceiling ≤ tier'.ceiling) : tier.rank ≤ tier'.rank := by
  cases tier <;> cases tier' <;> simp_all [ceiling, rank]

theorem ceiling_ofLevel_le {level strength : Nat} (h₁ : lowestLevel ≤ level)
    (h : level < strength) : (ofLevel level).ceiling ≤ strength := by
  match level, h₁ with
  | 1, _ | 2, _ | 3, _ | 4, _ | _ + 5, _ => simp only [ofLevel, ceiling]; omega

theorem ceiling_ofLevel_le_unary (level : Nat) : (ofLevel level).ceiling ≤ unary.ceiling := by
  match level with
  | 0 | 1 | 2 | 3 | 4 => decide
  | _ + 5 => exact Nat.le_refl _

theorem ofLevel_ne_atom (level : Nat) : ofLevel level ≠ .atom := by
  match level with
  | 0 | 1 | 2 | 3 | 4 => decide
  | _ + 5 => exact nofun

/-- What binds at least as tightly as a call binds to calls and indexings
only. -/
theorem applied_ceiling_le {tier : Tier} (h : TokenKind.lparen.level ≤ tier.ceiling) :
    applied.ceiling ≤ tier.ceiling := by
  cases tier <;> simp_all [ceiling, TokenKind.level]

end Tier

theorem level_le_applied (k : TokenKind) : k.level ≤ Tier.applied.ceiling := by
  cases k <;> simp [TokenKind.level, lowestLevel, Tier.ceiling]

theorem lowestLevel_le_level (k : TokenKind) : lowestLevel ≤ k.level := by
  cases k <;> simp [TokenKind.level, lowestLevel]

theorem lowestLevel_le_floor (tier : Tier) : lowestLevel ≤ tier.floor := by
  cases tier <;> decide

theorem mem_continuers_iff {k : TokenKind} : k ∈ continuers ↔ lowestLevel < k.level := by
  cases k <;> simp [continuers, TokenKind.level, lowestLevel]

theorem level_of_mem_operators {tier tighter : Tier} {k : TokenKind}
    (hk : k ∈ tier.operators) (ht : tier.tighter? = some tighter) :
    k.level = tier.ceiling ∧ tier.floor < k.level ∧ k.level ≤ tighter.floor ∧
      k ≠ .lparen ∧ k ≠ .lbracket ∧ k ≠ .kwElse := by
  cases tier <;> cases ht <;>
    simp only [Tier.operators, List.mem_cons, List.not_mem_nil, or_false] at hk <;>
    rcases hk with rfl | rfl <;> decide

theorem ne_atom_of_mem_operators {tier tighter : Tier} {k : TokenKind}
    (hk : k ∈ tier.operators) (ht : tier.tighter? = some tighter) :
    tier ≠ .atom ∧ tighter ≠ .atom := by
  refine ⟨?_, ?_⟩
  · rintro rfl
    cases ht
  · rintro rfl
    cases tier <;> cases ht
    exact absurd hk List.not_mem_nil

/-- A token that carries an expression on, but neither calls nor indexes it,
is a binary operator of the tier that its level stands for. -/
theorem exists_tier_of_level {k : TokenKind} (hk : lowestLevel < k.level)
    (hcall : k ≠ .lparen) (hindex : k ≠ .lbracket) :
    ∃ tier : Tier, k ∈ tier.operators ∧ tier.ceiling = k.level ∧
      tier.tighter? = some (Tier.ofLevel k.level) ∧ k.level ≤ prefixLevel := by
  have hmem := mem_continuers_iff.mpr hk
  simp only [continuers, List.mem_cons, List.not_mem_nil, or_false] at hmem
  rcases hmem with rfl | rfl | rfl | rfl | rfl | rfl | rfl | rfl | rfl | rfl
  · exact ⟨.sum, by decide⟩
  · exact ⟨.sum, by decide⟩
  · exact ⟨.product, by decide⟩
  · exact ⟨.product, by decide⟩
  · exact ⟨.equality, by decide⟩
  · exact ⟨.equality, by decide⟩
  · exact ⟨.comparison, by decide⟩
  · exact ⟨.comparison, by decide⟩
  · exact absurd rfl hcall
  · exact absurd rfl hindex

/-- An expression of a tier is one of every looser tier. -/
theorem Phrase.loosen {tier' : Tier} {ts : List Token} {e : Expr} (h : Phrase tier' ts e) :
    ∀ (d : Nat) {tier : Tier}, tier.rank + d = tier'.rank → Phrase tier ts e
  | 0, tier, hd => Tier.eq_of_rank_eq (by omega : tier.rank = tier'.rank) ▸ h
  | d + 1, tier, hd => by
      cases ht : tier.tighter? with
      | none =>
          cases tier <;> cases ht
          cases tier' <;> simp only [Tier.rank] at hd <;> omega
      | some tighter =>
          have hr := Tier.rank_of_tighter? ht
          exact .tighten ht (h.loosen d (by omega))

theorem Phrase.of_ceiling_le {tier tier' : Tier} {ts : List Token} {e : Expr}
    (h : Phrase tier' ts e) (hne : tier ≠ .atom) (hc : tier.ceiling ≤ tier'.ceiling) :
    Phrase tier ts e := by
  have hr := Tier.rank_le_of_ceiling_le hne hc
  exact h.loosen (tier'.rank - tier.rank) (by omega)

end MonkeyLang
