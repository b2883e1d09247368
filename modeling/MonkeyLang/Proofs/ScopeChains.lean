import MonkeyLang.Proofs.Snapshots

/-!
# Scope chains

A name is looked up in a scope, in the scope that this one lies in, and so on outward. In a closed
store each scope lies inside an earlier one, so the way outward is one finite list of scopes
(`Store.Chain`), and a name gets the value of the nearest scope on it that binds the name
(`Store.Chain.find?_eq`): the number of scopes that a look-up may pass never cuts it short.

All stores that runs lead to are closed, and on the way to them no scope is moved. So this is what a
look-up does in every run, and what a scope binds a name to is what was last written there
(`scope_chains_are_well_founded`).
-/

namespace MonkeyLang

namespace Store

/-! ## The way outward -/

/-- The scopes that a name is looked up in from a scope on, up to one that lies in no other. -/
inductive Chain (s : Store) : ScopeId → List ScopeId → Prop
  | root {i : ScopeId} : s.link i = some none → s.Chain i [i]
  | inside {i outer : ScopeId} {chain : List ScopeId} : s.link i = some (some outer) →
    s.Chain outer chain → s.Chain i (i :: chain)

variable {s : Store} {i outer : ScopeId} {chain chain' : List ScopeId}

theorem link_eq_some {link : Option ScopeId} :
    s.link i = some link ↔ ∃ sc, s.scopes[i]? = some sc ∧ sc.outer = link :=
  Option.map_eq_some_iff

theorem Closed.lt_of_link (hs : s.Closed) (h : s.link i = some (some outer)) : outer < i := by
  obtain ⟨sc, hsc, houter⟩ := link_eq_some.mp h
  exact hs.outer_lt i sc hsc outer houter

/-- There is one way outward only. -/
theorem Chain.unique (h : s.Chain i chain) (h' : s.Chain i chain') : chain = chain' := by
  induction h generalizing chain' with
  | root hi =>
      cases h' with
      | root _ => rfl
      | inside hi' _ => exact nomatch hi.symm.trans hi'
  | inside hi _ ih =>
      cases h' with
      | root hi' => exact nomatch hi.symm.trans hi'
      | inside hi' h' =>
          obtain rfl := Option.some.inj (Option.some.inj (hi.symm.trans hi'))
          rw [ih h']

/-- In a closed store the way outward from a scope comes to an end. -/
theorem Closed.exists_chain (hs : s.Closed) (hi : i < s.scopes.size) :
    ∃ chain, s.Chain i chain := by
  induction i using Nat.strong_induction_on with
  | _ i ih =>
      cases houter : s.scopes[i].outer with
      | none => exact ⟨[i], .root (link_eq_some.mpr ⟨_, Array.getElem?_eq_getElem hi, houter⟩)⟩
      | some outer =>
          have hlink := link_eq_some.mpr ⟨_, Array.getElem?_eq_getElem hi, houter⟩
          have hlt := hs.lt_of_link hlink
          obtain ⟨chain, hchain⟩ := ih outer hlt (Nat.lt_trans hlt hi)
          exact ⟨i :: chain, .inside hlink hchain⟩

/-- The way outward leads to earlier scopes all the time. -/
theorem Chain.pairwise (hs : s.Closed) (h : s.Chain i chain) :
    (∀ j ∈ chain, j ≤ i) ∧ chain.Pairwise (· > ·) := by
  induction h with
  | root _ => exact ⟨by simp, List.pairwise_singleton _ _⟩
  | inside hi _ ih =>
      have hlt := hs.lt_of_link hi
      have hall : ∀ j ∈ _, j < _ := fun j hj => Nat.lt_of_le_of_lt (ih.1 j hj) hlt
      refine ⟨List.forall_mem_cons.mpr ⟨Nat.le_refl _, fun j hj => Nat.le_of_lt (hall j hj)⟩, ?_⟩
      exact List.pairwise_cons.mpr ⟨hall, ih.2⟩

/-! ## Looking up -/

theorem Chain.findWithin_eq (hs : s.Closed) (name : String) (h : s.Chain i chain) {n : Nat}
    (hn : i < n) : s.findWithin n i name = chain.findSome? (s.ownAt · name) := by
  induction h generalizing n with
  | @root i hi =>
      obtain ⟨n, rfl⟩ := Nat.exists_eq_succ_of_ne_zero (Nat.ne_of_gt (Nat.zero_lt_of_lt hn))
      obtain ⟨sc, hsc, houter⟩ := link_eq_some.mp hi
      rw [findWithin, List.findSome?_singleton, ownAt, hsc, Option.bind_some]
      cases hown : sc.own? name <;> simp only [hown, houter]
  | @inside i outer chain hi _ ih =>
      obtain ⟨n, rfl⟩ := Nat.exists_eq_succ_of_ne_zero (Nat.ne_of_gt (Nat.zero_lt_of_lt hn))
      obtain ⟨sc, hsc, houter⟩ := link_eq_some.mp hi
      have hlt := hs.lt_of_link hi
      rw [findWithin, List.findSome?_cons, ownAt, hsc, Option.bind_some]
      cases hown : sc.own? name with
      | some v => simp only [hown]
      | none =>
          simp only [hown, houter]
          exact ih (Nat.lt_of_lt_of_le hlt (Nat.le_of_lt_succ hn))

/-- **Nearest scope.** In a closed store a name has the value that the nearest scope binds it
to. -/
theorem Chain.find?_eq (hs : s.Closed) (h : s.Chain i chain) (name : String) :
    s.find? i name = chain.findSome? (s.ownAt · name) :=
  h.findWithin_eq hs name (Nat.lt_succ_self i)

/-- What a scope binds itself is found there, whatever is outward of it. -/
theorem find?_of_ownAt {name : String} {v : Value} (h : s.ownAt i name = some v) :
    s.find? i name = some v := by
  obtain ⟨sc, hsc, hown⟩ := Option.bind_eq_some_iff.mp h
  rw [find?, findWithin, hsc]
  simp only [hown]

/-- In a scope that lies in no other, a name has the value that it binds the name to. -/
theorem Closed.find?_root (hs : s.Closed) (hi : s.link i = some none) (name : String) :
    s.find? i name = s.ownAt i name := by
  rw [(Chain.root hi).find?_eq hs, List.findSome?_singleton]

/-- A scope hides what is outward of it. -/
theorem Closed.find?_inside (hs : s.Closed) (hi : s.link i = some (some outer)) (name : String) :
    s.find? i name = (s.ownAt i name).or (s.find? outer name) := by
  obtain ⟨sc, hsc, -⟩ := link_eq_some.mp hi
  have hsize : i < s.scopes.size := (Array.getElem?_eq_some_iff.mp hsc).1
  obtain ⟨chain, hchain⟩ := hs.exists_chain (Nat.lt_trans (hs.lt_of_link hi) hsize)
  rw [(Chain.inside hi hchain).find?_eq hs, hchain.find?_eq hs, List.findSome?_cons]
  cases s.ownAt i name <;> rfl

end Store

/-! ## Runs -/

/-- **Scope chains stay well founded.** In every state that runs lead to, each scope lies in none
or in one that was opened before it, and all functions, in whatever values they are held, know a
scope that exists. Whatever is run next, no scope is moved. The way outward from a scope is one
finite list of earlier and earlier scopes, and a look-up has the value of the nearest one that
binds the name.

There is a history of writes that has led to the state. Whichever this is, a scope binds a name to
what was last written to it in this scope, and this is what is found there. -/
theorem scope_chains_are_well_founded {c : Snapshot} (hc : c.Reachable) :
    (∀ i outer, c.store.link i = some (some outer) → outer < i) ∧
    (∀ id parameters body scope,
      c.store.Holds c.values (.function id parameters body scope) →
      scope < c.store.scopes.size) ∧
    (∀ d, c.Reaches d → ∀ i < c.store.scopes.size, d.store.link i = c.store.link i) ∧
    (∀ i < c.store.scopes.size, ∃! chain, c.store.Chain i chain ∧ chain.Pairwise (· > ·) ∧
      ∀ name, c.store.find? i name = chain.findSome? (c.store.ownAt · name)) ∧
    (∃ writes, Store.History .empty writes c.store) ∧
    ∀ writes, Store.History .empty writes c.store → ∀ i name,
      c.store.ownAt i name = lastWritten writes i name ∧
      ∀ v, lastWritten writes i name = some v → c.store.find? i name = some v := by
  obtain ⟨hclosed, hfits, -⟩ := hc.sound
  refine ⟨fun _ _ => hclosed.lt_of_link, fun id parameters body scope hheld => ?_,
    fun d hd i hi => ?_, fun i hi => ?_, hc.history, fun writes hwrites i name => ?_⟩
  · exact (hclosed.fits_of_holds hfits hheld).self.2
  · obtain ⟨writes, hwrites⟩ := hd.history
    exact hwrites.link_eq hi
  · obtain ⟨chain, hchain⟩ := hclosed.exists_chain hi
    refine ⟨chain, ⟨hchain, (hchain.pairwise hclosed).2, hchain.find?_eq hclosed⟩, ?_⟩
    exact fun _ h => h.1.unique hchain
  · have hown : c.store.ownAt i name = lastWritten writes i name := by
      rw [hwrites.ownAt_eq]
      exact Option.or_none
    exact ⟨hown, fun v hv => Store.find?_of_ownAt (hown.trans hv)⟩

/-- A call binds a name that the scope around it binds as well. -/
theorem scope_chains_are_well_founded_shadowed :
    let source := "let x = false; fn(y) \x7b let x = y; x \x7d(true)"
    let c : Snapshot :=
      ⟨⟨#[⟨[("x", .boolean false)], none⟩,
        ⟨[("y", .boolean true), ("x", .boolean true)], some 0⟩], 1⟩, [.boolean true]⟩
    let writes : List Write :=
      [⟨0, "x", .boolean false⟩, ⟨1, "y", .boolean true⟩, ⟨1, "x", .boolean true⟩]
    Moment.run 12 ⟨.stmts (parse source).program.statements none 0, Store.fresh.2⟩ =
        .done c.values c.store ∧
      c.Reachable ∧ Store.History .empty writes c.store ∧
      (∀ outer, c.store.link 1 = some (some outer) → outer < 1) ∧
      c.store.find? 1 "x" = some (.boolean true) ∧
      c.store.find? 0 "x" = some (.boolean false) := by
  intro source c writes
  have hrun : Moment.run 12 ⟨.stmts (parse source).program.statements none 0, Store.fresh.2⟩ =
      .done c.values c.store := by
    change Moment.run 12 ⟨.stmts (parse "let x = false; fn(y) \x7b let x = y; x \x7d(true)"
      ).program.statements none 0, Store.fresh.2⟩ = _
    cbv
  have hin : Task.IsIn Store.fresh.2 (.stmts (parse source).program.statements none 0) :=
    Nat.zero_lt_succ 0
  have hc : c.Reachable :=
    .tail (.tail .refl .opened) (.ended hin (List.forall_mem_nil _) hrun)
  have hwrites : Store.History .empty writes c.store :=
    ((((((Store.History.start.openScope none).bind "x" (.boolean false) (by decide)).make
      (.integer 0)).openScope (some 0)).bind "y" (.boolean true) (by decide)).bind "x"
        (.boolean true) (by decide))
  obtain ⟨houter, -, -, -, -, hlast⟩ := scope_chains_are_well_founded hc
  exact ⟨hrun, hc, hwrites, houter 1, (hlast writes hwrites 1 "x").2 _ rfl,
    (hlast writes hwrites 0 "x").2 _ rfl⟩

end MonkeyLang
