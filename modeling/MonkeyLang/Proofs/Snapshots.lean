import MonkeyLang.Proofs.ObjectIdentity
import MonkeyLang.Proofs.StoreHistory

/-!
# Values that come up in runs

A snapshot is a store together with the values that have come up on the way to it, and that are
still at hand: operands, arguments, elements, results. `Snapshot.Step` says how there come to be
more of them. A scope may be opened for a program, a value may be taken from a scope or out of
another value, and a task may be taken up, of which either another task comes, on which the first
one depends, or an end with some values. All values that a run, or one run after another, ever
computes with are thus values of one snapshot.

What holds of all snapshots that are reached from the empty store (`Snapshot.Reachable`) holds
because each step keeps it: all values have been made before, the scopes lie one inside another in
the order in which they were opened, and an identity belongs to one object (`Snapshot.Sound`).
-/

namespace MonkeyLang

/-! ## Held values -/

theorem Value.Holds.trans {u v w : Value} (h : u.Holds v) (h' : v.Holds w) : u.Holds w := by
  induction h with
  | self => exact h'
  | element hv _ ih => exact .element hv (ih h')
  | key he _ ih => exact .key he (ih h')
  | entry he _ ih => exact .entry he (ih h')
  | operand _ ih => exact .operand (ih h')

theorem Store.Holds.trans {s : Store} {vs : List Value} {v w : Value} (h : s.Holds vs v)
    (h' : v.Holds w) : s.Holds vs w := by
  rcases h with ⟨u, hu, hv⟩ | ⟨sc, hsc, b, hb, hv⟩
  · exact .inl ⟨u, hu, hv.trans h'⟩
  · exact .inr ⟨sc, hsc, b, hb, hv.trans h'⟩

theorem Store.Closed.fits_of_holds {s : Store} (hs : s.Closed) {vs : List Value} {v : Value}
    (hvs : ∀ v ∈ vs, v.Fits s) (h : s.Holds vs v) : v.Fits s := by
  rcases h with ⟨u, hu, hv⟩ | ⟨sc, hsc, b, hb, hv⟩
  · exact fun w hw => hvs u hu w (hv.trans hw)
  · exact fun w hw => hs.fits sc hsc b hb w (hv.trans hw)

/-! ## What comes of a task -/

theorem Outcome.Copies.comes {α : Type} {act : Relabeling → α → α} {g : Gap} {s t : Store}
    {o o' : Outcome α} (h : o.Copies act g s o') {list : α → List Value}
    (hlist : ∀ {a t}, Store.Covers act t a → ∀ v ∈ list a, v.Fits t) {ws : List Value}
    (hrun : (o.andThen fun a s => .done (list a) s) = .done ws t) :
    t.Closed ∧ ∀ w ∈ ws, w.Fits t := by
  obtain ⟨a, t, ho, hdone⟩ := andThen_eq_done hrun
  obtain ⟨rfl, rfl⟩ := done.inj hdone
  obtain ⟨ha, -, ht⟩ := h.of_eq ho
  exact ⟨ht, hlist ha⟩

theorem Store.Covers.fits_singleton {t : Store} {v : Value} (h : t.Covers Value.relabel v) :
    ∀ w ∈ [v], w.Fits t := List.forall_mem_singleton.mpr (Value.fits_iff.mpr h)

theorem Store.Covers.fits_valuesOrError {t : Store} {vs : Except Value (List Value)}
    (h : t.Covers relabelResult vs) : ∀ w ∈ valuesOrError vs, w.Fits t := by
  cases vs with
  | ok vs => exact Store.covers_all_iff.mp fun g hg => Except.ok.inj (h g hg)
  | error e => exact fits_singleton fun g hg => Except.error.inj (h g hg)

theorem Store.Covers.fits_last {t : Store} {last : Option Value} (h : t.Covers relabelLast last) :
    ∀ w ∈ last.toList, w.Fits t := Store.covers_last_iff.mp h

section Comes

variable {m : Moment} {n : Nat} {t : Store} {vs ws : List Value}

open Store.Covers (fits_singleton fits_valuesOrError fits_last) in
/-- What comes of a closed moment fits the store after it, which is closed. -/
theorem Moment.Closed.comes (hm : m.Closed) (h : m.run n = .done ws t) :
    t.Closed ∧ ∀ w ∈ ws, w.Fits t := by
  obtain ⟨task, s⟩ := m
  obtain ⟨hs, hscope, hvalues⟩ := hm
  cases task with
  | expr e scope => exact (evalExpr_copies n e (.refl hs) hscope).comes fits_singleton h
  | all es scope => exact (evalAll_copies n es (.refl hs) hscope).comes fits_valuesOrError h
  | pairs pairs entries scope =>
      have hentries : s.Covers relabelEntries entries := fun g hg =>
        relabelEntries_eq_self_iff.mpr fun e he =>
          ⟨Value.fits_iff.mp (forall_mem_entries hvalues e he).1 g hg,
            Value.fits_iff.mp (forall_mem_entries hvalues e he).2 g hg⟩
      exact (evalPairs_copies n pairs (.refl hs) hscope hentries).comes fits_singleton h
  | loop condition body scope =>
      exact (evalLoop_copies n condition body (.refl hs) hscope).comes fits_singleton h
  | block b scope => exact (evalBlock_copies n b (.refl hs) hscope).comes fits_singleton h
  | stmts stmts last scope =>
      have hlast := Store.covers_last_iff.mpr hvalues
      exact (evalStmts_copies n stmts (.refl hs) hscope hlast).comes fits_last h
  | stmt stmt scope => exact (evalStmt_copies n stmt (.refl hs) hscope).comes fits_last h
  | call f arguments =>
      obtain ⟨hf, harguments⟩ := List.forall_mem_cons.mp hvalues
      have hcall := apply_copies n (.refl hs) (Value.fits_iff.mp hf)
        (Store.covers_all_iff.mpr harguments)
      exact hcall.comes fits_singleton h

open Outcome.Distinct (answer) in
/-- What comes of a task can be told apart from the values at hand. -/
theorem Moment.run_distinct (n : Nat) (hs : m.store.Distinct vs)
    (hvalues : ∀ v ∈ m.task.values, v ∈ vs) : (m.run n).Distinct id vs := by
  obtain ⟨task, s⟩ := m
  cases task with
  | expr e scope =>
      exact (evalExpr_distinct n e scope hs).andThen fun _ _ h =>
        answer h (List.subset_append_left _ _)
  | all es scope =>
      exact (evalAll_distinct n es scope hs).andThen fun _ _ h =>
        answer h (List.subset_append_left _ _)
  | pairs pairs entries scope =>
      exact (evalPairs_distinct n pairs scope hs (forall_mem_entries hvalues)).andThen
        fun _ _ h => answer h (List.subset_append_left _ _)
  | loop condition body scope =>
      exact (evalLoop_distinct n condition body scope hs).andThen fun _ _ h =>
        answer h (List.subset_append_left _ _)
  | block b scope =>
      exact (evalBlock_distinct n b scope hs).andThen fun _ _ h =>
        answer h (List.subset_append_left _ _)
  | stmts stmts last scope =>
      have hlast : ∀ v ∈ last, v ∈ vs := fun v hv => hvalues v (Option.mem_toList.mpr hv)
      exact (evalStmts_distinct n stmts last scope hs hlast).andThen fun _ _ h =>
        answer h (List.subset_append_left _ _)
  | stmt stmt scope =>
      exact (evalStmt_distinct n stmt scope hs).andThen fun _ _ h =>
        answer h (List.subset_append_left _ _)
  | call f arguments =>
      obtain ⟨hf, harguments⟩ := List.forall_mem_cons.mp hvalues
      exact (apply_distinct n f arguments hs hf harguments).andThen fun _ _ h =>
        answer h (List.subset_append_left _ _)

end Comes

/-! ## Snapshots -/

/-- A store, and values that have come up on the way to it. -/
structure Snapshot where
  store : Store
  values : List Value

namespace Snapshot

/-- What a run may do next with a store and the values at hand. The code of a task is any code. -/
inductive Step : Snapshot → Snapshot → Prop
  /-- A scope is opened for a program. -/
  | opened {s : Store} {vs : List Value} : Step ⟨s, vs⟩ ⟨(s.openScope none).2, vs⟩
  /-- A value is taken from a scope, or out of a value at hand. -/
  | held {s : Store} {vs : List Value} {v : Value} : s.Holds vs v → Step ⟨s, vs⟩ ⟨s, v :: vs⟩
  /-- A task is taken up in a scope, with values at hand, and enters another task. -/
  | entered {s : Store} {vs : List Value} {task : Task} {role : Role} {m : Moment} :
    task.IsIn s → (∀ v ∈ task.values, v ∈ vs) → Enters role ⟨task, s⟩ m →
    Step ⟨s, vs⟩ ⟨m.store, m.task.values ++ vs⟩
  /-- A task is taken up in a scope, with values at hand, and comes to an end. -/
  | ended {s t : Store} {vs ws : List Value} {task : Task} {n : Nat} :
    task.IsIn s → (∀ v ∈ task.values, v ∈ vs) → Moment.run n ⟨task, s⟩ = .done ws t →
    Step ⟨s, vs⟩ ⟨t, ws ++ vs⟩

/-- One snapshot comes before another, or it is the same. -/
def Reaches : Snapshot → Snapshot → Prop := Relation.ReflTransGen Step

/-- A snapshot of runs that start with no scope at all. -/
def Reachable (c : Snapshot) : Prop := Reaches ⟨.empty, []⟩ c

/-- Scopes lie inside earlier ones, all values have been made before, and an identity belongs to
one object. -/
structure Sound (c : Snapshot) : Prop where
  closed : c.store.Closed
  fits : ∀ v ∈ c.values, v.Fits c.store
  distinct : c.store.Distinct c.values

variable {c d : Snapshot}

/-- **Step.** A step does nothing to the store but make objects, open scopes and bind names. -/
theorem Step.history (h : c.Step d) : ∃ writes, c.store.History writes d.store := by
  cases h with
  | opened => exact ⟨[], .openScope none .start⟩
  | held _ => exact ⟨[], .start⟩
  | entered hin _ henters => exact (henters.history hin).1
  | ended hin _ hrun => exact Moment.run_historic _ hin _ _ hrun

/-- **Step.** A step leads from a sound snapshot to a sound one. -/
theorem Step.sound (h : c.Step d) (hc : c.Sound) : d.Sound := by
  obtain ⟨writes, hhistory⟩ := h.history
  obtain ⟨hclosed, hfits, hdistinct⟩ := hc
  have hkept : ∀ v ∈ c.values, v.Fits d.store := fun v hv => hhistory.grows.fits (hfits v hv)
  cases h with
  | opened =>
      exact ⟨hclosed.openScope nofun, hkept, hdistinct.enter none 0 [] (List.forall_mem_nil _)⟩
  | held hv =>
      refine ⟨hclosed, List.forall_mem_cons.mpr ⟨hclosed.fits_of_holds hfits hv, hfits⟩, ?_⟩
      refine hdistinct.offered (List.forall_mem_cons.mpr ⟨?_, fun _ => Store.offers_of_mem⟩)
      exact fun w hw _ => hv.trans hw
  | entered hin hvalues henters =>
      have hm := henters.closed ⟨hclosed, hin, fun v hv => hfits v (hvalues v hv)⟩
      refine ⟨hm.store, List.forall_mem_append.mpr ⟨hm.values, hkept⟩, henters.distinct ?_⟩
      exact hdistinct.subset (List.append_subset.mpr ⟨hvalues, List.Subset.refl _⟩)
  | ended hin hvalues hrun =>
      have hm : Moment.Closed ⟨_, _⟩ := ⟨hclosed, hin, fun v hv => hfits v (hvalues v hv)⟩
      obtain ⟨ht, hws⟩ := hm.comes hrun
      refine ⟨ht, List.forall_mem_append.mpr ⟨hws, hkept⟩, ?_⟩
      exact (Moment.run_distinct _ hdistinct hvalues).of_eq hrun

/-- **Run.** All that lies between two snapshots is one history. -/
theorem Reaches.history (h : c.Reaches d) : ∃ writes, c.store.History writes d.store := by
  induction h with
  | refl => exact ⟨[], .start⟩
  | tail _ hstep ih =>
      obtain ⟨writes, hbefore⟩ := ih
      obtain ⟨more, hafter⟩ := hstep.history
      exact ⟨writes ++ more, hbefore.trans hafter⟩

/-- **Run.** All snapshots of runs are sound. -/
theorem Reachable.sound (h : c.Reachable) : c.Sound := by
  induction h with
  | refl => exact ⟨Store.closed_empty, List.forall_mem_nil _, Store.distinct_empty⟩
  | tail _ hstep ih => exact hstep.sound ih

end Snapshot

end MonkeyLang
