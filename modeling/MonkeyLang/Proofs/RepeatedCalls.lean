import MonkeyLang.Proofs.ClosedMoments
import MonkeyLang.Proofs.Layout

/-!
# Repeated calls

A call does the same whenever it is made. What it writes goes into a scope of its own, so a
second call with the same arguments finds all that the first one could read as it was; the
scopes and objects that the first one has made in the meantime are a gap in the numbers that
the second one hands out (`Store.Copies.of_untouched`). No operation of the language looks
at these numbers, except to tell objects apart. So of a call that ends the second result is
the first one with higher numbers, and a user cannot tell the two by their texts.
-/

namespace MonkeyLang

namespace Store

/-- A call never comes to an end. -/
def CallDiverges (s : Store) (f : Value) (arguments : List Value) : Prop :=
  ∀ n, (apply n f arguments s).RunsOut

/-- A call ends with a value and leaves a store. -/
def CallEnds (s : Store) (f : Value) (arguments : List Value) (v : Value) (t : Store) : Prop :=
  ∃ n, apply n f arguments s = .done v t

/-- The value can be met in a store: all objects and scopes in it have been made there, and it
has a text. -/
def Admits (s : Store) (v : Value) : Prop := v.Fits s ∧ v.Known

/-- A call on values of the store never ends, or it ends, and so does the same call made
once more after it, with a result of the same type and text. The second result is the first
one, but for the numbers of what the call has made. -/
def Repeats (s : Store) : Prop :=
  ∀ f arguments, s.Admits f → (∀ v ∈ arguments, s.Admits v) →
    s.CallDiverges f arguments ∨
      ∃ v w s₁ s₂, s.CallEnds f arguments v s₁ ∧ s₁.CallEnds f arguments w s₂ ∧
        w.shown = v.shown ∧ w = v.relabel (s.gapTo s₁)

end Store

theorem Gap.keepsText (g : Gap) : g.relabeling.KeepsText := ⟨fun _ => rfl, fun _ => rfl⟩

section Call

variable {s s₁ : Store} {f v : Value} {arguments : List Value} {n : Nat}

/-- A call that is made later, with nothing of the store touched in between, comes to the same in
as many steps. -/
theorem Store.Closed.apply_later {t : Store} (hs : s.Closed) (hf : f.Fits s)
    (harguments : ∀ v ∈ arguments, v.Fits s) (hgrows : s.Grows t) (huntouched : s.Untouched t)
    (h : apply n f arguments s = .done v s₁) :
    ∃ u, apply n f arguments t = .done (v.relabel (s.gapTo t)) u := by
  have hfixed := Value.fits_iff.mp hf _ (s.after_gapTo t)
  have hfixed' := Store.covers_all_iff.mpr harguments _ (s.after_gapTo t)
  have hsame := apply_copies n (.of_untouched hs hgrows huntouched) (Value.fits_iff.mp hf)
    (Store.covers_all_iff.mpr harguments)
  rw [hfixed, hfixed', h] at hsame
  generalize apply n f arguments t = o at hsame
  cases hsame with
  | done _ _ _ => exact ⟨_, rfl⟩

/-- What is called a second time comes to the same in as many steps, in a copy of the store. -/
theorem Store.Closed.apply_again (hs : s.Closed) (hf : f.Fits s)
    (harguments : ∀ v ∈ arguments, v.Fits s) (h : apply n f arguments s = .done v s₁) :
    ∃ s₂, apply n f arguments s₁ = .done (v.relabel (s.gapTo s₁)) s₂ := by
  obtain ⟨-, hgrows, -⟩ := (apply_copies n (.refl hs) (Value.fits_iff.mp hf)
    (Store.covers_all_iff.mpr harguments)).of_eq h
  exact hs.apply_later hf harguments hgrows (apply_untouched n f arguments s v s₁ h) h

theorem Store.Closed.repeats (hs : s.Closed) (hknown : s.All Value.Known) : s.Repeats := by
  intro f arguments hf harguments
  by_cases hdiverges : s.CallDiverges f arguments
  · exact .inl hdiverges
  · obtain ⟨n, hn⟩ := not_forall.mp hdiverges
    have hknows := apply_known n f arguments s hf.2 (fun v hv => (harguments v hv).2) hknown
    cases hv : apply n f arguments s with
    | done v s₁ =>
        obtain ⟨s₂, hw⟩ := hs.apply_again hf.1 (fun v hv => (harguments v hv).1) hv
        refine .inr ⟨v, _, s₁, s₂, ⟨n, hv⟩, ⟨n, hw⟩, ?_, rfl⟩
        exact v.shown_relabel (s.gapTo s₁).keepsText
    | fault e =>
        rw [hv] at hknows
        exact hknows.elim
    | @exhausted t => exact absurd ⟨t, hv⟩ hn

end Call

/-! ## The stores of a run -/

theorem Store.All.admits {s : Store} (hs : s.Closed) (hknown : s.All Value.Known) :
    s.All s.Admits := fun sc hsc b hb => ⟨hs.fits sc hsc b hb, hknown sc hsc b hb⟩

/-- A program that is run on its own is a statement. -/
theorem Program.Ends.exists_evalStmt {p : Program} {v : Option Value} {s : Store}
    (h : p.Ends v s) :
    ∃ n, evalStmt n (.block (.program p.statements)) Store.fresh.1 Store.fresh.2 = .done v s := by
  obtain ⟨n, hn⟩ := h
  refine ⟨n + 1, ?_⟩
  unfold evalStmt
  exact hn

/-- **Calls repeat.** In the store of every moment of a run of a known program, and in the one
that is left at its end, a call never ends, or it can be made twice with the same arguments,
and the two results have the same type and the same text: the second one is what it is
without the first call. Among the values that can be called or passed are all that names are
bound to, those that the task of the moment is given, and the result of the run. -/
theorem calls_repeat {p : Program} (hp : stmtsKnown p.statements = true) :
    (∀ role m, p.Reaches role m → m.store.All m.store.Admits ∧
      (∀ v ∈ m.task.values, m.store.Admits v) ∧ m.store.Repeats) ∧
    ∀ v s, p.Ends v s → s.All s.Admits ∧ (∀ w ∈ v, s.Admits w) ∧ s.Repeats := by
  refine ⟨fun role m hm => ?_, fun v s hend => ?_⟩
  · have hclosed := hm.closed
    have hknown := hm.known hp
    exact ⟨.admits hclosed.store hknown.store,
      fun v hv => ⟨hclosed.values v hv, hknown.values v hv⟩,
      hclosed.store.repeats hknown.store⟩
  · obtain ⟨n, hn⟩ := hend.exists_evalStmt
    obtain ⟨hv, -, hclosed⟩ := (evalStmt_copies n (.block (.program p.statements))
      (.refl Store.closed_fresh) (Nat.lt_succ_self _)).of_eq hn
    obtain ⟨hv', hknown⟩ := (evalStmt_known n (.block (.program p.statements)) _ _ hp
      (Store.all_empty.openScope none)).of_eq hn
    exact ⟨.admits hclosed hknown,
      fun w hw => ⟨Store.covers_last_iff.mp hv w (Option.mem_toList.mpr hw), hv' w hw⟩,
      hclosed.repeats hknown⟩

/-- A function that makes a new array with each call. -/
theorem calls_repeat_array :
    let m : Mark := ⟨"", .start⟩
    let body : Block := .mk m [.expression m (.array m [.identifier m "x"])]
    let p : Program := ⟨[.binding m ⟨m, "f"⟩ (.function m [⟨m, "x"⟩] body)]⟩
    let f : Value := .function 0 [⟨m, "x"⟩] body 0
    let s : Store := ⟨#[⟨[("f", f)], none⟩], 1⟩
    let s₁ : Store := ⟨#[⟨[("f", f)], none⟩, ⟨[("x", f)], some 0⟩], 2⟩
    stmtsKnown p.statements = true ∧ p.Ends none s ∧ s.Admits f ∧
      apply 9 f [f] s = .done (.array 1 [f]) s₁ ∧
      apply 9 f [f] s₁ = .done (.array 2 [f])
        ⟨#[⟨[("f", f)], none⟩, ⟨[("x", f)], some 0⟩, ⟨[("x", f)], some 0⟩], 3⟩ ∧
      s.Repeats := by
  intro m body p f s s₁
  have hp : stmtsKnown p.statements = true := by rfl
  have hend : p.Ends none s := ⟨9, by cbv⟩
  obtain ⟨hbound, -, hrepeats⟩ := (calls_repeat hp).2 none s hend
  have hf : s.Admits f := hbound _ (Array.mem_singleton.mpr rfl) ("f", f) List.mem_cons_self
  exact ⟨hp, hend, hf, by cbv, by cbv, hrepeats⟩

end MonkeyLang
