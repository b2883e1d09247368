import MonkeyLang.Proofs.AtRest
import MonkeyLang.Proofs.Relabeling

/-!
# Closed stores and their copies

A store hands out the numbers of objects and of scopes one after another. A value fits the
store if all numbers in it have been handed out. A store is closed if all values in it fit
and each scope lies inside an earlier one, so that going outward comes to an end.

Two stores may differ by a gap: in the second one, numbers were handed out at some point that
the first one never came to need. Everything made after that point has higher numbers
in the second store, by the width of the gap, and otherwise the two agree (`Store.Copies`).
Whatever is done to the one and, under the higher numbers, to the other leaves it at that.

Values that fit a store are those that no gap after it moves (`Value.fits_iff`). So an
operation of the language yields values that fit because it commutes with other labels.
-/

namespace MonkeyLang

/-! ## Labels that stay -/

/-- The labels of a value itself stay as they are, whatever becomes of those of its parts. -/
def Relabeling.Keeps (r : Relabeling) : Value → Prop
  | .integer i _ | .string i _ | .array i _ | .hash i _ | .returned i _ | .error i _ =>
    r.object i = i
  | .function i parameters body scope =>
    r.object i = i ∧ r.names parameters = parameters ∧ r.body body = body ∧ r.scope scope = scope
  | .boolean _ | .null | .builtin _ => True

theorem relabelAll_eq_self_iff {r : Relabeling} {vs : List Value} :
    relabelAll r vs = vs ↔ ∀ v ∈ vs, v.relabel r = v := by
  rw [relabelAll_eq_map]
  nth_rewrite 2 [← List.map_id vs]
  exact List.map_inj_left

theorem relabelEntries_eq_self_iff {r : Relabeling} {es : Entries} :
    relabelEntries r es = es ↔ ∀ e ∈ es, e.1.relabel r = e.1 ∧ e.2.relabel r = e.2 := by
  rw [relabelEntries_eq_map]
  nth_rewrite 2 [← List.map_id es]
  rw [List.map_inj_left]
  exact forall₂_congr fun e _ => Prod.ext_iff

mutual

theorem Value.relabel_of_keeps {r : Relabeling} : ∀ v : Value, v.HoldsOnly r.Keeps →
    v.relabel r = v
  | .integer _ n, h => congrArg (Value.integer · n) h.self
  | .string _ text, h => congrArg (Value.string · text) h.self
  | .error _ e, h => congrArg (Value.error · e) h.self
  | .boolean _, _ | .null, _ | .builtin _, _ => rfl
  | .function _ parameters body scope, h => by
      obtain ⟨hobject, hnames, hbody, hscope⟩ := h.self
      rw [Value.relabel, hobject, hnames, hbody, hscope]
  | .array i elements, h => by
      have hobject : r.object i = i := h.self
      rw [Value.relabel, hobject, relabelAll_of_keeps elements fun v hv => fun w hw =>
        h w (.element hv hw)]
  | .hash i entries, h => by
      have hobject : r.object i = i := h.self
      rw [Value.relabel, hobject, relabelEntries_of_keeps entries fun e he =>
        ⟨fun w hw => h w (.key he hw), fun w hw => h w (.entry he hw)⟩]
  | .returned i v, h => by
      have hobject : r.object i = i := h.self
      rw [Value.relabel, hobject, v.relabel_of_keeps h.operand]

theorem relabelAll_of_keeps {r : Relabeling} : ∀ vs : List Value,
    (∀ v ∈ vs, v.HoldsOnly r.Keeps) → relabelAll r vs = vs
  | [], _ => rfl
  | v :: vs, h => by
      obtain ⟨hv, hvs⟩ := List.forall_mem_cons.mp h
      rw [relabelAll, v.relabel_of_keeps hv, relabelAll_of_keeps vs hvs]

theorem relabelEntries_of_keeps {r : Relabeling} : ∀ es : Entries,
    (∀ e ∈ es, e.1.HoldsOnly r.Keeps ∧ e.2.HoldsOnly r.Keeps) → relabelEntries r es = es
  | [], _ => rfl
  | (k, v) :: es, h => by
      obtain ⟨⟨hk, hv⟩, hes⟩ := List.forall_mem_cons.mp h
      rw [relabelEntries, k.relabel_of_keeps hk, v.relabel_of_keeps hv,
        relabelEntries_of_keeps es hes]

end

theorem Value.Holds.keeps {r : Relabeling} {v w : Value} (h : v.Holds w)
    (hv : v.relabel r = v) : r.Keeps w := by
  induction h with
  | @self v =>
      cases v with
      | boolean _ | null | builtin _ => trivial
      | function i parameters body scope =>
          obtain ⟨hobject, hnames, hbody, hscope⟩ := Value.function.inj hv
          exact ⟨hobject, hnames, hbody, hscope⟩
      | integer _ _ => exact (Value.integer.inj hv).1
      | string _ _ => exact (Value.string.inj hv).1
      | array _ _ => exact (Value.array.inj hv).1
      | hash _ _ => exact (Value.hash.inj hv).1
      | returned _ _ => exact (Value.returned.inj hv).1
      | error _ _ => exact (Value.error.inj hv).1
  | element hmem _ ih => exact ih (relabelAll_eq_self_iff.mp (Value.array.inj hv).2 _ hmem)
  | key hmem _ ih => exact ih (relabelEntries_eq_self_iff.mp (Value.hash.inj hv).2 _ hmem).1
  | entry hmem _ ih => exact ih (relabelEntries_eq_self_iff.mp (Value.hash.inj hv).2 _ hmem).2
  | operand _ ih => exact ih (Value.returned.inj hv).2

/-- A value is the same under other labels exactly if all labels in it stay. -/
theorem Value.relabel_eq_self_iff {r : Relabeling} {v : Value} :
    v.relabel r = v ↔ v.HoldsOnly r.Keeps :=
  ⟨fun hv _ hw => hw.keeps hv, v.relabel_of_keeps⟩

/-! ## Gaps -/

/-- A gap in the numbers of objects and of scopes: where it is and how wide. -/
structure Gap where
  object : ObjectId
  scope : ScopeId
  objects : Nat
  scopes : Nat

namespace Gap

/-- The numbers from the start of a gap on are raised by its width. -/
def raise (start width i : Nat) : Nat :=
  if i < start then i else i + width

variable {start width i j : Nat}

theorem raise_of_lt (h : i < start) : raise start width i = i := if_pos h

theorem raise_of_le (h : start ≤ i) : raise start width i = i + width :=
  if_neg (Nat.not_lt.mpr h)

theorem raise_lt_raise (h : i < j) : raise start width i < raise start width j := by
  unfold raise
  split <;> split <;> omega

theorem raise_injective (start width : Nat) : Function.Injective (raise start width) :=
  have hmono : StrictMono (raise start width) := fun _ _ => raise_lt_raise
  hmono.injective

/-- Objects and scopes after the gap get higher numbers. -/
def relabeling (g : Gap) : Relabeling where
  names := id
  body := id
  object := raise g.object g.objects
  scope := raise g.scope g.scopes
  object_injective := raise_injective g.object g.objects

theorem scope_injective (g : Gap) : Function.Injective g.relabeling.scope :=
  raise_injective g.scope g.scopes

instance : Coe Gap Relabeling := ⟨relabeling⟩

/-- The gap comes after all numbers that a store has handed out. -/
structure After (g : Gap) (s : Store) : Prop where
  nextId_le : s.nextId ≤ g.object
  size_le : s.scopes.size ≤ g.scope

end Gap

/-! ## Values that fit -/

/-- The numbers of a value itself have been handed out by a store. -/
def Value.NumberedIn (s : Store) : Value → Prop
  | .integer i _ | .string i _ | .array i _ | .hash i _ | .returned i _ | .error i _ =>
    i < s.nextId
  | .function i _ _ scope => i < s.nextId ∧ scope < s.scopes.size
  | .boolean _ | .null | .builtin _ => True

/-- All numbers in a value have been handed out by a store. -/
def Value.Fits (s : Store) (v : Value) : Prop := v.HoldsOnly (NumberedIn s)

theorem Gap.After.keeps {g : Gap} {s : Store} (h : g.After s) {v : Value}
    (hv : v.NumberedIn s) : g.relabeling.Keeps v := by
  have hobject {i : ObjectId} (hi : i < s.nextId) : g.relabeling.object i = i :=
    raise_of_lt (Nat.lt_of_lt_of_le hi h.nextId_le)
  cases v with
  | boolean _ | null | builtin _ => trivial
  | function i parameters body scope =>
      exact ⟨hobject hv.1, rfl, rfl, raise_of_lt (Nat.lt_of_lt_of_le hv.2 h.size_le)⟩
  | _ => exact hobject hv

theorem Value.NumberedIn.of_keeps {s : Store} {v : Value}
    (h : (Gap.mk s.nextId s.scopes.size 1 1).relabeling.Keeps v) : v.NumberedIn s := by
  have hlt {start i : Nat} (hi : Gap.raise start 1 i = i) : i < start := by
    unfold Gap.raise at hi
    split at hi <;> omega
  cases v with
  | boolean _ | null | builtin _ => trivial
  | function i parameters body scope => exact ⟨hlt h.1, hlt h.2.2.2⟩
  | _ => exact hlt h

/-- A store covers what no gap after it moves. -/
def Store.Covers {α : Type} (act : Relabeling → α → α) (s : Store) (a : α) : Prop :=
  ∀ g : Gap, g.After s → act g a = a

/-- The values that fit a store are those that no gap after it moves. -/
theorem Value.fits_iff {s : Store} {v : Value} : v.Fits s ↔ s.Covers Value.relabel v := by
  refine ⟨fun h g hg => relabel_eq_self_iff.mpr (h.mono fun _ => hg.keeps), fun h => ?_⟩
  have hmoved := relabel_eq_self_iff.mp (h ⟨s.nextId, s.scopes.size, 1, 1⟩
    ⟨Nat.le_refl _, Nat.le_refl _⟩)
  exact hmoved.mono fun _ => .of_keeps

theorem Value.fits_array {s : Store} {id : ObjectId} {elements : List Value} :
    (Value.array id elements).Fits s ↔ id < s.nextId ∧ ∀ v ∈ elements, v.Fits s := by
  refine ⟨fun h => ⟨h.self, fun v hv w hw => h w (.element hv hw)⟩, fun ⟨hid, h⟩ w hw => ?_⟩
  cases hw with
  | self => exact hid
  | element hv hw => exact h _ hv w hw

/-! ## Growing stores -/

/-- A store that has handed out more numbers. -/
structure Store.Grows (s t : Store) : Prop where
  nextId_le : s.nextId ≤ t.nextId
  size_le : s.scopes.size ≤ t.scopes.size

namespace Store

variable {s t u : Store}

theorem Grows.refl (s : Store) : s.Grows s := ⟨Nat.le_refl _, Nat.le_refl _⟩

theorem Grows.trans (h : s.Grows t) (h' : t.Grows u) : s.Grows u :=
  ⟨Nat.le_trans h.nextId_le h'.nextId_le, Nat.le_trans h.size_le h'.size_le⟩

theorem Grows.scope_lt (h : s.Grows t) {scope : ScopeId} (hscope : scope < s.scopes.size) :
    scope < t.scopes.size :=
  Nat.lt_of_lt_of_le hscope h.size_le

theorem grows_make (s : Store) (d : Draft) : s.Grows (s.make d).2 := by
  refine ⟨?_, Nat.le_of_eq (by rw [scopes_make])⟩
  unfold make
  cases d.isNew
  · exact Nat.le_refl _
  · exact Nat.le_succ _

theorem lt_openScope (s : Store) (outer : Option ScopeId) :
    s.scopes.size < (s.openScope outer).2.scopes.size := by
  rw [openScope, Array.size_push]
  exact Nat.lt_succ_self _

theorem grows_openScope (s : Store) (outer : Option ScopeId) : s.Grows (s.openScope outer).2 :=
  ⟨Nat.le_refl _, Nat.le_of_lt (s.lt_openScope outer)⟩

theorem grows_bind (s : Store) (scope : ScopeId) (name : String) (v : Value) :
    s.Grows (s.bind scope name v) :=
  ⟨Nat.le_refl _, Nat.le_of_eq Array.size_modify.symm⟩

theorem grows_bindAll : ∀ (names : List String) (vs : List Value) (s : Store) (scope : ScopeId),
    s.Grows (s.bindAll scope names vs)
  | [], _, s, _ => .refl s
  | _ :: _, [], s, _ => .refl s
  | _ :: names, _ :: vs, s, scope =>
      (s.grows_bind scope _ _).trans (grows_bindAll names vs _ scope)

namespace Covers

variable {α β γ : Type} {act : Relabeling → α → α} {act' : Relabeling → β → β}
  {act'' : Relabeling → γ → γ}

theorem mono (hst : s.Grows t) {a : α} (h : s.Covers act a) : t.Covers act a :=
  fun g hg => h g ⟨Nat.le_trans hst.nextId_le hg.nextId_le, Nat.le_trans hst.size_le hg.size_le⟩

/-- What commutes with other labels makes what fits out of what fits. -/
theorem map {f : α → β} (hf : ∀ r a, f (act r a) = act' r (f a)) {a : α} (ha : s.Covers act a) :
    s.Covers act' (f a) := fun g hg => by
  rw [← hf, ha g hg]

theorem map₂ {f : α → β → γ} (hf : ∀ r a b, f (act r a) (act' r b) = act'' r (f a b)) {a : α}
    {b : β} (ha : s.Covers act a) (hb : s.Covers act' b) : s.Covers act'' (f a b) := fun g hg => by
  rw [← hf, ha g hg, hb g hg]

/-- A new object is covered as soon as it has been made. -/
theorem make {d : Draft} (hd : s.Covers Draft.relabel d) :
    (s.make d).2.Covers Value.relabel (s.make d).1 := fun g hg => by
  have hdg := hd.mono (s.grows_make d) g hg
  cases hnew : d.isNew with
  | true =>
      have hnext : s.nextId < g.object := by
        have hle := hg.nextId_le
        rwa [Store.make, hnew] at hle
      have hobject : g.relabeling.object s.nextId = s.nextId := Gap.raise_of_lt hnext
      have hvalue := value_relabel g d s.nextId
      rw [hdg, hobject] at hvalue
      exact hvalue.symm
  | false =>
      cases d with
      | existing v => exact Draft.existing.inj hdg
      | _ => cases hnew

end Covers

theorem covers_all_iff {vs : List Value} :
    s.Covers relabelAll vs ↔ ∀ v ∈ vs, v.Fits s := by
  simp only [Covers, relabelAll_eq_self_iff, Value.fits_iff]
  exact ⟨fun h v hv g hg => h g hg v hv, fun h g hg v hv => h v hv g hg⟩

theorem covers_scope {scope : ScopeId} (h : scope < s.scopes.size) :
    s.Covers Relabeling.scope scope :=
  fun _ hg => Gap.raise_of_lt (Nat.lt_of_lt_of_le h hg.size_le)

/-! ## Closed stores -/

/-- All values in the store fit it, and each scope lies inside an earlier one. -/
structure Closed (s : Store) : Prop where
  outer_lt : ∀ i sc, s.scopes[i]? = some sc → ∀ o ∈ Scope.outer sc, o < i
  fits : s.All (Value.Fits s)

theorem Grows.fits (h : s.Grows t) {v : Value} (hv : v.Fits s) : v.Fits t :=
  Value.fits_iff.mpr ((Value.fits_iff.mp hv).mono h)

namespace Closed

theorem find? (h : s.Closed) {scope : ScopeId} {name : String} {v : Value}
    (hv : s.find? scope name = some v) : v.Fits s :=
  h.fits.find? hv

theorem make (h : s.Closed) (d : Draft) : (s.make d).2.Closed where
  outer_lt := by
    rw [scopes_make]
    exact h.outer_lt
  fits := (h.fits.make d).mono fun _ => (s.grows_make d).fits

theorem openScope (h : s.Closed) {outer : Option ScopeId}
    (houter : ∀ o ∈ outer, o < s.scopes.size) : (s.openScope outer).2.Closed where
  outer_lt i sc hsc := by
    rw [Store.openScope, Array.getElem?_push] at hsc
    split at hsc
    · rename_i hi
      cases hsc
      exact hi ▸ houter
    · exact h.outer_lt i sc hsc
  fits := (h.fits.openScope outer).mono fun _ => (s.grows_openScope outer).fits

theorem bind (h : s.Closed) (scope : ScopeId) (name : String) {v : Value} (hv : v.Fits s) :
    (s.bind scope name v).Closed where
  outer_lt i sc hsc := by
    rw [Store.bind, Array.getElem?_modify] at hsc
    split at hsc
    · obtain ⟨sc', hsc', rfl⟩ := Option.map_eq_some_iff.mp hsc
      exact h.outer_lt i sc' hsc'
    · exact h.outer_lt i sc hsc
  fits := (h.fits.bind scope name hv).mono fun _ => (s.grows_bind scope name v).fits

end Closed

/-! ## Copies -/

/-- The numbers that are handed out on the way from one store to another. -/
def gapTo (s s' : Store) : Gap :=
  ⟨s.nextId, s.scopes.size, s'.nextId - s.nextId, s'.scopes.size - s.scopes.size⟩

theorem after_gapTo (s s' : Store) : (s.gapTo s').After s := ⟨Nat.le_refl _, Nat.le_refl _⟩

/-- The second store is the first one with a gap in its numbers. What fills the gap is left
open. -/
structure Copies (g : Gap) (s s' : Store) : Prop where
  closed : s.Closed
  object_le : g.object ≤ s.nextId
  scope_le : g.scope ≤ s.scopes.size
  nextId_eq : s'.nextId = s.nextId + g.objects
  size_eq : s'.scopes.size = s.scopes.size + g.scopes
  scopes_eq : ∀ i : ScopeId, s'.scopes[g.relabeling.scope i]? = s.scopes[i]?.map (·.relabel g)

/-- No gap after a closed store moves anything in its scopes. -/
theorem Closed.relabel_scope (h : s.Closed) {g : Gap} (hg : g.After s) {i : ScopeId} {sc : Scope}
    (hsc : s.scopes[i]? = some sc) : sc.relabel g = sc := by
  obtain ⟨hi, hmem⟩ := Array.getElem?_eq_some_iff.mp hsc
  have hbindings : relabelBindings g sc.bindings = sc.bindings := by
    conv_rhs => rw [← List.map_id sc.bindings]
    refine List.map_congr_left fun b hb => ?_
    have hfits := h.fits sc (hmem ▸ Array.getElem_mem hi) b hb
    exact congrArg (Prod.mk b.1) (Value.fits_iff.mp hfits g hg)
  have houter : sc.outer.map g.relabeling.scope = sc.outer := by
    refine (Option.map_congr fun o ho => Gap.raise_of_lt ?_).trans Option.map_id'
    exact Nat.lt_trans (h.outer_lt i sc hsc o ho) (Nat.lt_of_lt_of_le hi hg.size_le)
  rw [Scope.relabel, hbindings, houter]

namespace Copies

variable {g : Gap} {s' : Store}

/-- A store in which nothing of a closed one has been touched is a copy of it. -/
theorem of_untouched (h : s.Closed) (hgrows : s.Grows s') (huntouched : s.Untouched s') :
    s.Copies (s.gapTo s') s' where
  closed := h
  object_le := Nat.le_refl _
  scope_le := Nat.le_refl _
  nextId_eq := (Nat.add_sub_cancel' hgrows.nextId_le).symm
  size_eq := (Nat.add_sub_cancel' hgrows.size_le).symm
  scopes_eq i := by
    rcases Nat.lt_or_ge i s.scopes.size with hi | hi
    · have hraise : (s.gapTo s').relabeling.scope i = i := Gap.raise_of_lt hi
      rw [hraise, huntouched i hi, Array.getElem?_eq_getElem hi, Option.map_some,
        h.relabel_scope (s.after_gapTo s') (Array.getElem?_eq_getElem hi)]
    · have hraise : s'.scopes.size ≤ (s.gapTo s').relabeling.scope i := by
        rw [show (s.gapTo s').relabeling.scope i = _ from Gap.raise_of_le hi]
        have hsize := hgrows.size_le
        simp only [gapTo]
        omega
      rw [Array.getElem?_eq_none hraise, Array.getElem?_eq_none hi, Option.map_none]

theorem refl (h : s.Closed) : s.Copies (s.gapTo s) s :=
  of_untouched h (.refl s) fun _ _ => rfl

section

variable (h : s.Copies g s')
include h

theorem raise_nextId : g.relabeling.object s.nextId = s'.nextId :=
  (Gap.raise_of_le h.object_le).trans h.nextId_eq.symm

theorem raise_size : g.relabeling.scope s.scopes.size = s'.scopes.size :=
  (Gap.raise_of_le h.scope_le).trans h.size_eq.symm

/-! What is done to a store is done to its copy under the higher numbers. -/

theorem make_fst (d : Draft) : (s'.make (d.relabel g)).1 = (s.make d).1.relabel g := by
  rw [Store.make, Store.make, ← h.raise_nextId]
  exact value_relabel g d s.nextId

theorem make (d : Draft) : (s.make d).2.Copies g (s'.make (d.relabel g)).2 where
  closed := h.closed.make d
  object_le := Nat.le_trans h.object_le (s.grows_make d).nextId_le
  scope_le := by
    rw [scopes_make]
    exact h.scope_le
  nextId_eq := by
    rw [Store.make, Store.make, isNew_relabel]
    cases d.isNew
    · exact h.nextId_eq
    · show s'.nextId + 1 = s.nextId + 1 + g.objects
      rw [h.nextId_eq, Nat.add_right_comm]
  size_eq := by
    rw [scopes_make, scopes_make]
    exact h.size_eq
  scopes_eq := by
    rw [scopes_make, scopes_make]
    exact h.scopes_eq

theorem openScope {outer : Option ScopeId} (houter : ∀ o ∈ outer, o < s.scopes.size) :
    (s.openScope outer).2.Copies g (s'.openScope (outer.map g.relabeling.scope)).2 where
  closed := h.closed.openScope houter
  object_le := h.object_le
  scope_le := Nat.le_trans h.scope_le (s.grows_openScope outer).size_le
  nextId_eq := h.nextId_eq
  size_eq := by
    have hsize := h.size_eq
    simp only [Store.openScope, Array.size_push]
    omega
  scopes_eq i := by
    rw [Store.openScope, Store.openScope, Array.getElem?_push, Array.getElem?_push,
      ← h.raise_size, h.scopes_eq]
    by_cases hi : i = s.scopes.size
    · rw [if_pos hi, if_pos (congrArg _ hi)]
      rfl
    · rw [if_neg hi, if_neg fun heq => hi (g.scope_injective heq)]

theorem bind (scope : ScopeId) (name : String) {v : Value} (hv : v.Fits s) :
    (s.bind scope name v).Copies g
      (s'.bind (g.relabeling.scope scope) name (v.relabel g)) where
  closed := h.closed.bind scope name hv
  object_le := h.object_le
  scope_le := Nat.le_trans h.scope_le (s.grows_bind scope name v).size_le
  nextId_eq := h.nextId_eq
  size_eq := by
    rw [Store.bind, Store.bind, Array.size_modify, Array.size_modify]
    exact h.size_eq
  scopes_eq i := by
    rw [Store.bind, Store.bind, Array.getElem?_modify, Array.getElem?_modify, h.scopes_eq]
    by_cases hi : scope = i
    · rw [if_pos hi, if_pos (congrArg _ hi)]
      cases s.scopes[i]? with
      | none => rfl
      | some sc => exact congrArg some (bind_relabel g sc name v)
    · rw [if_neg hi, if_neg fun heq => hi (g.scope_injective heq)]

/-- A name is looked up in as many scopes as there can be. -/
theorem findWithin (name : String) : ∀ {n n' : Nat} {scope : ScopeId}, scope < n →
    g.relabeling.scope scope < n' →
    s'.findWithin n' (g.relabeling.scope scope) name =
      (s.findWithin n scope name).map (·.relabel g)
  | n + 1, n' + 1, scope, hn, hn' => by
      rw [Store.findWithin, Store.findWithin, h.scopes_eq]
      cases hsc : s.scopes[scope]? with
      | none => rfl
      | some sc =>
          simp only [Option.map_some]
          rw [own?_relabel]
          cases hown : sc.own? name with
          | some v => rfl
          | none =>
              cases houter : sc.outer with
              | none => simp [Scope.relabel, houter]
              | some o =>
                  have ho : o < scope := h.closed.outer_lt scope sc hsc o houter
                  have ho' : g.relabeling.scope o < g.relabeling.scope scope :=
                    Gap.raise_lt_raise ho
                  simp only [Scope.relabel, houter, Option.map_none, Option.map_some]
                  exact findWithin name (Nat.lt_of_lt_of_le ho (Nat.le_of_lt_succ hn))
                    (Nat.lt_of_lt_of_le ho' (Nat.le_of_lt_succ hn'))

theorem find? (scope : ScopeId) (name : String) :
    s'.find? (g.relabeling.scope scope) name = (s.find? scope name).map (·.relabel g) :=
  h.findWithin name (Nat.lt_succ_self _) (Nat.lt_succ_self _)

end

theorem bindAll (scope : ScopeId) : ∀ (names : List String) {vs : List Value} {s s' : Store},
    s.Copies g s' → (∀ v ∈ vs, v.Fits s) → (s.bindAll scope names vs).Copies g
      (s'.bindAll (g.relabeling.scope scope) names (relabelAll g vs))
  | [], _, _, _, h, _ => by simpa only [Store.bindAll] using h
  | _ :: _, [], _, _, h, _ => by simpa only [Store.bindAll, relabelAll] using h
  | name :: names, v :: vs, s, s', h, hvs => by
      obtain ⟨hv, hvs⟩ := List.forall_mem_cons.mp hvs
      rw [relabelAll, Store.bindAll, Store.bindAll]
      refine bindAll scope names (h.bind scope name hv) fun w hw => ?_
      exact (s.grows_bind scope name v).fits (hvs w hw)

/-- A call binds its arguments in a new scope, in a store and in its copy. -/
theorem enter (hs : s.Copies g s') {outer : ScopeId} (houter : outer < s.scopes.size)
    (names : List String) {arguments : List Value} (harguments : ∀ v ∈ arguments, v.Fits s) :
    let inner := (s.openScope (some outer)).2.bindAll s.scopes.size names arguments
    s.Grows inner ∧ s.scopes.size < inner.scopes.size ∧
      inner.Copies g ((s'.openScope (some (g.relabeling.scope outer))).2.bindAll s'.scopes.size
        names (relabelAll g arguments)) := by
  intro inner
  have hopen := s.grows_openScope (some outer)
  have hbind := grows_bindAll names arguments (s.openScope (some outer)).2 s.scopes.size
  have houter' : ∀ o ∈ some outer, o < s.scopes.size := by
    rintro _ ⟨⟩
    exact houter
  have hbound := (hs.openScope houter').bindAll s.scopes.size names fun v hv =>
    hopen.fits (harguments v hv)
  -- the new scope of the copy has the number that the new scope becomes
  rw [hs.raise_size] at hbound
  exact ⟨hopen.trans hbind, hbind.scope_lt (s.lt_openScope (some outer)), hbound⟩

end Copies

end Store

end MonkeyLang
