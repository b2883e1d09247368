import MonkeyLang.Proofs.EvaluationRules

/-!
# The function that maps an array

A program of the language maps a function over an array: a function that calls itself takes the
array apart and puts the results together. The evaluation of it is followed once around, from a
call of the inner function to the next one (`IterScope.next_comesTo`); the induction is on the
elements that are left (`iter_ends`). What it needs of the scopes is that the names in the program
stand for what they stand for where the inner function was made (`MapScope`), and the calls of the
mapped function do not change that.

The mapped function is any function or built-in function. What it comes to on an element in the
course of the program is what it comes to on it before, but for the numbers of objects and scopes
(`Store.MapsTo`).
-/

namespace MonkeyLang

/-! ## The program -/

/-- The text of the program. -/
def mapSource : String :=
  "let map = fn(arr, f) \x7b let iter = fn(arr, acc) \x7b if (len(arr) == 0) \x7b acc \x7d else " ++
  "\x7b iter(rest(arr), push(acc, f(first(arr)))) \x7d \x7d; iter(arr, []); \x7d; map(arr, f)"

namespace MapProgram

/-! The tree of the text, in which each token has its column. -/

def mark (text : String) (column : Int) : Mark := ⟨text, ⟨1, column⟩⟩

def name (text : String) (column : Int) : Name := ⟨mark text column, text⟩

def var (text : String) (column : Int) : Expr := .identifier (mark text column) text

def call (column : Int) (function : Expr) (arguments : List Expr) : Expr :=
  .call (mark "(" column) function arguments

/-- A block of one expression, which starts with a token. -/
def braced (column : Int) (first : Mark) (e : Expr) : Block :=
  .mk (mark "\x7b" column) [.expression first e]

def isDone : Expr :=
  .infixOp (mark "==" 63) (call 57 (var "len" 54) [var "arr" 58]) "==" (.integer (mark "0" 66) 0)

def others : Expr := call 93 (var "rest" 89) [var "arr" 94]

def mapped : Expr := call 111 (var "f" 110) [call 117 (var "first" 112) [var "arr" 118]]

def grown : Expr := call 104 (var "push" 100) [var "acc" 105, mapped]

def next : Expr := call 88 (var "iter" 84) [others, grown]

def iterBody : Block :=
  braced 48 (mark "if" 50) (.conditional (mark "if" 50) isDone
    (braced 69 (mark "acc" 71) (var "acc" 71)) (some (braced 82 (mark "iter" 84) next)))

def iterParameters : List Name := [name "arr" 38, name "acc" 43]

def mapBody : Block :=
  .mk (mark "\x7b" 22)
    [.binding (mark "let" 24) (name "iter" 28) (.function (mark "fn" 35) iterParameters iterBody),
      .expression (mark "iter" 131)
        (call 135 (var "iter" 131) [var "arr" 136, .array (mark "[" 141) []])]

def mapParameters : List Name := [name "arr" 14, name "f" 19]

/-- The inner function, made in a scope. -/
def iterFunction (id : ObjectId) (scope : ScopeId) : Value :=
  .function id iterParameters iterBody scope

/-- The outer function, made in a scope. -/
def mapFunction (id : ObjectId) (scope : ScopeId) : Value :=
  .function id mapParameters mapBody scope

def program : Program :=
  ⟨[.binding (mark "let" 1) (name "map" 5) (.function (mark "fn" 11) mapParameters mapBody),
    .expression (mark "map" 149) (call 152 (var "map" 149) [var "arr" 153, var "f" 158])]⟩

end MapProgram

theorem parse_mapSource :
    (parse mapSource).errors = [] ∧ (parse mapSource).program = MapProgram.program :=
  ⟨by cbv, by cbv⟩

/-! ## Applying the mapped function -/

namespace Store

/-- A function is called with one value, the way an expression calls it: an operand that is an
error is what the expression comes to. -/
def Applies (s : Store) (f x v : Value) (t : Store) : Prop :=
  if x.isError then v = x ∧ t = s else s.CallEnds f [x] v t

/-- A function comes to a value on another one later, with nothing of the store touched: to what it
comes to in the store itself, but for the numbers of what has been made in between. -/
def MapsTo (s : Store) (f x w : Value) : Prop :=
  ∃ v u t u', s.Applies f x v u ∧ s.Before t ∧ t.Applies f x w u' ∧
    w = v.relabel (s.gapTo t) ∧ w.shown = v.shown

variable {s t : Store} {f x v : Value}

theorem Applies.callEnds (h : s.Applies f x v t) (hv : v.isError = false) :
    x.isError = false ∧ s.CallEnds f [x] v t := by
  unfold Applies at h
  split at h
  · rename_i hx
    rw [h.1, hx] at hv
    exact nomatch hv
  · rename_i hx
    exact ⟨Bool.eq_false_iff.mpr hx, h⟩

/-- A value that is applied in a store can be applied in all later ones. -/
theorem Before.applies (ht : s.Before t) (hs : s.Closed) (hf : f.Fits s) (hx : x.Fits s)
    (h : ∃ v u, s.Applies f x v u ∧ v.isError = false) :
    x.isError = false ∧ ∃ w u, t.CallEnds f [x] w u ∧ w.isError = false ∧ s.MapsTo f x w := by
  obtain ⟨v, u, happlies, hv⟩ := h
  obtain ⟨hok, n, hn⟩ := happlies.callEnds hv
  obtain ⟨u', hu'⟩ := hs.apply_later hf (List.forall_mem_singleton.mpr hx) ht.grows ht.untouched hn
  have hlater : t.Applies f x (v.relabel (s.gapTo t)) u' := by
    rw [Applies, hok]
    exact ⟨n, hu'⟩
  refine ⟨hok, _, u', ⟨n, hu'⟩, (Value.isError_relabel _ v).trans hv, v, u, t, u', happlies, ht,
    hlater, rfl, ?_⟩
  exact v.shown_relabel (s.gapTo t).keepsText

end Store

/-! ## Scopes of the program -/

section Enter

variable (s : Store) (outer : Option ScopeId) (a b : String) (v w : Value)

/-- A new scope with two names. -/
theorem ownAt_enter (x : String) :
    (s.enter outer [a, b] [v, w]).ownAt s.scopes.size x =
      if b = x then some w else if a = x then some v else none := by
  have hnew := s.lt_openScope outer
  have hnew' := ((s.openScope outer).2.grows_bind s.scopes.size a v).scope_lt hnew
  change (((s.openScope outer).2.bind s.scopes.size a v).bind s.scopes.size b w).ownAt _ x = _
  rw [Store.ownAt_bind _ hnew', Store.ownAt_bind _ hnew, Store.ownAt_openScope,
    s.ownAt_of_le (Nat.le_refl _)]
  simp only [true_and]

theorem link_enter : (s.enter outer [a, b] [v, w]).link s.scopes.size = some outer := by
  change (((s.openScope outer).2.bind s.scopes.size a v).bind s.scopes.size b w).link _ = _
  rw [Store.link_bind, Store.link_bind, Store.link_openScope_self]

end Enter

/-- In a scope the names of the inner function stand for what they should. -/
structure MapScope (t : Store) (scope : ScopeId) (f iter : Value) : Prop where
  lt : scope < t.scopes.size
  iter : t.valueOf scope "iter" = .existing iter
  function : t.valueOf scope "f" = .existing f
  builtin : ∀ b : Builtin, t.valueOf scope b.name = .existing (.builtin b)

/-- In a scope of a call of the inner function its parameters do so, too. -/
structure IterScope (t : Store) (scope : ScopeId) (f iter arr acc : Value) : Prop
    extends MapScope t scope f iter where
  arr : t.valueOf scope "arr" = .existing arr
  acc : t.valueOf scope "acc" = .existing acc

section Scopes

variable {t u : Store} {scope : ScopeId} {f iter arr acc : Value}

theorem MapScope.before (h : MapScope t scope f iter) (ht : t.Closed) (hu : t.Before u) :
    MapScope u scope f iter where
  lt := hu.grows.scope_lt h.lt
  iter := (hu.untouched.valueOf_eq ht h.lt _).trans h.iter
  function := (hu.untouched.valueOf_eq ht h.lt _).trans h.function
  builtin b := (hu.untouched.valueOf_eq ht h.lt _).trans (h.builtin b)

theorem IterScope.before (h : IterScope t scope f iter arr acc) (ht : t.Closed)
    (hu : t.Before u) : IterScope u scope f iter arr acc where
  toMapScope := h.toMapScope.before ht hu
  arr := (hu.untouched.valueOf_eq ht h.lt _).trans h.arr
  acc := (hu.untouched.valueOf_eq ht h.lt _).trans h.acc

/-- A call of the inner function opens such a scope. -/
theorem MapScope.enter (h : MapScope t scope f iter) (ht : t.Closed) (harr : arr.Fits t)
    (hacc : acc.Fits t) :
    t.Before (t.enter (some scope) ["arr", "acc"] [arr, acc]) ∧
      IterScope (t.enter (some scope) ["arr", "acc"] [arr, acc]) t.scopes.size f iter arr acc := by
  have hbefore := Store.Before.enter ht (fun _ ho => Option.some.inj ho ▸ h.lt) ["arr", "acc"]
    (List.forall_mem_cons.mpr ⟨harr, List.forall_mem_singleton.mpr hacc⟩)
  have hvalue : ∀ x, (t.enter (some scope) ["arr", "acc"] [arr, acc]).valueOf t.scopes.size x =
      ((if "acc" = x then some acc else if "arr" = x then some arr else none).map
        Draft.existing).getD (t.valueOf scope x) := fun x => by
    rw [hbefore.closed.valueOf_inside (link_enter t (some scope) "arr" "acc" arr acc),
      ownAt_enter, hbefore.untouched.valueOf_eq ht h.lt]
  refine ⟨hbefore, ⟨⟨t.lt_enter _ _ _, ?_, ?_, fun b => ?_⟩, ?_, ?_⟩⟩
  · exact (hvalue "iter").trans h.iter
  · exact (hvalue "f").trans h.function
  · refine Eq.trans ?_ (h.builtin b)
    cases b <;> exact hvalue _
  · exact hvalue "arr"
  · exact hvalue "acc"

end Scopes

/-! ## Once around -/

open MapProgram

theorem MapProgram.braced_comesTo (column : Int) (first : Mark) {e : Expr} {scope : ScopeId}
    {t u : Store} {v : Value} (h : e.ComesTo scope t v u) :
    (braced column first e).ComesTo scope t v u :=
  .of_stmts (.expression first h)

namespace IterScope

variable {t : Store} {scope : ScopeId} {f iter acc : Value} {i k : ObjectId}
  {xs ws : List Value}

section Parts

variable (h : IterScope t scope f iter (.array i xs) acc)
include h

theorem arr_comesTo (column : Int) : AllComeTo [var "arr" column] scope t [.array i xs] t :=
  .cons (.identifier _ h.arr) rfl .nil

/-- A built-in function is called on the array. -/
theorem builtin_comesTo (b : Builtin) (column column' column'' : Int) :
    (call column (.identifier (mark b.name column') b.name) [var "arr" column'']).ComesTo scope t
      (t.make (b.apply [.array i xs])).1 (t.make (b.apply [.array i xs])).2 :=
  .call _ (.identifier _ (h.builtin b)) rfl (h.arr_comesTo column'') (.builtin b _)

/-- The condition tells whether no elements are left. -/
theorem isDone_comesTo (ht : t.Closed) :
    ∃ u, isDone.ComesTo scope t (.boolean xs.isEmpty) u ∧ t.Before u := by
  have hvalue : ((xs.length : Int) == 0) = xs.isEmpty := by
    cases xs with
    | nil => rfl
    | cons x xs => exact beq_false_of_ne (Int.natCast_ne_zero.mpr (Nat.succ_ne_zero _))
  have hlen := h.builtin_comesTo .len 57 54 58
  have htest : isDone.ComesTo scope t (.boolean ((xs.length : Int) == 0)) _ :=
    hlen.infixOp (mark "==" 63) "==" (.integer (mark "0" 66) 0) rfl rfl
  rw [hvalue] at htest
  have hbefore := Store.Before.make ht (Builtin.len.apply [.array i xs])
  exact ⟨_, htest, hbefore.trans (.make hbefore.closed (.integer 0))⟩

end Parts

/-- The others are an array of their own. -/
theorem others_comesTo {x : Value} (h : IterScope t scope f iter (.array i (x :: xs)) acc)
    (ht : t.Closed) (harr : (Value.array i (x :: xs)).Fits t) :
    ∃ j u, others.ComesTo scope t (.array j xs) u ∧ t.Before u ∧ (Value.array j xs).Fits u :=
  ⟨_, _, h.builtin_comesTo .rest 93 89 94,
    Store.Before.builtin ht .rest (List.forall_mem_singleton.mpr harr)⟩

section Mapping

variable {s : Store} {x : Value} (hs : s.Closed) (hf : f.Fits s) (hok : f.isError = false)
  (hx : x.Fits s) (happlies : ∃ v u, s.Applies f x v u ∧ v.isError = false)
include hs hf hok hx happlies

/-- The function is called on the first element. -/
theorem mapped_comesTo (hbefore : s.Before t)
    (h : IterScope t scope f iter (.array i (x :: xs)) acc) :
    ∃ w u, mapped.ComesTo scope t w u ∧ t.Before u ∧ w.Fits u ∧ w.isError = false ∧
      s.MapsTo f x w := by
  obtain ⟨hxok, w, u, hcall, hwok, hw⟩ := hbefore.applies hs hf hx happlies
  have hfirst : (call 117 (var "first" 112) [var "arr" 118]).ComesTo scope t x t :=
    h.builtin_comesTo .first 117 112 118
  obtain ⟨hu, hwfits⟩ := Store.Before.call hbefore.closed (hbefore.grows.fits hf)
    (List.forall_mem_singleton.mpr (hbefore.grows.fits hx)) hcall
  exact ⟨w, u, .call _ (.identifier _ h.function) hok (.cons hfirst hxok .nil) hcall, hu, hwfits,
    hwok, hw⟩

/-- Its result is put behind the others. -/
theorem grown_comesTo (hbefore : s.Before t)
    (h : IterScope t scope f iter (.array i (x :: xs)) (.array k ws))
    (hacc : (Value.array k ws).Fits t) :
    ∃ l w u, grown.ComesTo scope t (.array l (ws ++ [w])) u ∧ t.Before u ∧
      (Value.array l (ws ++ [w])).Fits u ∧ s.MapsTo f x w := by
  obtain ⟨w, u, hmapped, hu, hwfits, hwok, hw⟩ :=
    mapped_comesTo hs hf hok hx happlies hbefore h
  have harguments : ∀ v ∈ [.array k ws, w], v.Fits u :=
    List.forall_mem_cons.mpr ⟨hu.grows.fits hacc, List.forall_mem_singleton.mpr hwfits⟩
  obtain ⟨hnew, hfits⟩ := Store.Before.builtin hu.closed .push harguments
  exact ⟨_, w, _, .call _ (.identifier _ (h.builtin .push)) rfl
    (.cons (.identifier _ h.acc) rfl (.cons hmapped hwok .nil)) (.builtin .push _),
    hu.trans hnew, hfits, hw⟩

/-- While elements are left, the inner function is called on the others and the results so far. -/
theorem next_comesTo (hbefore : s.Before t)
    (h : IterScope t scope f iter (.array i (x :: xs)) (.array k ws))
    (hiter : iter.isError = false) (harr : (Value.array i (x :: xs)).Fits t)
    (hacc : (Value.array k ws).Fits t) :
    ∃ j l w u, t.Before u ∧ s.MapsTo f x w ∧ (Value.array j xs).Fits u ∧
      (Value.array l (ws ++ [w])).Fits u ∧
      ∀ v u', u.CallEnds iter [.array j xs, .array l (ws ++ [w])] v u' →
        next.ComesTo scope t v u' := by
  have ht := hbefore.closed
  obtain ⟨j, t₁, hothers, h₁, hxs⟩ := h.others_comesTo ht harr
  obtain ⟨l, w, u, hgrown, h₂, hws, hw⟩ := grown_comesTo hs hf hok hx happlies
    (hbefore.trans h₁) (h.before ht h₁) (h₁.grows.fits hacc)
  refine ⟨j, l, w, u, h₁.trans h₂, hw, h₂.grows.fits hxs, hws, fun v u' hcall => ?_⟩
  exact .call _ (.identifier _ h.iter) hiter (.cons hothers rfl (.cons hgrown rfl .nil)) hcall

end Mapping

end IterScope

/-! ## All the way -/

section Iterating

variable {s t : Store} {scope : ScopeId} {f : Value} {id : ObjectId}

/-- A call of the inner function puts the results on the elements that are left behind those
that there are. -/
theorem iter_ends (hs : s.Closed) (hf : f.Fits s) (hok : f.isError = false) :
    ∀ {xs ws : List Value} {t : Store} {i k : ObjectId},
      (∀ x ∈ xs, x.Fits s ∧ ∃ v u, s.Applies f x v u ∧ v.isError = false) → s.Before t →
      MapScope t scope f (iterFunction id scope) → (Value.array i xs).Fits t →
      (Value.array k ws).Fits t →
      ∃ l vs u, t.CallEnds (iterFunction id scope) [.array i xs, .array k ws]
        (.array l (ws ++ vs)) u ∧ t.Before u ∧ List.Forall₂ (s.MapsTo f) xs vs := by
  intro xs
  induction xs with
  | nil =>
      intro ws t i k _ hbefore h harr hacc
      obtain ⟨hinner, hnames⟩ := h.enter hbefore.closed harr hacc
      obtain ⟨u, hdone, hu⟩ := hnames.isDone_comesTo hinner.closed
      have hbody := braced_comesTo 48 (mark "if" 50)
        (.consequence (mark "if" 50) (some (braced 82 (mark "iter" 84) next)) hdone rfl rfl
          (braced_comesTo 69 (mark "acc" 71)
            (.identifier (mark "acc" 71) (hnames.before hinner.closed hu).acc)))
      refine ⟨k, [], u, ?_, hinner.trans hu, .nil⟩
      rw [List.append_nil]
      exact .function rfl hbody rfl
  | cons x xs ih =>
      intro ws t i k hxs hbefore h harr hacc
      obtain ⟨⟨hx, happlies⟩, hxs⟩ := List.forall_mem_cons.mp hxs
      obtain ⟨hinner, hnames⟩ := h.enter hbefore.closed harr hacc
      obtain ⟨t₁, hdone, h₁⟩ := hnames.isDone_comesTo hinner.closed
      have hcond := hinner.trans h₁
      obtain ⟨j, l, w, t₂, h₂, hw, hrest, hws, hnext⟩ :=
        IterScope.next_comesTo hs hf hok hx happlies (hbefore.trans hcond)
          (hnames.before hinner.closed h₁) rfl (hcond.grows.fits harr) (hcond.grows.fits hacc)
      -- What is left is a call from the inside, with one element less.
      have hround := hcond.trans h₂
      obtain ⟨l', vs, u, hcall, hu, hvs⟩ := ih hxs (hbefore.trans hround)
        (h.before hbefore.closed hround) hrest hws
      have hbody := braced_comesTo 48 (mark "if" 50)
        (.alternative (mark "if" 50) (braced 69 (mark "acc" 71) (var "acc" 71)) hdone rfl rfl
          (braced_comesTo 82 (mark "iter" 84) (hnext _ _ hcall)))
      refine ⟨l', w :: vs, u, ?_, hround.trans hu, .cons hw hvs⟩
      rw [List.append_cons]
      exact .function rfl hbody rfl

end Iterating

section Mapping

variable {s t : Store} {scope : ScopeId} {f : Value} {id : ObjectId} {elements : List Value}

/-- A call of the outer function makes the inner one in a scope of its own. -/
theorem mapScope_define {arr : Value} (ht : t.Closed) (hf : f.Fits t) (harr : arr.Fits t)
    (hscope : scope < t.scopes.size)
    (hbuiltin : ∀ b : Builtin, t.valueOf scope b.name = .existing (.builtin b)) :
    let inner := t.enter (some scope) ["arr", "f"] [arr, f]
    let u := inner.define t.scopes.size "iter" iterParameters iterBody
    t.Before u ∧ MapScope u t.scopes.size f (iterFunction inner.nextId t.scopes.size) ∧
      u.valueOf t.scopes.size "arr" = .existing arr := by
  intro inner u
  have hnew : t.scopes.size < inner.scopes.size := t.lt_enter _ _ _
  have hinner : t.Before inner :=
    .enter ht (fun _ ho => Option.some.inj ho ▸ hscope) _
      (List.forall_mem_cons.mpr ⟨harr, List.forall_mem_singleton.mpr hf⟩)
  have hu : t.Before u := hinner.define (Nat.le_refl _) hnew "iter" iterParameters iterBody
  have hlink : u.link t.scopes.size = some (some scope) :=
    (Store.link_define _ _ _ _).trans (link_enter t (some scope) "arr" "f" arr f)
  have hvalue : ∀ x, u.valueOf t.scopes.size x =
      ((if "iter" = x then some (iterFunction inner.nextId t.scopes.size)
        else if "f" = x then some f else if "arr" = x then some arr else none).map
        Draft.existing).getD (t.valueOf scope x) := fun x => by
    rw [hu.closed.valueOf_inside hlink, hu.untouched.valueOf_eq ht hscope,
      Store.ownAt_define hnew, ownAt_enter]
    simp only [true_and, iterFunction]
  refine ⟨hu, ⟨(Store.grows_define _ _ _ _).scope_lt hnew, hvalue "iter", hvalue "f",
    fun b => ?_⟩, hvalue "arr"⟩
  refine Eq.trans ?_ (hbuiltin b)
  cases b <;> exact hvalue _

/-- Then it starts it with an empty array. -/
theorem map_ends {j : ObjectId} (hs : s.Closed) (hf : f.Fits s) (hok : f.isError = false)
    (helements : ∀ x ∈ elements, x.Fits s ∧ ∃ v u, s.Applies f x v u ∧ v.isError = false)
    (harr : (Value.array id elements).Fits s) (hbefore : s.Before t)
    (hscope : scope < t.scopes.size)
    (hbuiltin : ∀ b : Builtin, t.valueOf scope b.name = .existing (.builtin b)) :
    ∃ l vs u, t.CallEnds (mapFunction j scope) [.array id elements, f] (.array l vs) u ∧
      t.Before u ∧ List.Forall₂ (s.MapsTo f) elements vs := by
  obtain ⟨hu, hnames, hvalue⟩ := mapScope_define hbefore.closed (hbefore.grows.fits hf)
    (hbefore.grows.fits harr) hscope hbuiltin
  have hempty := Store.Before.make hu.closed (.array [])
  have hsofar := hu.trans hempty
  obtain ⟨l, vs, u', hcall, hu', hvs⟩ := iter_ends hs hf hok helements (hbefore.trans hsofar)
    (hnames.before hu.closed hempty) ((hbefore.trans hsofar).grows.fits harr)
    (Value.fits_array.mpr ⟨Nat.lt_succ_self _, List.forall_mem_nil _⟩)
  have hstart := Expr.ComesTo.call (mark "(" 135) (.identifier (mark "iter" 131) hnames.iter) rfl
    (.cons (.identifier (mark "arr" 136) hvalue) rfl (.cons (.array (mark "[" 141) .nil) rfl .nil))
    hcall
  have hbody : mapBody.ComesTo t.scopes.size _ (.array l vs) u' :=
    .of_stmts (.define (mark "let" 24) (mark "fn" 35) (name "iter" 28) iterParameters iterBody
      (.expression (mark "iter" 131) hstart))
  exact ⟨l, vs, u', .function rfl hbody rfl, hsofar.trans hu', hvs⟩

/-- In a scope of its own with a name for the array and one for the function, the program adds a
name for the outer function. -/
theorem find?_define_map {arr : Value} (hs : s.Closed) (hf : f.Fits s) (harr : arr.Fits s) :
    let start := s.enter none ["arr", "f"] [arr, f]
    let u := start.define s.scopes.size "map" mapParameters mapBody
    s.Before u ∧ s.scopes.size < u.scopes.size ∧ ∀ x, u.find? s.scopes.size x =
      if "map" = x then some (mapFunction start.nextId s.scopes.size)
      else if "f" = x then some f else if "arr" = x then some arr else none := by
  intro start u
  have hnew : s.scopes.size < start.scopes.size := s.lt_enter _ _ _
  have hstart : s.Before start :=
    .enter hs (fun o ho => absurd ho (Option.not_mem_none o)) _
      (List.forall_mem_cons.mpr ⟨harr, List.forall_mem_singleton.mpr hf⟩)
  have hu : s.Before u := hstart.define (Nat.le_refl _) hnew "map" mapParameters mapBody
  have hlink : u.link s.scopes.size = some none :=
    (Store.link_define _ _ _ _).trans (link_enter s none "arr" "f" arr f)
  refine ⟨hu, (Store.grows_define _ _ _ _).scope_lt hnew, fun x => ?_⟩
  rw [hu.closed.find?_root hlink, Store.ownAt_define hnew, ownAt_enter]
  simp only [true_and, mapFunction]

end Mapping

/-- **The program maps.** Let a function be such that on each element of an array its application
ends with a value that is no error. In a fresh scope in which the two have their names, the
program ends, and with an array: on one element after the other it is what the function comes to
there (`Store.MapsTo`). The array and all other scopes are as they were. -/
theorem recursive_map_maps {s : Store} {id : ObjectId} {elements : List Value} {f : Value}
    (hs : s.Closed) (harr : (Value.array id elements).Fits s) (hf : f.Fits s)
    (hfunction : f.type = .function ∨ f.type = .builtin)
    (happlies : ∀ x ∈ elements, ∃ v t, s.Applies f x v t ∧ v.isError = false) :
    let start := (s.openScope none).2.bindAll s.scopes.size ["arr", "f"] [.array id elements, f]
    (parse mapSource).errors = [] ∧
      ∃ n l results t, evalProgram n (parse mapSource).program s.scopes.size start =
          .done (some (.array l results)) t ∧
        List.Forall₂ (s.MapsTo f) elements results ∧ s.Untouched t ∧
        t.find? s.scopes.size "arr" = some (.array id elements) ∧
        t.find? s.scopes.size "f" = some f := by
  intro start
  rw [parse_mapSource.2]
  refine ⟨parse_mapSource.1, ?_⟩
  have hok : f.isError = false := by
    cases f with
    | error => rcases hfunction with h | h <;> cases h
    | _ => rfl
  obtain ⟨hu, hscope, hfind⟩ := find?_define_map hs hf harr
  obtain ⟨l, vs, t, hcall, ht, hvs⟩ := map_ends (j := start.nextId) hs hf hok
    (fun x hx => ⟨(Value.fits_array.mp harr).2 x hx, happlies x hx⟩) harr hu hscope
    (fun b => by rw [Store.valueOf, hfind]; cases b <;> rfl)
  have hstart := Expr.ComesTo.call (mark "(" 152) (.bound (mark "map" 149) (hfind "map")) rfl
    (.cons (.bound (mark "arr" 153) (hfind "arr")) rfl
      (.cons (.bound (mark "f" 158) (hfind "f")) hok .nil)) hcall
  obtain ⟨n, hn⟩ : StmtsComeTo program.statements s.scopes.size start (.array l vs) t :=
    .define (mark "let" 1) (mark "fn" 11) (name "map" 5) mapParameters mapBody
      (.expression (mark "map" 149) hstart)
  refine ⟨n, l, vs, t, ?_, hvs, (hu.trans ht).untouched, ?_, ?_⟩
  · rw [evalProgram, hn]
    rfl
  · exact (ht.untouched.find?_eq hu.closed hscope "arr").trans (hfind "arr")
  · exact (ht.untouched.find?_eq hu.closed hscope "f").trans (hfind "f")

/-- Two numbers are doubled. -/
theorem recursive_map_maps_doubled :
    let m : Mark := ⟨"", .start⟩
    let body : Block :=
      .mk m [.expression m (.infixOp m (.identifier m "x") "*" (.integer m 2))]
    let f : Value := .function 0 [⟨m, "x"⟩] body 0
    let elements : List Value := [.integer 1 4, .integer 2 5]
    let s : Store := ⟨#[⟨[], none⟩], 4⟩
    let start := (s.openScope none).2.bindAll s.scopes.size ["arr", "f"] [.array 3 elements, f]
    s.Closed ∧ (Value.array 3 elements).Fits s ∧ f.Fits s ∧ f.type = .function ∧
      (∀ x ∈ elements, ∃ v t, s.Applies f x v t ∧ v.isError = false) ∧
      ∃ n l results t, evalProgram n (parse mapSource).program s.scopes.size start =
          .done (some (.array l results)) t ∧
        List.Forall₂ (s.MapsTo f) elements results ∧ results.length = 2 := by
  intro m body f elements s start
  have hs : s.Closed := by
    refine ⟨fun i sc hsc => ?_, fun sc hsc => ?_⟩
    · cases Array.mem_singleton.mp (Array.mem_of_getElem? hsc)
      exact fun o ho => absurd ho (Option.not_mem_none o)
    · cases Array.mem_singleton.mp hsc
      exact List.forall_mem_nil _
  have hf : f.Fits s := .function ⟨by decide, by decide⟩
  have harr : (Value.array 3 elements).Fits s := by
    refine Value.fits_array.mpr ⟨by decide, fun v hv => ?_⟩
    rcases List.mem_pair.mp hv with rfl | rfl <;> rintro w ⟨⟩
    · exact (by decide : 1 < 4)
    · exact (by decide : 2 < 4)
  have happlies : ∀ x ∈ elements, ∃ v t, s.Applies f x v t ∧ v.isError = false := by
    intro x hx
    rcases List.mem_pair.mp hx with rfl | rfl
    · exact ⟨_, _, ⟨9, by cbv⟩, rfl⟩
    · exact ⟨_, _, ⟨9, by cbv⟩, rfl⟩
  obtain ⟨-, n, l, results, t, hend, hresults, -⟩ :=
    recursive_map_maps hs harr hf (.inl rfl) happlies
  exact ⟨hs, harr, hf, rfl, happlies, n, l, results, t, hend, hresults,
    hresults.length_eq.symm⟩

end MonkeyLang
