import MonkeyLang.Proofs.KeyEquality

/-!
# What a hash literal leaves

The pairs of a hash literal are written one after another, and a key that is known already is
written over. What is left depends on the whole of the pairs only: the keys stand in the order in
which each of them came first, and each has the key object and the value of the pair that came
last (`Reflects`). So position, key and value of an entry may come of three different pairs.

Reading and printing a hash see nothing but its entries. `hash_literal_reads_last` puts the three
together.
-/

namespace MonkeyLang

namespace Entries

/-- What the keys of some entries are known by, in the order of the entries. -/
def keys (entries : Entries) : List (Option HashKey) :=
  entries.map fun e => e.1.hashKey?

/-- The last of some pairs that is written under a key. -/
def lastUnder (key : Option HashKey) (written : Entries) : Option (Value × Value) :=
  (written.filter fun e => e.1.hashKey? = key).getLast?

/-- What the last of the pairs under a key wrote there; null if there is no such pair. -/
def valueUnder (key : Option HashKey) (written : Entries) : Value :=
  ((lastUnder key written).map Prod.snd).getD .null

/-- The entries are what is left of pairs that were written one after another: one entry for each
key, in the order in which the keys came first, and each entry the last pair under its key. -/
structure Reflects (entries written : Entries) : Prop where
  order : entries.keys = written.keys.eraseDups
  distinct : entries.keys.Nodup
  last : ∀ e ∈ entries, lastUnder e.1.hashKey? written = some e

variable {entries written : Entries} {k v : Value}

theorem keys_append (written more : Entries) : keys (written ++ more) = written.keys ++ more.keys :=
  List.map_append

/-! ## One write -/

theorem keys_insert (k v : Value) : ∀ entries : Entries,
    keys (insert k v entries) =
      if k.hashKey? ∈ keys entries then keys entries else keys entries ++ [k.hashKey?]
  | [] => rfl
  | e :: entries => by
      have ih := keys_insert k v entries
      by_cases he : e.1.hashKey? = k.hashKey?
      · rw [insert, if_pos he, keys, List.map_cons, keys, List.map_cons, he,
          if_pos List.mem_cons_self]
      · have hmem : k.hashKey? ∈ keys (e :: entries) ↔ k.hashKey? ∈ keys entries := by
          rw [keys, List.map_cons, List.mem_cons]
          exact or_iff_right (Ne.symm he)
        have hcons : keys (insert k v (e :: entries)) =
            e.1.hashKey? :: keys (insert k v entries) := by
          rw [insert, if_neg he]
          rfl
        rw [hcons, ih, if_congr hmem rfl rfl]
        split <;> rfl

/-- An entry after a write is what was written, or it was there under another key. -/
theorem mem_insert (hdistinct : entries.keys.Nodup) {e : Value × Value}
    (h : e ∈ insert k v entries) :
    e = (k, v) ∨ (e ∈ entries ∧ e.1.hashKey? ≠ k.hashKey?) := by
  induction entries with
  | nil => exact .inl (List.mem_singleton.mp h)
  | cons first entries ih =>
      obtain ⟨hfirst, hrest⟩ := List.nodup_cons.mp hdistinct
      by_cases hkey : first.1.hashKey? = k.hashKey?
      · rw [insert, if_pos hkey] at h
        rcases List.mem_cons.mp h with rfl | h
        · exact .inl rfl
        · -- the keys are distinct, so the one that was written over had the key for itself
          refine .inr ⟨List.mem_cons_of_mem _ h, fun heq => hfirst ?_⟩
          exact List.mem_map.mpr ⟨e, h, heq.trans hkey.symm⟩
      · rw [insert, if_neg hkey] at h
        rcases List.mem_cons.mp h with rfl | h
        · exact .inr ⟨List.mem_cons_self, hkey⟩
        · exact (ih hrest h).imp_right (And.imp_left (List.mem_cons_of_mem _))

theorem lastUnder_concat (key : Option HashKey) (written : Entries) (e : Value × Value) :
    lastUnder key (written ++ [e]) =
      if e.1.hashKey? = key then some e else lastUnder key written := by
  rw [lastUnder, List.filter_append]
  split <;> rename_i h <;> simp [h, lastUnder]

/-- One more pair is one more write. -/
theorem Reflects.insert (h : Reflects entries written) :
    Reflects (insert k v entries) (written ++ [(k, v)]) := by
  have hmem : k.hashKey? ∈ entries.keys ↔ k.hashKey? ∈ written.keys := by
    rw [h.order, List.mem_eraseDups]
  refine ⟨?_, ?_, fun e he => ?_⟩
  · rw [keys_insert, keys_append, List.eraseDups_append, ← h.order]
    have hkey : keys [(k, v)] = [k.hashKey?] := rfl
    rw [hkey]
    by_cases hk : k.hashKey? ∈ written.keys
    · have hknown : [k.hashKey?].removeAll written.keys = [] := by
        simp [List.removeAll, hk]
      rw [if_pos (hmem.mpr hk), hknown, List.eraseDups_nil, List.append_nil]
    · have hnew : [k.hashKey?].removeAll written.keys = [k.hashKey?] := by
        simp [List.removeAll, hk]
      rw [if_neg (mt hmem.mp hk), hnew]
      rfl
  · rw [keys_insert]
    split
    · exact h.distinct
    · rename_i hk
      rw [← List.concat_eq_append]
      exact h.distinct.concat hk
  · rw [lastUnder_concat]
    rcases mem_insert h.distinct he with rfl | ⟨he, hne⟩
    · exact if_pos rfl
    · rw [if_neg hne.symm]
      exact h.last e he

/-! ## All writes -/

theorem reflects_nil : Reflects [] [] :=
  ⟨rfl, List.nodup_nil, List.forall_mem_nil _⟩

theorem Reflects.insertAll : ∀ (more : Entries) {entries written : Entries},
    Reflects entries written → Reflects (insertAll more entries) (written ++ more)
  | [], entries, written, h => by
      rw [List.append_nil]
      exact h
  | (k, v) :: more, entries, written, h => by
      have hmore := Reflects.insertAll more (h.insert (k := k) (v := v))
      rwa [List.append_assoc] at hmore

/-! ## Reading -/

theorem find?_eq_map (key : HashKey) (entries : Entries) :
    Entries.find? key entries =
      (List.find? (fun e => e.1.hashKey? = some key) entries).map Prod.snd := by
  induction entries with
  | nil => rfl
  | cons e entries ih =>
      rw [Entries.find?, List.find?_cons]
      split <;> rename_i h <;> simp [h, ih]

/-- Under a key stands what the last pair under it wrote. -/
theorem Reflects.find?_eq (h : Reflects entries written) (key : HashKey) :
    Entries.find? key entries = (lastUnder (some key) written).map Prod.snd := by
  rw [find?_eq_map]
  cases hfind : List.find? (fun e => e.1.hashKey? = some key) entries with
  | some e =>
      have hkey : e.1.hashKey? = some key := by simpa using List.find?_some hfind
      rw [← hkey, h.last e (List.mem_of_find?_eq_some hfind)]
  | none =>
      have hnot : some key ∉ written.keys := by
        rw [← List.mem_eraseDups, ← h.order]
        intro hmem
        obtain ⟨e, he, hkey⟩ := List.mem_map.mp hmem
        exact List.find?_eq_none.mp hfind e he (by simpa using hkey)
      have hfilter : written.filter (fun e => e.1.hashKey? = some key) = [] :=
        List.filter_eq_nil_iff.mpr fun e he hkey =>
          hnot (List.mem_map.mpr ⟨e, he, by simpa using hkey⟩)
      rw [lastUnder, hfilter]
      rfl

theorem Reflects.indexOp_eq (h : Reflects entries written) (id : ObjectId) {q : Value}
    (hq : q.hashKey?.isSome) :
    (Value.hash id entries).indexOp q = .existing (valueUnder q.hashKey? written) := by
  obtain ⟨key, hkey⟩ := Option.isSome_iff_exists.mp hq
  rw [Value.indexOp, hkey, valueUnder, ← h.find?_eq]

end Entries

/-! ## Printing -/

theorem Value.inspectEntries_eq_map (entries : Entries) :
    Value.inspectEntries entries = entries.map fun e => e.1.inspect ++ ": " ++ e.2.inspect := by
  induction entries with
  | nil => rw [inspectEntries, List.map_nil]
  | cons e entries ih =>
      obtain ⟨k, v⟩ := e
      rw [inspectEntries, ih, List.map_cons]

/-! ## Hash literals -/

/-- **The last pair wins, at the place of the first.** The pairs of a hash literal come to keys and
values. The literal comes to a hash, and to nothing else. This hash has one entry for each key, in
the order in which the keys came first, and an entry is the last pair under its key. A key reads
what the last pair under it wrote, or null if there is none, also where the literal itself is
indexed. The text of the hash lists the entries in their order. -/
theorem hash_literal_reads_last {scope : ScopeId} {pairs : List (Expr × Expr)} {s s₁ : Store}
    {written : Entries} (h : PairsComeTo scope pairs s written s₁) (mark : Mark) :
    ∃ entries : Entries,
      (∀ v t, (Expr.hash mark pairs).ComesTo scope s v t ↔
        v = .hash s₁.nextId entries ∧ t = ⟨s₁.scopes, s₁.nextId + 1⟩) ∧
      entries.Reflects written ∧
      (∀ q : Value, q.hashKey?.isSome →
        (Value.hash s₁.nextId entries).indexOp q =
          .existing (Entries.valueUnder q.hashKey? written)) ∧
      (∀ mark' right q t, q.hashKey?.isSome →
        Expr.ComesTo right scope ⟨s₁.scopes, s₁.nextId + 1⟩ q t →
        (Expr.index mark' (.hash mark pairs) right).ComesTo scope s
          (Entries.valueUnder q.hashKey? written) t) ∧
      (Value.hash s₁.nextId entries).inspect =
        "\x7b" ++ ", ".intercalate (entries.map fun e => e.1.inspect ++ ": " ++ e.2.inspect) ++
          "\x7d" := by
  have hhash := h.hash_comesTo mark
  have hreflects : Entries.Reflects (Entries.insertAll written []) written :=
    .insertAll written Entries.reflects_nil
  have hindex := fun {q : Value} => hreflects.indexOp_eq s₁.nextId (q := q)
  refine ⟨Entries.insertAll written [], fun v t => ⟨fun hv => hv.unique hhash, ?_⟩, hreflects,
    fun q => hindex, fun mark' right q t hq hright => ?_, ?_⟩
  · rintro ⟨rfl, rfl⟩
    exact hhash
  · exact index_comesTo hhash hright rfl (Value.isError_of_hashKey? hq) (hindex hq)
  · rw [Value.inspect, Value.inspectEntries_eq_map]

/-- The number one comes first and third: it stands first, with the last of its objects and what
was written last. -/
theorem hash_literal_reads_last_repeated :
    let m : Mark := ⟨"", .start⟩
    let s : Store := Store.fresh.2
    let pairs : List (Expr × Expr) :=
      [(.integer m 1, .boolean m false), (.string m "one", .integer m 5),
        (.integer m 1, .boolean m true)]
    let written : Entries :=
      [(.integer 0 1, .boolean false), (.string 1 "one", .integer 2 5),
        (.integer 3 1, .boolean true)]
    PairsComeTo 0 pairs s written ⟨s.scopes, 4⟩ ∧
    (Value.hash 4 [(.integer 3 1, .boolean true), (.string 1 "one", .integer 2 5)]).inspect =
      "\x7b1: true, one: 5\x7d" ∧
    (Expr.hash m pairs).ComesTo 0 s
      (.hash 4 [(.integer 3 1, .boolean true), (.string 1 "one", .integer 2 5)]) ⟨s.scopes, 5⟩ ∧
    (Expr.index m (.hash m pairs) (.integer m 1)).ComesTo 0 s (.boolean true) ⟨s.scopes, 6⟩ := by
  intro m s pairs written
  have hinteger : ∀ i n, (Expr.integer m i).ComesTo 0 ⟨s.scopes, n⟩ (.integer n i)
      ⟨s.scopes, n + 1⟩ := fun _ _ => ⟨1, by rw [evalExpr]; rfl⟩
  have hboolean : ∀ b n, (Expr.boolean m b).ComesTo 0 ⟨s.scopes, n⟩ (.boolean b)
      ⟨s.scopes, n⟩ := fun _ _ => ⟨1, by rw [evalExpr]; rfl⟩
  have hstring : (Expr.string m "one").ComesTo 0 ⟨s.scopes, 1⟩ (.string 1 "one") ⟨s.scopes, 2⟩ :=
    ⟨1, by rw [evalExpr]; rfl⟩
  have hpairs : PairsComeTo 0 pairs s written ⟨s.scopes, 4⟩ :=
    .cons (hinteger 1 0) (hboolean false 1) rfl rfl <|
      .cons hstring (hinteger 5 2) rfl rfl <|
        .cons (hinteger 1 3) (hboolean true 4) rfl rfl .nil
  obtain ⟨entries, hhash, -, -, hindex, hinspect⟩ := hash_literal_reads_last hpairs m
  have hrun : (Expr.hash m pairs).ComesTo 0 s
      (.hash 4 [(.integer 3 1, .boolean true), (.string 1 "one", .integer 2 5)]) ⟨s.scopes, 5⟩ :=
    ⟨5, by cbv⟩
  obtain ⟨-, rfl⟩ := Value.hash.inj ((hhash _ _).mp hrun).1
  have hlast : Entries.valueUnder (Value.integer 5 1).hashKey? written = .boolean true := by cbv
  have hread := hindex m _ _ _ rfl (hinteger 1 5)
  exact ⟨hpairs, hinspect.trans (by cbv), hrun, hlast ▸ hread⟩

end MonkeyLang
