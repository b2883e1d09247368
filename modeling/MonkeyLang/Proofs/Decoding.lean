import Mathlib.Data.Nat.Find
import Mathlib.Data.List.Infix
import MonkeyLang.Proofs.EncodedCharacters
import MonkeyLang.Source
import MonkeyLang.Token.Stream

/-!
# Texts that are given as bytes

A program may be given as bytes. What they stand for is told without the reader (`Reads`): they are
cut into encoded characters and, where none stands, the longest piece that begins one or else a
single byte, which counts as one replacement character. There is exactly one such text, and the
reader finds it (`reads_iff`).

So the bytes of a text are read as that text. And since a byte below 0x80 neither begins nor
continues a longer form, it is read as itself wherever it stands: no ill-formed piece swallows
a quote, a brace or a line feed, and none is made up (`bytes_are_read_faithfully`).
-/

namespace MonkeyLang

namespace Utf8

/-! ## Ill-formed pieces -/

/-- The bytes begin the encoding of some character. -/
def Begins (w : List UInt8) : Prop := ∃ c, w <+: String.utf8EncodeChar c

/-- Between what has been read and `rest` stands a maximal ill-formed piece `w`: no character
starts there, and `w` is the longest piece that begins one, or a single byte. -/
structure IllFormed (w rest : List UInt8) : Prop where
  no_char : ∀ c, ¬String.utf8EncodeChar c <+: w ++ rest
  begins : Begins w ∨ w.length = 1
  nonempty : w ≠ []
  longest : ∀ v, Begins v → v <+: w ++ rest → v.length ≤ w.length

/-- The bytes stand for a text. -/
inductive Reads : List UInt8 → List Char → Prop
  | nil : Reads [] []
  | char (c) {bs cs} : Reads bs cs → Reads (String.utf8EncodeChar c ++ bs) (c :: cs)
  | illFormed {w bs cs} : IllFormed w bs → Reads bs cs → Reads (w ++ bs) (replacement :: cs)

theorem Form.begins {bs w : List UInt8} {n : Nat} (h : Form bs n) (hw : w <+: bs) : Begins w :=
  ⟨Char.ofNat n, h.encode ▸ hw⟩

theorem isSecond_low (a : UInt8) : IsSecond a (secondLow a) := by
  refine ⟨UInt8.le_refl _, ?_⟩
  unfold secondLow secondHigh
  repeat' split
  all_goals first | decide | simp_all

theorem isTail_low : IsTail 0x80 := ⟨by decide, by decide⟩

/-- Behind some bytes the reader is in a state and has not given anything yet. -/
def LeadsTo (w : List UInt8) (q : State) : Prop :=
  ∀ rest, unitsFrom .start (w ++ rest) = unitsFrom q rest

theorem LeadsTo.lead {a : UInt8} {q : State} (h : first a = ([], q)) : LeadsTo [a] q := by
  intro rest
  rw [List.singleton_append, unitsFrom_cons, step_start, h]
  rfl

theorem LeadsTo.more {w : List UInt8} {owed bits : Nat} {low high b : UInt8}
    (h : LeadsTo w (.inside (owed + 2) low high bits)) (hb : low ≤ b ∧ b ≤ high) :
    LeadsTo (w ++ [b]) (.inside (owed + 1) 0x80 0xBF (withBits bits b)) := by
  intro rest
  rw [List.append_assoc, h, List.singleton_append, unitsFrom_cons, step_more hb]
  rfl

/-- Behind some bytes the reader is inside a character, and every byte that it asks for next
continues one. -/
structure StaysIn (w : List UInt8) (owed : Nat) (low high : UInt8) (bits : Nat) : Prop where
  leads : LeadsTo w (.inside owed low high bits)
  continues : ∀ b, low ≤ b ∧ b ≤ high → Begins (w ++ [b])

/-- On the way through a form the reader stays inside. -/
theorem Form.exists_staysIn {bs w : List UInt8} {n : Nat} (h : Form bs n) (hw : w <+: bs)
    (hne : w ≠ []) (hproper : w ≠ bs) : ∃ owed low high bits, StaysIn w owed low high bits := by
  obtain ⟨x, w, rfl⟩ := List.exists_cons_of_ne_nil hne
  cases h with
  | one _ => simp_all [List.cons_prefix_cons]
  | two ha ha' hb =>
      obtain ⟨rfl, hw⟩ := List.cons_prefix_cons.mp hw
      rcases w with _ | ⟨y, w⟩
      · exact ⟨_, _, _, _, .lead (first_two ha ha'), fun b hb =>
          (Form.two ha ha' hb).begins (List.prefix_refl _)⟩
      · simp_all [List.cons_prefix_cons]
  | three ha ha' hb hc =>
      obtain ⟨rfl, hw₁⟩ := List.cons_prefix_cons.mp hw
      have hlead := LeadsTo.lead (first_three ha ha')
      rcases w with _ | ⟨y, w⟩
      · exact ⟨_, _, _, _, hlead, fun b hb =>
          (Form.three ha ha' hb isTail_low).begins ⟨_, rfl⟩⟩
      obtain ⟨rfl, hw₂⟩ := List.cons_prefix_cons.mp hw₁
      rcases w with _ | ⟨z, w⟩
      · exact ⟨_, _, _, _, hlead.more hb, fun c hc =>
          (Form.three ha ha' hb hc).begins (List.prefix_refl _)⟩
      · simp_all [List.cons_prefix_cons]
  | four ha ha' hb hc hd =>
      obtain ⟨rfl, hw₁⟩ := List.cons_prefix_cons.mp hw
      have hlead := LeadsTo.lead (first_four ha ha')
      rcases w with _ | ⟨y, w⟩
      · exact ⟨_, _, _, _, hlead, fun b hb =>
          (Form.four ha ha' hb isTail_low isTail_low).begins ⟨_, rfl⟩⟩
      obtain ⟨rfl, hw₂⟩ := List.cons_prefix_cons.mp hw₁
      rcases w with _ | ⟨z, w⟩
      · exact ⟨_, _, _, _, hlead.more hb, fun c hc =>
          (Form.four ha ha' hb hc isTail_low).begins ⟨_, rfl⟩⟩
      obtain ⟨rfl, hw₃⟩ := List.cons_prefix_cons.mp hw₂
      rcases w with _ | ⟨u, w⟩
      · exact ⟨_, _, _, _, (hlead.more hb).more hc, fun d hd =>
          (Form.four ha ha' hb hc hd).begins (List.prefix_refl _)⟩
      · simp_all [List.cons_prefix_cons]

theorem high_of_not_begins {a : UInt8} (h : ¬Begins [a]) : 0x80 ≤ a.toNat := by
  by_contra hlt
  exact h ((Form.one (Nat.lt_of_not_le hlt)).begins (List.prefix_refl _))

/-- A byte that begins no character is given up at once. -/
theorem first_of_not_begins {a : UInt8} (h : ¬Begins [a]) : first a = ([none], .start) := by
  have hbegins {bs : List UInt8} {n : Nat} (hform : Form (a :: bs) n) : False :=
    h (hform.begins ⟨bs, rfl⟩)
  refine first_none (high_of_not_begins h) ?_
  by_contra hlead
  rw [not_or, Nat.not_lt, Nat.not_le] at hlead
  obtain ⟨hlow, hhigh⟩ := hlead
  by_cases htwo : a.toNat < 0xE0
  · exact hbegins (.two hlow htwo (isSecond_low a))
  by_cases hthree : a.toNat < 0xF0
  · exact hbegins (.three (Nat.not_lt.mp htwo) hthree (isSecond_low a) isTail_low)
  · exact hbegins (.four (Nat.not_lt.mp hthree) hhigh (isSecond_low a) isTail_low isTail_low)

/-- The reader gives up a maximal ill-formed piece as a whole and reads on behind it. -/
theorem IllFormed.units_append {w rest : List UInt8} (h : IllFormed w rest) :
    units (w ++ rest) = none :: units rest := by
  by_cases hbegins : Begins w
  · obtain ⟨c, hc⟩ := hbegins
    have hproper : w ≠ String.utf8EncodeChar c := by
      rintro rfl
      exact h.no_char c (List.prefix_append _ _)
    obtain ⟨owed, low, high, bits, hstays⟩ :=
      (form_encode c).exists_staysIn hc h.nonempty hproper
    rw [units, hstays.leads]
    cases rest with
    | nil => rfl
    | cons b rest =>
        -- a byte that the reader asked for would make the piece longer
        have hout : ¬(low ≤ b ∧ b ≤ high) := fun hb => by
          have hlength := h.longest (w ++ [b]) (hstays.continues b hb) ⟨rest, by simp⟩
          rw [List.length_append, List.length_singleton] at hlength
          omega
        rw [unitsFrom_cons, step_out hout, units, unitsFrom_cons, step_start]
        rfl
  · obtain ⟨a, rfl⟩ := List.length_eq_one_iff.mp (h.begins.resolve_left hbegins)
    rw [List.singleton_append, units, unitsFrom_cons, step_start, first_of_not_begins hbegins]
    rfl

/-! ## What bytes stand for -/

/-- The reader finds every text that the bytes stand for. -/
theorem Reads.decode_eq {bs : List UInt8} {cs : List Char} (h : Reads bs cs) :
    decode bs = cs := by
  induction h with
  | nil => rfl
  | char c _ ih =>
      rw [decode, units, (form_encode c).unitsFrom, Char.ofNat_toNat, List.map_cons]
      exact congrArg (c :: ·) ih
  | illFormed h _ ih =>
      rw [decode, h.units_append, List.map_cons]
      exact congrArg (replacement :: ·) ih

/-- Where no character starts, a maximal ill-formed piece stands. -/
theorem exists_illFormed {bs : List UInt8} (hne : bs ≠ [])
    (h : ∀ c, ¬String.utf8EncodeChar c <+: bs) :
    ∃ w rest, bs = w ++ rest ∧ IllFormed w rest := by
  classical
  -- as far as the bytes still begin a character, and one byte at least
  let P : Nat → Prop := fun k => Begins (bs.take k) ∨ k = 1
  have hlength : 1 ≤ bs.length := List.length_pos_iff.mpr hne
  let k := Nat.findGreatest P bs.length
  have hk : P k := Nat.findGreatest_spec hlength (.inr rfl)
  have hpos : 1 ≤ k := Nat.le_findGreatest hlength (.inr rfl)
  have hle : k ≤ bs.length := Nat.findGreatest_le _
  have hsize : (bs.take k).length = k := List.length_take_of_le hle
  refine ⟨bs.take k, bs.drop k, (List.take_append_drop k bs).symm, ?_⟩
  rw [← List.take_append_drop k bs] at h
  refine ⟨h, hk.imp_right fun hk => hsize.trans hk, ?_, fun v hv hprefix => ?_⟩
  · exact List.length_pos_iff.mp (by omega)
  · rw [List.take_append_drop] at hprefix
    rw [hsize]
    refine Nat.le_findGreatest hprefix.length_le (.inl ?_)
    rwa [← List.prefix_iff_eq_take.mp hprefix]

/-- Any bytes stand for a text. -/
theorem exists_reads (bs : List UInt8) : ∃ cs, Reads bs cs := by
  induction hlen : bs.length using Nat.strong_induction_on generalizing bs with
  | _ n ih =>
      by_cases hne : bs = []
      · exact ⟨[], hne ▸ .nil⟩
      by_cases hchar : ∃ c, String.utf8EncodeChar c <+: bs
      · obtain ⟨c, rest, rfl⟩ := hchar
        have hpos := List.length_pos_iff.mpr (String.utf8EncodeChar_ne_nil (c := c))
        rw [List.length_append] at hlen
        obtain ⟨cs, hcs⟩ := ih rest.length (by omega) rest rfl
        exact ⟨c :: cs, .char c hcs⟩
      · obtain ⟨w, rest, rfl, hw⟩ := exists_illFormed hne (not_exists.mp hchar)
        have hpos := List.length_pos_iff.mpr hw.nonempty
        rw [List.length_append] at hlen
        obtain ⟨cs, hcs⟩ := ih rest.length (by omega) rest rfl
        exact ⟨_, .illFormed hw hcs⟩

/-- The reader finds exactly the text that the bytes stand for. -/
theorem reads_iff {bs : List UInt8} {cs : List Char} : Reads bs cs ↔ decode bs = cs := by
  refine ⟨Reads.decode_eq, ?_⟩
  rintro rfl
  obtain ⟨cs, hcs⟩ := exists_reads bs
  rwa [hcs.decode_eq]

/-! ## Bytes below 0x80 -/

/-- The byte a reader inside a character asks for is not below 0x80. -/
def State.AsksHigh : State → Prop
  | .start => True
  | .inside _ low _ _ => 0x80 ≤ low

theorem first_asksHigh (b : UInt8) : (first b).2.AsksHigh := by
  unfold first
  repeat' split
  all_goals simp [State.AsksHigh]

theorem step_asksHigh {q : State} (hq : q.AsksHigh) (b : UInt8) : (step q b).2.AsksHigh := by
  cases q with
  | start => exact first_asksHigh b
  | inside owed low high bits =>
      by_cases hin : low ≤ b ∧ b ≤ high
      · rw [step, if_pos hin]
        by_cases hlast : owed ≤ 1
        · rw [if_pos hlast]
          trivial
        · rw [if_neg hlast]
          exact UInt8.le_refl 0x80
      · rw [step_out hin]
        exact first_asksHigh b

section Low

variable {c : UInt8} (hc : c < 0x80)

include hc

/-- A byte below 0x80 closes what is open and is read as itself. -/
theorem unitsFrom_low {q : State} (hq : q.AsksHigh) (v : List UInt8) :
    unitsFrom q (c :: v) = unitsFrom q [] ++ some (Char.ofNat c.toNat) :: units v := by
  have hfirst := first_one (UInt8.lt_iff_toNat_lt.mp hc)
  cases q with
  | start =>
      rw [unitsFrom_cons, step_start, hfirst]
      rfl
  | inside owed low high bits =>
      have hout : ¬(low ≤ c ∧ c ≤ high) := fun h =>
        absurd (UInt8.le_trans hq h.1) (UInt8.not_le.mpr hc)
      rw [unitsFrom_cons, step_out hout, hfirst]
      rfl

/-- So the text is read in two parts, before and behind it. -/
theorem unitsFrom_append_low (u v : List UInt8) {q : State} (hq : q.AsksHigh) :
    unitsFrom q (u ++ c :: v) = unitsFrom q u ++ some (Char.ofNat c.toNat) :: units v := by
  induction u generalizing q with
  | nil => exact unitsFrom_low hc hq v
  | cons b u ih =>
      rw [List.cons_append, unitsFrom_cons, unitsFrom_cons, ih (step_asksHigh hq b),
        List.append_assoc]

theorem decode_append_low (u v : List UInt8) :
    decode (u ++ [c] ++ v) = decode u ++ [Char.ofNat c.toNat] ++ decode v := by
  have hunits : units (u ++ c :: v) = _ := unitsFrom_append_low hc u v (q := .start) trivial
  rw [List.append_assoc, List.singleton_append, decode, hunits, List.map_append, List.map_cons,
    List.append_assoc]
  rfl

end Low

/-- A character is either a byte below 0x80 or has none among its bytes. -/
theorem Form.low_or_high {bs : List UInt8} {n : Nat} (h : Form bs n) :
    (n < 0x80 ∧ bs = [UInt8.ofNat n]) ∨ (0x80 ≤ n ∧ ∀ b ∈ bs, 0x80 ≤ b.toNat) := by
  cases h with
  | one ha => exact .inl ⟨ha, by rw [UInt8.ofNat_toNat]⟩
  | two ha ha' hb =>
      replace hb := isSecond_iff.mp hb
      unfold withBits
      refine .inr ⟨by omega, ?_⟩
      simp only [List.mem_cons, List.not_mem_nil, or_false, forall_eq_or_imp, forall_eq]
      omega
  | three ha ha' hb hc =>
      replace hb := isSecond_iff.mp hb
      replace hc := isTail_iff.mp hc
      unfold withBits
      refine .inr ⟨by omega, ?_⟩
      simp only [List.mem_cons, List.not_mem_nil, or_false, forall_eq_or_imp, forall_eq]
      omega
  | four ha ha' hb hc hd =>
      replace hb := isSecond_iff.mp hb
      replace hc := isTail_iff.mp hc
      replace hd := isTail_iff.mp hd
      unfold withBits
      refine .inr ⟨by omega, ?_⟩
      simp only [List.mem_cons, List.not_mem_nil, or_false, forall_eq_or_imp, forall_eq]
      omega

theorem IllFormed.high {w rest : List UInt8} (h : IllFormed w rest) :
    ∀ b ∈ w, 0x80 ≤ b.toNat := by
  by_cases hbegins : Begins w
  · obtain ⟨c, hc⟩ := hbegins
    rcases (form_encode c).low_or_high with ⟨-, hone⟩ | ⟨-, hhigh⟩
    · have hlength : 1 ≤ w.length := List.length_pos_iff.mpr h.nonempty
      have hwhole : w = String.utf8EncodeChar c :=
        hc.eq_of_length_le (by rwa [hone, List.length_singleton])
      exact absurd (hwhole ▸ List.prefix_append w rest) (h.no_char c)
    · exact fun b hb => hhigh b (hc.subset hb)
  · obtain ⟨a, rfl⟩ := List.length_eq_one_iff.mp (h.begins.resolve_left hbegins)
    intro b hb
    rw [List.mem_singleton.mp hb]
    exact high_of_not_begins hbegins

/-- The characters below 0x80 that some bytes stand for are the bytes below 0x80. -/
theorem Reads.filter_low {bs : List UInt8} {cs : List Char} (h : Reads bs cs) :
    cs.filter (·.toNat < 0x80) =
      (bs.filter (·.toNat < 0x80)).map fun b => Char.ofNat b.toNat := by
  have hnone {w : List UInt8} (hw : ∀ b ∈ w, 0x80 ≤ b.toNat) :
      w.filter (·.toNat < 0x80) = [] :=
    List.filter_eq_nil_iff.mpr fun b hb => by
      have := hw b hb
      simp only [decide_eq_true_eq]
      omega
  induction h with
  | nil => rfl
  | @char c bs cs _ ih =>
      rw [List.filter_append, List.map_append, ← ih]
      rcases (form_encode c).low_or_high with ⟨hlow, hone⟩ | ⟨hhigh, hbytes⟩
      · have hbyte : (UInt8.ofNat c.toNat).toNat = c.toNat := by
          rw [UInt8.toNat_ofNat']
          omega
        rw [hone, List.filter_cons_of_pos (by simpa), List.filter_cons_of_pos (by simpa [hbyte]),
          List.filter_nil, List.map_singleton, hbyte, Char.ofNat_toNat, List.singleton_append]
      · rw [hnone hbytes, List.filter_cons_of_neg (by simpa), List.map_nil, List.nil_append]
  | illFormed h _ ih =>
      rw [List.filter_append, hnone h.high, List.nil_append, ← ih]
      exact List.filter_cons_of_neg (by decide)

/-! ## Texts -/

theorem reads_encode (cs : List Char) : Reads (encode cs) cs := by
  induction cs with
  | nil => exact .nil
  | cons c cs ih => exact .char c ih

@[simp] theorem decode_encode (cs : List Char) : decode (encode cs) = cs :=
  (reads_encode cs).decode_eq

end Utf8

/-- Bytes are read as the one text they stand for. The bytes of a text are read as that text, so
that everything that is made of it stays the same; and a byte below 0x80 is read as itself between
whatever is read before it and behind it, with no such character read in any other way. -/
theorem bytes_are_read_faithfully :
    (∀ bs position place cs,
      (Stream.ofBytes bs position place).text = cs ↔ Utf8.Reads bs cs) ∧
    (∀ (s : String) position place,
      let stream := Stream.ofBytes (Utf8.encode s.toList) position place
      let text := String.ofList stream.text
      stream = .ofText s.toList position place ∧ text = s ∧
        tokenize text = tokenize s ∧ parse text = parse s ∧
        ∀ scope store, evaluate text scope store = evaluate s scope store) ∧
    (∀ (u v : List UInt8) (c : UInt8), c < 0x80 → ∀ position place,
      (Stream.ofBytes (u ++ [c] ++ v) position place).text =
        (Stream.ofBytes u position place).text ++ [Char.ofNat c.toNat] ++
          (Stream.ofBytes v position place).text) ∧
    ∀ bs position place,
      (Stream.ofBytes bs position place).text.filter (·.toNat < 0x80) =
        (bs.filter (·.toNat < 0x80)).map fun b => Char.ofNat b.toNat := by
  refine ⟨fun bs _ _ cs => Utf8.reads_iff.symm, fun s position place => ?_,
    fun u v c hc _ _ => Utf8.decode_append_low hc u v, fun bs _ _ => ?_⟩
  · have hstream : Stream.ofBytes (Utf8.encode s.toList) position place =
        .ofText s.toList position place := by
      rw [Stream.ofBytes, Utf8.decode_encode]
    have htext : String.ofList (Stream.ofText s.toList position place).text = s :=
      String.ofList_toList
    simp only [hstream, htext, true_and, implies_true]
  · obtain ⟨cs, hcs⟩ := Utf8.exists_reads bs
    rw [Stream.ofBytes, hcs.decode_eq]
    exact hcs.filter_low

/-- The first two bytes of the euro sign, a quote and the byte that would have ended the sign. -/
theorem bytes_are_read_faithfully_quote :
    (0x22 : UInt8) < 0x80 ∧
      (Stream.ofBytes ([0xE2, 0x82] ++ [0x22] ++ [0xAC]) 0 .start).text =
        ['\uFFFD', '"', '\uFFFD'] :=
  ⟨by decide, bytes_are_read_faithfully.2.2.1 [0xE2, 0x82] [0xAC] 0x22 (by decide) 0 .start⟩

end MonkeyLang
