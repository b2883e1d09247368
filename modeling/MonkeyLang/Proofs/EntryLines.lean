import MonkeyLang.Proofs.BraceCount

/-!
# The lines of an entry

An entry of a session is over at the first line after which the text typed so far
has no more opening than closing braces, braces being the brace tokens that the
lexer finds in it. So whether a line continues an entry is decided by the text of
the entry alone (`readEntry_complete`, `readEntry_open`), and the lines of a
session are cut into the entries one after another (`exists_chunks`).
-/

namespace MonkeyLang

/-! ## Where an entry is over -/

/-- Of the lines, the first `k` are an entry: after them, and after no fewer, the
text has no more opening than closing braces. -/
structure Completes (lines : List String) (k : Nat) : Prop where
  pos : 1 ≤ k
  le_length : k ≤ lines.length
  closed : braceExcess (tokenize (joinLines (lines.take k))) ≤ 0
  least : ∀ j, 1 ≤ j → j < k → 0 < braceExcess (tokenize (joinLines (lines.take j)))

/-- The first of some lines asks to leave the session. -/
def Exits (lines : List String) : Prop :=
  ∃ first ∈ lines.head?, Text.trim first = exitCommand

theorem Exits.append {lines : List String} (h : Exits lines) (more : List String) :
    Exits (lines ++ more) := by
  obtain ⟨first, hfirst, htrim⟩ := h
  exact ⟨first, by rw [List.head?_append, hfirst]; rfl, htrim⟩

theorem Exits.of_take {lines : List String} {k : Nat} (h : Exits (lines.take k)) : Exits lines := by
  have happend := h.append (lines.drop k)
  rwa [List.take_append_drop] at happend

theorem Completes.take {lines : List String} {k : Nat} (h : Completes lines k) :
    Completes (lines.take k) (lines.take k).length := by
  have hlen : (lines.take k).length = k := List.length_take_of_le h.le_length
  rw [hlen]
  refine ⟨h.pos, Nat.le_of_eq hlen.symm, ?_, fun j hj hjk => ?_⟩
  · rw [List.take_take, Nat.min_self]
    exact h.closed
  · rw [List.take_take, Nat.min_eq_left (Nat.le_of_lt hjk)]
    exact h.least j hj hjk

/-- Unless some of the lines are an entry, braces are open after each of them. -/
theorem excess_pos_of_forall_not {lines : List String} (h : ∀ k, ¬Completes lines k) {j : Nat}
    (hj : 1 ≤ j) (hle : j ≤ lines.length) :
    0 < braceExcess (tokenize (joinLines (lines.take j))) := by
  induction j using Nat.strongRecOn with
  | ind j ih =>
      refine Int.lt_of_not_ge fun hclosed => h j ⟨hj, hle, hclosed, fun i hi hij => ?_⟩
      exact ih i hij hi (Nat.le_trans (Nat.le_of_lt hij) hle)

/-! ## One entry -/

/-- An entry of which some lines have been read. -/
def Pending.after (lines : List String) : Pending :=
  ⟨lines, (balanceAfter lines).1, (balanceAfter lines).2⟩

/-- One more line: the entry is complete or goes on. -/
theorem feed_after {lines : List String} {line : String}
    (hexit : ¬Exits (lines ++ [line])) :
    (Pending.after lines).feed line =
      if braceExcess (tokenize (joinLines (lines ++ [line]))) ≤ 0 then
        .complete (Text.trim (joinLines (lines ++ [line])))
      else .more (.after (lines ++ [line])) := by
  have hno : ¬(lines.isEmpty = true ∧ Text.trim line = exitCommand) := by
    rintro ⟨hempty, htrim⟩
    rw [List.isEmpty_iff.mp hempty] at hexit
    exact hexit ⟨line, rfl, htrim⟩
  have hafter := balanceAfter_concat lines line
  rw [← (balanceAfter_eq _).1]
  unfold Pending.feed Pending.after
  rw [if_neg hno, hafter]
  rfl

/-- Lines after each of which braces are open are all read, and then the reading
goes on. -/
theorem readEntry_open (done lines : List String) (events : List Event)
    (hexit : ¬Exits (done ++ lines)) (hopen : ∀ j, 1 ≤ j → j ≤ lines.length →
      0 < braceExcess (tokenize (joinLines (done ++ lines.take j)))) :
    let r := readEntry (.after (done ++ lines)) events
    ∃ prompts, prompts.length = lines.length ∧
      readEntry (.after done) (lines.map .line ++ events) = (r.1, prompts ++ r.2.1, r.2.2) := by
  induction lines generalizing done with
  | nil =>
      intro r
      refine ⟨[], rfl, ?_⟩
      show readEntry (.after done) events = r
      rw [← List.append_nil done]
  | cons line lines ih =>
      intro r
      have hsplit : done ++ line :: lines = done ++ [line] ++ lines := by
        rw [List.append_assoc]
        rfl
      have hfirst : ¬Exits (done ++ [line]) := fun h => hexit (hsplit ▸ h.append lines)
      have hpos : 0 < braceExcess (tokenize (joinLines (done ++ [line]))) :=
        hopen 1 (Nat.le_refl 1) (Nat.succ_pos _)
      obtain ⟨prompts, hlen, hread⟩ := ih (done ++ [line]) (hsplit ▸ hexit) fun j hj hle => by
        rw [List.append_assoc]
        exact hopen (j + 1) (Nat.succ_pos j) (Nat.succ_le_succ hle)
      refine ⟨(Pending.after done).prompt :: prompts, congrArg Nat.succ hlen, ?_⟩
      rw [List.map_cons, List.cons_append, readEntry, feed_after hfirst,
        if_neg (Int.not_le.mpr hpos)]
      show (_, _, _) = _
      rw [hread, ← hsplit]
      rfl

/-- After some lines with open braces a line closes them: they are an entry. -/
theorem readEntry_closed {before : List String} {line : String} (rest : List String)
    (events : List Event) (hexit : ¬Exits (before ++ [line]))
    (hopen : ∀ j, 1 ≤ j → j ≤ before.length →
      0 < braceExcess (tokenize (joinLines (before.take j))))
    (hclosed : braceExcess (tokenize (joinLines (before ++ [line]))) ≤ 0) :
    ∃ prompts, prompts.length = before.length + 1 ∧
      readEntry .start ((before ++ line :: rest).map .line ++ events) =
        (.entry (Text.trim (joinLines (before ++ [line]))), prompts,
          rest.map .line ++ events) := by
  obtain ⟨prompts, hlen, hread⟩ :=
    readEntry_open [] before (.line line :: (rest.map .line ++ events))
      (fun h => hexit (h.append [line])) hopen
  refine ⟨prompts ++ [(Pending.after before).prompt], ?_, ?_⟩
  · rw [List.length_append, hlen]
    rfl
  · rw [List.map_append, List.map_cons, List.append_assoc, List.cons_append]
    refine Eq.trans hread ?_
    rw [List.nil_append, readEntry, feed_after hexit, if_pos hclosed]

/-- Lines of which the first ones are an entry: those are read, and no more. -/
theorem readEntry_complete {lines : List String} {k : Nat} (h : Completes lines k)
    (hexit : ¬Exits lines) (events : List Event) :
    ∃ prompts, prompts.length = k ∧ readEntry .start (lines.map .line ++ events) =
      (.entry (Text.trim (joinLines (lines.take k))), prompts,
        (lines.drop k).map .line ++ events) := by
  obtain ⟨j, rfl⟩ : ∃ j, k = j + 1 := ⟨k - 1, (Nat.sub_add_cancel h.pos).symm⟩
  have hj : j < lines.length := h.le_length
  have hlen : (lines.take j).length = j := List.length_take_of_le (Nat.le_of_lt hj)
  have htake : lines.take (j + 1) = lines.take j ++ [lines[j]] :=
    List.take_succ_eq_append_getElem hj
  have hclosed := h.closed
  rw [htake] at hclosed
  have hread := readEntry_closed (lines.drop (j + 1)) events
    (fun hx => hexit (htake ▸ hx : Exits (lines.take (j + 1))).of_take)
    (fun i hi hle => by
      rw [hlen] at hle
      rw [List.take_take, Nat.min_eq_left hle]
      exact h.least i hi (Nat.lt_succ_of_le hle)) hclosed
  rwa [← List.drop_eq_getElem_cons hj, List.take_append_drop, hlen, ← htake] at hread

theorem readEntry_exit {lines : List String} (hexit : Exits lines) (events : List Event) :
    ∃ line rest, lines = line :: rest ∧ Text.trim line = exitCommand ∧
      readEntry .start (lines.map .line ++ events) =
        (.exit, [Pending.start.prompt], rest.map .line ++ events) := by
  obtain ⟨line, hline, htrim⟩ := hexit
  obtain ⟨rest, rfl⟩ := List.head?_eq_some_iff.mp hline
  refine ⟨line, rest, rfl, htrim, ?_⟩
  have hfeed : Pending.start.feed line = .exit := if_pos ⟨rfl, htrim⟩
  rw [List.map_cons, List.cons_append, readEntry, hfeed]

/-! ## One entry after another -/

/-- Some lines are what the reading of one entry takes from the input: an entry,
the exit command, or lines that are no entry before the input ends. -/
def Consumes (chunk : List String) (r : EntryEnd × List String) : Prop :=
  match r.1 with
  | .entry text =>
    ¬Exits chunk ∧ Completes chunk chunk.length ∧ text = Text.trim (joinLines chunk)
  | .exit => ∃ line, chunk = [line] ∧ Text.trim line = exitCommand
  | .endOfInput => ¬Exits chunk ∧ ∀ k, ¬Completes chunk k
  | .interrupted => False

/-- Reading takes lines from the front, and leaves none if the input has ended. -/
theorem exists_chunk (lines : List String) :
    let r := readEntry .start (lines.map .line)
    ∃ chunk left, chunk ++ left = lines ∧ Consumes chunk (r.1, r.2.1) ∧
      r.2.2 = left.map .line ∧ (r.1 = .endOfInput → left = []) := by
  rw [← List.append_nil (lines.map Event.line)]
  intro r
  by_cases hexit : Exits lines
  · obtain ⟨line, rest, rfl, htrim, hread⟩ := readEntry_exit hexit []
    have hr : r = _ := hread
    rw [hr, List.append_nil]
    exact ⟨[line], rest, rfl, ⟨line, rfl, htrim⟩, rfl, nofun⟩
  · by_cases hcompletes : ∃ k, Completes lines k
    · obtain ⟨k, hk⟩ := hcompletes
      obtain ⟨prompts, -, hread⟩ := readEntry_complete hk hexit []
      have hr : r = _ := hread
      rw [hr, List.append_nil]
      exact ⟨lines.take k, lines.drop k, List.take_append_drop k lines,
        ⟨fun h => hexit h.of_take, hk.take, rfl⟩, rfl, nofun⟩
    · have hnone := not_exists.mp hcompletes
      obtain ⟨prompts, -, hread⟩ := readEntry_open [] lines [] hexit fun j hj hle =>
        excess_pos_of_forall_not hnone hj hle
      have hr : r = _ := hread
      rw [hr]
      exact ⟨lines, [], List.append_nil lines, ⟨hexit, hnone⟩, rfl, fun _ => rfl⟩

/-- Reading one entry after another cuts the lines into consecutive pieces. -/
theorem exists_chunks (n : Nat) (lines : List String) :
    ∃ chunks left, chunks.flatten ++ left = lines ∧
      List.Forall₂ Consumes chunks (readEntries n (lines.map .line)) ∧
      ((∃ r ∈ readEntries n (lines.map .line), r.1 = .endOfInput) → left = []) := by
  induction n generalizing lines with
  | zero => exact ⟨[], lines, rfl, .nil, fun ⟨_, hr, _⟩ => nomatch hr⟩
  | succ n ih =>
      obtain ⟨chunk, left, hlines, hchunk, hrest, hend⟩ := exists_chunk lines
      obtain ⟨chunks, left', hleft, hchunks, hends⟩ := ih left
      refine ⟨chunk :: chunks, left', ?_, ?_, ?_⟩
      · rw [List.flatten_cons, List.append_assoc, hleft, hlines]
      · rw [readEntries, hrest]
        exact .cons hchunk hchunks
      · rw [readEntries, hrest]
        rintro ⟨r, hr, heof⟩
        rcases List.mem_cons.mp hr with rfl | hr
        · -- the input has ended, so this reading has left no line to the next ones
          rw [hend heof] at hleft
          exact (List.append_eq_nil_iff.mp hleft).2
        · exact hends ⟨r, hr, heof⟩

/-- **Entries follow the lexer.** The count of braces and the string flag kept
from line to line are those of the tokens of the joined lines. Reading an entry
takes the lines up to the first one after which the tokens close all braces, or
all lines if there is none. So the readings cut the lines into pieces without
losing, repeating or splitting any. -/
theorem readEntry_follows_tokens (lines : List String) :
    ((balanceAfter lines).1 = braceExcess (tokenize (joinLines lines)) ∧
      ((balanceAfter lines).2 = true ↔ EndsInString (joinLines lines).toList)) ∧
    (¬Exits lines → ∀ events,
      (∀ k, Completes lines k → ∃ prompts, prompts.length = k ∧
        readEntry .start (lines.map .line ++ events) =
          (.entry (Text.trim (joinLines (lines.take k))), prompts,
            (lines.drop k).map .line ++ events)) ∧
      ((∀ k, ¬Completes lines k) → ∃ prompts, prompts.length = lines.length ∧
        readEntry .start (lines.map .line ++ events) =
          let r := readEntry (.after lines) events
          (r.1, prompts ++ r.2.1, r.2.2))) ∧
    ∀ n, ∃ chunks left, chunks.flatten ++ left = lines ∧
      List.Forall₂ Consumes chunks (readEntries n (lines.map .line)) ∧
      ((∃ r ∈ readEntries n (lines.map .line), r.1 = .endOfInput) → left = []) := by
  refine ⟨balanceAfter_eq lines, fun hexit events => ⟨?_, ?_⟩, fun n => exists_chunks n lines⟩
  · intro k hk
    exact readEntry_complete hk hexit events
  · intro hnone
    exact readEntry_open [] lines events hexit fun j hj hle => excess_pos_of_forall_not hnone hj hle

/-- A brace in a string literal that goes on over a line end does not count. -/
theorem readEntry_follows_tokens_literal :
    let lines := ["if (true) \x7b", "\"\x7d\\", "\" \x7d", "3"]
    (¬Exits lines ∧ Completes lines 3) ∧ ∃ prompts, prompts.length = 3 ∧
      readEntry .start (lines.map .line) =
        (.entry (Text.trim (joinLines (lines.take 3))), prompts, [.line "3"]) := by
  intro lines
  have hexit : ¬Exits lines := by
    rintro ⟨first, ⟨⟩, htrim⟩
    revert htrim
    decide
  have h₁ : braceExcess (tokenize (joinLines (lines.take 1))) = 1 := by cbv
  have h₂ : braceExcess (tokenize (joinLines (lines.take 2))) = 1 := by cbv
  have h₃ : braceExcess (tokenize (joinLines (lines.take 3))) = 0 := by cbv
  have hcompletes : Completes lines 3 := by
    refine ⟨by decide, by decide, Int.le_of_eq h₃, fun j hj hlt => ?_⟩
    obtain rfl | rfl : j = 1 ∨ j = 2 := by omega
    · rw [h₁]
      decide
    · rw [h₂]
      decide
  refine ⟨⟨hexit, hcompletes⟩, ?_⟩
  exact ((readEntry_follows_tokens lines).2.1 hexit []).1 3 hcompletes

end MonkeyLang
