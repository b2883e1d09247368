import MonkeyLang.Proofs.LexicalGrammar
import MonkeyLang.Token.Stream
import Mathlib.Data.List.DropRight

/-!
# Maximal munch

Every text is cut into lexemes and the spaces between them, and in one way only
(`exists_cuts`, `Cuts.unique`). The lexer follows this cutting: its tokens are those of the
lexemes, then comes the end of the file, and from there on nothing else comes, however
often the lexer is asked (`tokenize_cuts`).
-/

namespace MonkeyLang

/-! ## Cuttings -/

/-- A text is cut into lexemes, each with the spaces before it, and the spaces at its
end. -/
inductive Cuts : List Char → List (List Char × Lexeme) → List Char → Prop
  | trailing {w : List Char} : (∀ c ∈ w, isSpace c = true) → Cuts w [] w
  | piece {w rest trailing : List Char} {x : Lexeme} {pieces : List (List Char × Lexeme)} :
      (∀ c ∈ w, isSpace c = true) → x.StandsBefore rest → Cuts rest pieces trailing →
      Cuts (w ++ (x.source ++ rest)) ((w, x) :: pieces) trailing

/-- No lexeme is empty, and none starts with a space. -/
theorem Lexeme.StandsBefore.source_eq_cons {x : Lexeme} {rest : List Char}
    (h : x.StandsBefore rest) : ∃ c cs, x.source = c :: cs ∧ isSpace c = false := by
  have of_isWord {w : String} (hw : isWord w = true) :
      ∃ c cs, w.toList = c :: cs ∧ isSpace c = false := by
    obtain ⟨c, cs, hlist, hc, -⟩ := isWord_iff.mp hw
    exact ⟨c, cs, hlist, isSpace_of_isWordPart (by rw [isWordPart, hc, Bool.true_or])⟩
  cases h with
  | keyword hmem _ => exact of_isWord (isWord_of_mem_keywords hmem)
  | identifier hw _ _ => exact of_isWord hw
  | @integer d ds hdigits _ =>
      have hd := hdigits d List.mem_cons_self
      exact ⟨d, ds, rfl, isSpace_of_isWordPart (by rw [isWordPart, hd, Bool.or_true])⟩
  | string _ => exact ⟨'"', _, rfl, rfl⟩
  | openString _ _ => exact ⟨'"', _, rfl, rfl⟩
  | danglingString _ _ => exact ⟨'"', _, rfl, rfl⟩
  | @operator text k hmem _ =>
      obtain ⟨d, ds, l, hcons, -, hspace⟩ := head_of_mem_fixedTexts hmem
      exact ⟨d, ds, hcons, hspace⟩
  | @illegal c hspace _ _ _ _ => exact ⟨c, [], rfl, hspace⟩

/-- The spaces before a lexeme are all the spaces there are. -/
theorem dropWhile_spaces {w : List Char} {c : Char} (hw : ∀ c ∈ w, isSpace c = true)
    (hc : isSpace c = false) (cs : List Char) : (w ++ c :: cs).takeWhile isSpace = w ∧
      (w ++ c :: cs).dropWhile isSpace = c :: cs := by
  refine takeWhile_append_of_ends hw ?_
  rintro _ ⟨⟩
  exact hc

theorem exists_cuts (cs : List Char) : ∃ pieces trailing, Cuts cs pieces trailing := by
  have hspaces : ∀ c ∈ cs.takeWhile isSpace, isSpace c = true :=
    fun c hc => List.all_eq_true.mp List.all_takeWhile c hc
  cases hd : cs.dropWhile isSpace with
  | nil =>
      have hall : cs.takeWhile isSpace = cs := by
        have happend := List.takeWhile_append_dropWhile (p := isSpace) (l := cs)
        rwa [hd, List.append_nil] at happend
      rw [hall] at hspaces
      exact ⟨[], cs, .trailing hspaces⟩
  | cons c rest =>
      have hc : isSpace c = false := Lexeme.head?_dropWhile c (by rw [hd]; rfl)
      have hshort : (Lexeme.read c rest).2.length < cs.length := by
        have hread := Lexeme.length_read_le c rest
        have hdrop := length_dropWhile_le isSpace cs
        rw [hd, List.length_cons] at hdrop
        omega
      obtain ⟨pieces, trailing, hcuts⟩ := exists_cuts (Lexeme.read c rest).2
      have hpiece := Cuts.piece hspaces (Lexeme.read_stands hc rest) hcuts
      rw [Lexeme.read_append, ← hd, List.takeWhile_append_dropWhile] at hpiece
      exact ⟨_, trailing, hpiece⟩
termination_by cs.length

/-- The spaces and the lexeme at the front of a text are determined, and the rest of it
too. -/
theorem piece_unique {w w' rest rest' : List Char} {x x' : Lexeme}
    (hw : ∀ c ∈ w, isSpace c = true) (hx : x.StandsBefore rest)
    (hw' : ∀ c ∈ w', isSpace c = true) (hx' : x'.StandsBefore rest')
    (h : w ++ (x.source ++ rest) = w' ++ (x'.source ++ rest')) :
    w = w' ∧ x = x' ∧ rest = rest' := by
  obtain ⟨c, cs, hsource, hc⟩ := hx.source_eq_cons
  obtain ⟨c', cs', hsource', hc'⟩ := hx'.source_eq_cons
  rw [hsource, hsource', List.cons_append, List.cons_append] at h
  obtain ⟨htake, hdrop⟩ := dropWhile_spaces hw hc (cs ++ rest)
  obtain ⟨htake', hdrop'⟩ := dropWhile_spaces hw' hc' (cs' ++ rest')
  rw [h] at htake hdrop
  have hread := Lexeme.read_of_stands hx (by rw [hsource]; exact hdrop.symm.trans hdrop')
  have hread' := Lexeme.read_of_stands hx' (by rw [hsource']; rfl)
  obtain ⟨hxx, hrest⟩ := Prod.mk.inj (hread.symm.trans hread')
  exact ⟨htake.symm.trans htake', hxx, hrest⟩

/-- A text is cut in one way only. -/
theorem Cuts.unique {cs trailing trailing' : List Char}
    {pieces pieces' : List (List Char × Lexeme)} (h : Cuts cs pieces trailing)
    (h' : Cuts cs pieces' trailing') : pieces' = pieces ∧ trailing' = trailing := by
  have spaces_ne {w w' rest : List Char} {x : Lexeme} (hw : ∀ c ∈ w, isSpace c = true)
      (hx : x.StandsBefore rest) (heq : w = w' ++ (x.source ++ rest)) : False := by
    obtain ⟨c, cs, hsource, hc⟩ := hx.source_eq_cons
    rw [heq, hsource] at hw
    exact absurd (hw c (by simp)) (by rw [hc]; decide)
  induction h generalizing pieces' trailing' with
  | @trailing w hw =>
      generalize hcs : w = cs at h'
      cases h' with
      | trailing _ => exact ⟨rfl, rfl⟩
      | piece _ hx' _ => exact (spaces_ne hw hx' hcs).elim
  | @piece w rest trailing x pieces hw hx _ ih =>
      generalize hcs : w ++ (x.source ++ rest) = cs at h'
      cases h' with
      | trailing hw' => exact (spaces_ne hw' hx hcs.symm).elim
      | piece hw' hx' hrest' =>
          obtain ⟨rfl, rfl, rfl⟩ := piece_unique hw hx hw' hx' hcs
          obtain ⟨rfl, rfl⟩ := ih hrest'
          exact ⟨rfl, rfl⟩

/-! ## Streams -/

/-- So many of the next tokens of a stream, and the stream after them. -/
def Stream.take : Nat → Stream → Except ReadError (List Token × Stream)
  | 0, s => .ok ([], s)
  | n + 1, s => do
    let (t, s₁) ← s.token
    let (ts, s₂) ← s₁.take n
    return (t :: ts, s₂)

section Streams

variable {p : Place} {cs : List Char} {s : Stream}

/-- The stream stands at a place in its text, with some characters of the text to come. -/
structure Stream.At (p : Place) (cs : List Char) (s : Stream) : Prop where
  position : 0 ≤ s.cursor.position
  place : s.cursor.place = p
  rest : s.cursor.rest = cs

theorem Cursor.pastSpace_eq {k : Cursor} (h : 0 ≤ k.position) :
    k.pastSpace = k.skip (k.rest.takeWhile isSpace) (k.rest.dropWhile isSpace) := by
  have hspace : k.space = k.rest.takeWhile isSpace := by
    rw [space, Int.toNat_of_nonpos (by omega)]
    rfl
  have hdrop : k.rest.drop (k.rest.takeWhile isSpace).length = k.rest.dropWhile isSpace := by
    calc k.rest.drop (k.rest.takeWhile isSpace).length
        = (k.rest.takeWhile isSpace ++ k.rest.dropWhile isSpace).drop
            (k.rest.takeWhile isSpace).length := by rw [List.takeWhile_append_dropWhile]
      _ = k.rest.dropWhile isSpace := List.drop_left
  rw [pastSpace, hspace, hdrop]

theorem Stream.ofText_at (text : List Char) (place : Place) :
    (Stream.ofText text 0 place).At place text :=
  ⟨Int.le_refl 0, rfl, rfl⟩

theorem Stream.At.not_outside (h : s.At p cs) : s.cursor.isOutside = false := by
  have hposition : ¬s.cursor.position < 0 := Int.not_lt.mpr h.position
  simp [Cursor.isOutside, hposition]

theorem Stream.At.skip (h : s.At p cs) (used rest : List Char) :
    Stream.At (p.after used) rest { s with cursor := s.cursor.skip used rest } :=
  ⟨Int.add_nonneg h.position (Int.natCast_nonneg _), by rw [← h.place]; rfl, rfl⟩

theorem Stream.At.pastSpace (h : s.At p cs) :
    Stream.At (p.after (cs.takeWhile isSpace)) (cs.dropWhile isSpace)
      { s with cursor := s.cursor.pastSpace } := by
  rw [Cursor.pastSpace_eq h.position, h.rest]
  exact h.skip _ _

/-- Where only spaces are left, the end of the file comes. -/
theorem Stream.At.token_end (h : s.At p cs) (hcs : cs.dropWhile isSpace = []) :
    ∃ s', s.token = .ok (⟨.eof, "", p.after (cs.takeWhile isSpace)⟩, s') ∧
      s'.At (p.after (cs.takeWhile isSpace)) [] := by
  have hspace := h.pastSpace
  rw [hcs] at hspace
  refine ⟨{ s with cursor := s.cursor.pastSpace }, ?_, hspace⟩
  have htoken : s.cursor.token =
      (⟨.eof, "", p.after (cs.takeWhile isSpace)⟩, s.cursor.pastSpace) := by
    simp only [Cursor.token]
    rw [hspace.rest, hspace.place]
  rw [token, Reader.token, Reader.answer_of_ok (Reader.inside_eq h.not_outside _), htoken]

/-- Otherwise the lexeme behind the spaces comes, and the stream stands behind it. -/
theorem Stream.At.token_read (h : s.At p cs) {c : Char} {rest : List Char}
    (hcs : cs.dropWhile isSpace = c :: rest) :
    ∃ s', s.token = .ok ((Lexeme.read c rest).1.token (p.after (cs.takeWhile isSpace)), s') ∧
      s'.At ((p.after (cs.takeWhile isSpace)).after (Lexeme.read c rest).1.source)
        (Lexeme.read c rest).2 := by
  have hspace := h.pastSpace
  rw [hcs] at hspace
  refine ⟨_, ?_, hspace.skip (Lexeme.read c rest).1.source (Lexeme.read c rest).2⟩
  have htoken : s.cursor.token =
      ((Lexeme.read c rest).1.token (p.after (cs.takeWhile isSpace)),
        s.cursor.pastSpace.skip (Lexeme.read c rest).1.source (Lexeme.read c rest).2) := by
    simp only [Cursor.token]
    rw [hspace.rest, hspace.place]
  rw [token, Reader.token, Reader.answer_of_ok (Reader.inside_eq h.not_outside _), htoken]

theorem Stream.take_succ {n : Nat} {t : Token} {ts : List Token} {s₁ s₂ : Stream}
    (ht : s.token = .ok (t, s₁)) (hts : s₁.take n = .ok (ts, s₂)) :
    s.take (n + 1) = .ok (t :: ts, s₂) := by
  rw [take, ht]
  change (do let (ts, s₂) ← s₁.take n; return (t :: ts, s₂)) = _
  rw [hts]
  rfl

/-- After the end of the file nothing else comes. -/
theorem Stream.At.take_end (h : s.At p []) (n : Nat) :
    ∃ s', s.take n = .ok (List.replicate n ⟨.eof, "", p⟩, s') := by
  induction n generalizing s with
  | zero => exact ⟨s, rfl⟩
  | succ n ih =>
      obtain ⟨s₁, ht, h₁⟩ := h.token_end rfl
      obtain ⟨s₂, hts⟩ := ih h₁
      exact ⟨s₂, take_succ ht hts⟩

/-- Spaces that have been skipped change none of the tokens. -/
theorem tokensFrom_pastSpace (p : Place) (cs : List Char) :
    tokensFrom (p.after (cs.takeWhile isSpace)) (cs.dropWhile isSpace) = tokensFrom p cs := by
  have hnone : (cs.dropWhile isSpace).takeWhile isSpace = [] := by
    cases hd : cs.dropWhile isSpace with
    | nil => rfl
    | cons c rest =>
        have hc : isSpace c = false := Lexeme.head?_dropWhile c (by rw [hd]; rfl)
        exact List.takeWhile_cons_of_neg (by rw [hc]; decide)
  have hidem : (cs.dropWhile isSpace).dropWhile isSpace = cs.dropWhile isSpace :=
    List.dropWhile_idempotent isSpace cs
  cases hd : cs.dropWhile isSpace with
  | nil =>
      rw [hd] at hnone hidem
      rw [tokensFrom_nil hd, tokensFrom_nil hidem, hnone]
      rfl
  | cons c rest =>
      rw [hd] at hnone hidem
      rw [tokensFrom_read hd, tokensFrom_read hidem, hnone]
      rfl

/-- All tokens at once are the tokens of the text too. -/
theorem Stream.At.tokens_eq (h : s.At p cs) : ∃ s', s.tokens = .ok (tokensFrom p cs, s') := by
  have hspace := h.pastSpace
  have htokens : s.cursor.tokens.1 = tokensFrom p cs := by
    simp only [Cursor.tokens]
    rw [hspace.rest, hspace.place, tokensFrom_pastSpace]
  refine ⟨{ s with cursor := s.cursor.tokens.2 }, ?_⟩
  rw [tokens, Reader.tokens, Reader.answer_of_ok (Reader.inside_eq h.not_outside _), htokens]

end Streams

/-! ## Tokens of a cutting -/

/-- The kind and the text of the token of a lexeme. -/
def Lexeme.content (x : Lexeme) : TokenKind × String := (x.kind, String.ofList x.text)

/-- Asked for one token after another, a stream gives the tokens of the lexemes, and then
the end of the file over and over. -/
theorem Cuts.take_tokens {p : Place} {cs trailing : List Char}
    {pieces : List (List Char × Lexeme)} {s : Stream} (hcuts : Cuts cs pieces trailing)
    (h : s.At p cs) :
    ∃ ts e, tokensFrom p cs = ts ++ [e] ∧ ts.map Token.content = pieces.map (·.2.content) ∧
      e.content = (.eof, "") ∧
      ∀ n, ∃ s', s.take (ts.length + n) = .ok (ts ++ List.replicate n e, s') := by
  induction hcuts generalizing p s with
  | @trailing w hw =>
      have hd : w.dropWhile isSpace = [] := List.dropWhile_eq_nil_iff.mpr hw
      refine ⟨[], _, tokensFrom_nil hd, rfl, rfl, fun n => ?_⟩
      rw [List.length_nil, Nat.zero_add]
      cases n with
      | zero => exact ⟨s, rfl⟩
      | succ n =>
          obtain ⟨s₁, ht, h₁⟩ := h.token_end hd
          obtain ⟨s₂, hts⟩ := h₁.take_end n
          exact ⟨s₂, Stream.take_succ ht hts⟩
  | @piece w rest trailing x pieces hw hx _ ih =>
      obtain ⟨c, cs, hsource, hc⟩ := hx.source_eq_cons
      have hread : Lexeme.read c (cs ++ rest) = (x, rest) :=
        Lexeme.read_of_stands hx (by rw [hsource, List.cons_append])
      have hd : (w ++ (x.source ++ rest)).dropWhile isSpace = c :: (cs ++ rest) := by
        rw [hsource, List.cons_append]
        exact (dropWhile_spaces hw hc _).2
      obtain ⟨s₁, ht, h₁⟩ := h.token_read hd
      have htokens := tokensFrom_read (p := p) hd
      rw [hread] at ht h₁ htokens
      obtain ⟨ts, e, hrest, hcontents, he, htake⟩ := ih h₁
      rw [hrest] at htokens
      refine ⟨_ :: ts, e, htokens, ?_, he, fun n => ?_⟩
      · rw [List.map_cons, List.map_cons, hcontents]
        rfl
      · obtain ⟨s₂, hts⟩ := htake n
        rw [List.length_cons, Nat.add_right_comm]
        exact ⟨s₂, Stream.take_succ ht hts⟩

/-- Every text is cut in exactly one way, and the lexer follows this cutting: the tokens
are those of the lexemes and the end of the file. Reading a stream to its end gives these
tokens, without an error; asking for one token after another gives them too, and the end
of the file again and again after them. -/
theorem tokenize_cuts (source : String) :
    ∃ pieces trailing, Cuts source.toList pieces trailing ∧
      (∀ pieces' trailing', Cuts source.toList pieces' trailing' →
        pieces' = pieces ∧ trailing' = trailing) ∧
      ∃ ts e, tokenize source = ts ++ [e] ∧
        ts.map Token.content = pieces.map (·.2.content) ∧ e.content = (.eof, "") ∧
        (∃ s, (Stream.ofText source.toList 0 .start).tokens = .ok (tokenize source, s)) ∧
        ∀ n, ∃ s, (Stream.ofText source.toList 0 .start).take (ts.length + n) =
          .ok (ts ++ List.replicate n e, s) := by
  obtain ⟨pieces, trailing, hcuts⟩ := exists_cuts source.toList
  have hstart := Stream.ofText_at source.toList .start
  obtain ⟨ts, e, htokens, hcontents, he, htake⟩ := hcuts.take_tokens hstart
  exact ⟨pieces, trailing, hcuts, fun _ _ h => hcuts.unique h, ts, e, htokens, hcontents, he,
    hstart.tokens_eq, htake⟩

end MonkeyLang
