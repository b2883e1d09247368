import MonkeyLang.Proofs.BraceCount
import MonkeyLang.Proofs.JoinedTexts
import MonkeyLang.Proofs.StreamPlaces

/-!
# Line breaks

A line feed is read by no lexeme but a string literal, and it starts a column. So a text may be
cut at any line feed outside a literal: the tokens of the whole are those of the text before
it, without the end of the file, and those of the text behind it, further down by the lines
that the first text takes (`tokenize_lineBreak`).

Where reading starts only moves the tokens (`tokensFrom_down`), and no lexeme is carried on by
a line feed (`tokensFrom_append_separator`).
-/

namespace MonkeyLang

/-! ## Further down -/

/-- The place some lines further down. -/
def Place.down (lines : Nat) (p : Place) : Place :=
  { p with line := p.line + lines }

/-- A token some lines further down: its kind, its text and its column stay. -/
def Token.down (lines : Nat) (t : Token) : Token :=
  { t with place := t.place.down lines }

section Down

variable (lines : Nat) (p : Place)

theorem Place.next_down (c : Char) : (p.down lines).next c = (p.next c).down lines := by
  unfold next down
  split
  · simp only [Place.mk.injEq, and_true]
    omega
  · rfl

theorem Place.after_down (cs : List Char) :
    (p.down lines).after cs = (p.after cs).down lines := by
  induction cs generalizing p with
  | nil => rfl
  | cons c cs ih => rw [after_cons, after_cons, next_down, ih]

/-- A text that starts further down has the same tokens further down. -/
theorem tokensFrom_down (cs : List Char) :
    tokensFrom (p.down lines) cs = (tokensFrom p cs).map (Token.down lines) := by
  fun_induction tokensFrom p cs with
  | case1 p cs here hend =>
      rw [tokensFrom_nil hend, Place.after_down]
      rfl
  | case2 p cs here c rest hnext read ih =>
      rw [tokensFrom_read hnext, Place.after_down, Place.after_down, ih]
      rfl

end Down

/-! ## Cutting at a line feed -/

/-- A line feed leads to the start of the next line. -/
theorem Place.after_lineBreak (cs : List Char) :
    (Place.start.after cs).next '\n' = Place.start.down (1 + cs.count '\n') := by
  simp only [next, ↓reduceIte, line_after, down, start, Place.mk.injEq, and_true]
  omega

theorem tokens_append_lineBreak {cs : List Char} (hopen : ¬EndsInString cs) (ds : List Char) :
    tokens (cs ++ '\n' :: ds) =
      (tokens cs).dropLast ++ (tokens ds).map (Token.down (1 + cs.count '\n')) := by
  have hbreak : tokensFrom (Place.start.after cs) ('\n' :: ds) =
      tokensFrom ((Place.start.after cs).next '\n') ds :=
    tokensFrom_space_append (List.forall_mem_singleton.mpr rfl) _ ds
  rw [tokens, tokensFrom_append_separator hopen rfl (by decide), hbreak,
    Place.after_lineBreak, tokensFrom_down]
  rfl

/-- **Lexing is compositional at line breaks.** Behind a text that leaves no literal open, a line
feed and a second text add the tokens of the second text, which lie as many lines further down
as the first text has line feeds and one more, with the columns, kinds and texts that they
have on their own. The first text only loses its end of the file. -/
theorem tokenize_lineBreak {a : String} (hopen : ¬EndsInString a.toList) (b : String) :
    ∃ ts e, tokenize a = ts ++ [e] ∧ e.kind = .eof ∧ (∀ t ∈ ts, t.kind ≠ .eof) ∧
      tokenize (a ++ "\n" ++ b) =
        ts ++ (tokenize b).map (Token.down (1 + a.toList.count '\n')) := by
  obtain ⟨ts, e, hts, heof, -, hall⟩ := tokensFrom_eq_append .start a.toList
  have hts : tokenize a = ts ++ [e] := hts
  have hjoined : (a ++ "\n" ++ b).toList = a.toList ++ '\n' :: b.toList := by
    rw [String.toList_append, String.toList_append, List.append_assoc]
    rfl
  have hcut := tokens_append_lineBreak hopen b.toList
  rw [← hjoined] at hcut
  change tokenize (a ++ "\n" ++ b) = (tokenize a).dropLast ++ _ at hcut
  rw [hts, List.dropLast_concat] at hcut
  exact ⟨ts, e, hts, heof, fun t ht => (hall t ht).1, hcut⟩

/-- The operator that the first text ends with is not carried on by the second one, and the
line feed in its literal counts. -/
theorem tokenize_lineBreak_operator :
    ¬EndsInString "x + \"1\n2\" =".toList ∧
      ∃ ts e, tokenize "x + \"1\n2\" =" = ts ++ [e] ∧ e.kind = .eof ∧
        (∀ t ∈ ts, t.kind ≠ .eof) ∧
        tokenize ("x + \"1\n2\" =" ++ "\n" ++ "= y") =
          ts ++ [⟨.assign, "=", ⟨3, 1⟩⟩, ⟨.ident, "y", ⟨3, 3⟩⟩, ⟨.eof, "", ⟨3, 4⟩⟩] := by
  have hopen : ¬EndsInString "x + \"1\n2\" =".toList :=
    not_endsInString_of_balance (by cbv)
  obtain ⟨ts, e, hts, heof, hall, hcut⟩ := tokenize_lineBreak hopen "= y"
  have hmoved : (tokenize "= y").map (Token.down (1 + "x + \"1\n2\" =".toList.count '\n')) =
      [⟨.assign, "=", ⟨3, 1⟩⟩, ⟨.ident, "y", ⟨3, 3⟩⟩, ⟨.eof, "", ⟨3, 4⟩⟩] := by
    cbv
  exact ⟨hopen, ts, e, hts, heof, hall, hmoved ▸ hcut⟩

end MonkeyLang
