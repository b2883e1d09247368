import MonkeyLang.Proofs.Lexing
import MonkeyLang.Syntax.Render

/-!
# Printed string literals

The printer escapes line feeds and tabs and nothing else. So the literal that it
prints for a text may end early, or stand for another text: quotes are not
escaped, and a backslash forms a pair with whatever follows it. `isPrintable`
singles out the texts for which neither happens, and no others: exactly these
are read back as they were printed (`tokenize_render_string_iff`).
-/

namespace MonkeyLang

namespace StringBody

/-- Read from left to right, each backslash with the character after it, the text
has no quote outside a pair, no backslash without a partner, and no pair that is
an escape or would be printed as one. -/
def isPrintable : List Char → Bool
  | [] => true
  | ['\\'] => false
  | '\\' :: c :: cs => !(['n', 't', '\n', '\t'].contains c) && isPrintable cs
  | c :: cs => c ≠ '"' && isPrintable cs

theorem escape_cons (c : Char) (cs : List Char) : escape (c :: cs) = escapeChar c ++ escape cs :=
  List.flatMap_cons

theorem split_pair (c : Char) (cs : List Char) :
    split ('\\' :: c :: cs) = ('\\' :: c :: (split cs).1, (split cs).2) := by
  rw [split]

theorem split_cons {c : Char} (hc : c ≠ '\\') (hquote : c ≠ '"') (cs : List Char) :
    split (c :: cs) = (c :: (split cs).1, (split cs).2) := by
  rw [split]
  · exact if_neg hquote
  · rintro _ _ rfl
    exact absurd rfl hc

theorem unescape_cons {c : Char} (hc : c ≠ '\\') (cs : List Char) :
    unescape (c :: cs) = c :: unescape cs := by
  rw [unescape]
  rintro _ _ rfl
  exact absurd rfl hc

/-- A pair is printed as it stands if its character is. -/
theorem escape_pair {c : Char} (hlf : c ≠ '\n') (htab : c ≠ '\t') (cs : List Char) :
    escape ('\\' :: c :: cs) = '\\' :: c :: escape cs := by
  rw [escape_cons, escape_cons, escapeChar, escapeChar, if_neg hlf, if_neg htab]
  rfl

/-- What is printed for a character outside a pair does not end the literal. -/
theorem split_escapeChar {c : Char} (hc : c ≠ '\\') (hquote : c ≠ '"') (cs : List Char) :
    split (escapeChar c ++ cs) = (escapeChar c ++ (split cs).1, (split cs).2) := by
  unfold escapeChar
  split
  · exact split_pair 'n' cs
  · split
    · exact split_pair 't' cs
    · exact split_cons hc hquote cs

/-- What is printed for a character outside a pair stands for the character. -/
theorem unescape_escapeChar {c : Char} (hc : c ≠ '\\') (cs : List Char) :
    unescape (escapeChar c ++ cs) = c :: unescape cs := by
  unfold escapeChar
  split
  · rename_i hlf
    subst hlf
    rfl
  · split
    · rename_i htab
      subst htab
      rfl
    · exact unescape_cons hc cs

/-- A character that is neither a last backslash nor the first of a pair. -/
theorem ne_backslash {c : Char} {cs : List Char} (hlast : c = '\\' → cs = [] → False)
    (hpair : ∀ d ds, c = '\\' → cs = d :: ds → False) : c ≠ '\\' := by
  intro hc
  cases cs with
  | nil => exact hlast hc rfl
  | cons d ds => exact hpair d ds hc rfl

/-- The literal printed for a printable text ends at its closing quote, and it
stands for the text. -/
theorem split_escape {text : List Char} (h : isPrintable text = true) (rest : List Char) :
    split (escape text ++ '"' :: rest) = (escape text, some rest) ∧
      unescape (escape text) = text := by
  fun_induction isPrintable text with
  | case1 => exact ⟨rfl, rfl⟩
  | case2 => exact nomatch h
  | case3 c cs ih =>
      simp only [List.contains_cons, List.contains_nil, Bool.or_false, Bool.and_eq_true,
        Bool.not_eq_true', Bool.or_eq_false_iff, beq_eq_false_iff_ne] at h
      obtain ⟨⟨hn, ht, hlf, htab⟩, h⟩ := h
      obtain ⟨hsplit, hunescape⟩ := ih h
      rw [escape_pair hlf htab, List.cons_append, List.cons_append, split_pair, hsplit, unescape,
        hunescape, unescapePair, if_neg hn, if_neg ht]
      exact ⟨rfl, rfl⟩
  | case4 c cs hsingle hpair ih =>
      simp only [Bool.and_eq_true, decide_eq_true_eq] at h
      obtain ⟨hquote, h⟩ := h
      obtain ⟨hsplit, hunescape⟩ := ih h
      have hc := ne_backslash hsingle hpair
      rw [escape_cons, List.append_assoc, split_escapeChar hc hquote, hsplit,
        unescape_escapeChar hc, hunescape]
      exact ⟨rfl, rfl⟩

/-- A text is printable if its literal stands for it. Up to the first place where the text is not
printable, the literal has been read back as it was printed; there it ends early or goes on with
another character. -/
theorem isPrintable_of_unescape {text rest : List Char}
    (h : unescape (split (escape text ++ '"' :: rest)).1 = text) : isPrintable text = true := by
  fun_induction isPrintable text with
  | case1 => rfl
  | case2 =>
      -- the closing quote has become the partner of the backslash
      have hescape : escape ['\\'] = ['\\'] := rfl
      rw [hescape, List.cons_append, List.nil_append, split_pair, unescape] at h
      exact nomatch h
  | case3 c cs ih =>
      -- what is printed for a line feed or a tab starts with a backslash, the partner of the first
      by_cases hlf : c = '\n'
      · subst hlf
        have hescape : escape ('\\' :: '\n' :: cs) = '\\' :: '\\' :: 'n' :: escape cs := rfl
        rw [hescape, List.cons_append, List.cons_append, split_pair, unescape] at h
        exact nomatch h
      by_cases htab : c = '\t'
      · subst htab
        have hescape : escape ('\\' :: '\t' :: cs) = '\\' :: '\\' :: 't' :: escape cs := rfl
        rw [hescape, List.cons_append, List.cons_append, split_pair, unescape] at h
        exact nomatch h
      rw [escape_pair hlf htab, List.cons_append, List.cons_append, split_pair, unescape,
        unescapePair] at h
      by_cases hn : c = 'n'
      · rw [if_pos hn] at h
        exact nomatch h
      by_cases ht : c = 't'
      · rw [if_neg hn, if_pos ht] at h
        exact nomatch h
      rw [if_neg hn, if_neg ht] at h
      have hcs := ih (List.cons.inj (List.cons.inj h).2).2
      simp [hn, ht, hlf, htab, hcs]
  | case4 c cs hsingle hpair ih =>
      have hc := ne_backslash hsingle hpair
      rw [escape_cons, List.append_assoc] at h
      by_cases hquote : c = '"'
      · subst hquote
        exact nomatch h
      rw [split_escapeChar hc hquote, unescape_escapeChar hc] at h
      simp [hquote, ih (List.cons.inj h).2]

end StringBody

/-- A string literal that a quote closes gives one token. -/
theorem contents_string {cs body rest : List Char} (h : StringBody.split cs = (body, some rest)) :
    contents ('"' :: cs) =
      (.string, String.ofList (StringBody.unescape body)) :: contents rest := by
  have hread : Lexeme.read '"' cs = Lexeme.string '"' cs := rfl
  rw [contents_read rfl, hread, Lexeme.string, h]

/-- A printable text survives printing. -/
theorem contents_renderString {value : String}
    (h : StringBody.isPrintable value.toList = true) (rest : List Char) :
    contents ((renderString value).toList ++ rest) = (.string, value) :: contents rest := by
  obtain ⟨hsplit, hunescape⟩ := StringBody.split_escape h rest
  have htext : (renderString value).toList ++ rest =
      '"' :: (StringBody.escape value.toList ++ '"' :: rest) := by
    simp only [renderString, String.toList_append, String.toList_ofList, List.append_assoc]
    rfl
  rw [htext, contents_string hsplit, hunescape, String.ofList_toList]

/-- The token of a printed literal stands for what the literal stands for, wherever it ends. -/
theorem head?_contents_renderString (value : String) :
    (contents (renderString value).toList).head? =
      some (.string, String.ofList (StringBody.unescape
        (StringBody.split (StringBody.escape value.toList ++ ['"'])).1)) := by
  have htext : (renderString value).toList = '"' :: (StringBody.escape value.toList ++ ['"']) := by
    simp only [renderString, String.toList_append, String.toList_ofList]
    rfl
  have hread : ∀ cs, Lexeme.read '"' cs = Lexeme.string '"' cs := fun _ => rfl
  rw [htext, contents_read rfl, hread, string_kind, Lexeme.string]
  split <;> rename_i hsplit <;> rw [hsplit] <;> rfl

/-- **The texts that survive printing.** The literal that is printed for a text is read as one
string token with this text, and as nothing else, exactly if the text is printable. -/
theorem tokenize_render_string_iff (mark : Mark) (value : String) :
    (tokenize (Expr.string mark value).render).map Token.content =
        [(.string, value), (.eof, "")] ↔
      StringBody.isPrintable value.toList = true := by
  have hcontents : (tokenize (Expr.string mark value).render).map Token.content =
      contents (renderString value).toList := by
    rw [Expr.render]
    rfl
  rw [hcontents]
  constructor
  · intro h
    have hhead := head?_contents_renderString value
    rw [h] at hhead
    obtain ⟨-, htext⟩ := Prod.mk.inj (Option.some.inj hhead)
    have htext := congrArg String.toList htext
    rw [String.toList_ofList] at htext
    exact StringBody.isPrintable_of_unescape htext.symm
  · intro h
    have hread := contents_renderString h []
    rwa [List.append_nil, contents_nil] at hread

end MonkeyLang
