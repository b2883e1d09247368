import Mathlib
import MonkeyLang.Proofs.Lexing
import MonkeyLang.Proofs.StringLiteral
import MonkeyLang.Repl.Entry

/-!
# Counting braces

The session counts braces line by line with a scanner of its own, which knows
string literals and nothing else of the language. It agrees with the lexer on the
lines put together (`balanceAfter_eq`): the count is that of the brace tokens, and
the flag says whether the text ends inside a string literal.

The scanner forgets at the end of a line that it has seen a backslash. The lexer
pairs this backslash with the line feed that joins the lines, which comes to the
same (`next_lineFeed`).
-/

namespace MonkeyLang

/-! ## Braces among tokens -/

/-- The opening braces among some tokens less the closing ones. -/
def braceExcess (ts : List Token) : Int :=
  (ts.countP (·.kind = .lbrace) : Int) - ts.countP (·.kind = .rbrace)

/-- What a token counts for. -/
def TokenKind.braces : TokenKind → Int
  | lbrace => 1
  | rbrace => -1
  | _ => 0

/-- The braces among the tokens of a text. -/
def excessOf (cs : List Char) : Int := braceExcess (tokens cs)

theorem braceExcess_eq_contents (cs : List Char) : excessOf cs =
    ((contents cs).countP (·.1 = .lbrace) : Int) - (contents cs).countP (·.1 = .rbrace) := by
  rw [contents, List.countP_map, List.countP_map]
  rfl

theorem excessOf_nil : excessOf [] = 0 := by
  rw [braceExcess_eq_contents, contents_nil]
  rfl

theorem excessOf_space {c : Char} (hc : isSpace c = true) (cs : List Char) :
    excessOf (c :: cs) = excessOf cs := by
  rw [braceExcess_eq_contents, braceExcess_eq_contents, contents_space hc]

/-- The first lexeme counts for its kind, the text behind it for its braces. -/
theorem excessOf_read {c : Char} (hc : isSpace c = false) (cs : List Char) :
    excessOf (c :: cs) = (Lexeme.read c cs).1.kind.braces + excessOf (Lexeme.read c cs).2 := by
  rw [braceExcess_eq_contents, braceExcess_eq_contents, contents_read hc, List.countP_cons,
    List.countP_cons]
  cases (Lexeme.read c cs).1.kind
  case lbrace | rbrace =>
    simp [TokenKind.braces]
    omega
  all_goals simp [TokenKind.braces]

/-! ## The scanner outside of string literals -/

namespace BraceState

variable {c : Char} {depth : Int}

/-- A character that is neither a quote nor a brace changes nothing there. -/
theorem next_plain (hquote : c ≠ '"') (hopen : c ≠ '{') (hclose : c ≠ '}') :
    next ⟨depth, false, false⟩ c = ⟨depth, false, false⟩ := by
  unfold next
  rw [if_neg nofun, if_neg hquote, if_neg hopen, if_neg hclose]

theorem foldl_next_plain (cs : List Char) (h : ∀ c ∈ cs, c ≠ '"' ∧ c ≠ '{' ∧ c ≠ '}') :
    cs.foldl next ⟨depth, false, false⟩ = ⟨depth, false, false⟩ := by
  induction cs with
  | nil => rfl
  | cons c cs ih =>
      obtain ⟨⟨hquote, hopen, hclose⟩, hcs⟩ := List.forall_mem_cons.mp h
      rw [List.foldl_cons, next_plain hquote hopen hclose, ih hcs]

/-- An operator or delimiter counts for its kind. -/
theorem next_symbol {k : TokenKind} (h : TokenKind.ofSymbol? c = some k) :
    next ⟨depth, false, false⟩ c = ⟨depth + k.braces, false, false⟩ := by
  unfold TokenKind.ofSymbol? at h
  split at h <;> cases h <;> simp [next, TokenKind.braces, Int.sub_eq_add_neg]

/-! ## The scanner inside of a string literal -/

theorem next_body (hslash : c ≠ '\\') (hquote : c ≠ '"') :
    next ⟨depth, true, false⟩ c = ⟨depth, true, false⟩ := by
  unfold next
  rw [if_pos rfl, if_neg nofun, if_neg hslash, if_neg hquote]

/-- The scanner leaves a literal where the lexer does: at the quote that closes
it. If there is none it is still inside at the end of the text. -/
theorem foldl_next_literal (depth : Int) (cs : List Char) :
    match StringBody.split cs with
    | (body, some _) => (body ++ ['"']).foldl next ⟨depth, true, false⟩ = ⟨depth, false, false⟩
    | (body, none) => ∃ escaped, body.foldl next ⟨depth, true, false⟩ = ⟨depth, true, escaped⟩ := by
  fun_induction StringBody.split cs with
  | case1 => exact ⟨false, rfl⟩
  | case2 c cs ih =>
      revert ih
      generalize StringBody.split cs = r
      obtain ⟨body, _ | rest⟩ := r
      · exact id
      · exact id
  | case3 cs => rfl
  | case4 c cs hpair hquote ih =>
      by_cases hslash : c = '\\'
      · -- a backslash that pairs with nothing is the last character
        subst hslash
        cases cs with
        | nil => exact ⟨true, rfl⟩
        | cons d ds => exact (hpair d ds rfl rfl).elim
      · revert ih
        generalize StringBody.split cs = r
        obtain ⟨body, _ | rest⟩ := r
        · simp only [List.foldl_cons, next_body hslash hquote]
          exact id
        · simp only [List.cons_append, List.foldl_cons, next_body hslash hquote]
          exact id

/-! ## The scanner over a text -/

theorem ne_of_isWordPart (h : isWordPart c = true) : c ≠ '"' ∧ c ≠ '{' ∧ c ≠ '}' := by
  refine ⟨?_, ?_, ?_⟩
  all_goals
    rintro rfl
    revert h
    decide

theorem braces_ofWord (word : String) : (TokenKind.ofWord word).braces = 0 := by
  unfold TokenKind.ofWord TokenKind.keyword?
  split <;> rfl

/-- The scanner takes the operator that the lexer takes. -/
theorem foldl_next_operator? {cs : List Char} {x : Lexeme × List Char}
    (h : Lexeme.operator? c cs = some x) :
    x.1.source.foldl next ⟨depth, false, false⟩ = ⟨depth + x.1.kind.braces, false, false⟩ := by
  unfold Lexeme.operator? at h
  split at h
  · obtain ⟨k, hk, rfl⟩ := Option.map_eq_some_iff.mp h
    exact next_symbol hk
  · split at h
    · rename_i hpair
      cases h
      unfold TokenKind.ofPair? at hpair
      split at hpair <;> cases hpair <;> simp [Lexeme.plain, next, TokenKind.braces]
    · obtain ⟨k, hk, rfl⟩ := Option.map_eq_some_iff.mp h
      exact next_symbol hk

/-- A character that starts no operator or delimiter is no brace. -/
theorem ne_of_operator?_eq_none {cs : List Char} (h : Lexeme.operator? c cs = none) :
    c ≠ '{' ∧ c ≠ '}' := by
  constructor
  all_goals
    rintro rfl
    cases cs <;> exact nomatch h

/-- The scanner over one lexeme, not a string literal. -/
theorem foldl_next_read (hquote : c ≠ '"') (cs : List Char) :
    (Lexeme.read c cs).1.source.foldl next ⟨depth, false, false⟩ =
      ⟨depth + (Lexeme.read c cs).1.kind.braces, false, false⟩ := by
  unfold Lexeme.read
  split
  · rename_i hstart
    simp only [Lexeme.plain, braces_ofWord, Int.add_zero]
    refine foldl_next_plain _ ?_
    intro d hd
    refine ne_of_isWordPart ?_
    rcases List.mem_cons.mp hd with rfl | hd
    · exact Bool.or_eq_true_iff.mpr (.inl hstart)
    · exact List.all_eq_true.mp List.all_takeWhile d hd
  · split
    · rename_i hdigit
      simp only [Lexeme.plain, TokenKind.braces, Int.add_zero]
      refine foldl_next_plain _ ?_
      intro d hd
      refine ne_of_isWordPart (Bool.or_eq_true_iff.mpr (.inr ?_))
      rcases List.mem_cons.mp hd with rfl | hd
      · exact hdigit
      · exact List.all_eq_true.mp List.all_takeWhile d hd
    · cases h : Lexeme.operator? c cs with
      | some x => exact foldl_next_operator? h
      | none =>
          obtain ⟨hopen, hclose⟩ := ne_of_operator?_eq_none h
          simp only [Option.getD_none, Lexeme.plain, TokenKind.braces, Int.add_zero]
          exact next_plain hquote hopen hclose

/-- The scanner over one string literal: it is still inside after an open one. -/
theorem foldl_next_string (depth : Int) (cs : List Char) :
    (∃ escaped, (StringBody.split cs).2 = none ∧ (Lexeme.read '"' cs).2 = [] ∧
      (Lexeme.read '"' cs).1.source.foldl next ⟨depth, false, false⟩ = ⟨depth, true, escaped⟩) ∨
    ((StringBody.split cs).2 ≠ none ∧
      (Lexeme.read '"' cs).1.source.foldl next ⟨depth, false, false⟩ = ⟨depth, false, false⟩) := by
  have hread : Lexeme.read '"' cs = Lexeme.string '"' cs := rfl
  have hbody := foldl_next_literal depth cs
  rw [hread]
  unfold Lexeme.string
  revert hbody
  generalize StringBody.split cs = r
  obtain ⟨body, _ | rest⟩ := r
  · rintro ⟨escaped, hbody⟩
    exact .inl ⟨escaped, rfl, rfl, hbody⟩
  · intro hbody
    exact .inr ⟨nofun, hbody⟩

/-- **The scanner agrees with the lexer** on a whole text: it has counted the
brace tokens, and it is in a literal if the text ends in one. -/
theorem foldl_next_text (cs : List Char) (depth : Int) :
    (cs.foldl next ⟨depth, false, false⟩).depth = depth + excessOf cs ∧
      ((cs.foldl next ⟨depth, false, false⟩).inString = true ↔ EndsInString cs) := by
  match cs with
  | [] =>
      rw [excessOf_nil]
      exact ⟨(Int.add_zero depth).symm, nofun, fun h => (not_endsInString_nil h).elim⟩
  | c :: cs =>
      by_cases hspace : isSpace c = true
      · have hplain : c ≠ '"' ∧ c ≠ '{' ∧ c ≠ '}' := by
          refine ⟨?_, ?_, ?_⟩ <;> (rintro rfl; exact absurd hspace (by decide))
        rw [List.foldl_cons, next_plain hplain.1 hplain.2.1 hplain.2.2, excessOf_space hspace,
          endsInString_space hspace]
        exact foldl_next_text cs depth
      · have hspace : isSpace c = false := Bool.eq_false_iff.mpr hspace
        have hshort := Lexeme.length_read_le c cs
        rw [excessOf_read hspace, ← Int.add_assoc, endsInString_read hspace,
          ← Lexeme.read_append c cs, List.foldl_append]
        by_cases hquote : c = '"'
        · subst hquote
          have hkind : (Lexeme.read '"' cs).1.kind.braces = 0 :=
            congrArg TokenKind.braces (string_kind '"' cs)
          rw [hkind, Int.add_zero]
          obtain ⟨escaped, hopen, hrest, hsource⟩ | ⟨hclosed, hsource⟩ :=
            foldl_next_string depth cs
          · rw [hsource, hrest, excessOf_nil]
            exact ⟨(Int.add_zero depth).symm, iff_of_true rfl (.inl ⟨rfl, hopen⟩)⟩
          · rw [hsource, or_iff_right fun h => hclosed h.2]
            exact foldl_next_text _ depth
        · rw [foldl_next_read hquote, or_iff_right fun h => hquote h.1]
          exact foldl_next_text _ _
termination_by cs.length
decreasing_by
  all_goals
    simp only [List.length_cons]
    omega

/-! ## The scanner at the end of a line -/

/-- A backslash is remembered in a literal only. -/
def Proper (b : BraceState) : Prop := b.escaped = true → b.inString = true

theorem Proper.next {b : BraceState} (hb : b.Proper) (c : Char) : (b.next c).Proper := by
  unfold Proper at *
  unfold BraceState.next
  repeat' split
  all_goals simp_all

theorem Proper.foldl {b : BraceState} (hb : b.Proper) (cs : List Char) :
    (cs.foldl BraceState.next b).Proper := by
  induction cs generalizing b with
  | nil => exact hb
  | cons c cs ih => exact ih (hb.next c)

/-- A line feed makes the scanner forget a backslash, and nothing else. -/
theorem next_lineFeed {b : BraceState} (hb : b.Proper) :
    b.next '\n' = ⟨b.depth, b.inString, false⟩ := by
  obtain ⟨depth, inString, escaped⟩ := b
  cases inString <;> cases escaped
  · rfl
  · exact nomatch hb rfl
  · rfl
  · rfl

/-- The count goes on from any depth as it does from zero. -/
theorem foldl_next_depth (cs : List Char) (depth d : Int) (inString escaped : Bool) :
    cs.foldl next ⟨depth + d, inString, escaped⟩ =
      ⟨depth + (cs.foldl next ⟨d, inString, escaped⟩).depth,
        (cs.foldl next ⟨d, inString, escaped⟩).inString,
        (cs.foldl next ⟨d, inString, escaped⟩).escaped⟩ := by
  induction cs generalizing d inString escaped with
  | nil => rfl
  | cons c cs ih =>
      have hstep : next ⟨depth + d, inString, escaped⟩ c =
          ⟨depth + (next ⟨d, inString, escaped⟩ c).depth,
            (next ⟨d, inString, escaped⟩ c).inString,
            (next ⟨d, inString, escaped⟩ c).escaped⟩ := by
        unfold next
        repeat' split
        all_goals simp [Int.add_assoc, Int.sub_eq_add_neg]
      rw [List.foldl_cons, hstep, ih]
      rfl

end BraceState

/-! ## Lines -/

/-- Some lines as one text. -/
def joinLines (lines : List String) : String := "\n".intercalate lines

theorem joinLines_singleton (line : String) : joinLines [line] = line :=
  String.intercalate_singleton

theorem joinLines_concat {lines : List String} (h : lines ≠ []) (line : String) :
    joinLines (lines ++ [line]) = joinLines lines ++ "\n" ++ line := by
  have hline : [line] ≠ [] := List.cons_ne_nil line []
  rw [joinLines, String.intercalate_append_of_ne_nil h hline, String.intercalate_singleton]
  rfl

/-- The open braces after some lines, and whether a string literal is open, as
the session keeps them from line to line. -/
def balanceAfter (lines : List String) : Int × Bool :=
  lines.foldl (fun b line =>
    (b.1 + (braceBalance b.2 line.toList).1, (braceBalance b.2 line.toList).2)) (0, false)

theorem balanceAfter_concat (lines : List String) (line : String) :
    balanceAfter (lines ++ [line]) =
      ((balanceAfter lines).1 + (braceBalance (balanceAfter lines).2 line.toList).1,
        (braceBalance (balanceAfter lines).2 line.toList).2) := by
  rw [balanceAfter, List.foldl_append]
  rfl

/-- Line by line the scanner comes to what it comes to on the joined text. -/
theorem balanceAfter_eq_foldl (lines : List String) :
    let b := (joinLines lines).toList.foldl BraceState.next ⟨0, false, false⟩
    balanceAfter lines = (b.depth, b.inString) := by
  induction lines using List.reverseRecOn with
  | nil => rfl
  | append_singleton lines line ih =>
      intro b
      rw [balanceAfter_concat, ih]
      let before := (joinLines lines).toList.foldl BraceState.next ⟨0, false, false⟩
      have hb : b = line.toList.foldl BraceState.next ⟨before.depth, before.inString, false⟩ := by
        by_cases hnil : lines = []
        · subst hnil
          show (joinLines [line]).toList.foldl _ _ = _
          rw [joinLines_singleton]
          rfl
        · have hstart : BraceState.Proper ⟨0, false, false⟩ := nofun
          have hproper : before.Proper := hstart.foldl _
          show (joinLines (lines ++ [line])).toList.foldl _ _ = _
          rw [joinLines_concat hnil, String.toList_append, String.toList_append, List.foldl_append,
            List.foldl_append, ← BraceState.next_lineFeed hproper]
          rfl
      have hdepth := BraceState.foldl_next_depth line.toList before.depth 0 before.inString false
      rw [Int.add_zero] at hdepth
      rw [hb, hdepth]
      rfl

/-- **Counting by lines.** What the session keeps after some lines is the excess
of brace tokens in the joined text, and whether it ends inside a string literal. -/
theorem balanceAfter_eq (lines : List String) :
    (balanceAfter lines).1 = braceExcess (tokenize (joinLines lines)) ∧
      ((balanceAfter lines).2 = true ↔ EndsInString (joinLines lines).toList) := by
  obtain ⟨hdepth, hends⟩ := BraceState.foldl_next_text (joinLines lines).toList 0
  rw [balanceAfter_eq_foldl]
  exact ⟨hdepth.trans (Int.zero_add _), hends⟩

/-- A single line that the session counts as closed leaves no string literal open. -/
theorem not_endsInString_of_balance {line : String} (h : (balanceAfter [line]).2 = false) :
    ¬EndsInString line.toList := by
  intro hopen
  rw [← joinLines_singleton line, ← (balanceAfter_eq [line]).2, h] at hopen
  exact nomatch hopen

end MonkeyLang
