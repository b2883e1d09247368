import MonkeyLang.Proofs.MaximalMunch

/-!
# Places in a stream

A stream can be read in many ways, one character or one token at a time, skipped, and
started again. In whatever order this is done, the cursor knows where it stands: its line
and its column are those that the characters between the start and its position lead to,
each token has the place of its first character, and reading fails at the end of the text
and nowhere else, where it leaves the cursor as it is (`operations_keep_places`).

An operation reads some characters ahead (`Cursor.Reads`), or it goes back to the start.
That is all that the places depend on.
-/

namespace MonkeyLang

/-! ## Places after characters -/

theorem Place.line_after (p : Place) (cs : List Char) :
    (p.after cs).line = p.line + cs.count '\n' := by
  induction cs generalizing p with
  | nil => simp
  | cons c cs ih =>
      rw [after_cons, ih, next, List.count_cons]
      by_cases hc : c = '\n'
      · simp [hc]
        omega
      · simp [hc]

/-- The column counts the characters after the last line feed, or goes on from the start
if there is none. -/
theorem Place.column_after (p : Place) (cs : List Char) :
    (p.after cs).column =
      if '\n' ∈ cs then 1 + ((cs.rtakeWhile (· ≠ '\n')).length : Int)
      else p.column + cs.length := by
  induction cs using List.reverseRecOn with
  | nil => simp
  | append_singleton cs c ih =>
      rw [after_append, after_cons, after_nil, next, List.rtakeWhile_concat]
      by_cases hc : c = '\n'
      · simp [hc]
      · simp only [if_neg hc, ih]
        by_cases hmem : '\n' ∈ cs
        · simp [hmem, hc]
          omega
        · simp [hmem, Ne.symm hc]
          omega

/-! ## Reading ahead -/

/-- The second cursor stands behind some characters that are ahead of the first. -/
structure Cursor.Reads (k : Cursor) (used : List Char) (k' : Cursor) : Prop where
  rest : k.rest = used ++ k'.rest
  position : k'.position = k.position + used.length
  place : k'.place = k.place.after used

/-- The cursor stands in a text that is read from a position on, which counts as the place
`start`. What it has passed leads to its line and its column. -/
structure Cursor.Stands (text : List Char) (first : Nat) (start : Place) (k : Cursor) : Prop where
  position : (first : Int) ≤ k.position
  rest : k.rest = text.drop k.position.toNat
  line : k.place.line =
    start.line + ((text.drop first).take (k.position.toNat - first)).count '\n'
  column : k.place.column =
    let passed := (text.drop first).take (k.position.toNat - first)
    if '\n' ∈ passed then 1 + ((passed.rtakeWhile (· ≠ '\n')).length : Int)
    else start.column + passed.length

section Cursors

variable {text used used' : List Char} {first : Nat} {start : Place} {k k₁ k₂ : Cursor}

theorem Cursor.Reads.refl (k : Cursor) : k.Reads [] k :=
  ⟨rfl, (Int.add_zero _).symm, rfl⟩

theorem Cursor.Reads.trans (h : k.Reads used k₁) (h' : k₁.Reads used' k₂) :
    k.Reads (used ++ used') k₂ where
  rest := by rw [h.rest, h'.rest, List.append_assoc]
  position := by
    rw [h'.position, h.position, List.length_append, Int.natCast_add, Int.add_assoc]
  place := by rw [h'.place, h.place, Place.after_append]

theorem Cursor.reads_skip {rest : List Char} (h : k.rest = used ++ rest) :
    k.Reads used (k.skip used rest) :=
  ⟨h, rfl, rfl⟩

theorem Cursor.Reads.position_le (h : k.Reads used k₁) : k.position ≤ k₁.position := by
  rw [h.position]
  omega

/-- Behind what has been read from the start on, the cursor knows where it stands. -/
theorem Cursor.Reads.stands (h : (⟨first, start, text.drop first⟩ : Cursor).Reads used k) :
    k.Stands text first start := by
  have hrest : text.drop first = used ++ k.rest := h.rest
  have hposition : k.position = first + used.length := h.position
  have hplace : k.place = start.after used := h.place
  have hnat : k.position.toNat = first + used.length := by omega
  have hpassed : (text.drop first).take (k.position.toNat - first) = used := by
    rw [hnat, Nat.add_sub_cancel_left, hrest, List.take_left]
  refine ⟨by omega, ?_, ?_, ?_⟩
  · rw [hnat, ← List.drop_drop, hrest, List.drop_left]
  · rw [hpassed, hplace, Place.line_after]
  · rw [hpassed, hplace, Place.column_after]

theorem Cursor.pastSpace_reads (h : 0 ≤ k.position) :
    k.Reads (k.rest.takeWhile isSpace) k.pastSpace := by
  rw [Cursor.pastSpace_eq h]
  exact reads_skip List.takeWhile_append_dropWhile.symm

end Cursors

/-! ## Tokens -/

/-- A token has been read. It begins where the spaces ahead end, and it has the place of the
cursor there. It is the token of the lexeme that stands there, or the end of the file. -/
inductive Cursor.ReadsToken (text : List Char) (first : Nat) (start : Place) (k : Cursor) :
    Token → Cursor → Prop
  | lexeme {spaces : List Char} {x : Lexeme} {k₁ k₂ : Cursor} :
      (∀ c ∈ spaces, isSpace c = true) → k.Reads spaces k₁ → k₁.Stands text first start →
      x.StandsBefore k₂.rest → k₁.Reads x.source k₂ →
      ReadsToken text first start k (x.token k₁.place) k₂
  | endOfFile {spaces : List Char} {k₁ : Cursor} :
      (∀ c ∈ spaces, isSpace c = true) → k.Reads spaces k₁ → k₁.Stands text first start →
      k₁.rest = [] → ReadsToken text first start k ⟨.eof, "", k₁.place⟩ k₁

/-- Tokens have been read one after another, up to the first end of the file. -/
inductive Cursor.ReadsTokens (text : List Char) (first : Nat) (start : Place) :
    Cursor → List Token → Cursor → Prop
  | last {k k₁ : Cursor} {t : Token} :
      k.ReadsToken text first start t k₁ → t.kind = .eof → ReadsTokens text first start k [t] k₁
  | more {k k₁ k₂ : Cursor} {t : Token} {ts : List Token} :
      k.ReadsToken text first start t k₁ → t.kind ≠ .eof →
      ReadsTokens text first start k₁ ts k₂ → ReadsTokens text first start k (t :: ts) k₂

section Tokens

variable {text used : List Char} {first : Nat} {start : Place} {k k₁ k₂ : Cursor}

/-- The cursor at the start of a text that is read from a position on. -/
def Cursor.begin (text : List Char) (first : Nat) (start : Place) : Cursor :=
  ⟨first, start, text.drop first⟩

theorem Cursor.Reads.position_nonneg (h : (begin text first start).Reads used k) :
    0 ≤ k.position := by
  have hposition : k.position = first + used.length := h.position
  omega

/-- Two cursors at the end of a text that have read the same are one. -/
theorem Cursor.Reads.eq_of_end {used' : List Char} (h : k.Reads used k₁) (h' : k.Reads used' k₂)
    (hend : k₁.rest = []) (hend' : k₂.rest = []) : k₁ = k₂ := by
  obtain ⟨hrest, hposition, hplace⟩ := h
  obtain ⟨hrest', hposition', hplace'⟩ := h'
  rw [hend, List.append_nil] at hrest
  rw [hend', List.append_nil] at hrest'
  obtain rfl : used = used' := hrest.symm.trans hrest'
  cases k₁
  cases k₂
  simp_all

theorem Cursor.token_end (h : k.pastSpace.rest = []) :
    k.token = (⟨.eof, "", k.pastSpace.place⟩, k.pastSpace) := by
  simp only [token, h]

theorem Cursor.token_lexeme {c : Char} {cs : List Char} (h : k.pastSpace.rest = c :: cs) :
    k.token = ((Lexeme.read c cs).1.token k.pastSpace.place,
      k.pastSpace.skip (Lexeme.read c cs).1.source (Lexeme.read c cs).2) := by
  simp only [token, h]

theorem Cursor.isSpace_of_mem_space (k : Cursor) :
    ∀ c ∈ k.rest.takeWhile isSpace, isSpace c = true :=
  fun c hc => List.all_eq_true.mp List.all_takeWhile c hc

/-- Past the spaces stands the first character that is none. -/
theorem Cursor.isSpace_of_pastSpace (h : 0 ≤ k.position) {c : Char} {cs : List Char}
    (hrest : k.pastSpace.rest = c :: cs) : isSpace c = false := by
  rw [Cursor.pastSpace_eq h] at hrest
  have hdrop : k.rest.dropWhile isSpace = c :: cs := hrest
  exact Lexeme.head?_dropWhile c (by rw [hdrop]; rfl)

theorem Cursor.Reads.readsToken (h : (begin text first start).Reads used k) :
    k.ReadsToken text first start k.token.1 k.token.2 := by
  have hspace := pastSpace_reads h.position_nonneg
  have hstands := (h.trans hspace).stands
  cases hrest : k.pastSpace.rest with
  | nil =>
      rw [token_end hrest]
      exact .endOfFile k.isSpace_of_mem_space hspace hstands hrest
  | cons c cs =>
      have hc := isSpace_of_pastSpace h.position_nonneg hrest
      rw [token_lexeme hrest]
      refine .lexeme k.isSpace_of_mem_space hspace hstands (Lexeme.read_stands hc cs) ?_
      exact reads_skip (by rw [hrest, Lexeme.read_append])

theorem Cursor.ReadsToken.reads {t : Token} (h : k.ReadsToken text first start t k₁) :
    ∃ used, k.Reads used k₁ := by
  cases h with
  | lexeme _ hspace _ _ hlexeme => exact ⟨_, hspace.trans hlexeme⟩
  | endOfFile _ hspace _ _ => exact ⟨_, hspace⟩

theorem Cursor.tokens_fst (h : 0 ≤ k.position) : k.tokens.1 = tokensFrom k.place k.rest := by
  simp only [tokens]
  rw [pastSpace_eq h]
  exact tokensFrom_pastSpace k.place k.rest

theorem Cursor.reads_tokens (h : 0 ≤ k.position) : k.Reads k.rest k.tokens.2 := by
  have hspace := pastSpace_reads h
  rw [hspace.rest]
  exact hspace.trans (reads_skip (List.append_nil _).symm)

/-- All tokens at once are those that come one after another. -/
theorem Cursor.Reads.readsTokens {used : List Char} {k : Cursor}
    (h : (begin text first start).Reads used k) :
    k.ReadsTokens text first start k.tokens.1 k.tokens.2 := by
  have hk := h.position_nonneg
  have hspace := pastSpace_reads hk
  have htoken := h.readsToken
  have hplace : k.pastSpace.place = k.place.after (k.rest.takeWhile isSpace) := hspace.place
  have hdrop : k.pastSpace.rest = k.rest.dropWhile isSpace := by rw [pastSpace_eq hk]; rfl
  rw [tokens_fst hk]
  cases hrest : k.pastSpace.rest with
  | nil =>
      rw [token_end hrest, hplace] at htoken
      rw [tokensFrom_nil (hdrop.symm.trans hrest), (reads_tokens hk).eq_of_end hspace rfl hrest]
      exact .last htoken rfl
  | cons c cs =>
      rw [token_lexeme hrest, hplace] at htoken
      set k₁ := k.pastSpace.skip (Lexeme.read c cs).1.source (Lexeme.read c cs).2 with hk₁
      obtain ⟨passed, hpassed⟩ : ∃ passed, k.Reads passed k₁ := htoken.reads
      have hbegin := h.trans hpassed
      have hrest₁ : k₁.rest = (Lexeme.read c cs).2 := rfl
      have hplace₁ : k₁.place =
          (k.place.after (k.rest.takeWhile isSpace)).after (Lexeme.read c cs).1.source := by
        rw [← hplace]
        rfl
      have hshort : k₁.rest.length < k.rest.length := by
        have hread := Lexeme.length_read_le c cs
        have hle := length_dropWhile_le isSpace k.rest
        rw [← hdrop, hrest, List.length_cons] at hle
        rw [hrest₁]
        omega
      have hmore : k₁.ReadsTokens text first start k₁.tokens.1 k₁.tokens.2 :=
        Cursor.Reads.readsTokens hbegin
      have hend := hpassed.trans (reads_tokens hbegin.position_nonneg)
      rw [tokens_fst hbegin.position_nonneg, hplace₁, hrest₁,
        hend.eq_of_end (reads_tokens hk) rfl rfl] at hmore
      rw [tokensFrom_read (hdrop.symm.trans hrest)]
      exact .more htoken (read_kind c cs).1 hmore
termination_by k.rest.length

end Tokens

/-! ## Operations -/

/-- What can be done with a stream. -/
inductive StreamOp
  | next
  | peek (offset : Int)
  | atEnd
  | rewind
  | skipSpace
  | operator
  | string (place : Place)
  | token
  | reset
  | iterate
deriving DecidableEq, Repr

/-- What an operation answers. -/
inductive StreamAnswer
  | done
  | char (c : Char)
  | ahead (c : Option Char)
  | flag (b : Bool)
  | found (t : Option Token)
  | token (t : Token)
  | tokens (ts : List Token)
deriving DecidableEq, Repr

namespace StreamOp

/-- What an operation does. -/
def run : StreamOp → Reader StreamAnswer
  | next => .char <$> Reader.char
  | peek offset => fun s => .ok (.ahead (s.peek? offset)) s
  | atEnd => fun s => .ok (.flag s.cursor.atEnd) s
  | rewind | reset => fun s => .ok .done s.rewind
  | skipSpace => (fun _ => .done) <$> Reader.skipSpace
  | operator => fun s => .ok (.found s.operator.1) s.operator.2
  | string place => .token <$> Reader.string place
  | token => .token <$> Reader.token
  | iterate => .tokens <$> Reader.tokens

/-- The operation goes back to the start. -/
def restarts : StreamOp → Bool
  | rewind | reset => true
  | _ => false

/-- The operation reads a character, whatever is ahead. -/
def reads : StreamOp → Bool
  | next | string _ => true
  | _ => false

end StreamOp

/-- The stream after an operation, whether it has failed or not. -/
def Stream.after (s : Stream) (op : StreamOp) : Stream :=
  match op.run s with
  | .ok _ s' | .error _ s' => s'

/-- The stream after some operations. -/
def Stream.afterAll (s : Stream) (ops : List StreamOp) : Stream := ops.foldl Stream.after s

/-- The stream reads a text from a position on, and it has read some characters since. -/
structure Stream.Tracks (text : List Char) (first : Nat) (start : Place) (s : Stream) : Prop where
  text_eq : s.text = text
  start_eq : s.start = .begin text first start
  reads : ∃ used, (Cursor.begin text first start).Reads used s.cursor

/-- What an operation does to a stream with nothing behind the end of its text: it finds no
character to read, it goes back to the start, or it reads ahead. -/
inductive StreamOp.Does (s : Stream) (op : StreamOp) : Prop
  | fails : op.reads = true → s.cursor.rest = [] →
      op.run s = .error (.pastEnd s.cursor.position s.cursor.place.line) s → Does s op
  | restarts : op.restarts = true → op.reads = false → op.run s = .ok .done s.rewind →
      Does s op
  | moves {answer : StreamAnswer} {used : List Char} {k : Cursor} :
      op.restarts = false → (op.reads = true → s.cursor.rest ≠ []) → s.cursor.Reads used k →
      op.run s = .ok answer { s with cursor := k } → Does s op

/-- How an operation on a stream keeps the places: its cursor goes ahead or back to the start,
it fails at the end of the text and nowhere else, without moving, and tokens have the places
where they begin. -/
structure StreamOp.KeepsPlaces (text : List Char) (first : Nat) (start : Place) (s : Stream)
    (op : StreamOp) : Prop where
  back : op.restarts = true → (s.after op).cursor.position = first ∧
    (s.after op).cursor.place = start
  ahead : op.restarts = false → s.cursor.position ≤ (s.after op).cursor.position
  fails_iff : (∃ e s', op.run s = .error e s') ↔
    op.reads = true ∧ text.length ≤ s.cursor.position
  failed : ∀ e s', op.run s = .error e s' →
    e = .pastEnd s.cursor.position s.cursor.place.line ∧ s' = s
  token : op = .token → ∃ t, op.run s = .ok (.token t) (s.after op) ∧
    s.cursor.ReadsToken text first start t (s.after op).cursor
  tokens : op = .iterate → ∃ ts, op.run s = .ok (.tokens ts) (s.after op) ∧
    s.cursor.ReadsTokens text first start ts (s.after op).cursor

section Operations

variable {text : List Char} {first : Nat} {start : Place} {s : Stream}

theorem Stream.tracks_ofText (text : List Char) (first : Nat) (start : Place) :
    (ofText text first start).Tracks text first start := by
  have hchars : charsFrom text first = text.drop first := by
    rw [charsFrom, if_pos (Int.natCast_nonneg first), Int.toNat_natCast]
  have hbegin : (⟨first, start, charsFrom text first⟩ : Cursor) = .begin text first start := by
    rw [hchars]
    rfl
  exact ⟨rfl, hbegin, [], hbegin ▸ .refl _⟩

theorem Stream.Tracks.stands (h : s.Tracks text first start) :
    s.cursor.Stands text first start :=
  h.reads.elim fun _ hreads => hreads.stands

theorem Stream.Tracks.position_nonneg (h : s.Tracks text first start) :
    0 ≤ s.cursor.position :=
  h.reads.elim fun _ hreads => hreads.position_nonneg

theorem Stream.Tracks.not_outside (h : s.Tracks text first start) :
    s.cursor.isOutside = false := by
  have hposition : ¬s.cursor.position < 0 := Int.not_lt.mpr h.position_nonneg
  simp [Cursor.isOutside, hposition]

theorem Stream.Tracks.readError (h : s.Tracks text first start) :
    s.cursor.readError = .pastEnd s.cursor.position s.cursor.place.line :=
  if_neg (Int.not_lt.mpr h.position_nonneg)

/-- Nothing is left to be read exactly at the end of the text and beyond it. -/
theorem Stream.Tracks.rest_eq_nil (h : s.Tracks text first start) :
    s.cursor.rest = [] ↔ (text.length : Int) ≤ s.cursor.position := by
  rw [h.stands.rest, List.drop_eq_nil_iff]
  have hposition := h.position_nonneg
  omega

theorem Stream.Tracks.moved (h : s.Tracks text first start) {used : List Char} {k : Cursor}
    (hk : s.cursor.Reads used k) : { s with cursor := k }.Tracks text first start :=
  ⟨h.text_eq, h.start_eq, h.reads.elim fun _ hreads => ⟨_, hreads.trans hk⟩⟩

theorem Stream.Tracks.rewind (h : s.Tracks text first start) :
    s.rewind.Tracks text first start :=
  ⟨h.text_eq, h.start_eq, [], by rw [Stream.rewind, h.start_eq]; exact .refl _⟩

/-! ### One operation -/

/-- Where no character is left, none is read, and the cursor stays. -/
theorem Stream.Tracks.char_end (h : s.Tracks text first start) (hrest : s.cursor.rest = []) :
    Reader.char s = .error (.pastEnd s.cursor.position s.cursor.place.line) s := by
  rw [Reader.char, hrest, h.readError]

theorem Reader.char_cons {c : Char} {cs : List Char} (hrest : s.cursor.rest = c :: cs) :
    char s = .ok c { s with cursor := s.cursor.skip [c] cs } := by
  rw [char, hrest]

/-- A string literal that cannot start leaves the stream where the missing character left it. -/
theorem Reader.string_of_error {e : ReadError} {s' : Stream} (place : Place)
    (h : char s = .error e s') : string place s = .error e s' := by
  rw [string, h]

theorem Reader.string_cons {c : Char} {cs : List Char} (place : Place)
    (hrest : s.cursor.rest = c :: cs) :
    string place s = .ok ((Lexeme.string c cs).1.token place)
      { s with cursor :=
          s.cursor.skip (Lexeme.string c cs).1.source (Lexeme.string c cs).2 } := by
  rw [string, char_cons hrest]
  rfl

/-- What an operation makes of an answer changes neither the error nor the stream. -/
theorem Reader.map_of_error {α β : Type} {r : Reader α} {e : ReadError} {s' : Stream} (f : α → β)
    (h : r s = .error e s') : (f <$> r) s = .error e s' := by
  show EStateM.map f r s = _
  rw [EStateM.map, h]

theorem Reader.map_of_ok {α β : Type} {r : Reader α} {a : α} {s' : Stream} (f : α → β)
    (h : r s = .ok a s') : (f <$> r) s = .ok (f a) s' := by
  show EStateM.map f r s = _
  rw [EStateM.map, h]

theorem Stream.Tracks.run_token (h : s.Tracks text first start) :
    StreamOp.token.run s = .ok (.token s.cursor.token.1) { s with cursor := s.cursor.token.2 } :=
  Reader.map_of_ok _ (Reader.inside_eq h.not_outside _)

theorem Stream.Tracks.run_iterate (h : s.Tracks text first start) :
    StreamOp.iterate.run s =
      .ok (.tokens s.cursor.tokens.1) { s with cursor := s.cursor.tokens.2 } :=
  Reader.map_of_ok _ (Reader.inside_eq h.not_outside _)

/-- An operator that the cursor stands at is read; where there is none, nothing is. -/
theorem Cursor.operator?_reads {k k' : Cursor} {t : Token} (h : k.operator? = some (t, k')) :
    ∃ used, k.Reads used k' := by
  cases hahead : k.ahead with
  | nil => simp [operator?, hahead] at h
  | cons c cs =>
      have hrest : k.rest = c :: cs := by
        rw [ahead] at hahead
        split at hahead
        · cases hahead
        · exact hahead
      simp only [operator?, hahead] at h
      obtain ⟨read, hread, hpair⟩ := Option.map_eq_some_iff.mp h
      cases hpair
      exact ⟨_, reads_skip (by rw [hrest, Lexeme.operator?_append hread])⟩

theorem Stream.operator_reads (s : Stream) :
    ∃ used k, s.cursor.Reads used k ∧ s.operator.2 = { s with cursor := k } := by
  cases hoperator : s.cursor.operator? with
  | none => exact ⟨[], s.cursor, .refl _, by rw [operator, hoperator]⟩
  | some found =>
      obtain ⟨used, hused⟩ := Cursor.operator?_reads hoperator
      exact ⟨used, found.2, hused, by rw [operator, hoperator]⟩

/-- Every operation finds the end of the text, goes back to the start or reads ahead. -/
theorem Stream.Tracks.does (h : s.Tracks text first start) (op : StreamOp) : op.Does s := by
  obtain ⟨before, hreads⟩ := h.reads
  cases op with
  | next =>
      cases hrest : s.cursor.rest with
      | nil => exact .fails rfl hrest (Reader.map_of_error _ (h.char_end hrest))
      | cons c cs =>
          have hused : s.cursor.rest = [c] ++ cs := hrest
          exact .moves rfl (fun _ => by simp [hrest]) (Cursor.reads_skip hused)
            (Reader.map_of_ok _ (Reader.char_cons hrest))
  | string place =>
      cases hrest : s.cursor.rest with
      | nil =>
          have hfails := Reader.string_of_error place (h.char_end hrest)
          exact .fails rfl hrest (Reader.map_of_error _ hfails)
      | cons c cs =>
          have hused := hrest.trans (Lexeme.string_append c cs).symm
          exact .moves rfl (fun _ => by simp [hrest]) (Cursor.reads_skip hused)
            (Reader.map_of_ok _ (Reader.string_cons place hrest))
  | rewind => exact .restarts rfl rfl rfl
  | reset => exact .restarts rfl rfl rfl
  | peek offset => exact .moves rfl nofun (.refl _) rfl
  | atEnd => exact .moves rfl nofun (.refl _) rfl
  | skipSpace =>
      exact .moves rfl nofun (Cursor.pastSpace_reads h.position_nonneg)
        (Reader.map_of_ok _ (Reader.inside_eq h.not_outside _))
  | operator =>
      obtain ⟨used, k, hused, hoperator⟩ := s.operator_reads
      have hrun : StreamOp.operator.run s = .ok (.found s.operator.1) { s with cursor := k } := by
        rw [← hoperator]
        rfl
      exact .moves rfl nofun hused hrun
  | token =>
      obtain ⟨used, hused⟩ := hreads.readsToken.reads
      exact .moves rfl nofun hused h.run_token
  | iterate => exact .moves rfl nofun (Cursor.reads_tokens h.position_nonneg) h.run_iterate

theorem Stream.after_ok {op : StreamOp} {answer : StreamAnswer} {s' : Stream}
    (h : op.run s = .ok answer s') : s.after op = s' := by
  rw [after, h]

theorem Stream.after_error {op : StreamOp} {e : ReadError} {s' : Stream}
    (h : op.run s = .error e s') : s.after op = s' := by
  rw [after, h]

theorem Stream.Tracks.after (h : s.Tracks text first start) (op : StreamOp) :
    (s.after op).Tracks text first start := by
  cases h.does op with
  | fails _ _ hrun => rwa [after_error hrun]
  | restarts _ _ hrun => exact after_ok hrun ▸ h.rewind
  | moves _ _ hused hrun => exact after_ok hrun ▸ h.moved hused

theorem Stream.Tracks.afterAll (h : s.Tracks text first start) (ops : List StreamOp) :
    (s.afterAll ops).Tracks text first start := by
  induction ops generalizing s with
  | nil => exact h
  | cons op ops ih => exact ih (h.after op)

theorem Stream.Tracks.fails_iff (h : s.Tracks text first start) (op : StreamOp) :
    (∃ e s', op.run s = .error e s') ↔
      op.reads = true ∧ (text.length : Int) ≤ s.cursor.position := by
  rw [← h.rest_eq_nil]
  cases h.does op with
  | fails hreads hrest hrun => exact ⟨fun _ => ⟨hreads, hrest⟩, fun _ => ⟨_, _, hrun⟩⟩
  | restarts _ hreads hrun => simp [hrun, hreads]
  | moves _ hrest _ hrun =>
      rw [hrun]
      exact ⟨nofun, fun ⟨hreads, hnil⟩ => (hrest hreads hnil).elim⟩

/-- A failed operation has found the end of the text and has not moved the cursor. -/
theorem Stream.Tracks.eq_of_error (h : s.Tracks text first start) {op : StreamOp} {e : ReadError}
    {s' : Stream} (he : op.run s = .error e s') :
    e = .pastEnd s.cursor.position s.cursor.place.line ∧ s' = s := by
  cases h.does op with
  | fails _ _ hrun =>
      obtain ⟨rfl, rfl⟩ := EStateM.Result.error.inj (he.symm.trans hrun)
      exact ⟨rfl, rfl⟩
  | restarts _ _ hrun => exact nomatch he.symm.trans hrun
  | moves _ _ _ hrun => exact nomatch he.symm.trans hrun

/-- A step: whatever the operation does, it keeps the places. -/
theorem Stream.Tracks.keepsPlaces (h : s.Tracks text first start) (op : StreamOp) :
    op.KeepsPlaces text first start s where
  back hrestarts := by
    cases h.does op with
    | fails hreads _ _ => cases op <;> simp [StreamOp.reads, StreamOp.restarts] at hreads hrestarts
    | restarts _ _ hrun =>
        rw [after_ok hrun, Stream.rewind, h.start_eq]
        exact ⟨rfl, rfl⟩
    | moves hforward _ _ _ => simp [hrestarts] at hforward
  ahead hforward := by
    cases h.does op with
    | fails _ _ hrun => exact (after_error hrun).symm ▸ Int.le_refl _
    | restarts hrestarts _ _ => simp [hrestarts] at hforward
    | moves _ _ hused hrun =>
        rw [after_ok hrun]
        exact hused.position_le
  fails_iff := h.fails_iff op
  failed _ _ he := h.eq_of_error he
  token hop := by
    obtain ⟨used, hreads⟩ := h.reads
    rw [hop, after_ok h.run_token]
    exact ⟨_, h.run_token, hreads.readsToken⟩
  tokens hop := by
    obtain ⟨used, hreads⟩ := h.reads
    rw [hop, after_ok h.run_iterate]
    exact ⟨_, h.run_iterate, hreads.readsTokens⟩

end Operations

/-- A stream on any text that starts anywhere, also beyond the end, always knows where it
stands, and each operation, after any others, keeps it so. -/
theorem operations_keep_places (text : List Char) (first : Nat) (start : Place)
    (ops : List StreamOp) (op : StreamOp) :
    let s := (Stream.ofText text first start).afterAll ops
    s.cursor.Stands text first start ∧ op.KeepsPlaces text first start s :=
  have h := (Stream.tracks_ofText text first start).afterAll ops
  ⟨h.stands, h.keepsPlaces op⟩

end MonkeyLang
