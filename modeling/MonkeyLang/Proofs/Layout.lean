import MonkeyLang.Proofs.EvalMarks
import MonkeyLang.Proofs.MoreSteps
import MonkeyLang.Proofs.KnownRuns
import MonkeyLang.Proofs.ParseComplete
import MonkeyLang.Proofs.ParsedTrees

/-!
# Layout is irrelevant

What a text says is in the kinds and the contents of its tokens. How they are
laid out in lines and with spaces, and how the strings are spelled, shows in the
places of the marks only, and nothing that a user sees depends on these: neither
the syntax errors, nor the text of the program, nor what its run comes to
(`same_tokens_same_meaning`).
-/

namespace MonkeyLang

/-! ## Texts of trees and values -/

/-- The marks that a function makes have the texts of the marks that it is given. -/
def KeepsText (f : Mark → Mark) : Prop := ∀ m, (f m).text = m.text

section Texts

variable {f : Mark → Mark}

theorem names_map (names : List Name) :
    (names.map (Name.map f)).map Name.value = names.map Name.value := by
  rw [List.map_map]
  rfl

mutual

/-- Marks that keep their texts do not change the text of a tree. -/
theorem Expr.render_map (hf : KeepsText f) : ∀ e : Expr, (e.map f id).render = e.render
  | .identifier _ _ | .integer _ _ | .string _ _ => rfl
  | .boolean m _ => hf m
  | .unknown m _ => hf m
  | .prefixOp _ _ r => by simp only [Expr.map, Expr.render, r.render_map hf]
  | .infixOp _ l _ r => by simp only [Expr.map, Expr.render, l.render_map hf, r.render_map hf]
  | .conditional _ c b e => by
      simp only [Expr.map, Expr.render, c.render_map hf, b.render_map hf, renderElse_map hf e]
  | .loop _ c b => by simp only [Expr.map, Expr.render, c.render_map hf, b.render_map hf]
  | .function m ps b => by simp only [Expr.map, Expr.render, hf m, names_map ps, b.render_map hf]
  | .call _ h es => by simp only [Expr.map, Expr.render, h.render_map hf, renderAll_map hf es]
  | .array _ es => by simp only [Expr.map, Expr.render, renderAll_map hf es]
  | .index _ l i => by simp only [Expr.map, Expr.render, l.render_map hf, i.render_map hf]
  | .hash _ ps => by simp only [Expr.map, Expr.render, renderPairs_map hf ps]
  | .statement s => by simp only [Expr.map, Expr.render, s.render_map hf]

theorem renderElse_map (hf : KeepsText f) : ∀ b,
    renderElse (mapElse f id b) = renderElse b
  | none => rfl
  | some b => by simp only [mapElse, renderElse, b.render_map hf]

theorem renderAll_map (hf : KeepsText f) : ∀ es, renderAll (mapAll f id es) = renderAll es
  | [] => rfl
  | e :: es => by simp only [mapAll, renderAll, e.render_map hf, renderAll_map hf es]

theorem renderPairs_map (hf : KeepsText f) : ∀ ps, renderPairs (mapPairs f id ps) = renderPairs ps
  | [] => rfl
  | (k, v) :: ps => by
      simp only [mapPairs, renderPairs, k.render_map hf, v.render_map hf, renderPairs_map hf ps]

theorem Block.render_map (hf : KeepsText f) : ∀ b : Block, (b.map f id).render = b.render
  | .mk _ [] => rfl
  | .mk _ (s :: ss) => by
      have h := renderTerminated_map hf (s :: ss)
      rw [mapStmts] at h
      simp only [Block.map, mapStmts, Block.render, h]
  | .program ss => by simp only [Block.map, Block.render, renderJoined_map hf ss]

theorem Stmt.render_map (hf : KeepsText f) : ∀ s : Stmt, (s.map f id).render = s.render
  | .binding m x v => by simp only [Stmt.map, Stmt.render, Name.map, hf m, v.render_map hf]
  | .leave m v => by simp only [Stmt.map, Stmt.render, hf m, v.render_map hf]
  | .expression _ e => by simp only [Stmt.map, Stmt.render, e.render_map hf]
  | .block b => by simp only [Stmt.map, Stmt.render, b.render_map hf]
  | .bare e => by simp only [Stmt.map, Stmt.render, e.render_map hf]
  | .unknown m _ => hf m

theorem renderTerminated_map (hf : KeepsText f) : ∀ ss,
    renderTerminated (mapStmts f id ss) = renderTerminated ss
  | [] => rfl
  | s :: ss => by
      simp only [mapStmts, renderTerminated, s.render_map hf, renderTerminated_map hf ss]

theorem renderJoined_map (hf : KeepsText f) : ∀ ss,
    renderJoined (mapStmts f id ss) = renderJoined ss
  | [] => rfl
  | s :: ss => by simp only [mapStmts, renderJoined, s.render_map hf, renderJoined_map hf ss]

end

theorem keepsText_otherMarks (hf : KeepsText f) : (otherMarks f).KeepsText where
  names := names_map
  body b := b.render_map hf

end Texts

/-- What a user sees of a value: its type and its text. -/
def Value.shown (v : Value) : TypeTag × String := (v.type, v.inspect)

theorem Value.shown_relabel {r : Relabeling} (hr : r.KeepsText) (v : Value) :
    (v.relabel r).shown = v.shown := by
  rw [shown, type_relabel, inspect_relabel hr]
  rfl

/-- Marks that keep their texts do not change what a user sees of a value. -/
theorem Value.shown_mapMarks {f : Mark → Mark} (hf : KeepsText f) (v : Value) :
    (v.mapMarks f).shown = v.shown := by
  rw [mapMarks_eq, shown_relabel (keepsText_otherMarks hf)]

theorem shown_map_mapMarks {f : Mark → Mark} (hf : KeepsText f) (o : Option Value) :
    (o.map (·.mapMarks f)).map Value.shown = o.map Value.shown := by
  cases o with
  | none => rfl
  | some v => exact congrArg some (v.shown_mapMarks hf)

/-! ## Runs -/

theorem keepsText_placeless : KeepsText Mark.placeless := fun _ => rfl

theorem Program.render_placeless (p : Program) : p.placeless.render = p.render :=
  renderJoined_map keepsText_placeless p.statements

theorem Store.fresh_mapMarks (f : Mark → Mark) : fresh.2.mapMarks f = fresh.2 := by
  have hempty : Store.empty.mapMarks f = Store.empty := by simp [mapMarks, empty]
  have hopen := openScope_mapMarks f Store.empty none
  rw [hempty] at hopen
  exact (congrArg Prod.snd hopen).symm

/-- A program without places does, step by step, what the program does. -/
theorem Program.runFor_placeless (p : Program) (n : Nat) :
    p.placeless.runFor n =
      (p.runFor n).mapMarks .placeless (Option.map (·.mapMarks .placeless)) := by
  have hstmts := evalStmts_mapMarks .placeless n p.statements none Store.fresh.1 Store.fresh.2
  rw [Store.fresh_mapMarks] at hstmts
  refine Outcome.mapMarks_andThen hstmts ?_
  intro last s
  cases last with
  | none => rfl
  | some v => exact congrArg (Outcome.done · _) (congrArg some (v.unwrapped_mapMarks .placeless))

/-- A known program has no faults. -/
theorem Program.runFor_ne_fault {p : Program} (h : stmtsKnown p.statements = true) (n : Nat)
    (t : Store) (e : Fault) : p.runFor n ≠ .fault (t := t) e := by
  intro hfault
  have hfresh : Store.fresh.2.All Value.Known := Store.all_empty.openScope none
  have hknown := evalProgram_known n p Store.fresh.1 Store.fresh.2 h hfresh
  rw [← Program.runFor, hfault] at hknown
  exact hknown

/-- A user sees no difference between the runs of two programs: both never end, or
both end, with values of the same type and text or with none, and with each name
bound to values of the same type and text, or in neither. -/
def Program.Alike (p q : Program) : Prop :=
  (p.Diverges ∧ q.Diverges) ∨
    ∃ v w s t, p.Ends v s ∧ q.Ends w t ∧ v.map Value.shown = w.map Value.shown ∧
      ∀ name, (s.find? Store.fresh.1 name).map Value.shown =
        (t.find? Store.fresh.1 name).map Value.shown

/-- Programs that agree up to places are alike. -/
theorem Program.alike_of_placeless {p q : Program} (hplaces : p.placeless = q.placeless)
    (hknown : stmtsKnown p.statements = true) : p.Alike q := by
  have hlockstep : ∀ n, (p.runFor n).mapMarks .placeless (Option.map (·.mapMarks .placeless)) =
      (q.runFor n).mapMarks .placeless (Option.map (·.mapMarks .placeless)) := fun n => by
    rw [← p.runFor_placeless, ← q.runFor_placeless, hplaces]
  by_cases hdiverges : p.Diverges
  · refine .inl ⟨hdiverges, fun n => ?_⟩
    have h := hlockstep n
    obtain ⟨s, hp⟩ := hdiverges n
    rw [hp] at h
    cases hq : q.runFor n with
    | @exhausted t => exact ⟨t, rfl⟩
    | done w t => rw [hq] at h; exact nomatch h
    | fault e => rw [hq] at h; exact nomatch h
  · obtain ⟨n, hn⟩ := Classical.not_forall.mp hdiverges
    have h := hlockstep n
    cases hp : p.runFor n with
    | @exhausted s => exact absurd ⟨s, hp⟩ hn
    | @fault s e => exact absurd hp (p.runFor_ne_fault hknown n s e)
    | done v s =>
        rw [hp] at h
        cases hq : q.runFor n with
        | exhausted => rw [hq] at h; exact nomatch h
        | fault e => rw [hq] at h; exact nomatch h
        | done w t =>
            rw [hq] at h
            obtain ⟨hv, hs⟩ := Outcome.done.inj h
            refine .inr ⟨v, w, s, t, ⟨n, hp⟩, ⟨n, hq⟩, ?_, fun name => ?_⟩
            · rw [← shown_map_mapMarks keepsText_placeless v, hv,
                shown_map_mapMarks keepsText_placeless w]
            · have hfind := fun r : Store =>
                r.findWithin_mapMarks .placeless name (Store.fresh.1 + 1) Store.fresh.1
              rw [← shown_map_mapMarks keepsText_placeless,
                ← shown_map_mapMarks keepsText_placeless (t.find? _ _)]
              refine congrArg (Option.map Value.shown) ?_
              exact (hfind s).symm.trans (by rw [hs]; exact hfind t)

/-- **Layout is irrelevant.** Texts whose tokens agree in kind and content have
the same syntax errors, their programs have the same text, and if there is no
error, a user sees no difference between the runs of the two. -/
theorem same_tokens_same_meaning {a b : String}
    (h : (tokenize a).map Token.content = (tokenize b).map Token.content) :
    (parse a).errors = (parse b).errors ∧
    (parse a).program.render = (parse b).program.render ∧
    ((parse a).errors = [] → (parse a).program.Alike (parse b).program) := by
  obtain ⟨hplaces, herrors⟩ := parseTokens_congr (placeless_eq_of_content h)
  refine ⟨herrors, ?_, fun hnone => ?_⟩
  · rw [← Program.render_placeless (parse a).program,
      ← Program.render_placeless (parse b).program]
    exact congrArg Program.render hplaces
  · exact Program.alike_of_placeless hplaces (stmtsKnown_parse hnone)

/-- A line feed in a string, once as an escape and once as it is, in programs whose
layout differs too. -/
theorem same_tokens_same_meaning_line_feed :
    let a := "let f = fn(x) \x7b x + \"\\n\" \x7d; f(\"b\")"
    let b := "let f =\n  fn( x )\x7bx+\"\n\"\x7d ;\n\n\tf(\n\"b\" )"
    (tokenize a).map Token.content = (tokenize b).map Token.content ∧
    (parse a).program.render = (parse b).program.render ∧
    (parse a).program.Alike (parse b).program := by
  intro a b
  have h : (tokenize a).map Token.content = (tokenize b).map Token.content := by cbv
  have hnone : (parse a).errors = [] := by cbv
  obtain ⟨-, hrender, hruns⟩ := same_tokens_same_meaning h
  exact ⟨h, hrender, hruns hnone⟩

end MonkeyLang
