import TexAnchor.Proofs.Derivation
import TexAnchor.Proofs.Stretches

/-! # Texts that cannot be read

Where reading stops with an error, the trees that were finished by then are kept
(`Failure.completed`).  They are the parts of the constructs that are open at that moment, so their
nodes have the ends of stretches of the text like those of any other tree
(`Grammar.cuts_of_readFrom_eq_error`). -/

namespace TexAnchor.Grammar

open Text (Coord)
open Token (textOf)

variable {s : State} {t : Placed} {failure : Failure} {origin : Coord} {text : List Char}

/-! ### What is finished when an error is raised -/

theorem completed_of_readItem (h : s.readItem t = .error failure) :
    failure.completed = s.completed := by
  cases hkind : t.kind with
  | rBrace =>
    simp only [State.readItem, hkind] at h
    split at h <;> cases h
    rfl
  | command =>
    simp only [State.readItem, hkind] at h
    split at h
    · cases h
    · split at h <;> cases h
      rfl
    · cases h
  | inlineMathClose | displayMathClose =>
    simp only [State.readItem, hkind] at h
    cases h
    rfl
  | _ =>
    simp only [State.readItem, hkind] at h
    cases h

theorem completed_of_named {mark : EnvironmentMark} {command brace : Placed} {name : List Char}
    (h : s.named mark command name brace = .error failure) : failure.completed = s.completed := by
  unfold State.named State.fail at h
  split at h
  · split at h <;> cases h
  · split at h
    · simp only at h
      split at h <;> cases h
      rfl
    · cases h
      rfl

/-- A token cannot be read where an item is due, where the brace of a name is due, and where the name of
a tag is complete. -/
theorem cases_of_step_eq_error (h : step s t = .error failure) :
    (s.reading = .content ∧ s.closeHead.readItem t = .error failure) ∨
    (∃ mark command, s.reading = .beforeName mark command ∧ t.kind ≠ .lBrace ∧
      failure = ⟨.missingEnvironmentName mark command.start, s.completed⟩) ∨
    ∃ mark command brace read, s.reading = .name mark command brace read ∧ t.kind = .rBrace ∧
      s.named mark command (Text.trim (collected read)) t = .error failure := by
  cases hreading : s.reading with
  | content =>
    simp only [step, hreading, State.readContent] at h
    split at h
    · cases h
    · split at h
      · cases h
      · exact .inl ⟨rfl, h⟩
  | math opener read =>
    simp only [step, hreading] at h
    split at h <;> cases h
  | items opener depth read =>
    simp only [step, hreading] at h
    split at h
    · cases h
    · cases h
    · split at h <;> cases h
    · cases h
  | beforeName mark command =>
    simp only [step, hreading] at h
    split at h
    · cases h
    next hbrace =>
      cases h
      exact .inr (.inl ⟨mark, command, rfl, hbrace, rfl⟩)
  | name mark command brace read =>
    simp only [step, hreading] at h
    split at h
    next hbrace => exact .inr (.inr ⟨mark, command, brace, read, rfl, hbrace, h⟩)
    · cases h
  | mathEnvironment command name read =>
    simp only [step, hreading] at h
    split at h
    · split at h <;> cases h
    · cases h

/-- A token that cannot be read leaves what was finished before it, or before the head behind which it
stands. -/
theorem completed_of_step (h : step s t = .error failure) : failure.completed = s.completed ∨
    s.reading = .content ∧ failure.completed = s.closeHead.completed := by
  obtain ⟨hreading, hitem⟩ | ⟨mark, command, -, -, rfl⟩ | ⟨mark, command, brace, read, -, -, hnamed⟩ :=
    cases_of_step_eq_error h
  · exact .inr ⟨hreading, completed_of_readItem hitem⟩
  · exact .inl rfl
  · exact .inl (completed_of_named hnamed)

theorem completed_of_finish (h : s.finish = .error failure) : failure.completed = s.completed ∨
    s.reading = .content ∧ failure.completed = s.closeHead.completed := by
  cases hreading : s.reading with
  | content =>
    simp only [State.finish, hreading] at h
    split at h <;> cases h <;> exact .inr ⟨rfl, rfl⟩
  | _ =>
    simp only [State.finish, hreading] at h
    cases h
    exact .inl rfl

/-! ### Where it stands -/

theorem cuts_of_mem_frames {layers : List Layer} {f : Frame} (hf : f ∈ frames origin layers)
    {tree : Tree} (htree : tree ∈ f.parts) {span : Span} (hspan : span ∈ tree.spans) :
    span.Cuts origin (textOf (consumed layers)) := by
  induction layers with
  | nil => cases hf
  | cons l below ih =>
    rw [frames, List.mem_cons] at hf
    rw [consumed, Token.textOf_append]
    rcases hf with rfl | hf
    · rw [Layer.frame, List.mem_reverse] at htree
      have hparts := (Markup.cuts_of_mem_forest hspan l.parts htree).behind
      rw [Layer.tokens, Token.textOf_append]
      exact hparts.behind
    · exact (ih hf).append _

theorem Stands.cuts {top : Frame} {below : List Frame} {l : Layer} {under : List Layer}
    (h : Stands origin top below l under) {reading : Reading} {tree : Tree}
    (htree : tree ∈ (State.mk reading top below).completed) {span : Span} (hspan : span ∈ tree.spans) :
    span.Cuts origin (textOf (consumed (l :: under))) := by
  obtain ⟨f, hf, htree⟩ := List.mem_flatMap.mp htree
  have hmem : f ∈ frames origin (l :: under) := by
    rw [frames, ← h.top_eq, ← h.below_eq]
    simpa [or_comm] using hf
  exact cuts_of_mem_frames hmem (List.mem_reverse.mp htree) hspan

/-- What is finished in a tracked state, or once heads are closed, stands on stretches of what was
read. -/
theorem Tracked.cuts {read : List Token} (h : Tracked origin s read) {trees : List Tree}
    (hfinished : trees = s.completed ∨ s.reading = .content ∧ trees = s.closeHead.completed)
    {tree : Tree} (htree : tree ∈ trees) {span : Span} (hspan : span ∈ tree.spans) :
    span.Cuts origin (textOf read) := by
  obtain ⟨l, under, pending, hstands, hpending, rfl⟩ := h
  rw [Token.textOf_append]
  rcases hfinished with rfl | ⟨hreading, rfl⟩
  · exact (hstands.cuts htree hspan).append _
  · rw [hreading] at hpending
    cases hpending with
    | content hrested =>
      obtain ⟨l', under', hclosed, -, hconsumed, -⟩ := hstands.closeHead hreading hrested
      rw [← hconsumed]
      exact (hclosed.cuts htree hspan).append _

theorem cuts_of_run {read tokens : List Token} (h : Tracked origin s read)
    (hrun : (run (origin.advance (textOf read)) s tokens).bind State.finish = .error failure)
    {tree : Tree} (htree : tree ∈ failure.completed) {span : Span} (hspan : span ∈ tree.spans) :
    span.Cuts origin (textOf (read ++ tokens)) := by
  induction tokens generalizing s read with
  | nil =>
    rw [List.append_nil]
    exact h.cuts (completed_of_finish hrun) htree hspan
  | cons t tokens ih =>
    cases hstep : step s ⟨t, origin.advance (textOf read)⟩ with
    | error stopped =>
      rw [run, Token.placeAll, List.foldlM_cons, hstep] at hrun
      obtain rfl := Except.error.inj hrun
      rw [Token.textOf_append]
      exact (h.cuts (completed_of_step hstep) htree hspan).append _
    | ok next =>
      have htext : textOf read ++ t.text = textOf (read ++ [t]) := by simp [textOf]
      rw [run_cons hstep, ← Coord.advance_append, htext] at hrun
      have hcuts := ih (tracked_step h rfl hstep) hrun
      rwa [List.append_assoc] at hcuts

/-- The trees that are finished when reading stops with an error stand on stretches of the text. -/
theorem cuts_of_readFrom_eq_error (h : readFrom origin text = .error failure) {tree : Tree}
    (htree : tree ∈ failure.completed) {span : Span} (hspan : span ∈ tree.spans) :
    span.Cuts origin text := by
  rw [readFrom_eq] at h
  have hcuts := cuts_of_run (tracked_initial origin) h htree hspan
  rwa [List.nil_append, textOf_tokenize] at hcuts

theorem cuts_of_readFrom_eq_ok {forest : List Tree} (h : readFrom origin text = .ok forest)
    {tree : Tree} (htree : tree ∈ forest) {span : Span} (hspan : span ∈ tree.spans) :
    span.Cuts origin text := by
  obtain ⟨ms, -, htokens, rfl⟩ := exists_isContent_of_readFrom h
  have hcuts := Markup.cuts_of_mem_forest hspan ms htree
  rwa [Markup.textOf, htokens, textOf_tokenize] at hcuts

end TexAnchor.Grammar
