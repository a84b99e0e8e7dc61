import TexAnchor.Document.Basic
import TexAnchor.Proofs.Unfinished

/-! # The token that an error names

A text that is no markup has a token that is responsible: an opener that is never closed, or a token that
cannot stand where it does.  `ParseError.Fits` says what this token is, and `ParseError.Shares` how much
of what stands behind it another text must have as well to fail in the same way.

The reader goes from one tracked state to the next until a token cannot be read or the text ends.  What it
has read by then decides the error, so the error is that of every text which begins with the same tokens
(`Grammar.exists_blamed_of_run`). -/

namespace TexAnchor

open Text (Coord)
open Token (textOf)
open Grammar

/-! ### Responsible tokens -/

/-- The token can only close something. -/
def Token.IsCloser (t : Token) : Prop :=
  t.kind = .rBrace ∨ markOf? t = some .closing ∨ t.kind = .inlineMathClose ∨ t.kind = .displayMathClose

/-- The token is the command of a tag that the tokens behind it complete. -/
def Token.Heads (t : Token) (right : List Token) (mark : EnvironmentMark) (name : List Char) : Prop :=
  ∃ tail, tail <+: right ∧ IsTag mark name (t :: tail)

/-- The tokens leave an environment open, and no construct inside it. -/
def InnermostOpen (name : List Char) (tokens : List Token) : Prop :=
  ∃ l under count, Nested (l :: under) ∧ l.level = .body (String.ofList name) count ∧
    IsTag .opening name l.opener ∧ tokens = consumed (l :: under)

/-- The token opens the construct; `left` is before it and `right` behind it. -/
def Construct.OpenedBy (left : List Token) (t : Token) (right : List Token) : Construct → Prop
  | group => t.kind = .lBrace
  | environment => ∃ name, t.Heads right .opening name ∧
      mathEnvironments.contains (String.ofList name) = false
  | parameterBlock => t.kind = .lBracket
  | environmentName => t.kind = .lBrace ∧ ∃ command ∈ left.getLast?, (markOf? command).isSome = true
  | mathEnvironment => ∃ name, t.Heads right .opening name ∧
      mathEnvironments.contains (String.ofList name) = true
  | math => isMathOpener t.kind = true

namespace ParseError

/-- The token is responsible for the error; `left` is before it and `right` behind it. -/
def Fits (left : List Token) (t : Token) (right : List Token) : ParseError → Prop
  | unclosed what _ => what.OpenedBy left t right
  | mismatchedEnvironment expected found _ => expected ≠ found ∧
      (∃ name, InnermostOpen name left ∧ expected = String.ofList name) ∧
      ∃ name, t.Heads right .closing name ∧ found = String.ofList name
  | unexpected text _ => t.IsCloser ∧ text = String.ofList t.text
  | missingEnvironmentName mark _ => markOf? t = some mark ∧ ∀ next ∈ right.head?, next.kind ≠ .lBrace

/-- What must be the same behind the responsible token for the error to be the same: nothing, the tokens
up to a closing brace, the next token, or everything. -/
def Shares (right right' : List Token) : ParseError → Prop
  | unclosed _ _ => right' = right
  | mismatchedEnvironment _ _ _ => ∃ shared, shared <+: right ∧ shared <+: right' ∧
      ∃ t ∈ shared, t.kind = .rBrace
  | unexpected _ _ => True
  | missingEnvironmentName _ _ => right'.head? = right.head?

end ParseError

/-- A tag ends at its first closing brace. -/
theorem Grammar.IsTag.prefix_of_mem {mark : EnvironmentMark} {name : List Char} {t brace : Token}
    {tail right shared : List Token} (h : IsTag mark name (t :: tail)) (htail : tail <+: right)
    (hshared : shared <+: right) (hmem : brace ∈ shared) (hbrace : brace.kind = .rBrace) :
    tail <+: shared := by
  cases h with
  | @intro _ opener closer inner _ hopener _ hinner _ =>
    rcases List.prefix_or_prefix_of_prefix htail hshared with h | h
    · exact h
    · rw [← List.cons_append, List.prefix_concat_iff] at h
      rcases h with rfl | h
      · exact List.prefix_rfl
      · rcases List.mem_cons.mp (h.subset hmem) with rfl | hmem
        · rw [hopener] at hbrace
          cases hbrace
        · exact absurd hbrace (hinner brace hmem)

namespace Grammar

variable {origin : Coord} {s s' : State} {t : Placed} {failure : Failure} {tokens : List Token}

/-! ### Names of environments -/

/-- While a tag is being read, its brace is next to its command, and if it is a closing tag, the body of an
environment is innermost. -/
def State.Tagged (s : State) : Prop :=
  match s.reading with
  | .beforeName mark _ => mark = .closing → ∃ name count, s.top.level = .body name count
  | .name mark command brace _ => brace.start = command.stop ∧
      (mark = .closing → ∃ name count, s.top.level = .body name count)
  | _ => True

theorem State.Tagged.beforeName {mark : EnvironmentMark} {command : Placed} (hs : s.Tagged)
    (h : s.reading = .beforeName mark command) :
    mark = .closing → ∃ name count, s.top.level = .body name count := by
  unfold State.Tagged at hs
  rwa [h] at hs

theorem State.Tagged.name {mark : EnvironmentMark} {command brace : Placed} {read : List Token}
    (hs : s.Tagged) (h : s.reading = .name mark command brace read) : brace.start = command.stop ∧
      (mark = .closing → ∃ name count, s.top.level = .body name count) := by
  unfold State.Tagged at hs
  rwa [h] at hs

theorem reading_closeHead (h : s.reading = .content) : s.closeHead.reading = .content := by
  unfold State.closeHead
  split
  · rfl
  · exact h
  · exact h

theorem reading_addSpace (h : s.reading = .content) : (s.addSpace t).reading = .content := by
  simp only [State.addSpace]
  generalize (if t.kind = .newline then 1 else 0) = more
  split
  · exact h
  · rfl

theorem tagged_of_content (h : s.reading = .content) : s.Tagged := by
  unfold State.Tagged
  rw [h]
  trivial

theorem tagged_readItem (hreading : s.reading = .content) (h : s.readItem t = .ok s') : s'.Tagged := by
  cases hkind : t.kind with
  | whitespace | newline =>
    simp only [State.readItem, hkind] at h
    cases h
    exact tagged_of_content (reading_addSpace hreading)
  | rBrace =>
    simp only [State.readItem, hkind] at h
    split at h <;> cases h
    · exact tagged_of_content rfl
    · exact tagged_of_content rfl
  | command =>
    simp only [State.readItem, hkind] at h
    split at h
    · cases h
      intro hclosing
      cases hclosing
    · split at h
      next name count hlevel =>
        cases h
        exact fun _ => ⟨name, count, hlevel⟩
      · cases h
    · cases h
      exact tagged_of_content rfl
  | inlineMathClose | displayMathClose =>
    simp only [State.readItem, hkind] at h
    cases h
  | _ =>
    simp only [State.readItem, hkind] at h
    cases h
    trivial

theorem tagged_named {mark : EnvironmentMark} {command brace : Placed} {name : List Char}
    (h : s.named mark command name brace = .ok s') : s'.Tagged := by
  unfold State.named at h
  split at h
  · split at h <;> cases h <;> trivial
  · split at h
    · simp only at h
      split at h <;> cases h
      trivial
    · cases h

theorem tagged_step (h : Tracked origin s tokens) (hs : s.Tagged)
    (hstart : t.start = origin.advance (textOf tokens)) (hstep : step s t = .ok s') : s'.Tagged := by
  cases hreading : s.reading with
  | content =>
    simp only [step, hreading, State.readContent] at hstep
    split at hstep
    · cases hstep
      trivial
    · split at hstep
      · cases hstep
        trivial
      · exact tagged_readItem (reading_closeHead hreading) hstep
  | math opener read =>
    simp only [step, hreading] at hstep
    split at hstep <;> cases hstep <;> trivial
  | items opener depth read =>
    simp only [step, hreading] at hstep
    split at hstep
    · cases hstep
      trivial
    · cases hstep
      trivial
    · split at hstep <;> cases hstep <;> trivial
    · cases hstep
      trivial
  | beforeName mark command =>
    obtain ⟨l, under, pending, -, hpending, rfl⟩ := h
    rw [hreading] at hpending
    cases hpending with
    | beforeName hplace =>
      simp only [step, hreading] at hstep
      split at hstep <;> cases hstep
      refine ⟨?_, hs.beforeName hreading⟩
      rw [hstart, Placed.stop, hplace, Token.textOf_append, Coord.advance_append]
      simp [placeAfter, textOf]
  | name mark command brace read =>
    simp only [step, hreading] at hstep
    split at hstep
    · exact tagged_named hstep
    · cases hstep
      exact hs.name hreading
  | mathEnvironment command name read =>
    simp only [step, hreading] at hstep
    split at hstep
    · split at hstep <;> cases hstep <;> trivial
    · cases hstep
      trivial

/-! ### Tokens that cannot be read -/

theorem error_of_readItem (h : s.readItem t = .error failure) :
    t.toToken.IsCloser ∧ failure.error = .unexpected (String.ofList t.text) t.start := by
  cases hkind : t.kind with
  | rBrace =>
    simp only [State.readItem, hkind] at h
    split at h <;> cases h
    exact ⟨.inl hkind, rfl⟩
  | command =>
    simp only [State.readItem, hkind] at h
    split at h
    · cases h
    next hmark =>
      split at h <;> cases h
      exact ⟨.inr (.inl hmark), rfl⟩
    · cases h
  | inlineMathClose =>
    simp only [State.readItem, hkind] at h
    cases h
    exact ⟨.inr (.inr (.inl hkind)), rfl⟩
  | displayMathClose =>
    simp only [State.readItem, hkind] at h
    cases h
    exact ⟨.inr (.inr (.inr hkind)), rfl⟩
  | _ =>
    simp only [State.readItem, hkind] at h
    cases h

theorem error_of_named {l : Layer} {under : List Layer} {mark : EnvironmentMark}
    {command brace : Placed} {name : List Char} (hstands : Stands origin s.top s.below l under)
    (hbody : mark = .closing → ∃ expected count, s.top.level = .body expected count)
    (h : s.named mark command name brace = .error failure) : mark = .closing ∧
      ∃ expected, InnermostOpen expected (consumed (l :: under)) ∧
        String.ofList expected ≠ String.ofList name ∧ failure.error =
          .mismatchedEnvironment (String.ofList expected) (String.ofList name) command.start := by
  cases mark with
  | opening =>
    simp only [State.named] at h
    split at h <;> cases h
  | closing =>
    obtain ⟨expected, count, hlevel⟩ := hbody rfl
    have hl : l.level = .body expected count := by
      rw [hstands.top_eq] at hlevel
      exact hlevel
    obtain ⟨parent, below, hbelow⟩ : ∃ parent below, s.below = parent :: below := by
      rw [hstands.below_eq]
      cases hstands.nested with
      | root _ hroot =>
        rw [hroot] at hl
        cases hl
      | block => exact ⟨_, _, rfl⟩
      | item => exact ⟨_, _, rfl⟩
    have hvalid := hstands.nested.valid
    simp only [State.named, hlevel, hbelow] at h
    split at h
    · cases h
    next hfound =>
      cases h
      generalize hlayer : l = layer at hvalid
      cases hvalid with
      | @body opened tag blocks body htag =>
        subst hlayer
        obtain ⟨rfl, rfl⟩ := Level.body.inj hl
        exact ⟨rfl, opened, ⟨_, under, _, hstands.nested, rfl, htag, rfl⟩, Ne.symm hfound, rfl⟩
      | _ =>
        subst hlayer
        cases hl

/-- A token among those read is responsible for the error, and what decides the error are the tokens
that have been read. -/
theorem exists_blamed_of_step (h : Tracked origin s tokens) (hs : s.Tagged)
    (hstart : t.start = origin.advance (textOf tokens)) (hstep : step s t = .error failure)
    (rest : List Token) : ∃ left b right, tokens ++ t.toToken :: rest = left ++ b :: right ∧
      failure.error.place = origin.advance (textOf left) ∧ failure.error.Fits left b right ∧
      ∀ right', failure.error.Shares right right' →
        ∃ rest', left ++ b :: right' = tokens ++ t.toToken :: rest' := by
  obtain ⟨-, hitem⟩ | ⟨mark, command, hreading, hbrace, rfl⟩ |
    ⟨mark, command, brace, read, hreading, hcloser, hnamed⟩ := cases_of_step_eq_error hstep
  · obtain ⟨hcloser, herror⟩ := error_of_readItem hitem
    rw [herror]
    exact ⟨tokens, t.toToken, rest, rfl, hstart, ⟨hcloser, rfl⟩, fun right' _ => ⟨right', rfl⟩⟩
  · obtain ⟨l, under, pending, -, hpending, rfl⟩ := h
    rw [hreading] at hpending
    cases hpending with
    | beforeName hplace _ hmark =>
      refine ⟨consumed (l :: under), command.toToken, t.toToken :: rest, by simp, hplace,
        ⟨hmark, ?_⟩, fun right' hshares => ?_⟩
      · rintro next hnext
        obtain rfl : t.toToken = next := Option.some.inj hnext
        exact hbrace
      · obtain ⟨rest', rfl⟩ := List.head?_eq_some_iff.mp hshares
        exact ⟨rest', by simp⟩
  · obtain ⟨l, under, pending, hstands, hpending, rfl⟩ := h
    rw [hreading] at hpending
    cases hpending with
    | name _ hplace _ hmark hbrace hread =>
      obtain ⟨rfl, expected, hexpected, hne, herror⟩ :=
        error_of_named hstands (hs.name hreading).2 hnamed
      have htag : IsTag .closing (Text.trim (collected read))
          (command.toToken :: brace.toToken :: (read.reverse ++ [t.toToken])) :=
        .intro hmark hbrace hcloser (fun t' ht' => hread t' (List.mem_reverse.mp ht')) rfl
      have hprefix : brace.toToken :: (read.reverse ++ [t.toToken]) <+:
          brace.toToken :: (read.reverse ++ [t.toToken]) ++ rest := List.prefix_append _ _
      rw [herror]
      refine ⟨consumed (l :: under), command.toToken, _, by simp, hplace,
        ⟨hne, ⟨expected, hexpected, rfl⟩, _, ⟨_, hprefix, htag⟩, rfl⟩, ?_⟩
      -- Whatever goes on to the closing brace of the name has all of the tag.
      rintro right' ⟨shared, hshared, hshared', closer, hmem, hcloser'⟩
      obtain ⟨rest', rfl⟩ := (htag.prefix_of_mem hprefix hshared hmem hcloser').trans hshared'
      exact ⟨rest', by simp⟩

/-! ### Texts that end too early -/

theorem IsTag.exists_heads {mark : EnvironmentMark} {name : List Char} {tag : List Token}
    (h : IsTag mark name tag) (later : List Token) : ∃ command right, tag ++ later = command :: right ∧
      command.Heads right mark name := by
  obtain ⟨command, tail, rfl, -⟩ := h.exists_eq_cons
  exact ⟨command, tail ++ later, rfl, tail, List.prefix_append _ _, h⟩

theorem exists_blamed_of_content {l : Layer} {under : List Layer}
    (hstands : Stands origin s.top s.below l under) (hreading : s.reading = .content)
    (hrested : l.Rested) (hfinish : s.finish = .error failure) : ∃ left b right,
      consumed (l :: under) = left ++ b :: right ∧
      failure.error.place = origin.advance (textOf left) ∧ failure.error.Fits left b right ∧
      ∀ right', failure.error.Shares right right' → right' = right := by
  obtain ⟨l', under', hclosed, -, hconsumed, hhead, -⟩ := hstands.closeHead hreading hrested
  have hstart : s.closeHead.top.start = origin.advance (textOf (consumed under')) := by
    rw [hclosed.top_eq]
    rfl
  have hlevel : s.closeHead.top.level = l'.level := by
    rw [hclosed.top_eq]
    rfl
  have htokens : consumed (l :: under) =
      consumed under' ++ (l'.opener ++ Markup.tokensOf l'.parts) := hconsumed.symm
  rw [htokens]
  simp only [State.finish, hreading, hlevel] at hfinish
  cases hclosed.nested.valid with
  | root => cases hfinish
  | group hopener =>
    cases hfinish
    exact ⟨_, _, _, rfl, hstart, hopener, fun _ hshares => hshares⟩
  | block hopener =>
    cases hfinish
    exact ⟨_, _, _, rfl, hstart, hopener, fun _ hshares => hshares⟩
  | command => cases hhead
  | opening => cases hhead
  | body htag hplain =>
    cases hfinish
    obtain ⟨command, right, heq, hheads⟩ := htag.exists_heads (Markup.tokensOf _)
    exact ⟨_, command, right, congrArg _ heq, hstart, ⟨_, hheads, hplain⟩, fun _ hshares => hshares⟩

/-- Where the text ends too early, the token that opened the innermost construct is responsible, or the
command that lacks its name. -/
theorem exists_blamed_of_finish (h : Tracked origin s tokens) (hs : s.Tagged)
    (hfinish : s.finish = .error failure) : ∃ left b right, tokens = left ++ b :: right ∧
      failure.error.place = origin.advance (textOf left) ∧ failure.error.Fits left b right ∧
      ∀ right', failure.error.Shares right right' → right' = right := by
  obtain ⟨l, under, pending, hstands, hpending, rfl⟩ := h
  cases hreading : s.reading with
  | content =>
    rw [hreading] at hpending
    cases hpending with
    | content hrested =>
      rw [List.append_nil]
      exact exists_blamed_of_content hstands hreading hrested hfinish
  | math opener read =>
    rw [hreading] at hpending
    simp only [State.finish, hreading] at hfinish
    cases hfinish
    cases hpending with
    | math _ hplace _ hopener =>
      exact ⟨_, _, _, rfl, hplace, hopener, fun _ hshares => hshares⟩
  | items opener depth read =>
    rw [hreading] at hpending
    simp only [State.finish, hreading] at hfinish
    cases hfinish
    cases hpending with
    | items _ hplace _ hopener =>
      exact ⟨_, _, _, rfl, hplace, hopener, fun _ hshares => hshares⟩
  | beforeName mark command =>
    rw [hreading] at hpending
    simp only [State.finish, hreading] at hfinish
    cases hfinish
    cases hpending with
    | beforeName hplace _ hmark =>
      refine ⟨_, _, _, rfl, hplace, ⟨hmark, fun next hnext => ?_⟩,
        fun _ hshares => List.head?_eq_none_iff.mp hshares⟩
      cases hnext
  | name mark command brace read =>
    rw [hreading] at hpending
    simp only [State.finish, hreading] at hfinish
    cases hfinish
    cases hpending with
    | name _ hplace _ hmark hbrace =>
      refine ⟨consumed (l :: under) ++ [command.toToken], brace.toToken, read.reverse, by simp, ?_,
        ⟨hbrace, command.toToken, by simp, by rw [hmark]; rfl⟩, fun _ hshares => hshares⟩
      rw [ParseError.place, (hs.name hreading).1, Placed.stop, hplace, Token.textOf_append,
        Coord.advance_append]
      simp [placeAfter, textOf]
  | mathEnvironment command name read =>
    rw [hreading] at hpending
    simp only [State.finish, hreading] at hfinish
    cases hfinish
    cases hpending with
    | mathEnvironment _ hplace _ htag hmath =>
      obtain ⟨first, right, heq, hheads⟩ := htag.exists_heads read.reverse
      exact ⟨_, first, right, congrArg _ heq, hplace, ⟨_, hheads, hmath⟩, fun _ hshares => hshares⟩

/-! ### Whole texts -/

/-- A token is responsible for an error, and the error is that of all that begins with the same tokens. -/
theorem exists_blamed_of_run {read : List Token} (h : Tracked origin s read) (hs : s.Tagged)
    (hrun : (run (origin.advance (textOf read)) s tokens).bind State.finish = .error failure) :
    ∃ left b right, read ++ tokens = left ++ b :: right ∧
      failure.error.place = origin.advance (textOf left) ∧ failure.error.Fits left b right ∧
      ∀ right', failure.error.Shares right right' → ∃ tokens', left ++ b :: right' = read ++ tokens' ∧
        (run (origin.advance (textOf read)) s tokens').bind State.finish = .error failure := by
  induction tokens generalizing s read with
  | nil =>
    obtain ⟨left, b, right, htokens, hplace, hfits, hsame⟩ := exists_blamed_of_finish h hs hrun
    refine ⟨left, b, right, by rw [List.append_nil, htokens], hplace, hfits, fun right' hshares => ?_⟩
    obtain rfl := hsame right' hshares
    exact ⟨[], by rw [List.append_nil, htokens], hrun⟩
  | cons t tokens ih =>
    cases hstep : step s ⟨t, origin.advance (textOf read)⟩ with
    | error stopped =>
      have hstops (rest : List Token) :
          (run (origin.advance (textOf read)) s (t :: rest)).bind State.finish = .error stopped := by
        rw [run, Token.placeAll, List.foldlM_cons, hstep]
        rfl
      obtain rfl := Except.error.inj ((hstops tokens).symm.trans hrun)
      obtain ⟨left, b, right, htokens, hplace, hfits, hsame⟩ :=
        exists_blamed_of_step h hs rfl hstep tokens
      refine ⟨left, b, right, htokens, hplace, hfits, fun right' hshares => ?_⟩
      obtain ⟨rest', hrest'⟩ := hsame right' hshares
      exact ⟨t :: rest', hrest', hstops rest'⟩
    | ok next =>
      have hplaces : (origin.advance (textOf read)).advance t.text =
          origin.advance (textOf (read ++ [t])) := by
        rw [← Coord.advance_append]
        simp [textOf]
      rw [run_cons hstep, hplaces] at hrun
      obtain ⟨left, b, right, htokens, hplace, hfits, hsame⟩ :=
        ih (tracked_step h rfl hstep) (tagged_step h hs rfl hstep) hrun
      refine ⟨left, b, right, by simpa using htokens, hplace, hfits, fun right' hshares => ?_⟩
      obtain ⟨tokens', htokens', hrun'⟩ := hsame right' hshares
      refine ⟨t :: tokens', by simpa using htokens', ?_⟩
      rwa [run_cons hstep, hplaces]

end Grammar

namespace Document

variable {path : Path} {text : List Char} {e : ParseError}

theorem parse_eq_error_iff : parse path text = .error e ↔
    ∃ failure, readFrom .zero text = .error failure ∧ failure.error = e := by
  unfold parse Arena.parse
  cases readFrom .zero text with
  | ok forest => simp [Except.map]
  | error failure => simp [Except.map]

/-- An error stands at the start of a token that fits it, and every text that has this token and those
before it, and behind it what the error depends on, has the same error. -/
theorem exists_fits_and_parse_eq_error (h : parse path text = .error e) :
    ∃ left t right, tokenize text = left ++ t :: right ∧
      e.place = Coord.zero.advance (textOf left) ∧ e.Fits left t right ∧
      ∀ path' text' right', tokenize text' = left ++ t :: right' → e.Shares right right' →
        parse path' text' = .error e := by
  obtain ⟨failure, hread, rfl⟩ := parse_eq_error_iff.mp h
  rw [readFrom_eq] at hread
  obtain ⟨left, t, right, htokens, hplace, hfits, hsame⟩ :=
    exists_blamed_of_run (tracked_initial .zero) (tagged_of_content rfl) hread
  refine ⟨left, t, right, htokens, hplace, hfits, fun path' text' right' htext' hshares => ?_⟩
  obtain ⟨tokens', htokens', hrun⟩ := hsame right' hshares
  refine parse_eq_error_iff.mpr ⟨failure, ?_, rfl⟩
  rw [readFrom_eq, htext', htokens']
  exact hrun

/-- An environment that is closed under another name. -/
def misnamed : List Char :=
  ['é', '\\', 'b', 'e', 'g', 'i', 'n', '\x7b', 'b', '\x7d', '\\', 'e', 'n', 'd', '\x7b', 'c', '\x7d', '$']

theorem exists_fits_and_parse_eq_error_misnamed :
    let e := ParseError.mismatchedEnvironment "b" "c" ⟨0, 10⟩
    parse ⟨"a.tex"⟩ misnamed = .error e ∧
      ∃ left t right, tokenize misnamed = left ++ t :: right ∧
        e.place = Coord.zero.advance (textOf left) ∧ e.Fits left t right ∧
        ∀ path' text' right', tokenize text' = left ++ t :: right' → e.Shares right right' →
          parse path' text' = .error e := by
  intro e
  have hparse : parse ⟨"a.tex"⟩ misnamed = .error e := by rfl
  exact ⟨hparse, exists_fits_and_parse_eq_error hparse⟩

end Document

end TexAnchor
