import TexAnchor.Proofs.Coordinates
import TexAnchor.Proofs.Relocation

/-! # Reading from another place

A text that starts at another place is read in the same way, and every coordinate is counted from that
place (`Grammar.readFrom_eq_moved`).  This holds of what is read, and of the error and the trees that
were finished by then if the text is no markup.

It is shown for any map of coordinates that goes along with the characters of a text
(`Text.Coord.Steady`): what one token does to a moved state is what it does to the state, moved
(`Grammar.step_map`), and so it is for all tokens of a text and for its end. -/

namespace TexAnchor

open Text (Coord)
open Token (textOf)

namespace Text.Coord

variable {f : Coord → Coord}

/-- The map takes the place behind a character to the place behind that character. -/
def Steady (f : Coord → Coord) : Prop :=
  ∀ here c, f (here.next c) = (f here).next c

theorem Steady.advance (hf : Steady f) (here : Coord) (text : List Char) :
    f (here.advance text) = (f here).advance text := by
  induction text generalizing here with
  | nil => rfl
  | cons c text ih => rw [advance_cons, advance_cons, ih, hf]

theorem steady_translate (origin : Coord) : Steady origin.translate := by
  intro here c
  unfold translate next
  by_cases hc : c = '\n'
  · simp [hc, Nat.add_assoc]
  · by_cases hline : here.line = 0 <;> simp [hc, hline, Nat.add_assoc]

theorem translate_eq_translate {origin other c : Coord} (h : origin.line = other.line)
    (hc : c.line ≠ 0) : origin.translate c = other.translate c := by
  simp [translate, h, hc]

@[simp] theorem translate_zero (origin : Coord) : origin.translate zero = origin := by
  simp [translate, zero]

end Text.Coord

/-! ### Places of a part of a text -/

namespace Text

variable {before after : List Char} {origin : Coord}

/-- Looking up stops at the place itself or at the end of the place's line. -/
theorem advance_eq_or_of_offsetOf {here target : Coord} {c : Char} (hle : here ≤ target)
    (h : offsetOf here target (before ++ c :: after) = before.length) :
    here.advance before = target ∨ c = '\n' ∧ (here.advance before).line = target.line := by
  induction before generalizing here with
  | nil =>
    rw [List.nil_append, offsetOf, List.length_nil] at h
    split at h
    · next hstop => exact hstop.imp (Coord.le_antisymm hle) id
    · cases h
  | cons d before ih =>
    rw [List.cons_append, offsetOf] at h
    split at h
    · cases h
    · next hgo =>
      refine ih ?_ (Nat.succ.inj h)
      rw [not_or, Coord.not_le, Coord.lt_def] at hgo
      unfold Coord.next
      split
      · next hd =>
        have hother : here.line ≠ target.line := fun heq => hgo.2 ⟨hd, heq⟩
        simp only [Coord.le_def]
        omega
      · simp only [Coord.le_def]
        omega

/-- What stands in a text behind the place that `origin` is looked up as, is looked up from there. -/
theorem byteOf_translate {part : List Char}
    (h : byteOf (before ++ part ++ after) origin = byteLength before) :
    byteOf (before ++ part ++ after) (origin.translate (Coord.zero.advance part)) =
      byteLength (before ++ part) := by
  cases part with
  | nil => simpa using h
  | cons c part =>
    have hprefix : before <+: before ++ c :: part ++ after := ⟨c :: part ++ after, by simp⟩
    have htake := List.take_prefix (offsetOf .zero origin (before ++ c :: part ++ after))
      (before ++ c :: part ++ after)
    have hoffset : offsetOf .zero origin (before ++ c :: (part ++ after)) = before.length := by
      have heq := (prefix_of_byteLength_le htake hprefix (Nat.le_of_eq h)).eq_of_length_le
        (prefix_of_byteLength_le hprefix htake (Nat.le_of_eq h.symm)).length_le
      have hlength := congrArg List.length heq
      rw [List.length_take, Nat.min_eq_left (offsetOf_le_length _ _ _)] at hlength
      simpa using hlength
    have hzero : Coord.zero ≤ origin := by
      simp only [Coord.le_def, Coord.zero]
      omega
    have hplace : origin.translate (Coord.zero.advance (c :: part)) =
        Coord.zero.advance (before ++ c :: part) := by
      rw [Coord.advance_append, Coord.advance_eq_translate (Coord.zero.advance before)]
      rcases advance_eq_or_of_offsetOf hzero hoffset with heq | ⟨rfl, hline⟩
      · rw [heq]
      · refine Coord.translate_eq_translate hline.symm ?_
        rw [Coord.line_advance, List.count_cons_self]
        omega
    rw [hplace, byteOf_advance]

end Text

/-! ### What is moved -/

/-- The token with its place moved. -/
def Placed.map (f : Coord → Coord) (t : Placed) : Placed :=
  ⟨t.toToken, f t.start⟩

@[simp] theorem Placed.toToken_map (f : Coord → Coord) (t : Placed) : (t.map f).toToken = t.toToken :=
  rfl

namespace Grammar

/-- The open construct with its coordinates moved. -/
def Frame.map (f : Coord → Coord) (fr : Frame) : Frame :=
  ⟨fr.level, f fr.start, f fr.stop, fr.parts.map (Tree.map f)⟩

/-- How the next token is to be read, with the places of tokens moved. -/
def Reading.map (f : Coord → Coord) : Reading → Reading
  | content => content
  | math opener read => math (opener.map f) read
  | items opener depth read => items (opener.map f) depth read
  | beforeName mark command => beforeName mark (command.map f)
  | name mark command brace read => name mark (command.map f) (brace.map f) read
  | mathEnvironment command expected read => mathEnvironment (command.map f) expected read

/-- The state with its coordinates moved. -/
def State.map (f : Coord → Coord) (s : State) : State :=
  ⟨s.reading.map f, s.top.map f, s.below.map (Frame.map f)⟩

/-- The failure with its coordinates moved. -/
def Failure.map (f : Coord → Coord) (failure : Failure) : Failure :=
  ⟨failure.error.map f, failure.completed.map (Tree.map f)⟩

/-- What comes out of reading, with its coordinates moved. -/
def moved {α : Type} (f : Coord → Coord) (move : α → α) : Except Failure α → Except Failure α
  | .ok result => .ok (move result)
  | .error failure => .error (failure.map f)

variable {f : Coord → Coord} {s : State} {t : Placed}

/-! ### Open constructs -/

@[simp] theorem stop_map (hf : Coord.Steady f) (t : Placed) : (t.map f).stop = f t.stop :=
  (hf.advance t.start t.text).symm

theorem leaf_map (f : Coord → Coord) (kind : NodeKind) (start stop : Coord) :
    Tree.leaf kind (f start) (f stop) = (Tree.leaf kind start stop).map f := rfl

namespace Frame

theorem map_opened (hf : Coord.Steady f) (level : Level) (t : Placed) :
    opened level (t.map f) = (opened level t).map f := by
  rw [opened, stop_map hf]
  rfl

theorem map_add (f : Coord → Coord) (fr : Frame) (tree : Tree) :
    (fr.map f).add (tree.map f) = (fr.add tree).map f := by
  cases tree
  rfl

theorem map_close (f : Coord → Coord) (fr : Frame) (kind : NodeKind) (stop : Coord) :
    (fr.map f).close kind (f stop) = (fr.close kind stop).map f := by
  simp [close, map, Tree.map, Tree.mapForest_eq]

end Frame

namespace State

theorem map_initial (f : Coord → Coord) (here : Coord) : (initial here).map f = initial (f here) := rfl

theorem map_add (f : Coord → Coord) (s : State) (tree : Tree) :
    (s.map f).add (tree.map f) = (s.add tree).map f :=
  congrArg (fun top => State.mk .content top (s.below.map (Frame.map f))) (s.top.map_add f tree)

theorem map_add_leaf (hf : Coord.Steady f) (s : State) (kind : NodeKind) (first last : Placed) :
    (s.map f).add (Tree.leaf kind (first.map f).start (last.map f).stop) =
      (s.add (Tree.leaf kind first.start last.stop)).map f := by
  rw [stop_map hf]
  exact map_add f s (Tree.leaf kind first.start last.stop)

theorem map_completed (f : Coord → Coord) (s : State) :
    (s.map f).completed = s.completed.map (Tree.map f) := by
  simp only [completed, State.map, List.map_flatMap, ← List.map_reverse]
  rw [← List.map_singleton, ← List.map_append, List.flatMap_map]
  simp [Frame.map]

theorem map_fail {α : Type} (f : Coord → Coord) (move : α → α) (s : State) (error : ParseError) :
    (s.map f).fail (error.map f) = moved f move (s.fail error) := by
  simp [fail, moved, Failure.map, map_completed]

theorem map_addSpace (hf : Coord.Steady f) (s : State) (t : Placed) :
    (s.map f).addSpace (t.map f) = (s.addSpace t).map f := by
  obtain ⟨reading, ⟨level, start, stop, parts⟩, below⟩ := s
  have hleaf (kind : NodeKind) (here : Coord) :
      Tree.leaf kind (f here) (t.map f).stop = (Tree.leaf kind here t.stop).map f := by
    rw [stop_map hf, leaf_map]
  cases parts with
  | nil => exact (congrArg _ (hleaf _ _)).trans (map_add f _ _)
  | cons tree parts =>
    obtain ⟨kind, span, children⟩ := tree
    cases kind with
    | whitespace newlines =>
      simp only [addSpace, State.map, Frame.map, List.map_cons, Tree.map, stop_map hf]
      rfl
    | _ => exact (congrArg _ (hleaf _ _)).trans (map_add f _ _)

theorem map_pop (f : Coord → Coord) (fr parent : Frame) (below : List Frame) (kind : NodeKind)
    (stop : Coord) :
    State.mk .content ((parent.map f).add ((fr.map f).close kind (f stop))) (below.map (Frame.map f)) =
      (State.mk .content (parent.add (fr.close kind stop)) below).map f := by
  rw [fr.map_close, parent.map_add]
  rfl

theorem map_pop_token (hf : Coord.Steady f) (fr parent : Frame) (below : List Frame) (kind : NodeKind)
    (t : Placed) :
    State.mk .content ((parent.map f).add ((fr.map f).close kind (t.map f).stop))
        (below.map (Frame.map f)) =
      (State.mk .content (parent.add (fr.close kind t.stop)) below).map f := by
  rw [stop_map hf]
  exact map_pop f fr parent below kind t.stop

theorem map_closeHead (f : Coord → Coord) (s : State) :
    (s.map f).closeHead = s.closeHead.map f := by
  obtain ⟨reading, ⟨level, start, stop, parts⟩, below⟩ := s
  cases level with
  | command name =>
    cases below with
    | nil => rfl
    | cons parent below => exact map_pop f _ parent below (.command name) stop
  | opening name => simp [closeHead, State.map, Frame.map]
  | _ => rfl

/-! ### Steps -/

/-- At the end of the name behind `\end`, the innermost environment is closed if that is its name. -/
theorem named_closing_body {parent : Frame} {below : List Frame} {expected : String} {count : Nat}
    (command : Placed) (name : List Char) (brace : Placed) (hlevel : s.top.level = .body expected count)
    (hbelow : s.below = parent :: below) : s.named .closing command name brace =
      if String.ofList name = expected then
        .ok ⟨.content, parent.add (s.top.close (.environment expected count) brace.stop), below⟩
      else s.fail (.mismatchedEnvironment expected (String.ofList name) command.start) := by
  simp only [named, hlevel, hbelow]

theorem named_map (hf : Coord.Steady f) (s : State) (mark : EnvironmentMark) (command : Placed)
    (name : List Char) (brace : Placed) :
    (s.map f).named mark (command.map f) name (brace.map f) =
      moved f (State.map f) (s.named mark command name brace) := by
  cases mark with
  | opening =>
    unfold named
    simp only
    split
    · rfl
    · rw [stop_map hf]
      rfl
  | closing =>
    obtain ⟨reading, ⟨level, start, stop, parts⟩, below⟩ := s
    cases level with
    | body expected count =>
      cases below with
      | nil => exact map_fail f _ _ (.unexpected _ command.start)
      | cons parent below =>
        rw [named_closing_body command name brace rfl rfl,
          named_closing_body (command.map f) name (brace.map f) rfl rfl]
        split
        · exact congrArg Except.ok (map_pop_token hf _ parent below (.environment expected count) brace)
        · exact map_fail f _ _ (.mismatchedEnvironment expected _ command.start)
    | _ => exact map_fail f _ _ (.unexpected _ command.start)

theorem readItem_map (hf : Coord.Steady f) (s : State) (t : Placed) :
    (s.map f).readItem (t.map f) = moved f (State.map f) (s.readItem t) := by
  have hunexpected := map_fail f (State.map f) s (.unexpected (String.ofList t.text) t.start)
  have hleaf (kind : NodeKind) := map_add_leaf hf s kind t t
  obtain ⟨⟨kind, word⟩, here⟩ := t
  cases kind with
  | whitespace | newline => exact congrArg Except.ok (map_addSpace hf s _)
  | comment | text | lBracket | rBracket | stray => exact congrArg Except.ok (hleaf _)
  | ampersand | tilde | lineBreak | escapedChar => exact congrArg Except.ok (hleaf _)
  | dollar | doubleDollar | inlineMathOpen | displayMathOpen => rfl
  | inlineMathClose | displayMathClose => exact hunexpected
  | lBrace => exact congrArg (fun fr => Except.ok ((s.map f).push fr)) (Frame.map_opened hf .group _)
  | rBrace =>
    obtain ⟨reading, ⟨level, start, stop, parts⟩, below⟩ := s
    cases level with
    | group =>
      cases below with
      | nil => exact hunexpected
      | cons parent below => exact congrArg Except.ok (map_pop_token hf _ parent below .group _)
    | block =>
      cases below with
      | nil => exact hunexpected
      | cons head below => exact congrArg Except.ok (map_pop_token hf _ head below .curlyBlock _)
    | _ => exact hunexpected
  | command =>
    unfold readItem
    simp only [Placed.map]
    split
    · rfl
    · obtain ⟨reading, ⟨level, start, stop, parts⟩, below⟩ := s
      cases level with
      | body expected count => rfl
      | _ => exact hunexpected
    · exact congrArg (fun fr => Except.ok ((s.map f).push fr)) (Frame.map_opened hf _ ⟨⟨_, word⟩, here⟩)

theorem readContent_map (hf : Coord.Steady f) (s : State) (t : Placed) :
    (s.map f).readContent (t.map f) = moved f (State.map f) (s.readContent t) := by
  unfold readContent
  change (if s.top.level.isHead = true ∧ t.kind = .lBrace then _ else _) = _
  split
  · rw [Frame.map_opened hf]
    rfl
  · change (if s.top.level.isHead = true ∧ t.kind = .lBracket then _ else _) = _
    split
    · rfl
    · rw [map_closeHead, readItem_map hf]

theorem finish_map (f : Coord → Coord) (s : State) :
    (s.map f).finish = moved f (List.map (Tree.map f)) s.finish := by
  obtain ⟨reading, top, below⟩ := s
  cases reading with
  | math opener => exact map_fail f _ _ (.unclosed .math opener.start)
  | items opener => exact map_fail f _ _ (.unclosed .parameterBlock opener.start)
  | beforeName mark command => exact map_fail f _ _ (.missingEnvironmentName mark command.start)
  | name mark command brace => exact map_fail f _ _ (.unclosed .environmentName brace.start)
  | mathEnvironment command => exact map_fail f _ _ (.unclosed .mathEnvironment command.start)
  | content =>
    have hclosed := map_closeHead f ⟨.content, top, below⟩
    unfold finish
    simp only [State.map, Reading.map] at hclosed ⊢
    rw [hclosed]
    obtain ⟨reading, ⟨level, start, stop, parts⟩, below⟩ := State.closeHead ⟨.content, top, below⟩
    cases level with
    | root => exact congrArg Except.ok List.map_reverse.symm
    | group | block => exact map_fail f _ _ (.unclosed .group start)
    | _ => exact map_fail f _ _ (.unclosed .environment start)

end State

theorem squareBlock_map (hf : Coord.Steady f) (opener closer : Placed) (text : List Char) :
    squareBlock (opener.map f) text (closer.map f) = (squareBlock opener text closer).map f := by
  have hitems := Parameters.map_items fun p (_ : p <+: text) => hf.advance opener.stop p
  simp only [squareBlock, stop_map hf, ← hitems, Tree.map, Tree.mapForest_eq, List.map_cons, List.map_nil]
  rfl

/-- What one token does to a moved state is what it does to the state, moved. -/
theorem step_map (hf : Coord.Steady f) (s : State) (t : Placed) :
    step (s.map f) (t.map f) = moved f (State.map f) (step s t) := by
  obtain ⟨reading, top, below⟩ := s
  cases reading with
  | content => exact State.readContent_map hf _ t
  | math opener read =>
    change (if t.kind = (mathDelimiter opener.kind).1 then _ else _) =
      moved f _ (if t.kind = (mathDelimiter opener.kind).1 then _ else _)
    split
    · exact congrArg Except.ok (State.map_add_leaf hf ⟨.math opener read, top, below⟩ _ opener t)
    · rfl
  | items opener depth read =>
    obtain ⟨⟨kind, word⟩, here⟩ := t
    cases kind with
    | rBracket =>
      have hblock := squareBlock_map hf opener ⟨⟨.rBracket, word⟩, here⟩ (collected read)
      simp only [step, State.map, Reading.map, Placed.map] at hblock ⊢
      split
      · rw [hblock]
        exact congrArg Except.ok (State.map_add f ⟨.items opener depth read, top, below⟩ _)
      · rfl
    | _ => rfl
  | beforeName mark command =>
    change (if t.kind = .lBrace then _ else _) = moved f _ (if t.kind = .lBrace then _ else _)
    split
    · rfl
    · exact State.map_fail f _ ⟨.beforeName mark command, top, below⟩
        (.missingEnvironmentName mark command.start)
  | name mark command brace read =>
    change (if t.kind = .rBrace then _ else _) = moved f _ (if t.kind = .rBrace then _ else _)
    split
    · exact State.named_map hf ⟨.name mark command brace read, top, below⟩ mark command _ t
    · rfl
  | mathEnvironment command name read =>
    by_cases hbrace : t.kind = .rBrace
    · simp only [step, State.map, Reading.map, Placed.toToken_map, hbrace, ↓reduceIte]
      cases contentBeforeEnd? name read.reverse with
      | some content =>
        exact congrArg Except.ok
          (State.map_add_leaf hf ⟨.mathEnvironment command name read, top, below⟩ _ command t)
      | none => rfl
    · simp only [step, State.map, Reading.map, Placed.toToken_map, hbrace, ↓reduceIte]
      rfl

/-! ### Whole texts -/

theorem run_map (hf : Coord.Steady f) (here : Coord) (s : State) (tokens : List Token) :
    run (f here) (s.map f) tokens = moved f (State.map f) (run here s tokens) := by
  induction tokens generalizing here s with
  | nil => rfl
  | cons t tokens ih =>
    have hstep : step (s.map f) ⟨t, f here⟩ = _ := step_map hf s ⟨t, here⟩
    simp only [run, Token.placeAll, List.foldlM_cons, hstep]
    cases step s ⟨t, here⟩ with
    | ok s' =>
      rw [← hf.advance here t.text]
      exact ih (here.advance t.text) s'
    | error failure => rfl

/-- A text that starts at another place is read as at the first one, and everything is counted from
that place. -/
theorem readFrom_eq_moved (hf : Coord.Steady f) (here : Coord) (text : List Char) :
    readFrom (f here) text = moved f (List.map (Tree.map f)) (readFrom here text) := by
  rw [readFrom_eq, readFrom_eq, ← State.map_initial, run_map hf]
  cases run here (State.initial here) (tokenize text) with
  | ok s => exact s.finish_map f
  | error failure => rfl

theorem readFrom_eq_translated (origin : Coord) (text : List Char) : readFrom origin text =
    moved origin.translate (List.map (Tree.map origin.translate)) (readFrom .zero text) := by
  have h := readFrom_eq_moved (Coord.steady_translate origin) .zero text
  rwa [Coord.translate_zero] at h

/-- A text that is markup is read from any place. -/
theorem readFrom_translate {text : List Char} {forest : List Tree}
    (h : readFrom .zero text = .ok forest) (origin : Coord) :
    readFrom origin text = .ok (forest.map (Tree.map origin.translate)) := by
  rw [readFrom_eq_translated, h]
  rfl

end Grammar

end TexAnchor
