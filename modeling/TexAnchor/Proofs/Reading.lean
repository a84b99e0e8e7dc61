import TexAnchor.Proofs.Lexing
import TexAnchor.Proofs.Markup

/-! # Reading what the grammar produces

Whatever the grammar produces is read as it was produced (`readFrom_of_isContent`).

An item is read in a state that would not take its first token (`State.takes`), and adds its tree to
the innermost construct once heads are closed (`Reads`); a parameter block is read next to a head
(`ReadsBlock`).  Both are shown by induction over the productions (`reads_of_produces`), from what a
sequence of items or blocks does (`run_content`, `run_blocks`) and from what the reader does with
raw material (`run_name`, `run_math`, `run_items`, `run_mathEnvironment`). -/

namespace TexAnchor

open Text (Coord)

theorem Token.placeAll_append (here : Coord) (a b : List Token) :
    placeAll here (a ++ b) = placeAll here a ++ placeAll (here.advance (textOf a)) b := by
  induction a generalizing here with
  | nil => rfl
  | cons t a ih => simp [placeAll, ih, textOf_cons]

/-- The tree is white space, which takes more white space. -/
def Tree.isWhitespace (t : Tree) : Bool := t.kind.tag == .whitespace

namespace Grammar

open Token (textOf)

/-! ### Runs -/

/-- The state after some tokens, the first of which starts at `here`. -/
def run (here : Coord) (s : State) (tokens : List Token) : Except Failure State :=
  (Token.placeAll here tokens).foldlM step s

@[simp] theorem run_nil (here : Coord) (s : State) : run here s [] = .ok s := rfl

theorem run_cons {here : Coord} {s s' : State} {t : Token} (h : step s ⟨t, here⟩ = .ok s')
    (tokens : List Token) : run here s (t :: tokens) = run (here.advance t.text) s' tokens := by
  simp only [run, Token.placeAll, List.foldlM_cons, h]
  rfl

theorem run_singleton (here : Coord) (s : State) (t : Token) : run here s [t] = step s ⟨t, here⟩ := by
  simp only [run, Token.placeAll, List.foldlM_cons, List.foldlM_nil]
  exact bind_pure _

theorem run_append {here : Coord} {s s' : State} {a : List Token} (h : run here s a = .ok s')
    (b : List Token) : run here s (a ++ b) = run (here.advance (textOf a)) s' b := by
  unfold run at h ⊢
  rw [Token.placeAll_append, List.foldlM_append, h]
  rfl

theorem readFrom_eq (origin : Coord) (text : List Char) :
    readFrom origin text = (run origin (State.initial origin) (tokenize text)).bind State.finish :=
  rfl

namespace State

/-! ### Closing heads -/

/-- Finished parts of the innermost construct, one after another. -/
def addAll (s : State) (trees : List Tree) : State := trees.foldl State.add s

@[simp] theorem addAll_nil (s : State) : s.addAll [] = s := rfl

@[simp] theorem addAll_singleton (s : State) (t : Tree) : s.addAll [t] = s.add t := rfl

theorem addAll_append (s : State) (a b : List Tree) : s.addAll (a ++ b) = (s.addAll a).addAll b :=
  List.foldl_append

theorem addAll_spec (s : State) (trees : List Tree) :
    (s.addAll trees).top.level = s.top.level ∧ (s.addAll trees).top.start = s.top.start ∧
      (s.addAll trees).top.parts = trees.reverse ++ s.top.parts ∧
      (s.addAll trees).below = s.below := by
  induction trees generalizing s with
  | nil => simp
  | cons t trees ih =>
    obtain ⟨hlevel, hstart, hparts, hbelow⟩ := ih (s.add t)
    refine ⟨hlevel, hstart, ?_, hbelow⟩
    rw [addAll, List.foldl_cons]
    simpa [addAll, add, Frame.add] using hparts

@[simp] theorem level_addAll (s : State) (trees : List Tree) :
    (s.addAll trees).top.level = s.top.level := (s.addAll_spec trees).1

@[simp] theorem start_addAll (s : State) (trees : List Tree) :
    (s.addAll trees).top.start = s.top.start := (s.addAll_spec trees).2.1

@[simp] theorem parts_addAll (s : State) (trees : List Tree) :
    (s.addAll trees).top.parts = trees.reverse ++ s.top.parts := (s.addAll_spec trees).2.2.1

@[simp] theorem below_addAll (s : State) (trees : List Tree) :
    (s.addAll trees).below = s.below := (s.addAll_spec trees).2.2.2

theorem reading_addAll {s : State} (h : s.reading = .content) (trees : List Tree) :
    (s.addAll trees).reading = .content := by
  induction trees generalizing s with
  | nil => exact h
  | cons t trees ih => exact ih rfl

theorem closeHead_eq_self {s : State} (h : s.top.level.isHead = false) : s.closeHead = s := by
  unfold closeHead
  cases hlevel : s.top.level with
  | command name => simp [hlevel, Level.isHead] at h
  | opening name => simp [hlevel, Level.isHead] at h
  | _ => rfl

theorem closeHead_command {s : State} {name : String} {parent : Frame} {below : List Frame}
    (hlevel : s.top.level = .command name) (hbelow : s.below = parent :: below) :
    s.closeHead = ⟨.content, parent.add (s.top.close (.command name) s.top.stop), below⟩ := by
  simp [closeHead, hlevel, hbelow]

theorem closeHead_opening {s : State} {name : String} (hlevel : s.top.level = .opening name) :
    s.closeHead = { s with top := { s.top with level := .body name s.top.parts.length } } := by
  simp [closeHead, hlevel]

/-- The next token is one of content, and no head is left behind a head. -/
def Ready (s : State) : Prop :=
  s.reading = .content ∧ s.closeHead.top.level.isHead = false

/-- A token of this kind would become part of what stands last: a parameter block of a head, or more
white space. -/
def takes (s : State) (kind : TokenKind) : Bool :=
  s.top.level.isHead && kind.opensBlock ||
    kind.isSpace && s.closeHead.top.parts.head?.any Tree.isWhitespace

theorem takes_eq_false {kind : TokenKind} (hblock : kind.opensBlock = false)
    (hspace : kind.isSpace = false) (s : State) : s.takes kind = false := by
  simp [takes, hblock, hspace]

theorem readContent_eq {s : State} {t : Placed} (h : s.takes t.kind = false) :
    s.readContent t = s.closeHead.readItem t := by
  simp only [takes, Bool.or_eq_false_iff, Bool.and_eq_false_iff] at h
  have hnot (kind : TokenKind) (hkind : kind.opensBlock = true) :
      ¬ (s.top.level.isHead = true ∧ t.kind = kind) := by
    rintro ⟨hhead, rfl⟩
    rcases h.1 with h | h
    · simp [h] at hhead
    · simp [h] at hkind
  unfold readContent
  rw [if_neg (hnot .lBrace rfl), if_neg (hnot .lBracket rfl)]

theorem takes_add {s : State} (h : s.top.level.isHead = false) (t : Tree) (kind : TokenKind) :
    (s.add t).takes kind = (kind.isSpace && t.isWhitespace) := by
  have hhead : (s.add t).top.level.isHead = false := h
  rw [takes, closeHead_eq_self hhead, hhead]
  simp [add, Frame.add]

end State

open State (Ready)

/-! ### What reading an item or a block does -/

/-- An item is read wherever its first token is not taken by what stands before it. -/
def Reads (m : Markup) : Prop :=
  ∀ (here : Coord) (s : State), Ready s → (∀ kind ∈ m.firstKind?, s.takes kind = false) →
    ∃ s', run here s m.tokens = .ok s' ∧ s'.reading = .content ∧
      s'.closeHead = s.closeHead.addAll (m.trees here) ∧ ∀ kind, s'.takes kind = m.takes kind

/-- A parameter block is read next to a head. -/
def ReadsBlock (m : Markup) : Prop :=
  ∀ (here : Coord) (s : State), s.reading = .content → s.top.level.isHead = true →
    run here s m.tokens = .ok (s.addAll (m.trees here))

/-- An item that was read whole adds its tree and takes nothing more, unless it is white space. -/
theorem reads_of_add {kind : NodeKind} {parts : List Markup}
    (hcommand : kind.tag ≠ .command)
    (h : ∀ (here : Coord) (s : State), Ready s →
      (∀ k ∈ (Markup.node kind parts).firstKind?, s.takes k = false) →
      run here s (Markup.tokensOf parts) = .ok (s.closeHead.add
        (.node kind ⟨here, here.advance (Markup.textOf parts)⟩ (Markup.forest here parts)))) :
    Reads (.node kind parts) := by
  intro here s hs htakes
  refine ⟨_, by simpa using h here s hs htakes, rfl, ?_, fun k => ?_⟩
  · rw [State.closeHead_eq_self (by exact hs.2)]
    simp
  · rw [State.takes_add hs.2]
    cases kind <;> simp_all [Markup.takes, NodeKind.tag, Tree.isWhitespace, Tree.kind]

theorem run_content {ms : List Markup} (hms : ∀ m ∈ ms, Reads m) (hchain : Chained ms)
    (here : Coord) {s : State} (hs : Ready s)
    (hfirst : ∀ m ∈ ms.head?, ∀ kind ∈ m.firstKind?, s.takes kind = false) :
    ∃ s', run here s (Markup.tokensOf ms) = .ok s' ∧ s'.reading = .content ∧
      s'.closeHead = s.closeHead.addAll (Markup.forest here ms) := by
  induction ms generalizing here s with
  | nil => exact ⟨s, by simp, hs.1, by simp⟩
  | cons m ms ih =>
    obtain ⟨hnext, hrest⟩ := List.isChain_cons.mp hchain
    obtain ⟨s₁, hrun, hreading, hclose, htakes⟩ := hms m (by simp) here s hs (hfirst m rfl)
    have hready : Ready s₁ := ⟨hreading, by rw [hclose]; simpa using hs.2⟩
    obtain ⟨s₂, hrun₂, hreading₂, hclose₂⟩ :=
      ih (fun m' hm' => hms m' (List.mem_cons_of_mem m hm')) hrest (here.advance m.text) hready
        (fun m' hm' kind hkind => by rw [htakes]; exact hnext m' hm' kind hkind)
    refine ⟨s₂, ?_, hreading₂, ?_⟩
    · rw [Markup.tokensOf_cons, run_append hrun]
      exact hrun₂
    · rw [hclose₂, hclose, ← State.addAll_append, Markup.forest_cons]

theorem run_blocks {blocks : List Markup} (hblocks : ∀ m ∈ blocks, ReadsBlock m) (here : Coord)
    {s : State} (hs : s.reading = .content) (hhead : s.top.level.isHead = true) :
    run here s (Markup.tokensOf blocks) = .ok (s.addAll (Markup.forest here blocks)) := by
  induction blocks generalizing here s with
  | nil => simp
  | cons m blocks ih =>
    have hrun := hblocks m (by simp) here s hs hhead
    rw [Markup.tokensOf_cons, run_append hrun, Markup.forest_cons, State.addAll_append]
    exact ih (fun m' hm' => hblocks m' (List.mem_cons_of_mem m hm')) _ (State.reading_addAll hs _)
      (by simpa using hhead)

/-! ### Raw material -/

section Raw

variable {here : Coord}

theorem run_collect (collecting : List Token → State) {read tokens : List Token}
    (h : ∀ u t v, tokens = u ++ t :: v → ∀ place, step (collecting (u.reverse ++ read)) ⟨t, place⟩ =
      .ok (collecting (t :: (u.reverse ++ read)))) :
    run here (collecting read) tokens = .ok (collecting (tokens.reverse ++ read)) := by
  induction tokens generalizing here read with
  | nil => rfl
  | cons t tokens ih =>
    have hfirst : step (collecting read) ⟨t, here⟩ = .ok (collecting (t :: read)) :=
      h [] t tokens rfl here
    rw [run_cons hfirst, ih]
    · simp
    · rintro u t' v rfl place
      have hstep := h (t :: u) t' v rfl place
      simpa using hstep

theorem run_math (s : State) (opener : Placed) {inner : List Token} {closer : Token}
    (hinner : ∀ t ∈ inner, t.kind ≠ closer.kind)
    (hcloser : closer.kind = (mathDelimiter opener.kind).1) :
    run here { s with reading := .math opener [] } (inner ++ [closer]) =
      .ok (s.add (Tree.leaf (.math (mathDelimiter opener.kind).2
        (String.ofList (textOf inner))) opener.start
        ((here.advance (textOf inner)).advance closer.text))) := by
  have hcollect : run here { s with reading := .math opener [] } inner =
      .ok { s with reading := .math opener (inner.reverse ++ []) } := by
    refine run_collect (fun read => { s with reading := .math opener read })
      fun u t v huv place => ?_
    have hne : t.kind ≠ (mathDelimiter opener.kind).1 := by
      rw [← hcloser]
      exact hinner t (by simp [huv])
    simp [step, hne]
  rw [run_append hcollect, run_singleton]
  simp [step, hcloser, collected, State.add, Placed.stop]

theorem run_name (s : State) (mark : EnvironmentMark) (command brace : Placed) {inner : List Token}
    {closer : Token} (hinner : ∀ t ∈ inner, t.kind ≠ .rBrace) (hcloser : closer.kind = .rBrace) :
    run here { s with reading := .name mark command brace [] } (inner ++ [closer]) =
      State.named { s with reading := .name mark command brace inner.reverse } mark command
        (Text.trim (textOf inner)) ⟨closer, here.advance (textOf inner)⟩ := by
  have hcollect : run here { s with reading := .name mark command brace [] } inner =
      .ok { s with reading := .name mark command brace (inner.reverse ++ []) } := by
    refine run_collect (fun read => { s with reading := .name mark command brace read })
      fun u t v huv place => ?_
    have hne : t.kind ≠ .rBrace := hinner t (by simp [huv])
    simp [step, hne]
  rw [run_append hcollect, run_singleton]
  simp [step, hcloser, collected]

theorem step_items (s : State) (opener : Placed) {depth : Nat} {read : List Token} {t : Token}
    (ht : t.kind = .rBracket → depth ≠ 0) :
    step { s with reading := .items opener depth read } ⟨t, here⟩ =
      .ok { s with reading := .items opener (depthAfter depth t) (t :: read) } := by
  unfold step depthAfter
  cases hkind : t.kind <;> simp_all

theorem run_items (s : State) (opener : Placed) {depth : Nat} {read inner : List Token}
    {closer : Token} (hinner : EndsOutside depth inner) (hcloser : closer.kind = .rBracket) :
    run here { s with reading := .items opener depth read } (inner ++ [closer]) =
      .ok (s.add (squareBlock opener (collected (inner.reverse ++ read))
        ⟨closer, here.advance (textOf inner)⟩)) := by
  induction inner generalizing here depth read with
  | nil =>
    obtain rfl : depth = 0 := hinner
    rw [List.nil_append, run_singleton]
    simp [step, hcloser, State.add, textOf]
  | cons t inner ih =>
    obtain ⟨hbracket, hrest⟩ := hinner
    rw [List.cons_append, run_cons (step_items s opener hbracket), ih hrest]
    simp [Token.textOf_cons]

end Raw

/-! ### Tags and math environments -/

theorem kind_of_markOf? {t : Token} {mark : EnvironmentMark} (h : markOf? t = some mark) :
    t.kind = .command := by
  unfold markOf? at h
  split at h
  · assumption
  · cases h

theorem run_tag {here : Coord} {mark : EnvironmentMark} {name : List Char} {tag : List Token}
    (htag : IsTag mark name tag) {s c : State}
    (hstep : ∀ t, markOf? t = some mark →
      step s ⟨t, here⟩ = .ok { c with reading := .beforeName mark ⟨t, here⟩ }) :
    ∃ (command brace : Placed) (reading : Reading),
      run here s tag = State.named { c with reading } mark command name brace ∧
        command.start = here ∧ brace.stop = here.advance (textOf tag) := by
  obtain @⟨command, opener, closer, inner, hcommand, hopener, hcloser, hinner, rfl⟩ := htag
  let brace : Placed := ⟨opener, here.advance command.text⟩
  have hbrace : step { c with reading := .beforeName mark ⟨command, here⟩ } brace =
      .ok { c with reading := .name mark ⟨command, here⟩ brace [] } := by
    simp [step, brace, hopener]
  refine ⟨⟨command, here⟩, ⟨closer, brace.stop.advance (textOf inner)⟩,
    .name mark ⟨command, here⟩ brace inner.reverse, ?_, rfl, ?_⟩
  · rw [run_cons (hstep command hcommand), run_cons hbrace]
    exact run_name c mark _ brace hinner hcloser
  · simp [Placed.stop, brace, textOf]

theorem IsTag.eq_nil_of_rBrace {mark : EnvironmentMark} {name : List Char} {tag u v : List Token}
    {t : Token} (htag : IsTag mark name tag) (huv : tag = u ++ t :: v) (ht : t.kind = .rBrace) :
    v = [] := by
  obtain @⟨command, opener, closer, inner, hcommand, hopener, hcloser, hinner, rfl⟩ := htag
  match u, huv with
  | [], huv =>
    obtain ⟨rfl, -⟩ := List.cons.inj huv
    simp [kind_of_markOf? hcommand] at ht
  | [_], huv =>
    simp only [List.cons_append, List.cons.injEq, List.nil_append] at huv
    obtain ⟨-, rfl, -⟩ := huv
    simp [hopener] at ht
  | _ :: _ :: u, huv =>
    simp only [List.cons_append, List.cons.injEq] at huv
    obtain ⟨-, -, huv⟩ := huv
    rcases List.eq_nil_or_concat v with rfl | ⟨v, last, rfl⟩
    · rfl
    · have hmem : t ∈ inner := by
        have heq : inner ++ [closer] = (u ++ t :: v) ++ [last] := by simpa using huv
        simp [List.append_inj_left' heq rfl]
      exact absurd ht (hinner t hmem)

theorem IsTag.exists_eq_cons {mark : EnvironmentMark} {name : List Char} {tag : List Token}
    (htag : IsTag mark name tag) : ∃ command rest, tag = command :: rest ∧ command.kind = .command := by
  obtain @⟨command, opener, closer, inner, hcommand, -, -, -, -⟩ := htag
  exact ⟨command, _, rfl, kind_of_markOf? hcommand⟩

theorem IsTag.exists_eq_append {mark : EnvironmentMark} {name : List Char} {tag : List Token}
    (htag : IsTag mark name tag) : ∃ init closer, tag = init ++ [closer] ∧ closer.kind = .rBrace := by
  obtain @⟨command, opener, closer, inner, -, -, hcloser, -, -⟩ := htag
  exact ⟨command :: opener :: inner, closer, by simp, hcloser⟩

/-- What is found before the end of a math environment is followed by a tag. -/
theorem isTag_of_contentBeforeEnd? {name : List Char} {read content : List Token} {closer : Token}
    (hcloser : closer.kind = .rBrace) (h : contentBeforeEnd? name read = some content) :
    ∃ tag, read ++ [closer] = content ++ tag ∧ IsTag .closing name tag := by
  induction read generalizing content with
  | nil => cases h
  | cons t read ih =>
    unfold contentBeforeEnd? at h
    split at h
    · next hend =>
      obtain rfl : [] = content := Option.some.inj h
      refine ⟨t :: (read ++ [closer]), rfl, ?_⟩
      obtain ⟨hmark, hname⟩ := hend
      cases read with
      | nil => cases hname
      | cons brace inner =>
        simp only [isBracedName, Bool.and_eq_true, beq_iff_eq, List.all_eq_true, bne_iff_ne] at hname
        exact .intro hmark hname.1.1 hcloser hname.1.2 hname.2
    · obtain ⟨content', hcontent', rfl⟩ := Option.map_eq_some_iff.mp h
      obtain ⟨tag, htag, hisTag⟩ := ih hcontent'
      exact ⟨tag, by simp [htag], hisTag⟩

/-- The end of a math environment is found no later than at a tag. -/
theorem exists_contentBeforeEnd? {name : List Char} {read tag : List Token} {closer : Token}
    (content : List Token) (h : read ++ [closer] = content ++ tag) (htag : IsTag .closing name tag) :
    ∃ found, contentBeforeEnd? name read = some found ∧ found.length ≤ content.length := by
  induction content generalizing read with
  | nil =>
    obtain @⟨command, opener, closer', inner, hcommand, hopener, hcloser, hinner, rfl⟩ := htag
    obtain rfl : read = command :: opener :: inner := by
      have heq : read ++ [closer] = (command :: opener :: inner) ++ [closer'] := by simpa using h
      exact List.append_inj_left' heq rfl
    refine ⟨[], ?_, Nat.le_refl _⟩
    have hname : isBracedName (Text.trim (textOf inner)) (opener :: inner) = true := by
      simpa [isBracedName, hopener] using hinner
    simp [contentBeforeEnd?, hcommand, hname]
  | cons t content ih =>
    cases read with
    | nil =>
      obtain @⟨command, opener, closer', inner, -, -, -, -, -⟩ := htag
      simp at h
    | cons t' read =>
      simp only [List.cons_append, List.cons.injEq] at h
      obtain ⟨rfl, h⟩ := h
      obtain ⟨found, hfound, hle⟩ := ih h
      unfold contentBeforeEnd?
      split
      · exact ⟨[], rfl, Nat.zero_le _⟩
      · exact ⟨t' :: found, by rw [hfound]; rfl, by simpa using hle⟩

theorem run_mathEnvironment {here : Coord} (s : State) (command : Placed) {name : List Char}
    {content tag : List Token} (h : IsFirstEnd name content tag) :
    run here { s with reading := .mathEnvironment command name [] } (content ++ tag) =
      .ok (s.add (Tree.leaf (.math (.environment (String.ofList name))
        (String.ofList (textOf content))) command.start
        (here.advance (textOf (content ++ tag))))) := by
  obtain ⟨htag, hfirst⟩ := h
  obtain ⟨tokens, closer, htokens, hclosing⟩ :
      ∃ tokens closer, content ++ tag = tokens ++ [closer] ∧ closer.kind = .rBrace := by
    obtain ⟨init, closer, rfl, hcloser⟩ := htag.exists_eq_append
    exact ⟨content ++ init, closer, by simp, hcloser⟩
  -- Before the tag's own brace no tag is complete, as none starts before it.
  have hcollect : run here { s with reading := .mathEnvironment command name [] } tokens =
      .ok { s with reading := .mathEnvironment command name (tokens.reverse ++ []) } := by
    refine run_collect (fun read => { s with reading := .mathEnvironment command name read })
      fun u t v huv place => ?_
    by_cases ht : t.kind = .rBrace
    · have hnone : contentBeforeEnd? name u = none := by
        apply Option.eq_none_iff_forall_ne_some.mpr
        intro found hfound
        obtain ⟨w, hw, hisTag⟩ := isTag_of_contentBeforeEnd? ht hfound
        have heq : content ++ tag = found ++ w ++ (v ++ [closer]) := by
          rw [htokens, huv, ← hw]
          simp
        have hle := hfirst found w (v ++ [closer]) heq hisTag
        obtain ⟨e, rfl⟩ : content <+: found :=
          List.prefix_of_prefix_length_le ⟨tag, rfl⟩ ⟨w ++ (v ++ [closer]), by rw [heq]; simp⟩ hle
        obtain ⟨p, brace, rfl, hbrace⟩ := hisTag.exists_eq_append
        have htageq : tag = (e ++ p) ++ brace :: (v ++ [closer]) := by simpa using heq
        simpa using htag.eq_nil_of_rBrace htageq hbrace
      simp [step, ht, hnone]
    · simp [step, ht]
  obtain ⟨found, hfound, hle⟩ := exists_contentBeforeEnd? _ htokens.symm htag
  obtain ⟨w, hw, hisTag⟩ := isTag_of_contentBeforeEnd? hclosing hfound
  have hge := hfirst found w [] (by rw [htokens, hw]; simp) hisTag
  obtain rfl : found = content := by
    have heq : found ++ w = content ++ tag := by rw [← hw, htokens]
    exact List.append_inj_left heq (Nat.le_antisymm hle hge)
  rw [htokens, run_append hcollect, run_singleton]
  simp [step, hclosing, hfound, State.add, Placed.stop, textOf]

/-! ### The productions -/

section Productions

variable {here : Coord} {s : State}

/-- A token of content that is not taken by what stands before it is read as an item. -/
theorem step_eq_readItem (hs : Ready s) {t : Placed} (h : s.takes t.kind = false) :
    step s t = s.closeHead.readItem t := by
  rw [step, hs.1]
  exact State.readContent_eq h

theorem step_eq_readItem_of_not_head (hs : s.reading = .content)
    (hhead : s.top.level.isHead = false) (t : Placed) : step s t = s.readItem t := by
  simp only [step, hs, State.readContent, hhead, Bool.false_eq_true, false_and, ite_false,
    State.closeHead_eq_self hhead]

theorem readItem_space {t : Placed} (h : t.kind.isSpace = true) (s : State) :
    s.readItem t = .ok (s.addSpace t) := by
  unfold State.readItem
  cases hkind : t.kind <;> simp_all [TokenKind.isSpace]

theorem readItem_comment {t : Placed} (h : t.kind = .comment) (s : State) :
    s.readItem t = .ok (s.add (Tree.leaf (.comment (String.ofList t.text.tail)) t.start t.stop)) := by
  simp [State.readItem, h]

theorem readItem_text {t : Placed} (h : isTextKind t.kind = true) (s : State) :
    s.readItem t = .ok (s.add (Tree.leaf (.text (String.ofList t.text)) t.start t.stop)) := by
  unfold State.readItem
  cases hkind : t.kind <;> simp_all [isTextKind]

theorem readItem_symbol {t : Placed} (h : isSymbolKind t.kind = true) (s : State) :
    s.readItem t = .ok (s.add (Tree.leaf (.specialSymbol (String.ofList t.text)) t.start t.stop)) := by
  unfold State.readItem
  cases hkind : t.kind <;> simp_all [isSymbolKind]

theorem readItem_mathOpener {t : Placed} (h : isMathOpener t.kind = true) (s : State) :
    s.readItem t = .ok { s with reading := .math t [] } := by
  unfold State.readItem
  cases hkind : t.kind <;> simp_all [isMathOpener]

theorem addSpace_eq_add {t : Placed} (h : s.top.parts.head?.any Tree.isWhitespace = false) :
    s.addSpace t =
      s.add (Tree.leaf (.whitespace (if t.kind = .newline then 1 else 0)) t.start t.stop) := by
  obtain ⟨reading, ⟨level, start, stop, parts⟩, below⟩ := s
  cases parts with
  | nil => rfl
  | cons tree parts =>
    obtain ⟨kind, span, children⟩ := tree
    cases kind with
    | whitespace newlines => simp [Tree.isWhitespace, Tree.kind, NodeKind.tag] at h
    | _ => rfl

theorem addSpace_add (start stop : Coord) (newlines : Nat) (t : Placed) :
    (s.add (Tree.leaf (.whitespace newlines) start stop)).addSpace t =
      s.add (Tree.leaf (.whitespace (newlines + if t.kind = .newline then 1 else 0)) start t.stop) :=
  rfl

theorem run_space (here : Coord) {s : State} (hs : s.top.level.isHead = false) (start : Coord)
    (newlines : Nat) {tokens : List Token} (h : ∀ t ∈ tokens, t.kind.isSpace = true) :
    run here (s.add (Tree.leaf (.whitespace newlines) start here)) tokens =
      .ok (s.add (Tree.leaf (.whitespace (newlines + tokens.countP (·.kind = .newline))) start
        (here.advance (textOf tokens)))) := by
  induction tokens generalizing here newlines with
  | nil => rfl
  | cons t tokens ih =>
    have hstep : step (s.add (Tree.leaf (.whitespace newlines) start here)) ⟨t, here⟩ =
        .ok (s.add (Tree.leaf (.whitespace (newlines + if t.kind = .newline then 1 else 0)) start
          (here.advance t.text))) := by
      have hhead : (s.add (Tree.leaf (.whitespace newlines) start here)).top.level.isHead = false := hs
      rw [step_eq_readItem_of_not_head rfl hhead, readItem_space (h t (by simp)), addSpace_add]
      rfl
    rw [run_cons hstep, ih _ _ fun t' ht' => h t' (by simp [ht']), List.countP_cons, Token.textOf_cons,
      Coord.advance_append]
    simp only [decide_eq_true_eq, Nat.add_assoc, Nat.add_comm]

theorem reads_space {tokens : List Token} (hne : tokens ≠ [])
    (h : ∀ t ∈ tokens, t.kind.isSpace = true) :
    Reads (.node (.whitespace (tokens.countP (·.kind = .newline))) [.raw tokens]) := by
  apply reads_of_add (by simp [NodeKind.tag])
  intro here s hs htakes
  obtain ⟨t, tokens, rfl⟩ := List.exists_cons_of_ne_nil hne
  have hspace := h t (by simp)
  have htake : s.takes t.kind = false := htakes _ (by simp [Markup.firstKind?])
  have hlast : s.closeHead.top.parts.head?.any Tree.isWhitespace = false := by
    simp only [State.takes, hspace, Bool.true_and, Bool.or_eq_false_iff] at htake
    exact htake.2
  have hstep : step s ⟨t, here⟩ = .ok (s.closeHead.add (Tree.leaf
      (.whitespace (if t.kind = .newline then 1 else 0)) here (here.advance t.text))) := by
    rw [step_eq_readItem hs htake, readItem_space hspace, addSpace_eq_add hlast]
    rfl
  have hrun := run_space (here.advance t.text) hs.2 here
    (if t.kind = .newline then 1 else 0) fun t' ht' => h t' (List.mem_cons_of_mem t ht')
  rw [Markup.tokensOf_cons, Markup.tokensOf_nil, Markup.tokens_raw, List.append_nil, run_cons hstep,
    hrun, List.countP_cons]
  simp [Tree.leaf, Markup.textOf, Token.textOf_cons, Nat.add_comm]

theorem reads_token {t : Token} {kind : NodeKind} (hcommand : kind.tag ≠ .command)
    (h : ∀ (s : State) (here : Coord), s.readItem ⟨t, here⟩ =
      .ok (s.add (Tree.leaf kind here (here.advance t.text)))) :
    Reads (.node kind [.raw [t]]) := by
  apply reads_of_add hcommand
  intro here s hs htakes
  have htake : s.takes t.kind = false := htakes _ (by simp [Markup.firstKind?])
  rw [Markup.tokensOf_cons, Markup.tokensOf_nil, Markup.tokens_raw, List.append_nil, run_singleton,
    step_eq_readItem hs htake, h]
  simp [Tree.leaf, Markup.textOf, textOf]

theorem reads_math {opener closer : Token} {inner : List Token}
    (hopener : isMathOpener opener.kind = true)
    (hcloser : closer.kind = (mathDelimiter opener.kind).1)
    (hinner : ∀ t ∈ inner, t.kind ≠ closer.kind) :
    Reads (.node (.math (mathDelimiter opener.kind).2 (String.ofList (textOf inner)))
      [.raw (opener :: (inner ++ [closer]))]) := by
  apply reads_of_add (by simp [NodeKind.tag])
  intro here s hs htakes
  have htake : s.takes opener.kind = false := htakes _ (by simp [Markup.firstKind?])
  have hstep : step s ⟨opener, here⟩ =
      .ok { s.closeHead with reading := .math ⟨opener, here⟩ [] } := by
    rw [step_eq_readItem hs htake, readItem_mathOpener hopener]
  rw [Markup.tokensOf_cons, Markup.tokensOf_nil, Markup.tokens_raw, List.append_nil, run_cons hstep,
    run_math s.closeHead ⟨opener, here⟩ hinner hcloser]
  simp [Tree.leaf, Markup.textOf, textOf]

/-- Braces enclose content, in a group and in a parameter alike. -/
theorem run_braces {level : Level} {kind : NodeKind} (opener : Placed) {closer : Token}
    {body : List Markup} (hlevel : level = .group ∧ kind = .group ∨ level = .block ∧ kind = .curlyBlock)
    (hbody : ∀ m ∈ body, Reads m) (hchain : Chained body) (hcloser : closer.kind = .rBrace)
    (c : State) :
    run opener.stop (c.push (.opened level opener)) (Markup.tokensOf body ++ [closer]) =
      .ok (c.add (.node kind
        ⟨opener.start, (opener.stop.advance (Markup.textOf body)).advance closer.text⟩
        (Markup.forest opener.stop body))) := by
  have hhead : (c.push (.opened level opener)).top.level.isHead = false := by
    rcases hlevel with ⟨rfl, -⟩ | ⟨rfl, -⟩ <;> rfl
  have hclose := State.closeHead_eq_self hhead
  obtain ⟨s', hrun, hreading, hs'⟩ := run_content hbody hchain opener.stop
    (s := c.push (.opened level opener)) ⟨rfl, by rwa [hclose]⟩ fun m hm k hk => by
      rw [State.takes, hclose, hhead]
      simp [State.push, Frame.opened]
  have hready : Ready s' := ⟨hreading, by rw [hs', hclose, State.level_addAll, hhead]⟩
  rw [run_append hrun, run_singleton,
    step_eq_readItem hready (State.takes_eq_false (by simp [hcloser, TokenKind.opensBlock])
      (by simp [hcloser, TokenKind.isSpace]) _), hs', hclose]
  rcases hlevel with ⟨rfl, rfl⟩ | ⟨rfl, rfl⟩ <;>
    simp [State.readItem, hcloser, State.push, Frame.opened, Frame.close, State.add, Placed.stop,
      Markup.textOf]

/-- Next to a head the braces and brackets of parameter blocks are told from those of content. -/
theorem readsBlock_curly {opener closer : Token} {body : List Markup} (hopener : opener.kind = .lBrace)
    (hcloser : closer.kind = .rBrace) (hbody : ∀ m ∈ body, Reads m) (hchain : Chained body) :
    ReadsBlock (.node .curlyBlock (.raw [opener] :: (body ++ [.raw [closer]]))) := by
  intro here s hs hhead
  have hstep : step s ⟨opener, here⟩ = .ok (s.push (.opened .block ⟨opener, here⟩)) := by
    simp [step, hs, State.readContent, hhead, hopener]
  have hrun := run_braces ⟨opener, here⟩ (.inr ⟨rfl, rfl⟩) hbody hchain hcloser s
  have htokens : Markup.tokensOf (.raw [opener] :: (body ++ [.raw [closer]])) =
      opener :: (Markup.tokensOf body ++ [closer]) := by simp
  rw [Markup.tokens_node, htokens, run_cons hstep]
  apply hrun.trans
  simp [Markup.textOf, textOf, Placed.stop, Markup.forest_append, Markup.text]

theorem readsBlock_square {opener closer : Token} {inner : List Token}
    (hopener : opener.kind = .lBracket) (hcloser : closer.kind = .rBracket)
    (hinner : EndsOutside 0 inner) :
    ReadsBlock (.node .squareBlock [.raw [opener], .items inner, .raw [closer]]) := by
  intro here s hs hhead
  have hstep : step s ⟨opener, here⟩ = .ok { s with reading := .items ⟨opener, here⟩ 0 [] } := by
    simp [step, hs, State.readContent, hhead, hopener]
  have htokens : Markup.tokensOf [.raw [opener], .items inner, .raw [closer]] =
      opener :: (inner ++ [closer]) := by simp
  rw [Markup.tokens_node, htokens, run_cons hstep, run_items s _ hinner hcloser]
  simp [squareBlock, Markup.parameterList, Markup.textOf, textOf, Markup.text, Placed.stop, collected]

theorem reads_group {opener closer : Token} {body : List Markup} (hopener : opener.kind = .lBrace)
    (hcloser : closer.kind = .rBrace) (hbody : ∀ m ∈ body, Reads m) (hchain : Chained body) :
    Reads (.node .group (.raw [opener] :: (body ++ [.raw [closer]]))) := by
  apply reads_of_add (by simp [NodeKind.tag])
  intro here s hs htakes
  have htake : s.takes opener.kind = false := htakes _ (by simp [Markup.firstKind?])
  have hstep : step s ⟨opener, here⟩ = .ok (s.closeHead.push (.opened .group ⟨opener, here⟩)) := by
    rw [step_eq_readItem hs htake]
    simp [State.readItem, hopener]
  have hrun := run_braces ⟨opener, here⟩ (.inl ⟨rfl, rfl⟩) hbody hchain hcloser s.closeHead
  have htokens : Markup.tokensOf (.raw [opener] :: (body ++ [.raw [closer]])) =
      opener :: (Markup.tokensOf body ++ [closer]) := by simp
  rw [htokens, run_cons hstep]
  apply hrun.trans
  simp [Markup.textOf, textOf, Placed.stop, Markup.forest_append, Markup.text]

theorem stop_addAll_forest {ms : List Markup} (hms : ∀ m ∈ ms, ∃ kind parts, m = .node kind parts)
    {here : Coord} {s : State} (hs : s.top.stop = here) :
    (s.addAll (Markup.forest here ms)).top.stop = here.advance (Markup.textOf ms) := by
  induction ms generalizing here s with
  | nil => simpa using hs
  | cons m ms ih =>
    obtain ⟨kind, parts, rfl⟩ := hms _ (List.mem_cons_self ..)
    rw [Markup.forest_cons, State.addAll_append, Markup.textOf_cons, Coord.advance_append]
    refine ih (fun m hm => hms m (List.mem_cons_of_mem _ hm)) ?_
    simp [State.add, Frame.add, Tree.span]

theorem reads_command {t : Token} {blocks : List Markup} (ht : t.kind = .command)
    (hmark : markOf? t = none) (hnode : ∀ m ∈ blocks, ∃ kind parts, m = .node kind parts)
    (hblocks : ∀ m ∈ blocks, ReadsBlock m) :
    Reads (.node (.command (String.ofList t.text.tail)) (.raw [t] :: blocks)) := by
  intro here s hs htakes
  have htake : s.takes t.kind = false := htakes _ (by simp [Markup.firstKind?])
  let head := s.closeHead.push (.opened (.command (String.ofList t.text.tail)) ⟨t, here⟩)
  have hstep : step s ⟨t, here⟩ = .ok head := by
    rw [step_eq_readItem hs htake]
    simp [State.readItem, ht, hmark, head]
  have hrun := run_blocks hblocks (here.advance t.text) (s := head) rfl rfl
  have hhead : head.top.stop = here.advance t.text := rfl
  have hstop := stop_addAll_forest hnode hhead
  generalize hread : head.addAll (Markup.forest (here.advance t.text) blocks) = read at hrun hstop
  have hlevel : read.top.level = .command (String.ofList t.text.tail) := by
    rw [← hread, State.level_addAll]
    rfl
  have hclose : read.closeHead = s.closeHead.add (.node (.command (String.ofList t.text.tail))
      ⟨here, (here.advance t.text).advance (Markup.textOf blocks)⟩
      (Markup.forest (here.advance t.text) blocks)) := by
    have hbelow : read.below = s.closeHead.top :: s.closeHead.below := by
      rw [← hread, State.below_addAll]
      rfl
    rw [State.closeHead_command hlevel hbelow, Frame.close, hstop, ← hread]
    simp [State.add, head, State.push, Frame.opened]
  refine ⟨read, ?_, ?_, ?_, fun k => ?_⟩
  · have htokens : Markup.tokensOf (.raw [t] :: blocks) = t :: Markup.tokensOf blocks := by simp
    rw [Markup.tokens_node, htokens, run_cons hstep, hrun]
  · rw [← hread]
    exact State.reading_addAll rfl _
  · rw [hclose]
    simp [Markup.textOf_cons, Markup.text, textOf]
  · rw [State.takes, hlevel, hclose]
    simp [Level.isHead, State.add, Frame.add, Tree.isWhitespace, Tree.kind, NodeKind.tag,
      Markup.takes]

theorem step_opening (here : Coord) {s : State} (hs : Ready s) {t : Token}
    (ht : markOf? t = some .opening) :
    step s ⟨t, here⟩ = .ok { s.closeHead with reading := .beforeName .opening ⟨t, here⟩ } := by
  have hkind := kind_of_markOf? ht
  rw [step_eq_readItem hs (State.takes_eq_false (by simp [hkind, TokenKind.opensBlock])
    (by simp [hkind, TokenKind.isSpace]) s)]
  simp [State.readItem, hkind, ht]

theorem step_closing (here : Coord) {s : State} (hs : Ready s) {name : String} {count : Nat}
    (hlevel : s.closeHead.top.level = .body name count) {t : Token}
    (ht : markOf? t = some .closing) :
    step s ⟨t, here⟩ = .ok { s.closeHead with reading := .beforeName .closing ⟨t, here⟩ } := by
  have hkind := kind_of_markOf? ht
  rw [step_eq_readItem hs (State.takes_eq_false (by simp [hkind, TokenKind.opensBlock])
    (by simp [hkind, TokenKind.isSpace]) s)]
  simp [State.readItem, hkind, ht, hlevel]

theorem named_closing {name : List Char} {count : Nat} {parent : Frame} {below : List Frame}
    (hlevel : s.top.level = .body (String.ofList name) count) (hbelow : s.below = parent :: below)
    (command brace : Placed) :
    s.named .closing command name brace = .ok ⟨.content,
      parent.add (s.top.close (.environment (String.ofList name) count) brace.stop), below⟩ := by
  simp [State.named, hlevel, hbelow]

theorem length_forest {ms : List Markup} (hms : ∀ m ∈ ms, ∃ kind parts, m = .node kind parts)
    (here : Coord) : (Markup.forest here ms).length = ms.length := by
  induction ms generalizing here with
  | nil => simp
  | cons m ms ih =>
    obtain ⟨kind, parts, rfl⟩ := hms _ (List.mem_cons_self ..)
    simp [ih fun m hm => hms m (List.mem_cons_of_mem _ hm)]

/-- Parameter blocks leave no white space behind that could take more. -/
theorem not_isWhitespace_of_mem_forest {ms : List Markup}
    (hms : ∀ m ∈ ms, ∃ kind parts, m = .node kind parts ∧ kind.tag ≠ .whitespace) {here : Coord}
    {t : Tree} (ht : t ∈ Markup.forest here ms) : t.isWhitespace = false := by
  induction ms generalizing here with
  | nil => simp at ht
  | cons m ms ih =>
    obtain ⟨kind, parts, rfl, hkind⟩ := hms _ (List.mem_cons_self ..)
    rw [Markup.forest_cons, Markup.trees_node, List.singleton_append, List.mem_cons] at ht
    rcases ht with rfl | ht
    · simpa [Tree.isWhitespace, Tree.kind] using hkind
    · exact ih (fun m hm => hms m (List.mem_cons_of_mem _ hm)) ht

theorem reads_environment {name : List Char} {opening closing : List Token}
    {blocks body : List Markup} (hopening : IsTag .opening name opening)
    (hplain : mathEnvironments.contains (String.ofList name) = false)
    (hblock : ∀ m ∈ blocks, ∃ kind parts, m = .node kind parts ∧ kind.tag ≠ .whitespace)
    (hblocks : ∀ m ∈ blocks, ReadsBlock m) (hbody : ∀ m ∈ body, Reads m) (hchain : Chained body)
    (hbegins : BeginsBody body) (hclosing : IsTag .closing name closing) :
    Reads (.node (.environment (String.ofList name) blocks.length)
      (.raw opening :: (blocks ++ (body ++ [.raw closing])))) := by
  apply reads_of_add (by simp [NodeKind.tag])
  intro here s hs htakes
  have hnode : ∀ m ∈ blocks, ∃ kind parts, m = .node kind parts := fun m hm =>
    let ⟨kind, parts, h, _⟩ := hblock m hm
    ⟨kind, parts, h⟩
  let afterOpening := here.advance (textOf opening)
  let head := s.closeHead.push ⟨.opening (String.ofList name), here, afterOpening, []⟩
  have hrun₁ : run here s opening = .ok head := by
    obtain ⟨command, brace, reading, hrun, hstart, hstop⟩ :=
      run_tag hopening fun t ht => step_opening here hs ht
    rw [hrun]
    simp only [State.named, hplain, Bool.false_eq_true, ite_false, hstart, hstop]
    rfl
  have hrun₂ := run_blocks hblocks afterOpening (s := head) rfl rfl
  generalize hread : head.addAll (Markup.forest afterOpening blocks) = read at hrun₂
  have hlevel : read.top.level = .opening (String.ofList name) := by
    rw [← hread, State.level_addAll]
    rfl
  have hparts : read.top.parts = (Markup.forest afterOpening blocks).reverse := by
    rw [← hread, State.parts_addAll]
    exact List.append_nil _
  have hclose := State.closeHead_opening hlevel
  have hready : Ready read := ⟨by rw [← hread]; exact State.reading_addAll rfl _, by rw [hclose]; rfl⟩
  obtain ⟨s₃, hrun₃, hreading₃, hclose₃⟩ := run_content hbody hchain
    (afterOpening.advance (Markup.textOf blocks)) hready fun m hm k hk => by
      have hlast : (Markup.forest afterOpening blocks).reverse.head?.any Tree.isWhitespace = false := by
        cases hlast : (Markup.forest afterOpening blocks).reverse.head? with
        | none => rfl
        | some t =>
          exact not_isWhitespace_of_mem_forest hblock
            (List.mem_reverse.mp (List.mem_of_mem_head? hlast))
      rw [State.takes, hclose, hbegins m hm k hk]
      simp only [hparts, hlast, Bool.and_false, Bool.or_self]
  rw [hclose] at hclose₃
  have hlevel₃ : s₃.closeHead.top.level = .body (String.ofList name) blocks.length := by
    rw [hclose₃, State.level_addAll, hparts, List.length_reverse, length_forest hnode]
  have hready₃ : Ready s₃ := ⟨hreading₃, by rw [hlevel₃]; rfl⟩
  obtain ⟨command, brace, reading, hrun₄, -, hstop⟩ :=
    run_tag hclosing fun t ht => step_closing
      ((afterOpening.advance (Markup.textOf blocks)).advance (Markup.textOf body)) hready₃ hlevel₃ ht
  have hbelow₃ : s₃.closeHead.below = s.closeHead.top :: s.closeHead.below := by
    rw [hclose₃, State.below_addAll, ← hread, State.below_addAll]
    rfl
  have htokens : Markup.tokensOf (.raw opening :: (blocks ++ (body ++ [.raw closing]))) =
      opening ++ (Markup.tokensOf blocks ++ (Markup.tokensOf body ++ closing)) := by simp
  rw [htokens, run_append hrun₁, run_append hrun₂]
  refine (run_append hrun₃ closing).trans (hrun₄.trans ?_)
  have hstart₃ : s₃.closeHead.top.start = here := by
    rw [hclose₃, State.start_addAll, ← hread]
    exact State.start_addAll _ _
  have hparts₃ : s₃.closeHead.top.parts =
      (Markup.forest (afterOpening.advance (Markup.textOf blocks)) body).reverse ++
        (Markup.forest afterOpening blocks).reverse := by
    rw [hclose₃, State.parts_addAll, hparts]
  rw [named_closing (s := { s₃.closeHead with reading }) hlevel₃ hbelow₃, Frame.close, hstart₃, hstop,
    hparts₃]
  simp [State.add, Markup.textOf, Markup.forest_append, Markup.text, afterOpening]

theorem reads_mathEnvironment {name : List Char} {opening content closing : List Token}
    (hopening : IsTag .opening name opening)
    (hmath : mathEnvironments.contains (String.ofList name) = true)
    (hend : IsFirstEnd name content closing) :
    Reads (.node (.math (.environment (String.ofList name)) (String.ofList (textOf content)))
      [.raw (opening ++ (content ++ closing))]) := by
  apply reads_of_add (by simp [NodeKind.tag])
  intro here s hs htakes
  obtain ⟨command, brace, reading, hrun, hstart, -⟩ :=
    run_tag hopening fun t ht => step_opening here hs ht
  have hnamed : State.named { s.closeHead with reading } .opening command name brace =
      .ok { s.closeHead with reading := .mathEnvironment command name [] } := by
    simp only [State.named, hmath, ite_true]
  rw [Markup.tokensOf_cons, Markup.tokensOf_nil, Markup.tokens_raw, List.append_nil,
    run_append (hrun.trans hnamed), run_mathEnvironment s.closeHead command hend, hstart]
  simp [Tree.leaf, Markup.textOf, Token.textOf]

theorem Produces.exists_eq_node {role : Role} {m : Markup} (h : Produces role m) :
    ∃ kind parts, m = .node kind parts := by
  cases h <;> exact ⟨_, _, rfl⟩

theorem Produces.exists_eq_block {m : Markup} (h : Produces .block m) :
    ∃ kind parts, m = .node kind parts ∧ kind.tag ≠ .whitespace := by
  cases h <;> exact ⟨_, _, rfl, by simp [NodeKind.tag]⟩

/-- What reading does with what the grammar produces in some role. -/
def ReadsAs (m : Markup) : Role → Prop
  | .document => True
  | .item => Reads m
  | .block => ReadsBlock m

theorem reads_of_produces {role : Role} {m : Markup} (h : Produces role m) : ReadsAs m role := by
  induction h with
  | document => trivial
  | space hne hrun => exact reads_space hne hrun
  | comment hkind =>
    exact reads_token (by simp [NodeKind.tag]) fun s here =>
      readItem_comment hkind s
  | symbol hkind =>
    exact reads_token (by simp [NodeKind.tag]) fun s here =>
      readItem_symbol hkind s
  | text hkind =>
    exact reads_token (by simp [NodeKind.tag]) fun s here =>
      readItem_text hkind s
  | group hopener hcloser _ hchain ih => exact reads_group hopener hcloser ih hchain
  | math hopener hcloser hinner => exact reads_math hopener hcloser hinner
  | command ht hmark hblocks ih =>
    exact reads_command ht hmark (fun m hm => (hblocks m hm).exists_eq_node) ih
  | environment hopening hplain hblocks _ hchain hbegins hclosing ihblocks ihbody =>
    exact reads_environment hopening hplain (fun m hm => (hblocks m hm).exists_eq_block) ihblocks
      ihbody hchain hbegins hclosing
  | mathEnvironment hopening hmath hend => exact reads_mathEnvironment hopening hmath hend
  | curlyBlock hopener hcloser _ hchain ih => exact readsBlock_curly hopener hcloser ih hchain
  | squareBlock hopener hcloser hinner => exact readsBlock_square hopener hcloser hinner

end Productions

/-- A text whose tokens are those of some content is read as that content. -/
theorem readFrom_of_isContent {ms : List Markup} (hms : IsContent ms) {text : List Char}
    (htokens : Markup.tokensOf ms = tokenize text) (origin : Coord) :
    readFrom origin text = .ok (Markup.forest origin ms) := by
  have hready : Ready (State.initial origin) := ⟨rfl, rfl⟩
  obtain ⟨s, hrun, hreading, hclose⟩ := run_content (fun m hm => reads_of_produces (hms.1 m hm))
    hms.2 origin hready fun m _ kind _ => by
      simp [State.takes, State.initial, State.closeHead, Level.isHead]
  rw [readFrom_eq, ← htokens, hrun]
  simp only [Except.bind, State.finish, hreading, hclose, State.parts_addAll, State.level_addAll]
  simp [State.initial, State.closeHead]

end Grammar

end TexAnchor
