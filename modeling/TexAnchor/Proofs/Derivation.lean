import TexAnchor.Proofs.Reading

/-! # What is read is produced by the grammar

The stack of open constructs forgets the tokens it was read from.  A `Layer` is an open construct
that still has them; `Layer.frame` forgets them, and `consumed` is all that a stack of layers was
read from.

Every state that the reader gets into stands on layers whose finished parts are what the grammar
produces (`Stands`), and what it has collected besides is the beginning of the next part
(`Pending`).  One token preserves this (`tracked_step`), so a text that is read consists of what the
grammar produces (`exists_isContent_of_readFrom`).  Together with the other direction the trees of a
text are exactly those of its derivations (`readFrom_eq_ok_iff`). -/

namespace TexAnchor.Grammar

open Text (Coord)
open Token (textOf)

/-- An open construct with its tokens: what it is, what opened it, and its finished parts. -/
structure Layer where
  level : Level
  opener : List Token
  parts : List Markup

namespace Layer

/-- The construct with one more finished part. -/
def add (l : Layer) (m : Markup) : Layer := { l with parts := l.parts ++ [m] }

/-- The tokens of the construct so far. -/
def tokens (l : Layer) : List Token := l.opener ++ Markup.tokensOf l.parts

/-- The construct as it is kept by the reader when it starts at `start`. -/
def frame (start : Coord) (l : Layer) : Frame :=
  ⟨l.level, start, start.advance (textOf l.tokens),
    (Markup.forest (start.advance (textOf l.opener)) l.parts).reverse⟩

/-- The construct was opened, and its parts so far may stand in it. -/
inductive Valid : Layer → Prop
  | root {parts : List Markup} : IsContent parts → Valid ⟨.root, [], parts⟩
  | group {t : Token} {parts : List Markup} : t.kind = .lBrace → IsContent parts →
    Valid ⟨.group, [t], parts⟩
  | block {t : Token} {parts : List Markup} : t.kind = .lBrace → IsContent parts →
    Valid ⟨.block, [t], parts⟩
  | command {t : Token} {parts : List Markup} : t.kind = .command → markOf? t = none →
    (∀ m ∈ parts, Produces .block m) → Valid ⟨.command (String.ofList t.text.tail), [t], parts⟩
  | opening {name : List Char} {tag : List Token} {parts : List Markup} :
    IsTag .opening name tag → mathEnvironments.contains (String.ofList name) = false →
    (∀ m ∈ parts, Produces .block m) → Valid ⟨.opening (String.ofList name), tag, parts⟩
  | body {name : List Char} {tag : List Token} {blocks body : List Markup} :
    IsTag .opening name tag → mathEnvironments.contains (String.ofList name) = false →
    (∀ m ∈ blocks, Produces .block m) → IsContent body → BeginsBody body →
    Valid ⟨.body (String.ofList name) blocks.length, tag, blocks ++ body⟩

/-- An item that begins with a token of this kind may be the next part: nothing before it takes that
token. -/
structure Admits (l : Layer) (kind : TokenKind) : Prop where
  not_head : l.level.isHead = false
  not_taken : ∀ m ∈ l.parts.getLast?, m.takes kind = false
  not_block : ∀ name count, l.level = .body name count → l.parts.length = count →
    kind.opensBlock = false

end Layer

/-! ### Parts of constructs -/

theorem isContent_concat {ms : List Markup} {m : Markup} :
    IsContent (ms ++ [m]) ↔ IsContent ms ∧ Produces .item m ∧ ∀ l ∈ ms.getLast?, Follows l m := by
  unfold IsContent Chained
  rw [List.isChain_append]
  simp only [List.mem_append, List.mem_singleton, List.head?_cons, Option.mem_some_iff]
  constructor
  · rintro ⟨hms, hchain, -, hlast⟩
    exact ⟨⟨fun m' hm' => hms m' (.inl hm'), hchain⟩, hms m (.inr rfl), fun l hl => hlast l hl m rfl⟩
  · rintro ⟨⟨hms, hchain⟩, hm, hlast⟩
    refine ⟨?_, hchain, List.IsChain.singleton m, fun l hl m' hm' => hm' ▸ hlast l hl⟩
    rintro m' (hm' | rfl)
    exacts [hms m' hm', hm]

theorem beginsBody_concat {ms : List Markup} {m : Markup} (h : BeginsBody ms)
    (hm : ms = [] → ∀ kind ∈ m.firstKind?, kind.opensBlock = false) : BeginsBody (ms ++ [m]) := by
  cases ms with
  | nil =>
    intro m' hm'
    obtain rfl : m = m' := by simpa using hm'
    exact hm rfl
  | cons m₁ ms => exact h

theorem Produces.takes_block {m : Markup} (h : Produces .block m) (kind : TokenKind) :
    m.takes kind = false := by
  obtain ⟨kind', parts, rfl, -⟩ := h.exists_eq_block
  cases h <;> rfl

namespace Layer

theorem Valid.length_le {l : Layer} (h : l.Valid) {name : String} {count : Nat}
    (hlevel : l.level = .body name count) : count ≤ l.parts.length := by
  cases h with
  | body _ _ _ _ _ =>
    simp only [Level.body.injEq] at hlevel
    simp [← hlevel.2]
  | _ => cases hlevel

theorem Valid.add_item {l : Layer} (h : l.Valid) {m : Markup} (hm : Produces .item m)
    (hhead : l.level.isHead = false) (hadmits : ∀ kind ∈ m.firstKind?, l.Admits kind) :
    (l.add m).Valid := by
  have hfollows : ∀ last ∈ l.parts.getLast?, Follows last m := fun last hlast kind hkind =>
    (hadmits kind hkind).not_taken last hlast
  cases h with
  | root hparts => exact .root (isContent_concat.mpr ⟨hparts, hm, hfollows⟩)
  | group ht hparts => exact .group ht (isContent_concat.mpr ⟨hparts, hm, hfollows⟩)
  | block ht hparts => exact .block ht (isContent_concat.mpr ⟨hparts, hm, hfollows⟩)
  | command => cases hhead
  | opening => cases hhead
  | @body name tag blocks body htag hplain hblocks hbody hbegins =>
    have hbody' : IsContent (body ++ [m]) := by
      refine isContent_concat.mpr ⟨hbody, hm, fun last hlast => hfollows last ?_⟩
      rw [List.getLast?_append]
      simp [Option.mem_def.mp hlast]
    have hbegins' : BeginsBody (body ++ [m]) := by
      apply beginsBody_concat hbegins
      intro hnil kind hkind
      exact (hadmits kind hkind).not_block _ _ rfl (by simp [hnil])
    have hvalid := Valid.body htag hplain hblocks hbody' hbegins'
    rwa [← List.append_assoc] at hvalid

theorem Valid.add_block {l : Layer} (h : l.Valid) {m : Markup} (hm : Produces .block m)
    (hhead : l.level.isHead = true) : (l.add m).Valid := by
  have hparts {parts : List Markup} (hparts : ∀ m ∈ parts, Produces .block m) :
      ∀ m' ∈ parts ++ [m], Produces .block m' := by
    intro m' hm'
    rcases List.mem_append.mp hm' with hm' | hm'
    · exact hparts m' hm'
    · exact List.mem_singleton.mp hm' ▸ hm
  cases h with
  | command ht hmark hblocks => exact .command ht hmark (hparts hblocks)
  | opening htag hplain hblocks => exact .opening htag hplain (hparts hblocks)
  | _ => cases hhead

theorem Valid.of_add {l : Layer} {m : Markup} (h : (l.add m).Valid) (hblock : ¬ Produces .block m) :
    l.Valid ∧ l.level.isHead = false ∧ ∀ kind ∈ m.firstKind?, l.Admits kind := by
  obtain ⟨level, opener, init⟩ := l
  have hadmits (hhead : level.isHead = false) (hbody : ∀ name count, level ≠ .body name count)
      (hcontent : IsContent (init ++ [m])) :
      ∀ kind ∈ m.firstKind?, Admits ⟨level, opener, init⟩ kind := fun kind hkind =>
    ⟨hhead, fun last hlast => (isContent_concat.mp hcontent).2.2 last hlast kind hkind,
      fun name count hlevel => absurd hlevel (hbody name count)⟩
  generalize hparts : (add ⟨level, opener, init⟩ m) = l at h
  cases h with
  | root h =>
    cases hparts
    exact ⟨.root (isContent_concat.mp h).1, rfl, hadmits rfl (by simp) h⟩
  | group ht h =>
    cases hparts
    exact ⟨.group ht (isContent_concat.mp h).1, rfl, hadmits rfl (by simp) h⟩
  | block ht h =>
    cases hparts
    exact ⟨.block ht (isContent_concat.mp h).1, rfl, hadmits rfl (by simp) h⟩
  | command _ _ hblocks =>
    cases hparts
    exact absurd (hblocks m (by simp)) hblock
  | opening _ _ hblocks =>
    cases hparts
    exact absurd (hblocks m (by simp)) hblock
  | @body name tag blocks body htag hplain hblocks hbody hbegins =>
    simp only [add, mk.injEq] at hparts
    obtain ⟨rfl, rfl, hparts⟩ := hparts
    rcases List.eq_nil_or_concat body with rfl | ⟨body, last, rfl⟩
    · have hmem : m ∈ blocks := by
        rw [List.append_nil] at hparts
        simp [← hparts]
      exact absurd (hblocks m hmem) hblock
    · have heq : init ++ [m] = (blocks ++ body) ++ [last] := by simpa using hparts
      obtain ⟨rfl, hlast⟩ := List.append_inj' heq rfl
      obtain rfl : m = last := by simpa using hlast
      obtain ⟨hinit, -, hfollows⟩ := isContent_concat.mp (by simpa using hbody)
      have hbegins' : BeginsBody body := by
        cases body with
        | nil => simp [BeginsBody]
        | cons m₁ body => exact fun m' hm' => hbegins m' (by simpa using hm')
      refine ⟨.body htag hplain hblocks hinit hbegins', rfl, fun kind hkind => ⟨rfl, ?_, ?_⟩⟩
      · intro last hlast
        rw [List.getLast?_append] at hlast
        cases hbody' : body.getLast? with
        | some m' =>
          obtain rfl : m' = last := by simpa [hbody'] using hlast
          exact hfollows m' hbody' kind hkind
        | none =>
          have hmem : last ∈ blocks := List.mem_of_getLast? (by simpa [hbody'] using hlast)
          exact (hblocks last hmem).takes_block kind
      · intro name' count hlevel hlength
        obtain rfl : body = [] := by
          simp only [Level.body.injEq] at hlevel
          simpa [← hlevel.2] using hlength
        exact hbegins m (by simp) kind hkind

/-- A token that neither opens a block nor continues white space is taken by nothing. -/
theorem admits_of_plain {l : Layer} (hhead : l.level.isHead = false) {kind : TokenKind}
    (hblock : kind.opensBlock = false) (hspace : kind.isSpace = false) : l.Admits kind := by
  refine ⟨hhead, fun m _ => ?_, fun _ _ _ _ => hblock⟩
  unfold Markup.takes
  split
  exacts [hspace, hblock, rfl]

/-- An innermost construct between two parts: a head, or one that admits whatever is no space. -/
def Rested (l : Layer) : Prop :=
  l.level.isHead = true ∨ ∀ kind : TokenKind, kind.isSpace = false → l.Admits kind

theorem admits_add {l : Layer} (h : l.Valid) (hhead : l.level.isHead = false) {m : Markup}
    {kind : TokenKind} (hm : m.takes kind = false) : (l.add m).Admits kind := by
  refine ⟨hhead, fun m' hm' => ?_, fun name count hlevel hlength => ?_⟩
  · obtain rfl : m = m' := by simpa [add] using hm'
    exact hm
  · have hle := h.length_le hlevel
    simp only [add, List.length_append, List.length_singleton] at hlength
    omega

theorem rested_add {l : Layer} (h : l.Valid) (hhead : l.level.isHead = false) {m : Markup}
    (hm : ∀ kind : TokenKind, kind.isSpace = false → m.takes kind = false) : (l.add m).Rested :=
  .inr fun kind hkind => admits_add h hhead (hm kind hkind)

theorem rested_empty {l : Layer} (hlevel : l.level = .group ∨ l.level = .block)
    (hparts : l.parts = []) : l.Rested := by
  refine .inr fun kind _ => ⟨?_, by simp [hparts], ?_⟩
  · rcases hlevel with h | h <;> rw [h] <;> rfl
  · intro name count hbody
    rcases hlevel with h | h <;> simp [h] at hbody

end Layer

/-! ### Stacks of layers -/

/-- The tokens that a stack of constructs was read from, innermost first. -/
def consumed : List Layer → List Token
  | [] => []
  | l :: below => consumed below ++ l.tokens

/-- The place that a stack has been read to. -/
def placeAfter (origin : Coord) (layers : List Layer) : Coord :=
  origin.advance (textOf (consumed layers))

/-- The stack as it is kept by the reader. -/
def frames (origin : Coord) : List Layer → List Frame
  | [] => []
  | l :: below => l.frame (placeAfter origin below) :: frames origin below

/-- Constructs that are open inside each other, innermost first: blocks next to heads, everything
else where it is admitted. -/
inductive Nested : List Layer → Prop
  | root {l : Layer} : l.Valid → l.level = .root → Nested [l]
  | block {l parent : Layer} {below : List Layer} : l.Valid → l.level = .block →
    parent.level.isHead = true → Nested (parent :: below) → Nested (l :: parent :: below)
  | item {l parent : Layer} {below : List Layer} : l.Valid → l.level ≠ .root → l.level ≠ .block →
    (∀ t ∈ l.opener.head?, parent.Admits t.kind) → Nested (parent :: below) →
    Nested (l :: parent :: below)

/-- The reader's stack is that of some layers. -/
structure Stands (origin : Coord) (top : Frame) (below : List Frame) (l : Layer)
    (under : List Layer) : Prop where
  nested : Nested (l :: under)
  top_eq : top = l.frame (placeAfter origin under)
  below_eq : below = frames origin under

theorem Nested.valid {l : Layer} {below : List Layer} (h : Nested (l :: below)) : l.Valid := by
  cases h <;> assumption

theorem placeAfter_cons (origin : Coord) (l : Layer) (below : List Layer) :
    placeAfter origin (l :: below) = (placeAfter origin below).advance (textOf l.tokens) := by
  simp [placeAfter, consumed]

/-- The innermost construct may change as long as it was opened in the same way. -/
theorem Nested.replace_top {l l' : Layer} {below : List Layer} (h : Nested (l :: below))
    (hvalid : l'.Valid) (hopener : l'.opener = l.opener)
    (hlevel : l'.level = l.level ∨ l.level ≠ .root ∧ l.level ≠ .block ∧ l'.level ≠ .root ∧
      l'.level ≠ .block) : Nested (l' :: below) := by
  cases h with
  | root _ hroot =>
    refine .root hvalid ?_
    rcases hlevel with h | ⟨h, -⟩
    · rw [h, hroot]
    · exact absurd hroot h
  | block _ hblock hhead hrest =>
    refine .block hvalid ?_ hhead hrest
    rcases hlevel with h | ⟨-, h, -⟩
    · rw [h, hblock]
    · exact absurd hblock h
  | item _ hroot hblock hadmits hrest =>
    refine .item hvalid ?_ ?_ (by rwa [hopener]) hrest
    · rcases hlevel with h | ⟨-, -, h, -⟩
      exacts [h ▸ hroot, h]
    · rcases hlevel with h | ⟨-, -, -, h⟩
      exacts [h ▸ hblock, h]

theorem tokens_add (l : Layer) (m : Markup) : (l.add m).tokens = l.tokens ++ m.tokens := by
  simp [Layer.tokens, Layer.add]

theorem frame_add {l : Layer} {m : Markup} (start : Coord) (tree : Tree)
    (htree : m.trees (start.advance (textOf l.tokens)) = [tree])
    (hstop : tree.span.stop = (start.advance (textOf l.tokens)).advance m.text) :
    (l.add m).frame start = (l.frame start).add tree := by
  have hforest : Markup.forest (start.advance (textOf l.opener)) (l.parts ++ [m]) =
      Markup.forest (start.advance (textOf l.opener)) l.parts ++ [tree] := by
    have hplace : (start.advance (textOf l.opener)).advance (Markup.textOf l.parts) =
        start.advance (textOf l.tokens) := by
      simp [Layer.tokens, Markup.textOf]
    rw [Markup.forest_append, hplace]
    simp [htree]
  rw [Layer.frame, tokens_add]
  simp [Layer.add, hforest, Layer.frame, Frame.add, hstop, Markup.text]

/-- A node's tree is what it is read as where its layer's tokens end. -/
theorem Stands.add {origin : Coord} {top : Frame} {below : List Frame} {l : Layer}
    {under : List Layer} (h : Stands origin top below l under) {kind : NodeKind}
    {parts : List Markup} (hvalid : (l.add (.node kind parts)).Valid) {tree : Tree}
    (htree : (Markup.node kind parts).trees (placeAfter origin (l :: under)) = [tree]) :
    Stands origin (top.add tree) below (l.add (.node kind parts)) under := by
  refine ⟨h.nested.replace_top hvalid rfl (.inl rfl), ?_, h.below_eq⟩
  rw [placeAfter_cons] at htree
  rw [h.top_eq, frame_add _ _ htree]
  rw [Markup.trees_node, List.singleton_inj] at htree
  rw [← htree, Markup.text_node]
  rfl

theorem Stands.pop {origin : Coord} {top parent : Frame} {below : List Frame} {l : Layer}
    {under : List Layer} (h : Stands origin top (parent :: below) l under) :
    ∃ p under', under = p :: under' ∧ Stands origin parent below p under' := by
  cases under with
  | nil => exact absurd h.below_eq (by simp [frames])
  | cons p under' =>
    obtain ⟨hparent, hbelow⟩ := List.cons.inj h.below_eq
    refine ⟨p, under', rfl, ?_, hparent, hbelow⟩
    cases h.nested <;> assumption

theorem frame_close (l : Layer) (start stop : Coord) (kind : NodeKind) :
    (l.frame start).close kind stop = .node kind ⟨start, stop⟩
      (Markup.forest (start.advance (textOf l.opener)) l.parts) := by
  simp [Layer.frame, Frame.close]

/-! ### Leaving a head behind -/

/-- What stands when no parameter block follows: a token that opens none is admitted. -/
theorem Stands.closeHead {origin : Coord} {s : State} {l : Layer} {under : List Layer}
    (h : Stands origin s.top s.below l under) (hreading : s.reading = .content)
    (hrested : l.Rested) :
    ∃ l' under', Stands origin s.closeHead.top s.closeHead.below l' under' ∧
      s.closeHead.reading = .content ∧ consumed (l' :: under') = consumed (l :: under) ∧
      l'.level.isHead = false ∧
      ∀ kind : TokenKind, (l.level.isHead = true → kind.opensBlock = false) →
        kind.isSpace = false → l'.Admits kind := by
  have hlevel : s.top.level = l.level := by
    rw [h.top_eq]
    rfl
  generalize hl : l = l₀ at hlevel hrested
  cases h.nested.valid with
  | @command t blocks ht hmark hblocks =>
    subst hl
    cases h.nested with
    | root _ hroot => cases hroot
    | block _ hblock => cases hblock
    | @item _ parent below _ _ _ hadmits hrest =>
      have hbelow : s.below = parent.frame (placeAfter origin below) :: frames origin below :=
        h.below_eq
      let m := Markup.node (.command (String.ofList t.text.tail)) (.raw [t] :: blocks)
      have hm : Produces .item m := .command ht hmark hblocks
      have hfirst : ∀ kind ∈ m.firstKind?, parent.Admits kind := by
        intro kind hkind
        obtain rfl : t.kind = kind := by simpa [m, Markup.firstKind?] using hkind
        exact hadmits t rfl
      have hhead : parent.level.isHead = false :=
        (hfirst t.kind (by simp [m, Markup.firstKind?])).not_head
      have hvalid := hrest.valid
      have hparent : Stands origin (parent.frame (placeAfter origin below)) (frames origin below)
          parent below := ⟨hrest, rfl, rfl⟩
      rw [State.closeHead_command hlevel hbelow]
      refine ⟨parent.add m, below, hparent.add (hvalid.add_item hm hhead hfirst) ?_, rfl, ?_, hhead, ?_⟩
      · rw [h.top_eq, frame_close, Markup.trees_node]
        simp [Layer.frame, Layer.tokens, Markup.textOf, Markup.text]
      · simp only [consumed, tokens_add]
        simp [m, Layer.tokens]
      · exact fun kind hkind _ => Layer.admits_add hvalid hhead (hkind rfl)
  | @opening name tag blocks htag hplain hblocks =>
    subst hl
    rw [State.closeHead_opening hlevel]
    have hcount : s.top.parts.length = blocks.length := by
      rw [h.top_eq, Layer.frame, List.length_reverse,
        length_forest fun m hm => (hblocks m hm).exists_eq_node]
    have hvalid : Layer.Valid ⟨.body (String.ofList name) blocks.length, tag, blocks⟩ := by
      have : Layer.Valid ⟨.body (String.ofList name) blocks.length, tag, blocks ++ []⟩ :=
        .body htag hplain hblocks isContent_nil (by simp [BeginsBody])
      rwa [List.append_nil] at this
    refine ⟨⟨.body (String.ofList name) blocks.length, tag, blocks⟩, under, ⟨?_, ?_, h.below_eq⟩,
      hreading, rfl, rfl, fun kind hkind _ => ⟨rfl, fun m hm => ?_, fun _ _ _ _ => hkind rfl⟩⟩
    · exact h.nested.replace_top hvalid rfl (.inr (by simp))
    · rw [hcount, h.top_eq]
      rfl
    · exact (hblocks m (List.mem_of_getLast? hm)).takes_block kind
  | _ =>
    subst hl
    have hclose : s.closeHead = s := State.closeHead_eq_self (by rw [hlevel]; rfl)
    rw [hclose]
    refine ⟨_, under, h, hreading, rfl, rfl, fun kind _ hspace => ?_⟩
    exact hrested.resolve_left (by simp [Level.isHead]) kind hspace

/-! ### What one token preserves -/

/-- No tag closes the environment inside the tokens. -/
def Unended (name : List Char) (tokens : List Token) : Prop :=
  ∀ u t v, tokens = u ++ t :: v → t.kind = .rBrace → contentBeforeEnd? name u = none

/-- What has been collected besides the parts of the open constructs: the beginning of a part that
starts at `place` inside the innermost one. -/
inductive Pending (l : Layer) (place : Coord) : Reading → List Token → Prop
  | content : l.Rested → Pending l place .content []
  | math {opener : Placed} (read : List Token) : opener.start = place → l.level.isHead = false →
    isMathOpener opener.kind = true → (∀ t ∈ read, t.kind ≠ (mathDelimiter opener.kind).1) →
    Pending l place (.math opener read) (opener.toToken :: read.reverse)
  | items {opener : Placed} {depth : Nat} (read : List Token) : opener.start = place →
    l.level.isHead = true → opener.kind = .lBracket →
    (∀ later, EndsOutside depth later → EndsOutside 0 (read.reverse ++ later)) →
    Pending l place (.items opener depth read) (opener.toToken :: read.reverse)
  | beforeName {mark : EnvironmentMark} {command : Placed} : command.start = place →
    l.level.isHead = false → markOf? command.toToken = some mark →
    Pending l place (.beforeName mark command) [command.toToken]
  | name {mark : EnvironmentMark} {command brace : Placed} (read : List Token) :
    command.start = place → l.level.isHead = false → markOf? command.toToken = some mark →
    brace.kind = .lBrace → (∀ t ∈ read, t.kind ≠ .rBrace) →
    Pending l place (.name mark command brace read)
      (command.toToken :: brace.toToken :: read.reverse)
  | mathEnvironment {command : Placed} {name : List Char} {tag : List Token} (read : List Token) :
    command.start = place → l.level.isHead = false → IsTag .opening name tag →
    mathEnvironments.contains (String.ofList name) = true → Unended name read.reverse →
    Pending l place (.mathEnvironment command name read) (tag ++ read.reverse)

/-- The state is one that the tokens lead to: it stands on layers, and together with what is pending
these are all the tokens. -/
def Tracked (origin : Coord) (s : State) (tokens : List Token) : Prop :=
  ∃ l under pending, Stands origin s.top s.below l under ∧
    Pending l (placeAfter origin (l :: under)) s.reading pending ∧
    tokens = consumed (l :: under) ++ pending

section Tracking

variable {origin : Coord} {s s' : State} {top : Frame} {below : List Frame} {l : Layer}
  {under : List Layer} {t : Placed}

theorem consumed_add (l : Layer) (m : Markup) (under : List Layer) :
    consumed (l.add m :: under) = consumed (l :: under) ++ m.tokens := by
  simp [consumed, tokens_add]

theorem tracked_add_item (h : Stands origin top below l under) {kind : NodeKind}
    {parts : List Markup} (hm : Produces .item (.node kind parts)) (hhead : l.level.isHead = false)
    (hadmits : ∀ k ∈ (Markup.node kind parts).firstKind?, l.Admits k) (hkind : kind.tag ≠ .command)
    {tree : Tree}
    (htree : (Markup.node kind parts).trees (placeAfter origin (l :: under)) = [tree])
    {tokens : List Token} (htokens : tokens = consumed (l :: under) ++ Markup.tokensOf parts) :
    Tracked origin ⟨.content, top.add tree, below⟩ tokens := by
  have hvalid := h.nested.valid
  refine ⟨_, under, [], h.add (hvalid.add_item hm hhead hadmits) htree, .content ?_, ?_⟩
  · apply Layer.rested_add hvalid hhead
    intro k hk
    cases kind <;> simp_all [Markup.takes, NodeKind.tag]
  · simp [consumed_add, htokens]

theorem tracked_add_block (h : Stands origin top below l under) {kind : NodeKind}
    {parts : List Markup} (hm : Produces .block (.node kind parts)) (hhead : l.level.isHead = true)
    {tree : Tree}
    (htree : (Markup.node kind parts).trees (placeAfter origin (l :: under)) = [tree])
    {tokens : List Token} (htokens : tokens = consumed (l :: under) ++ Markup.tokensOf parts) :
    Tracked origin ⟨.content, top.add tree, below⟩ tokens := by
  refine ⟨_, under, [], h.add (h.nested.valid.add_block hm hhead) htree, .content (.inl hhead), ?_⟩
  simp [consumed_add, htokens]

theorem tracked_add_token (h : Stands origin top below l under) {kind : NodeKind} {t : Placed}
    (hm : Produces .item (.node kind [.raw [t.toToken]])) (hadmits : l.Admits t.kind)
    (hkind : kind.tag ≠ .command) (hstart : t.start = placeAfter origin (l :: under)) :
    Tracked origin ⟨.content, top.add (Tree.leaf kind t.start t.stop), below⟩
      (consumed (l :: under) ++ [t.toToken]) := by
  refine tracked_add_item h hm hadmits.not_head (fun k hk => ?_) hkind ?_ (by simp)
  · obtain rfl : t.kind = k := by simpa [Markup.firstKind?] using hk
    exact hadmits
  · simp [Tree.leaf, hstart, Placed.stop, Markup.textOf, textOf]

theorem tracked_push (h : Stands origin top below l under) {level : Level}
    (hvalid : Layer.Valid ⟨level, [t.toToken], []⟩) (hadmits : l.Admits t.kind)
    (hlevel : level ≠ .root ∧ level ≠ .block)
    (hrested : Layer.Rested ⟨level, [t.toToken], []⟩)
    (hstart : t.start = placeAfter origin (l :: under)) :
    Tracked origin ⟨.content, .opened level t, top :: below⟩
      (consumed (l :: under) ++ [t.toToken]) := by
  refine ⟨⟨level, [t.toToken], []⟩, l :: under, [], ⟨?_, ?_, ?_⟩, .content hrested, ?_⟩
  · refine .item hvalid hlevel.1 hlevel.2 (fun t' ht' => ?_) h.nested
    obtain rfl : t.toToken = t' := by simpa using ht'
    exact hadmits
  · simp [Frame.opened, Layer.frame, hstart, Layer.tokens, Placed.stop, textOf]
  · rw [frames, h.top_eq, h.below_eq]
  · simp [consumed, Layer.tokens]

theorem trees_close (l : Layer) (start : Coord) (kind : NodeKind) (closing : List Token) :
    (Markup.node kind (.raw l.opener :: (l.parts ++ [.raw closing]))).trees start =
      [(l.frame start).close kind ((start.advance (textOf l.tokens)).advance (textOf closing))] := by
  rw [frame_close]
  simp [Layer.tokens, Markup.textOf, Markup.forest_append, Markup.text]

theorem Layer.Valid.produces {l : Layer} (h : l.Valid) {m : Markup} (hm : m ∈ l.parts) :
    ∃ role, Produces role m := by
  cases h with
  | root h => exact ⟨.item, h.1 m hm⟩
  | group _ h => exact ⟨.item, h.1 m hm⟩
  | block _ h => exact ⟨.item, h.1 m hm⟩
  | command _ _ h => exact ⟨.block, h m hm⟩
  | opening _ _ h => exact ⟨.block, h m hm⟩
  | body _ _ hblocks hbody =>
    rcases List.mem_append.mp hm with hm | hm
    exacts [⟨.block, hblocks m hm⟩, ⟨.item, hbody.1 m hm⟩]

theorem tracked_addSpace_merge (h : Stands origin s.top s.below l under)
    {init : List Markup} {newlines : Nat} {parts : List Markup}
    (hparts : l.parts = init ++ [.node (.whitespace newlines) parts]) (ht : t.kind.isSpace = true)
    (hstart : t.start = placeAfter origin (l :: under)) (hreading : s.reading = .content) :
    Tracked origin (s.addSpace t) (consumed (l :: under) ++ [t.toToken]) := by
  obtain ⟨role, hproduces⟩ := h.nested.valid.produces (m := .node (.whitespace newlines) parts)
    (by simp [hparts])
  cases hproduces with
  | @space run hne hrun =>
    obtain ⟨level, opener, _⟩ := l
    subst hparts
    have hspaces : ∀ t' ∈ run ++ [t.toToken], t'.kind.isSpace = true := by
      intro t' ht'
      rcases List.mem_append.mp ht' with ht' | ht'
      · exact hrun t' ht'
      · rwa [List.mem_singleton.mp ht']
    let m := Markup.node (.whitespace (run.countP (·.kind = .newline))) [.raw run]
    let m' := Markup.node (.whitespace ((run ++ [t.toToken]).countP (·.kind = .newline)))
      [.raw (run ++ [t.toToken])]
    let before : Layer := ⟨level, opener, init⟩
    have hm' : Produces .item m' := .space (by simp) hspaces
    obtain ⟨hvalid, hhead, hadmits⟩ := Layer.Valid.of_add (l := before) h.nested.valid (m := m) (by
      intro hblock
      obtain ⟨kind, parts, heq, hkind⟩ := hblock.exists_eq_block
      obtain ⟨rfl, -⟩ := Markup.node.inj heq
      exact hkind rfl)
    have hfirst : m'.firstKind? = m.firstKind? := by
      obtain ⟨t₁, run, rfl⟩ := List.exists_cons_of_ne_nil hne
      simp [m, m', Markup.firstKind?]
    have hbefore : Stands origin (before.frame (placeAfter origin under)) s.below before under :=
      ⟨h.nested.replace_top hvalid rfl (.inl rfl), rfl, h.below_eq⟩
    let place := placeAfter origin (before :: under)
    have htop : s = ⟨.content, (before.frame (placeAfter origin under)).add
        (Tree.leaf (.whitespace (run.countP (·.kind = .newline))) place
          (place.advance (textOf run))), s.below⟩ := by
      have hframe := frame_add (l := before) (m := m) (placeAfter origin under)
        (Tree.leaf (.whitespace (run.countP (·.kind = .newline))) place
          (place.advance (textOf run))) (by
          simp [m, Tree.leaf, Markup.textOf, place, placeAfter_cons]) (by
          simp [m, Tree.leaf, Tree.span, Markup.textOf, place, placeAfter_cons])
      rw [← hframe, ← hreading]
      obtain ⟨reading, top, below⟩ := s
      exact congrArg (State.mk reading · below) h.top_eq
    rw [htop]
    have hplace : t.stop = place.advance (textOf (run ++ [t.toToken])) := by
      rw [Placed.stop, hstart]
      simp [place, placeAfter_cons, Layer.tokens, before, textOf]
    have htree : m'.trees place = [Tree.leaf (.whitespace ((run.countP (·.kind = .newline)) +
        if t.kind = .newline then 1 else 0)) place t.stop] := by
      rw [hplace]
      simp [m', Tree.leaf, Markup.textOf, List.countP_append, List.countP_cons]
    have hmerged := tracked_add_item hbefore hm' hhead (fun k hk => hadmits k (by rwa [← hfirst]))
      (by simp [NodeKind.tag]) htree rfl
    have htokens : consumed (⟨level, opener, init ++ [m]⟩ :: under) ++ [t.toToken] =
        consumed (before :: under) ++ Markup.tokensOf [.raw (run ++ [t.toToken])] := by
      rw [show (⟨level, opener, init ++ [m]⟩ : Layer) = before.add m from rfl, consumed_add]
      simp [m]
    rw [htokens]
    exact hmerged

theorem tracked_addSpace (h : Stands origin s.top s.below l under)
    (hhead : l.level.isHead = false) (ht : t.kind.isSpace = true)
    (hstart : t.start = placeAfter origin (l :: under)) (hreading : s.reading = .content) :
    Tracked origin (s.addSpace t) (consumed (l :: under) ++ [t.toToken]) := by
  have hblock : t.kind.opensBlock = false := by
    cases hkind : t.kind <;> simp_all [TokenKind.isSpace, TokenKind.opensBlock]
  have hadd (hlast : ∀ m ∈ l.parts.getLast?, m.takes t.kind = false)
      (htree : s.top.parts.head?.any Tree.isWhitespace = false) :
      Tracked origin (s.addSpace t) (consumed (l :: under) ++ [t.toToken]) := by
    have hm : Produces .item (.node (.whitespace (if t.kind = .newline then 1 else 0))
        [.raw [t.toToken]]) := by
      have : Produces .item (.node (.whitespace ([t.toToken].countP (·.kind = .newline)))
          [.raw [t.toToken]]) := .space (by simp) (by simpa using ht)
      simpa [List.countP_cons] using this
    rw [addSpace_eq_add htree]
    exact tracked_add_token h hm ⟨hhead, hlast, fun _ _ _ _ => hblock⟩ (by simp [NodeKind.tag]) hstart
  rcases List.eq_nil_or_concat l.parts with hnil | ⟨init, last, hparts⟩
  · apply hadd (by simp [hnil])
    rw [h.top_eq]
    simp [Layer.frame, hnil]
  · rw [List.concat_eq_append] at hparts
    cases htakes : last.takes t.kind with
    | true =>
      obtain ⟨newlines, parts, rfl⟩ := Markup.eq_whitespace_of_takes ht htakes
      exact tracked_addSpace_merge h hparts ht hstart hreading
    | false =>
      apply hadd (by simpa [hparts] using htakes)
      obtain ⟨role, hproduces⟩ := h.nested.valid.produces (m := last) (by simp [hparts])
      obtain ⟨kind, parts, rfl⟩ := hproduces.exists_eq_node
      rw [h.top_eq]
      cases kind with
      | whitespace newlines => simp [Markup.takes, ht] at htakes
      | _ =>
        simp [Layer.frame, hparts, Markup.forest_append, Tree.isWhitespace, Tree.kind, NodeKind.tag]

theorem tracked_close_item {parent : Frame} (h : Stands origin top (parent :: below) l under)
    {kind : NodeKind} {closing : List Token}
    (hm : Produces .item (.node kind (.raw l.opener :: (l.parts ++ [.raw closing]))))
    (hkind : kind.tag ≠ .command) (hlevel : l.level ≠ .block) (hopener : l.opener ≠ [])
    {stop : Coord} (hstop : stop = (placeAfter origin (l :: under)).advance (textOf closing)) :
    Tracked origin ⟨.content, parent.add (top.close kind stop), below⟩
      (consumed (l :: under) ++ closing) := by
  obtain ⟨p, under, rfl, hparent⟩ := h.pop
  have hadmits : ∀ t ∈ l.opener.head?, p.Admits t.kind := by
    cases h.nested with
    | block _ hblock => exact absurd hblock hlevel
    | item _ _ _ hadmits => exact hadmits
  obtain ⟨t, rest, hcons⟩ := List.exists_cons_of_ne_nil hopener
  refine tracked_add_item hparent hm (hadmits t (by simp [hcons])).not_head (fun k hk => ?_) hkind ?_ ?_
  · obtain rfl : t.kind = k := by simpa [Markup.firstKind?, hcons] using hk
    exact hadmits t (by simp [hcons])
  · rw [trees_close, hstop, h.top_eq, placeAfter_cons origin l]
  · simp [consumed, Layer.tokens]

theorem tracked_close_block {head : Frame} (h : Stands origin top (head :: below) l under)
    {closing : List Token}
    (hm : Produces .block (.node .curlyBlock (.raw l.opener :: (l.parts ++ [.raw closing]))))
    (hlevel : l.level = .block) {stop : Coord}
    (hstop : stop = (placeAfter origin (l :: under)).advance (textOf closing)) :
    Tracked origin ⟨.content, head.add (top.close .curlyBlock stop), below⟩
      (consumed (l :: under) ++ closing) := by
  obtain ⟨p, under, rfl, hparent⟩ := h.pop
  have hhead : p.level.isHead = true := by
    cases h.nested with
    | block _ _ hhead => exact hhead
    | item _ _ hblock => exact absurd hlevel hblock
  refine tracked_add_block hparent hm hhead ?_ ?_
  · rw [trees_close, hstop, h.top_eq, placeAfter_cons origin l]
  · simp [consumed, Layer.tokens]

theorem tracked_closeBrace (h : Stands origin s.top s.below l under) (ht : t.kind = .rBrace)
    (hstart : t.start = placeAfter origin (l :: under)) (hstep : s.readItem t = .ok s') :
    Tracked origin s' (consumed (l :: under) ++ [t.toToken]) := by
  have hlevel : s.top.level = l.level := by
    rw [h.top_eq]
    rfl
  have hstop : t.stop = (placeAfter origin (l :: under)).advance (textOf [t.toToken]) := by
    simp [Placed.stop, hstart, textOf]
  simp only [State.readItem, ht] at hstep
  split at hstep
  · next parent below hgroup hbelow =>
    cases hstep
    rw [hlevel] at hgroup
    rw [hbelow] at h
    cases h.nested.valid with
    | group hopener hparts =>
      exact tracked_close_item h (.group hopener ht hparts.1 hparts.2) (by simp [NodeKind.tag])
        (by simp) (by simp) hstop
    | _ => cases hgroup
  · next head below hblock hbelow =>
    cases hstep
    rw [hlevel] at hblock
    rw [hbelow] at h
    cases h.nested.valid with
    | block hopener hparts =>
      exact tracked_close_block h (.curlyBlock hopener ht hparts.1 hparts.2) rfl hstop
    | _ => cases hblock
  · cases hstep

theorem tracked_readItem (h : Stands origin s.top s.below l under) (hreading : s.reading = .content)
    (hhead : l.level.isHead = false) (hadmits : t.kind.isSpace = false → l.Admits t.kind)
    (hstart : t.start = placeAfter origin (l :: under)) (hstep : s.readItem t = .ok s') :
    Tracked origin s' (consumed (l :: under) ++ [t.toToken]) := by
  cases hkind : t.kind with
  | whitespace | newline =>
    have hspace : t.kind.isSpace = true := by rw [hkind]; rfl
    rw [readItem_space hspace] at hstep
    cases hstep
    exact tracked_addSpace h hhead hspace hstart hreading
  | comment =>
    rw [readItem_comment hkind] at hstep
    cases hstep
    exact tracked_add_token h (.comment hkind) (hadmits (by rw [hkind]; rfl)) (by simp [NodeKind.tag])
      hstart
  | text | lBracket | rBracket | stray =>
    have htext : isTextKind t.kind = true := by rw [hkind]; rfl
    rw [readItem_text htext] at hstep
    cases hstep
    exact tracked_add_token h (.text htext) (hadmits (by rw [hkind]; rfl)) (by simp [NodeKind.tag])
      hstart
  | ampersand | tilde | lineBreak | escapedChar =>
    have hsymbol : isSymbolKind t.kind = true := by rw [hkind]; rfl
    rw [readItem_symbol hsymbol] at hstep
    cases hstep
    exact tracked_add_token h (.symbol hsymbol) (hadmits (by rw [hkind]; rfl)) (by simp [NodeKind.tag])
      hstart
  | dollar | doubleDollar | inlineMathOpen | displayMathOpen =>
    have hopener : isMathOpener t.kind = true := by rw [hkind]; rfl
    rw [readItem_mathOpener hopener] at hstep
    cases hstep
    exact ⟨l, under, [t.toToken], h, .math [] hstart hhead hopener (by simp), rfl⟩
  | inlineMathClose | displayMathClose => simp [State.readItem, hkind, State.fail] at hstep
  | lBrace =>
    simp only [State.readItem, hkind] at hstep
    cases hstep
    exact tracked_push h (.group hkind isContent_nil) (hadmits (by rw [hkind]; rfl)) (by simp)
      (Layer.rested_empty (.inl rfl) rfl) hstart
  | rBrace => exact tracked_closeBrace h hkind hstart hstep
  | command =>
    simp only [State.readItem, hkind] at hstep
    split at hstep
    · next hmark =>
      cases hstep
      exact ⟨l, under, [t.toToken], h, .beforeName hstart hhead hmark, rfl⟩
    · next hmark =>
      split at hstep
      · cases hstep
        exact ⟨l, under, [t.toToken], h, .beforeName hstart hhead hmark, rfl⟩
      · cases hstep
    · next hmark =>
      cases hstep
      exact tracked_push h (.command hkind hmark (by simp)) (hadmits (by rw [hkind]; rfl)) (by simp)
        (.inl rfl) hstart

theorem tracked_readContent (h : Stands origin s.top s.below l under)
    (hreading : s.reading = .content) (hrested : l.Rested)
    (hstart : t.start = placeAfter origin (l :: under)) (hstep : s.readContent t = .ok s') :
    Tracked origin s' (consumed (l :: under) ++ [t.toToken]) := by
  have hlevel : s.top.level = l.level := by
    rw [h.top_eq]
    rfl
  unfold State.readContent at hstep
  rw [hlevel] at hstep
  split at hstep
  · next hopens =>
    cases hstep
    refine ⟨⟨.block, [t.toToken], []⟩, l :: under, [], ⟨?_, ?_, ?_⟩, .content ?_, ?_⟩
    · exact .block (.block hopens.2 isContent_nil) rfl hopens.1 h.nested
    · simp [State.push, Frame.opened, Layer.frame, hstart, Layer.tokens, Placed.stop, textOf]
    · rw [frames, ← h.top_eq, ← h.below_eq]
      rfl
    · exact Layer.rested_empty (.inr rfl) rfl
    · simp [consumed, Layer.tokens]
  · next hbrace =>
    split at hstep
    · next hopens =>
      cases hstep
      exact ⟨l, under, [t.toToken], h, .items [] hstart hopens.1 hopens.2 (fun _ h => h), rfl⟩
    · next hbracket =>
      obtain ⟨l', under', hstands, hcontent, hconsumed, hhead, hadmits⟩ :=
        h.closeHead hreading hrested
      have hplace : t.start = placeAfter origin (l' :: under') := by
        rw [hstart, placeAfter, placeAfter, hconsumed]
      rw [← hconsumed]
      refine tracked_readItem hstands hcontent hhead (fun hspace => hadmits t.kind ?_ hspace) hplace
        hstep
      intro hhead
      have hnotBrace : t.kind ≠ .lBrace := fun h => hbrace ⟨hhead, h⟩
      have hnotBracket : t.kind ≠ .lBracket := fun h => hbracket ⟨hhead, h⟩
      cases hkind : t.kind <;> simp_all [TokenKind.opensBlock]

/-! #### Raw material -/

theorem tracked_close_raw (h : Stands origin top below l under) (hhead : l.level.isHead = false)
    {kind : NodeKind} {first : Token} {later : List Token}
    (hm : Produces .item (.node kind [.raw (first :: later)])) (hkind : kind.tag ≠ .command)
    (hblock : first.kind.opensBlock = false) (hspace : first.kind.isSpace = false) {start stop : Coord}
    (hstart : start = placeAfter origin (l :: under))
    (hstop : stop = start.advance (textOf (first :: later))) :
    Tracked origin ⟨.content, top.add (Tree.leaf kind start stop), below⟩
      (consumed (l :: under) ++ first :: later) := by
  refine tracked_add_item h hm hhead (fun k hk => ?_) hkind ?_ (by simp)
  · obtain rfl : first.kind = k := by simpa [Markup.firstKind?] using hk
    exact Layer.admits_of_plain hhead hblock hspace
  · rw [hstop, hstart, Markup.trees_node]
    simp [Tree.leaf, Markup.textOf]

theorem tracked_math (h : Stands origin s.top s.below l under) {opener : Placed}
    {read pending : List Token} (hreading : s.reading = .math opener read)
    (hpending : Pending l (placeAfter origin (l :: under)) (.math opener read) pending)
    (hstart : t.start = (placeAfter origin (l :: under)).advance (textOf pending))
    (hstep : step s t = .ok s') :
    Tracked origin s' (consumed (l :: under) ++ (pending ++ [t.toToken])) := by
  cases hpending with
  | math _ hplace hhead hopener hread =>
    simp only [step, hreading] at hstep
    split at hstep
    · next hcloser =>
      cases hstep
      have hplain : opener.kind.opensBlock = false ∧ opener.kind.isSpace = false := by
        cases hkind : opener.kind <;> simp_all [isMathOpener, TokenKind.opensBlock, TokenKind.isSpace]
      have hm : Produces .item (.node (.math (mathDelimiter opener.kind).2
          (String.ofList (textOf read.reverse)))
          [.raw (opener.toToken :: (read.reverse ++ [t.toToken]))]) :=
        .math hopener hcloser fun t' ht' => by
          rw [hcloser]
          exact hread t' (List.mem_reverse.mp ht')
      apply tracked_close_raw h hhead hm (by simp [NodeKind.tag]) hplain.1 hplain.2 hplace
      rw [Placed.stop, hstart, hplace, ← Coord.advance_append]
      simp [textOf]
    · next hcloser =>
      cases hstep
      refine ⟨l, under, _, h, .math (t.toToken :: read) hplace hhead hopener ?_, by simp⟩
      intro t' ht'
      rcases List.mem_cons.mp ht' with rfl | ht'
      exacts [hcloser, hread t' ht']

theorem tracked_items (h : Stands origin s.top s.below l under) {opener : Placed} {depth : Nat}
    {read pending : List Token} (hreading : s.reading = .items opener depth read)
    (hpending : Pending l (placeAfter origin (l :: under)) (.items opener depth read) pending)
    (hstart : t.start = (placeAfter origin (l :: under)).advance (textOf pending))
    (hstep : step s t = .ok s') :
    Tracked origin s' (consumed (l :: under) ++ (pending ++ [t.toToken])) := by
  cases hpending with
  | items _ hplace hhead hopener hends =>
    have hmore {depth' : Nat} (hdepth : depth' = depthAfter depth t.toToken)
        (ht : t.kind = .rBracket → depth ≠ 0)
        (hs' : s' = { s with reading := .items opener depth' (t.toToken :: read) }) :
        Tracked origin s'
          (consumed (l :: under) ++ (opener.toToken :: read.reverse ++ [t.toToken])) := by
      subst hs'
      refine ⟨l, under, _, h, .items (t.toToken :: read) hplace hhead hopener ?_, by simp⟩
      intro later hlater
      have := hends (t.toToken :: later) ⟨ht, hdepth ▸ hlater⟩
      simpa using this
    simp only [step, hreading] at hstep
    cases hkind : t.kind with
    | rBracket =>
      simp only [hkind] at hstep
      split at hstep
      · next hdepth =>
        cases hstep
        have hm : Produces .block (.node .squareBlock
            [.raw [opener.toToken], .items read.reverse, .raw [t.toToken]]) :=
          .squareBlock hopener hkind (by simpa using hends [] hdepth)
        have htokens : opener.toToken :: read.reverse ++ [t.toToken] = Markup.tokensOf
          [.raw [opener.toToken], .items read.reverse, .raw [t.toToken]] := by simp
        rw [htokens]
        refine tracked_add_block h hm hhead ?_ rfl
        have hstop : t.start = opener.stop.advance (textOf read.reverse) := by
          rw [hstart, Placed.stop, hplace]
          simp [textOf]
        simp [squareBlock, Markup.parameterList, Markup.textOf, textOf, Markup.text, Placed.stop,
          collected, hstop, hplace]
      · next hdepth =>
        cases hstep
        exact hmore (by simp [depthAfter, hkind]) (fun _ => hdepth) rfl
    | _ =>
      simp only [hkind] at hstep
      cases hstep
      exact hmore (by simp [depthAfter, hkind]) (by simp [hkind]) rfl

theorem tracked_beforeName (h : Stands origin s.top s.below l under) {mark : EnvironmentMark}
    {command : Placed} {pending : List Token} (hreading : s.reading = .beforeName mark command)
    (hpending : Pending l (placeAfter origin (l :: under)) (.beforeName mark command) pending)
    (hstep : step s t = .ok s') :
    Tracked origin s' (consumed (l :: under) ++ (pending ++ [t.toToken])) := by
  cases hpending with
  | beforeName hplace hhead hmark =>
    simp only [step, hreading] at hstep
    split at hstep
    · next hbrace =>
      cases hstep
      exact ⟨l, under, _, h, .name [] hplace hhead hmark hbrace (by simp), rfl⟩
    · cases hstep

theorem unended_nil (name : List Char) : Unended name [] := by
  intro u t v h
  simp at h

theorem tracked_named (h : Stands origin s.top s.below l under) {mark : EnvironmentMark}
    {command : Placed} {name : List Char} {tag : List Token} {brace : Placed}
    (hplace : command.start = placeAfter origin (l :: under)) (hhead : l.level.isHead = false)
    (htag : IsTag mark name tag)
    (hstop : brace.stop = (placeAfter origin (l :: under)).advance (textOf tag))
    (hstep : s.named mark command name brace = .ok s') :
    Tracked origin s' (consumed (l :: under) ++ tag) := by
  cases mark with
  | opening =>
    simp only [State.named] at hstep
    split at hstep
    · next hmath =>
      cases hstep
      exact ⟨l, under, tag, h, by
        simpa using Pending.mathEnvironment [] hplace hhead htag hmath (unended_nil name),
        rfl⟩
    · next hplain =>
      cases hstep
      have hplain := Bool.eq_false_iff.mpr hplain
      refine ⟨⟨.opening (String.ofList name), tag, []⟩, l :: under, [], ⟨?_, ?_, ?_⟩,
        .content (.inl rfl), ?_⟩
      · refine .item (.opening htag hplain (by simp)) (by simp) (by simp) (fun t' ht' => ?_) h.nested
        obtain ⟨t, rest, rfl, hkind⟩ := htag.exists_eq_cons
        obtain rfl : t = t' := by simpa using ht'
        exact Layer.admits_of_plain hhead (by rw [hkind]; rfl) (by rw [hkind]; rfl)
      · simp [State.push, Layer.frame, Layer.tokens, hplace, hstop]
      · rw [frames, ← h.top_eq, ← h.below_eq]
        rfl
      · simp [consumed, Layer.tokens]
  | closing =>
    simp only [State.named] at hstep
    split at hstep
    · next expected count parent below hbody hbelow =>
      split at hstep
      · next hfound =>
        cases hstep
        have hlevel : s.top.level = l.level := by
          rw [h.top_eq]
          rfl
        rw [hlevel] at hbody
        rw [hbelow] at h
        cases h.nested.valid with
        | @body name' opening blocks body hopening hplain hblocks hcontent hbegins =>
          simp only [Level.body.injEq] at hbody
          obtain ⟨hname, hcount⟩ := hbody
          obtain rfl : name' = name := String.ofList_injective (hname.trans hfound.symm)
          subst hcount
          have hm := Produces.environment hopening hplain hblocks hcontent.1 hcontent.2 hbegins htag
          rw [← List.append_assoc] at hm
          rw [← hfound]
          refine tracked_close_item h hm (by simp [NodeKind.tag]) (by simp) ?_ hstop
          obtain ⟨t, rest, rfl, -⟩ := hopening.exists_eq_cons
          simp
        | _ => cases hbody
      · cases hstep
    · cases hstep

theorem tracked_name (h : Stands origin s.top s.below l under) {mark : EnvironmentMark}
    {command brace : Placed} {read pending : List Token}
    (hreading : s.reading = .name mark command brace read)
    (hpending : Pending l (placeAfter origin (l :: under)) (.name mark command brace read) pending)
    (hstart : t.start = (placeAfter origin (l :: under)).advance (textOf pending))
    (hstep : step s t = .ok s') :
    Tracked origin s' (consumed (l :: under) ++ (pending ++ [t.toToken])) := by
  cases hpending with
  | name _ hplace hhead hmark hbrace hread =>
    simp only [step, hreading] at hstep
    split at hstep
    · next hcloser =>
      have htag : IsTag mark (Text.trim (collected read))
          (command.toToken :: brace.toToken :: (read.reverse ++ [t.toToken])) :=
        .intro hmark hbrace hcloser (fun t' ht' => hread t' (List.mem_reverse.mp ht')) rfl
      refine tracked_named h hplace hhead htag ?_ hstep
      rw [Placed.stop, hstart, ← Coord.advance_append]
      simp [textOf]
    · next hcloser =>
      cases hstep
      refine ⟨l, under, _, h, .name (t.toToken :: read) hplace hhead hmark hbrace ?_, by simp⟩
      intro t' ht'
      rcases List.mem_cons.mp ht' with rfl | ht'
      exacts [hcloser, hread t' ht']

/-- The first tag that is complete is the first that starts, as none ended before. -/
theorem isFirstEnd_of_contentBeforeEnd? {name : List Char} {read content : List Token}
    {closer : Token} (hunended : Unended name read) (hcloser : closer.kind = .rBrace)
    (h : contentBeforeEnd? name read = some content) :
    ∃ tag, read ++ [closer] = content ++ tag ∧ IsFirstEnd name content tag := by
  obtain ⟨tag, htag, hisTag⟩ := isTag_of_contentBeforeEnd? hcloser h
  refine ⟨tag, htag, hisTag, fun u w v huwv hw => ?_⟩
  rw [← htag] at huwv
  rcases List.eq_nil_or_concat v with rfl | ⟨v, last, rfl⟩
  · obtain ⟨found, hfound, hle⟩ :=
      exists_contentBeforeEnd? u (by rw [huwv, List.append_nil]) hw
    obtain rfl : content = found := Option.some.inj (h.symm.trans hfound)
    exact hle
  · -- A tag that ends earlier would have been found when its brace was read.
    obtain ⟨init, brace, rfl, hbrace⟩ := hw.exists_eq_append
    have heq : read ++ [closer] = (u ++ init ++ brace :: v) ++ [last] := by simpa using huwv
    have hread : read = (u ++ init) ++ brace :: v := by simpa using List.append_inj_left' heq rfl
    have hinit : (u ++ init) ++ [brace] = u ++ (init ++ [brace]) := by simp
    obtain ⟨found, hfound, -⟩ := exists_contentBeforeEnd? u hinit hw
    rw [hunended _ _ _ hread hbrace] at hfound
    cases hfound

theorem Unended.concat {name : List Char} {read : List Token} {t : Token} (h : Unended name read)
    (ht : t.kind = .rBrace → contentBeforeEnd? name read = none) : Unended name (read ++ [t]) := by
  intro u t' v huv ht'
  rcases List.eq_nil_or_concat v with rfl | ⟨v, last, rfl⟩
  · obtain ⟨rfl, heq⟩ := List.append_inj' huv rfl
    obtain rfl : t = t' := by simpa using heq
    exact ht ht'
  · have heq : read ++ [t] = (u ++ t' :: v) ++ [last] := by simpa using huv
    exact h u t' v (List.append_inj_left' heq rfl) ht'

theorem tracked_mathEnvironment (h : Stands origin s.top s.below l under) {command : Placed}
    {name : List Char} {read pending : List Token}
    (hreading : s.reading = .mathEnvironment command name read)
    (hpending : Pending l (placeAfter origin (l :: under)) (.mathEnvironment command name read)
      pending)
    (hstart : t.start = (placeAfter origin (l :: under)).advance (textOf pending))
    (hstep : step s t = .ok s') :
    Tracked origin s' (consumed (l :: under) ++ (pending ++ [t.toToken])) := by
  cases hpending with
  | @mathEnvironment _ _ tag _ hplace hhead htag hmath hunended =>
    have hmore (ht : t.kind = .rBrace → contentBeforeEnd? name read.reverse = none)
        (hs' : s' = { s with reading := .mathEnvironment command name (t.toToken :: read) }) :
        Tracked origin s' (consumed (l :: under) ++ (tag ++ read.reverse ++ [t.toToken])) := by
      subst hs'
      refine ⟨l, under, _, h,
        .mathEnvironment (t.toToken :: read) hplace hhead htag hmath ?_, by simp⟩
      rw [List.reverse_cons]
      exact hunended.concat ht
    simp only [step, hreading] at hstep
    split at hstep
    · next hbrace =>
      split at hstep
      · next content hcontent =>
        cases hstep
        obtain ⟨closing, hclosing, hend⟩ :=
          isFirstEnd_of_contentBeforeEnd? hunended hbrace hcontent
        have hm := Produces.mathEnvironment htag hmath hend
        obtain ⟨first, rest, rfl, hkind⟩ := htag.exists_eq_cons
        have htokens : (first :: rest) ++ read.reverse ++ [t.toToken] =
            first :: (rest ++ (content ++ closing)) := by
          rw [← hclosing]
          simp
        rw [htokens]
        refine tracked_close_raw h hhead hm (by simp [NodeKind.tag]) (by rw [hkind]; rfl)
          (by rw [hkind]; rfl) hplace ?_
        rw [Placed.stop, hstart, hplace, ← Coord.advance_append]
        refine congrArg _ ?_
        have := congrArg textOf htokens
        simpa [textOf] using this
      · next hnone =>
        cases hstep
        exact hmore (fun _ => hnone) rfl
    · next hbrace =>
      cases hstep
      exact hmore (fun h => absurd h hbrace) rfl

/-- One token leads from a tracked state to a tracked state. -/
theorem tracked_step {tokens : List Token} (h : Tracked origin s tokens)
    (hstart : t.start = origin.advance (textOf tokens)) (hstep : step s t = .ok s') :
    Tracked origin s' (tokens ++ [t.toToken]) := by
  obtain ⟨l, under, pending, hstands, hpending, rfl⟩ := h
  have hplace : t.start = (placeAfter origin (l :: under)).advance (textOf pending) := by
    rw [hstart, Token.textOf_append, Coord.advance_append]
    rfl
  rw [List.append_assoc]
  cases hreading : s.reading with
  | content =>
    rw [hreading] at hpending
    cases hpending with
    | content hrested =>
      simp only [step, hreading] at hstep
      exact tracked_readContent hstands hreading hrested hplace hstep
  | math opener read => exact tracked_math hstands hreading (hreading ▸ hpending) hplace hstep
  | items opener depth read => exact tracked_items hstands hreading (hreading ▸ hpending) hplace hstep
  | beforeName mark command => exact tracked_beforeName hstands hreading (hreading ▸ hpending) hstep
  | name mark command brace read =>
    exact tracked_name hstands hreading (hreading ▸ hpending) hplace hstep
  | mathEnvironment command name read =>
    exact tracked_mathEnvironment hstands hreading (hreading ▸ hpending) hplace hstep

end Tracking

/-! ### Whole texts -/

theorem tracked_initial (origin : Coord) : Tracked origin (State.initial origin) [] := by
  refine ⟨⟨.root, [], []⟩, [], [], ⟨.root (.root isContent_nil) rfl, ?_, rfl⟩, .content (.inr ?_), rfl⟩
  · rfl
  · exact fun kind _ => ⟨rfl, by simp, by simp⟩

theorem tracked_run {origin : Coord} {s s' : State} {read tokens : List Token}
    (h : Tracked origin s read) (hrun : run (origin.advance (textOf read)) s tokens = .ok s') :
    Tracked origin s' (read ++ tokens) := by
  induction tokens generalizing s read with
  | nil =>
    cases hrun
    simpa using h
  | cons t tokens ih =>
    cases hstep : step s ⟨t, origin.advance (textOf read)⟩ with
    | error e =>
      simp [run, Token.placeAll, hstep, bind, Except.bind] at hrun
    | ok s₁ =>
      rw [run_cons hstep, ← Coord.advance_append] at hrun
      have htext : textOf read ++ t.text = textOf (read ++ [t]) := by simp [textOf]
      rw [htext] at hrun
      have := ih (tracked_step h rfl hstep) hrun
      simpa using this

/-- A text that is read consists of content. -/
theorem exists_isContent_of_readFrom {origin : Coord} {text : List Char} {forest : List Tree}
    (h : readFrom origin text = .ok forest) :
    ∃ ms, IsContent ms ∧ Markup.tokensOf ms = tokenize text ∧ forest = Markup.forest origin ms := by
  rw [readFrom_eq] at h
  cases hrun : run origin (State.initial origin) (tokenize text) with
  | error e => simp [hrun, Except.bind] at h
  | ok s =>
    simp only [hrun, Except.bind] at h
    obtain ⟨l, under, pending, hstands, hpending, htokens⟩ :=
      tracked_run (tracked_initial origin) hrun
    cases hreading : s.reading with
    | content =>
      rw [hreading] at hpending
      cases hpending with
      | content hrested =>
        obtain ⟨l', under', hstands', -, hconsumed, -, -⟩ := hstands.closeHead hreading hrested
        simp only [State.finish, hreading] at h
        split at h
        · next hroot =>
          cases h
          rw [hstands'.top_eq] at hroot
          have hlevel : l'.level = .root := hroot
          rw [hstands'.top_eq]
          cases hstands'.nested with
          | root hvalid =>
            cases hvalid with
            | root hparts =>
              refine ⟨_, hparts, ?_, ?_⟩
              · rw [← hconsumed] at htokens
                simpa [consumed, Layer.tokens] using htokens.symm
              · simp [Layer.frame, placeAfter, consumed, textOf]
            | _ => cases hlevel
          | block _ hblock => simp [hblock] at hlevel
          | item _ hnot => exact absurd hlevel hnot
        · cases h
        · cases h
        · cases h
    | _ => simp [State.finish, hreading, State.fail] at h

/-- The trees of a text are those of the content that its tokens are. -/
theorem readFrom_eq_ok_iff {origin : Coord} {text : List Char} {forest : List Tree} :
    readFrom origin text = .ok forest ↔
      ∃ ms, IsContent ms ∧ Markup.tokensOf ms = tokenize text ∧ forest = Markup.forest origin ms := by
  refine ⟨exists_isContent_of_readFrom, ?_⟩
  rintro ⟨ms, hms, htokens, rfl⟩
  exact readFrom_of_isContent hms htokens origin

end TexAnchor.Grammar
