import TexAnchor.Proofs.Bytes
import TexAnchor.Proofs.Lexing

/-! # Tokens in bytes

A `Located` token knows the byte at which it starts.  The tokens of a text tile it (`Located.Tile`): none
is empty, the first one starts at the start of the text, each starts where the one before it stops, and
the last one stops at the end of the text.

The lexer is local.  A text that is cut in two keeps its tokens exactly if it is cut at a boundary of
them (`isBoundary_iff_exists_cut`), and each token alone is read as that token. -/

namespace TexAnchor

open Text (Coord byteLength coordAtByte? slice?)
open Token (textOf)

/-- A token and the byte at which it starts. -/
structure Located extends Token where
  offset : Nat
deriving DecidableEq, Repr

namespace Located

/-- The byte just after the token. -/
def stop (t : Located) : Nat := t.offset + byteLength t.text

/-- The token when some bytes are put before its text. -/
def moved (bytes : Nat) (t : Located) : Located := { t with offset := bytes + t.offset }

/-- The tokens stand in the text one behind another, without gap or overlap, from one byte to another,
and none of them is empty. -/
def Tile (text : List Char) (start stop : Nat) : List Located → Prop
  | [] => start = stop
  | t :: later => t.offset = start ∧ t.text ≠ [] ∧ slice? text t.offset t.stop = some t.text ∧
      Tile text t.stop stop later

end Located

/-- Tokens put one after another from a byte on. -/
def Token.locateAll (offset : Nat) : List Token → List Located
  | [] => []
  | t :: tokens => ⟨t, offset⟩ :: locateAll (offset + byteLength t.text) tokens

/-- The tokens of a text with the bytes at which they start. -/
def located (text : List Char) : List Located := Token.locateAll 0 (tokenize text)

/-- A token of the text starts at the byte, or the text ends there. -/
def IsBoundary (text : List Char) (bytes : Nat) : Prop :=
  bytes = byteLength text ∨ ∃ t ∈ located text, t.offset = bytes

namespace Token

theorem locateAll_append (offset : Nat) (a b : List Token) :
    locateAll offset (a ++ b) = locateAll offset a ++ locateAll (offset + byteLength (textOf a)) b := by
  induction a generalizing offset with
  | nil => rfl
  | cons t a ih =>
    rw [List.cons_append, locateAll, locateAll, ih, textOf_cons, Text.byteLength_append,
      Nat.add_assoc, List.cons_append]

theorem map_moved_locateAll (bytes offset : Nat) (tokens : List Token) :
    (locateAll offset tokens).map (Located.moved bytes) = locateAll (bytes + offset) tokens := by
  induction tokens generalizing offset with
  | nil => rfl
  | cons t tokens ih =>
    rw [locateAll, locateAll, List.map_cons, ih, Nat.add_assoc]
    rfl

theorem map_toToken_locateAll (offset : Nat) (tokens : List Token) :
    (locateAll offset tokens).map Located.toToken = tokens := by
  induction tokens generalizing offset with
  | nil => rfl
  | cons t tokens ih => rw [locateAll, List.map_cons, ih]

theorem exists_of_mem_locateAll {offset : Nat} {tokens : List Token} {t : Located}
    (h : t ∈ locateAll offset tokens) : ∃ left right, tokens = left ++ t.toToken :: right ∧
      t.offset = offset + byteLength (textOf left) := by
  induction tokens generalizing offset with
  | nil => cases h
  | cons first tokens ih =>
    rcases List.mem_cons.mp h with rfl | h
    · exact ⟨[], tokens, rfl, rfl⟩
    · obtain ⟨left, right, rfl, hoffset⟩ := ih h
      refine ⟨first :: left, right, rfl, ?_⟩
      rw [hoffset, textOf_cons, Text.byteLength_append, Nat.add_assoc]

theorem tile_locateAll {text before after : List Char} {tokens : List Token}
    (htext : text = before ++ textOf tokens ++ after) (hne : ∀ t ∈ tokens, t.text ≠ []) :
    Located.Tile text (byteLength before) (byteLength (before ++ textOf tokens))
      (locateAll (byteLength before) tokens) := by
  induction tokens generalizing before with
  | nil =>
    rw [textOf_nil, List.append_nil]
    rfl
  | cons t tokens ih =>
    rw [textOf_cons, ← List.append_assoc] at htext ⊢
    rw [List.forall_mem_cons] at hne
    have hlater := ih htext hne.2
    rw [Text.byteLength_append before t.text] at hlater
    refine ⟨rfl, hne.1, ?_, hlater⟩
    exact Text.slice?_eq_some_iff.mpr ⟨before, textOf tokens ++ after, by simp [htext], rfl,
      Text.byteLength_append before t.text⟩

theorem map_coordAtByte?_locateAll {text before after : List Char} {tokens : List Token}
    (htext : text = before ++ textOf tokens ++ after) :
    (locateAll (byteLength before) tokens).map (fun t => coordAtByte? .zero text t.offset) =
      (placeAll (Coord.zero.advance before) tokens).map fun t => some t.start := by
  induction tokens generalizing before with
  | nil => rfl
  | cons t tokens ih =>
    have hplace : coordAtByte? .zero text (byteLength before) = some (Coord.zero.advance before) := by
      rw [htext, List.append_assoc]
      exact Text.coordAtByte?_append .zero before _
    rw [textOf_cons, ← List.append_assoc] at htext
    have hlater := ih htext
    rw [Coord.advance_append, Text.byteLength_append] at hlater
    rw [locateAll, placeAll, List.map_cons, List.map_cons, hplace, hlater]

end Token

variable {text : List Char} {bytes : Nat}

/-- The boundaries are the ends of the first so many tokens. -/
theorem isBoundary_iff : IsBoundary text bytes ↔
    ∃ left right, tokenize text = left ++ right ∧ byteLength (textOf left) = bytes := by
  constructor
  · rintro (rfl | ⟨t, ht, rfl⟩)
    · exact ⟨tokenize text, [], (List.append_nil _).symm, by rw [textOf_tokenize]⟩
    · obtain ⟨left, right, htokens, hoffset⟩ := Token.exists_of_mem_locateAll ht
      exact ⟨left, _, htokens, by rw [hoffset, Nat.zero_add]⟩
  · rintro ⟨left, right, htokens, rfl⟩
    cases right with
    | nil =>
      rw [List.append_nil] at htokens
      exact .inl (by rw [← htokens, textOf_tokenize])
    | cons t right =>
      refine .inr ⟨⟨t, byteLength (textOf left)⟩, ?_, rfl⟩
      rw [located, htokens, Token.locateAll_append, Nat.zero_add]
      exact List.mem_append_right _ List.mem_cons_self

/-- A text keeps its tokens when it is cut in two exactly if it is cut at a boundary of them. -/
theorem isBoundary_iff_exists_cut : IsBoundary text bytes ↔ ∃ front back,
    slice? text 0 bytes = some front ∧ slice? text bytes (byteLength text) = some back ∧
      located front ++ (located back).map (Located.moved bytes) = located text := by
  rw [isBoundary_iff]
  constructor
  · rintro ⟨left, right, htokens, rfl⟩
    obtain ⟨hleft, hright, -⟩ := parted_of_tokenize_eq_append htokens
    have htext : text = textOf left ++ textOf right := by
      rw [← Token.textOf_append, ← htokens, textOf_tokenize]
    refine ⟨textOf left, textOf right, ?_, ?_, ?_⟩
    · exact Text.slice?_eq_some_iff.mpr ⟨[], textOf right, htext, rfl, rfl⟩
    · exact Text.slice?_eq_some_iff.mpr ⟨textOf left, [], by rw [← htext, List.append_nil], rfl,
        by rw [← htext]⟩
    · rw [located, located, located, ← hleft, ← hright, htokens, Token.map_moved_locateAll,
        Token.locateAll_append, Nat.zero_add, Nat.add_zero]
  · rintro ⟨front, back, hfront, -, hcut⟩
    obtain ⟨before, after, -, hbefore, hstop⟩ := Text.slice?_eq_some_iff.mp hfront
    refine ⟨tokenize front, tokenize back, ?_, ?_⟩
    · have hforget := congrArg (List.map Located.toToken) hcut
      rw [located, located, located, Token.map_moved_locateAll, List.map_append,
        Token.map_toToken_locateAll, Token.map_toToken_locateAll,
        Token.map_toToken_locateAll] at hforget
      exact hforget.symm
    · rw [Text.byteLength_append] at hstop
      rw [textOf_tokenize]
      omega

theorem tokenize_text_of_mem {t : Token} (h : t ∈ tokenize text) : tokenize t.text = [t] := by
  obtain ⟨left, right, htokens⟩ := List.append_of_mem h
  have hbehind := (parted_of_tokenize_eq_append htokens).2.1
  have hfirst : tokenize (textOf (t :: right)) = [t] ++ right := hbehind.symm
  have halone := (parted_of_tokenize_eq_append hfirst).1
  rw [Token.textOf_cons, Token.textOf_nil, List.append_nil] at halone
  exact halone.symm

/-- The tokens of a text tile it and stand where they are placed, and just the cuts at their boundaries
keep them; each of them alone is that token again. -/
theorem tile_and_isBoundary_iff_and_tokenize_eq (text : List Char) :
    Located.Tile text 0 (byteLength text) (located text) ∧
      (located text).map (fun t => coordAtByte? .zero text t.offset) =
        (Token.placeAll .zero (tokenize text)).map (fun t => some t.start) ∧
      (∀ bytes, IsBoundary text bytes ↔ ∃ front back,
        slice? text 0 bytes = some front ∧ slice? text bytes (byteLength text) = some back ∧
          located front ++ (located back).map (Located.moved bytes) = located text) ∧
      ∀ t ∈ tokenize text, tokenize t.text = [t] := by
  have htext : text = [] ++ textOf (tokenize text) ++ [] := by
    rw [textOf_tokenize, List.nil_append, List.append_nil]
  have htile := Token.tile_locateAll htext fun t ht => (lexical_of_mem_tokenize ht).text_ne_nil
  rw [List.nil_append, textOf_tokenize] at htile
  exact ⟨htile, Token.map_coordAtByte?_locateAll htext, fun _ => isBoundary_iff_exists_cut,
    fun _ => tokenize_text_of_mem⟩

/-- A carriage return without line feed and a lone backslash are tokens of one byte each. -/
example : located ['é', '\r', 'a', '\\'] =
    [⟨⟨.text, ['é']⟩, 0⟩, ⟨⟨.stray, ['\r']⟩, 2⟩, ⟨⟨.text, ['a']⟩, 3⟩, ⟨⟨.stray, ['\\']⟩, 4⟩] := by
  decide

end TexAnchor
