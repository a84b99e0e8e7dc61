import TexAnchor.Proofs.Lexing
import TexAnchor.Proofs.Markup

/-! # What tokens look like

`TokenKind.Spells` says which texts a token of a kind can have, and every token that the lexer makes has
one of them (`Token.Lexical.spells`).  So a delimiter is its mark, and the tag of an environment is
`\begin` or `\end` with a name in braces (`Grammar.IsTag.tags`). -/

namespace TexAnchor

/-- The texts that tokens of a kind have. -/
def TokenKind.Spells : TokenKind → List Char → Prop
  | whitespace, word => ∀ c ∈ word, c = ' ' ∨ c = '\t'
  | newline, word => word = ['\n'] ∨ word = ['\r', '\n']
  | comment, word => word.head? = some '%'
  | command, word | escapedChar, word => word.head? = some '\\'
  | lineBreak, word => word = ['\\', '\\']
  | doubleDollar, word => word = ['$', '$']
  | dollar, word => word = ['$']
  | inlineMathOpen, word => word = ['\\', '(']
  | inlineMathClose, word => word = ['\\', ')']
  | displayMathOpen, word => word = ['\\', '[']
  | displayMathClose, word => word = ['\\', ']']
  | lBrace, word => word = ['\x7b']
  | rBrace, word => word = ['\x7d']
  | lBracket, word => word = ['[']
  | rBracket, word => word = [']']
  | ampersand, word => word = ['&']
  | tilde, word => word = ['~']
  | text, word => ∀ c ∈ word, isPlain c = true
  | stray, word => word = ['\\'] ∨ word = ['\r']

namespace Token

variable {kind : TokenKind} {last c : Char} {before : List Char}

theorem spells_firstKind (c : Char) : (firstKind c).Spells [c] := by
  unfold firstKind
  split
  case h_14 => simp_all [TokenKind.Spells, isPlain, specialChars]
  all_goals simp [TokenKind.Spells]

theorem spells_escapeKind? (h : escapeKind? c = some kind) : kind.Spells ['\\', c] := by
  unfold escapeKind? at h
  split at h
  case h_8 =>
    split at h <;> cases h <;> simp [TokenKind.Spells]
  all_goals cases h
  all_goals simp [TokenKind.Spells]

/-- A token that grows by one character is spelled as the kind it then has. -/
theorem spells_continuedKind? {longer : TokenKind} {word : List Char} (h : kind.Spells word)
    (hlast : word.getLast? = some last) (hnext : continuedKind? kind last c = some longer) :
    longer.Spells (word ++ [c]) := by
  have hhead {first : Char} (hfirst : word.head? = some first) :
      (word ++ [c]).head? = some first := by
    rw [List.head?_append, hfirst, Option.some_or]
  cases kind with
  | whitespace =>
    obtain ⟨hc, heq⟩ := Option.ite_none_right_eq_some.mp hnext
    cases heq
    exact List.forall_mem_append.mpr ⟨h, by simpa using hc⟩
  | comment =>
    obtain ⟨-, heq⟩ := Option.ite_none_left_eq_some.mp hnext
    cases heq
    exact hhead h
  | dollar =>
    obtain ⟨rfl, heq⟩ := Option.ite_none_right_eq_some.mp hnext
    cases heq
    exact congrArg (· ++ ['$']) h
  | text =>
    obtain ⟨hc, heq⟩ := Option.ite_none_right_eq_some.mp hnext
    cases heq
    exact List.forall_mem_append.mpr ⟨h, by simpa using hc⟩
  | command =>
    obtain ⟨-, heq⟩ := Option.ite_none_right_eq_some.mp hnext
    cases heq
    exact hhead h
  | stray =>
    rcases h with rfl | rfl <;> cases hlast
    · exact spells_escapeKind? hnext
    · obtain ⟨rfl, heq⟩ := Option.ite_none_right_eq_some.mp hnext
      cases heq
      exact .inr rfl
  | _ => cases hnext

theorem Grown.spells (h : Grown kind last before) : kind.Spells (last :: before).reverse := by
  induction h with
  | first c => exact spells_firstKind c
  | next _ hnext ih =>
    rw [List.reverse_cons]
    exact spells_continuedKind? ih (by simp) hnext

/-- A token that the lexer makes is spelled as its kind says. -/
theorem Lexical.spells {t : Token} (h : t.Lexical) (hkind : t.kind = kind) : kind.Spells t.text := by
  obtain ⟨_, last, before, rfl, hgrown⟩ := h
  cases hkind
  exact hgrown.spells

theorem Lexical.eq_mk {t : Token} {word : List Char} (h : t.Lexical) (hkind : t.kind = kind)
    (hword : ∀ other, kind.Spells other → other = word) : t = ⟨kind, word⟩ := by
  have htext := hword _ (h.spells hkind)
  cases t
  cases hkind
  cases htext
  rfl

theorem Lexical.eq_command {t : Token} (h : t.Lexical) (hkind : t.kind = .command) :
    t = ⟨.command, '\\' :: t.text.tail⟩ := by
  have htext := List.eq_cons_of_mem_head? (h.spells hkind)
  cases t
  cases hkind
  exact congrArg (Token.mk _) htext

end Token

namespace EnvironmentMark

/-- The command that opens or closes an environment, as it is written. -/
def word (mark : EnvironmentMark) : List Char := '\\' :: mark.name.toList

/-- The text is `\begin` or `\end` and a name in braces, around which there may be blanks. -/
def Tags (mark : EnvironmentMark) (name source : List Char) : Prop :=
  ∃ inner, source = mark.word ++ ('\x7b' :: (inner ++ ['\x7d'])) ∧ Text.trim inner = name

end EnvironmentMark

namespace Grammar

open Token (textOf)

variable {mark : EnvironmentMark} {name : List Char} {tag : List Token}

theorem text_of_markOf? {t : Token} (h : markOf? t = some mark) : t.text = mark.word := by
  obtain ⟨-, h⟩ := Option.ite_none_right_eq_some.mp h
  split at h
  · cases h
    assumption
  · obtain ⟨heq, h⟩ := Option.ite_none_right_eq_some.mp h
    cases h
    exact heq

theorem IsTag.tags (h : IsTag mark name tag) (hlexical : ∀ t ∈ tag, t.Lexical) :
    mark.Tags name (textOf tag) := by
  cases h with
  | @intro command opener closer inner hcommand hopener hcloser _ hname =>
    have hopens : opener.text = ['\x7b'] := (hlexical opener (by simp)).spells hopener
    have hcloses : closer.text = ['\x7d'] := (hlexical closer (by simp)).spells hcloser
    refine ⟨textOf inner, ?_, hname⟩
    simp [Token.textOf_cons, text_of_markOf? hcommand, hopens, hcloses]

end Grammar

end TexAnchor
