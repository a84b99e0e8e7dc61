import TexAnchor.Text.Blank
import TexAnchor.Token.Lexer

/-! # Where a text may be cut into tokens

The lexer is local: whether a text can be read in two parts only depends on the last token of the
first part and the first character of the second.  `Token.Parted` says that this character does not
continue that token; then the tokens of the whole are those of the parts
(`tokenize_append`), and conversely every cut between two tokens of a text is of this kind
(`parted_of_tokenize_eq_append`).

`Token.Grown` is the shape that the lexer gives a token; it tells which characters a token of some
kind begins with (`Token.Lexical.head_eq`) and which ones end in a blank
(`Token.Lexical.isBlank_getLast`). -/

namespace TexAnchor

namespace Token

/-- The token would be longer if `c` came next. -/
def grows (t : Token) (c : Char) : Bool :=
  t.text.getLast?.any fun last => (continuedKind? t.kind last c).isSome

/-- The first character of `right` does not continue the last token of `left`. -/
def Parted (left : List Token) (right : List Char) : Prop :=
  ∀ t ∈ left.getLast?, ∀ c ∈ right.head?, t.grows c = false

instance (left : List Token) (right : List Char) : Decidable (Parted left right) :=
  decidable_of_iff ((left.getLast?.all fun t => right.head?.all fun c => !t.grows c) = true) (by
    simp [Parted, Option.all_eq_true])

@[simp] theorem parted_nil_left (right : List Char) : Parted [] right := by simp [Parted]

@[simp] theorem parted_nil_right (left : List Token) : Parted left [] := by simp [Parted]

@[simp] theorem grows_ending (kind : TokenKind) (last : Char) (before : List Char) (c : Char) :
    (ending kind last before).grows c = (continuedKind? kind last c).isSome := by
  simp [grows, ending]

@[simp] theorem textOf_append (a b : List Token) : textOf (a ++ b) = textOf a ++ textOf b :=
  List.flatMap_append

@[simp] theorem textOf_nil : textOf [] = [] := rfl

theorem exists_grow_eq_cons (kind : TokenKind) (last : Char) (before text : List Char) :
    ∃ t rest, grow kind last before text = t :: rest ∧ (last :: before).reverse <+: t.text := by
  induction text generalizing kind last before with
  | nil => exact ⟨_, [], rfl, List.prefix_refl _⟩
  | cons c text ih =>
    unfold grow
    split
    · next longer _ =>
      obtain ⟨t, rest, hgrow, hprefix⟩ := ih longer c (last :: before)
      refine ⟨t, rest, hgrow, List.IsPrefix.trans ?_ hprefix⟩
      rw [List.reverse_cons (a := c)]
      exact List.prefix_append _ _
    · exact ⟨_, _, rfl, List.prefix_refl _⟩

theorem grow_ne_nil (kind : TokenKind) (last : Char) (before text : List Char) :
    grow kind last before text ≠ [] := by
  obtain ⟨t, rest, h, -⟩ := exists_grow_eq_cons kind last before text
  simp [h]

/-! ### The shape of tokens -/

/-- A token of some kind that ends in `last` after `before`, which is read backwards. -/
inductive Grown : TokenKind → Char → List Char → Prop
  | first (c : Char) : Grown (firstKind c) c []
  | next {kind longer : TokenKind} {last c : Char} {before : List Char} :
    Grown kind last before → continuedKind? kind last c = some longer →
    Grown longer c (last :: before)

/-- The token is one that the lexer can make. -/
def Lexical (t : Token) : Prop :=
  ∃ kind last before, t = ending kind last before ∧ Grown kind last before

theorem lexical_of_mem_grow {kind : TokenKind} {last : Char} {before text : List Char}
    (h : Grown kind last before) {t : Token} (ht : t ∈ grow kind last before text) :
    t.Lexical := by
  induction text generalizing kind last before with
  | nil =>
    obtain rfl : t = ending kind last before := by simpa [grow] using ht
    exact ⟨kind, last, before, rfl, h⟩
  | cons c text ih =>
    unfold grow at ht
    split at ht
    · next longer hlonger => exact ih (.next h hlonger) ht
    · rcases List.mem_cons.mp ht with rfl | ht
      · exact ⟨kind, last, before, rfl, h⟩
      · exact ih (.first c) ht

theorem Lexical.text_ne_nil {t : Token} (h : t.Lexical) : t.text ≠ [] := by
  obtain ⟨kind, last, before, rfl, -⟩ := h
  simp [ending]

end Token

open Token

theorem lexical_of_mem_tokenize {text : List Char} {t : Token} (h : t ∈ tokenize text) :
    t.Lexical := by
  cases text with
  | nil => simp [tokenize] at h
  | cons c text => exact lexical_of_mem_grow (.first c) h

/-! ### Cutting a text -/

theorem Token.grow_append (kind : TokenKind) (last : Char) (before a b : List Char)
    (h : Parted (grow kind last before a) b) :
    grow kind last before (a ++ b) = grow kind last before a ++ tokenize b := by
  induction a generalizing kind last before with
  | nil =>
    cases b with
    | nil => simp [grow, tokenize]
    | cons c b =>
      have hends : continuedKind? kind last c = none := by
        simpa [Parted, grow] using h
      simp [grow, hends, tokenize]
  | cons c a ih =>
    cases hnext : continuedKind? kind last c with
    | some longer =>
      simp only [List.cons_append, grow, hnext] at h ⊢
      exact ih longer c (last :: before) h
    | none =>
      simp only [List.cons_append, grow, hnext, List.cons.injEq, true_and] at h ⊢
      apply ih (firstKind c) c []
      rwa [Parted, List.getLast?_cons_of_ne_nil (grow_ne_nil _ _ _ _)] at h

/-- Two parts that no token joins are read apart. -/
theorem tokenize_append {a b : List Char} (h : Parted (tokenize a) b) :
    tokenize (a ++ b) = tokenize a ++ tokenize b := by
  cases a with
  | nil => rfl
  | cons c a => exact grow_append (firstKind c) c [] a b h

theorem Token.parted_of_grow_eq_append {kind : TokenKind} {last : Char} {before a b : List Char}
    {left right : List Token} (hgrow : grow kind last before (a ++ b) = left ++ right)
    (htext : textOf left = (last :: before).reverse ++ a) :
    left = grow kind last before a ∧ right = tokenize b ∧ Parted left b := by
  induction a generalizing kind last before left with
  | nil =>
    cases b with
    | nil =>
      cases left with
      | nil => simp [textOf] at htext
      | cons t left =>
        simp only [List.append_nil, grow, List.cons_append, List.cons.injEq] at hgrow
        obtain ⟨rfl, hnil⟩ := hgrow
        obtain ⟨rfl, rfl⟩ := List.append_eq_nil_iff.mp hnil.symm
        exact ⟨rfl, rfl, parted_nil_right _⟩
    | cons c b =>
      have hends : continuedKind? kind last c = none := by
        apply Option.eq_none_iff_forall_ne_some.mpr
        intro longer hlonger
        obtain ⟨t, rest, hcons, hprefix⟩ := exists_grow_eq_cons longer c (last :: before) b
        simp only [List.nil_append, grow, hlonger, hcons] at hgrow
        cases left with
        | nil => simp [textOf] at htext
        | cons t' left =>
          obtain ⟨rfl, -⟩ := List.cons.inj hgrow
          have hlength := hprefix.length_le
          have htotal := congrArg List.length htext
          simp only [textOf_cons, List.length_append, List.length_reverse, List.length_cons,
            List.append_nil] at hlength htotal
          omega
      simp only [List.nil_append, grow, hends] at hgrow
      cases left with
      | nil => simp [textOf] at htext
      | cons t left =>
        simp only [List.cons_append, List.cons.injEq] at hgrow
        obtain ⟨rfl, hrest⟩ := hgrow
        obtain rfl : left = [] := by
          cases left with
          | nil => rfl
          | cons t left =>
            have hmem : t ∈ grow (firstKind c) c [] b := by rw [hrest]; simp
            have hne := (lexical_of_mem_grow (.first c) hmem).text_ne_nil
            simp only [textOf_cons, ending, List.append_nil] at htext
            simp [textOf, hne] at htext
        exact ⟨rfl, hrest.symm, by simp [Parted, hends]⟩
  | cons c a ih =>
    cases hnext : continuedKind? kind last c with
    | some longer =>
      simp only [List.cons_append, grow, hnext] at hgrow ⊢
      exact ih hgrow (by simpa using htext)
    | none =>
      simp only [List.cons_append, grow, hnext] at hgrow ⊢
      cases left with
      | nil => simp [textOf] at htext
      | cons t left =>
        simp only [List.cons_append, List.cons.injEq] at hgrow
        obtain ⟨rfl, hrest⟩ := hgrow
        have htext' : textOf left = [c].reverse ++ a := by
          simpa [textOf_cons, ending] using htext
        obtain ⟨hleft, hright, hparted⟩ := ih hrest htext'
        refine ⟨by rw [hleft], hright, ?_⟩
        rwa [Parted, List.getLast?_cons_of_ne_nil]
        rw [hleft]
        exact grow_ne_nil _ _ _ _

/-- Between two tokens a text is cut into parts that are read apart. -/
theorem parted_of_tokenize_eq_append {text : List Char} {left right : List Token}
    (h : tokenize text = left ++ right) :
    left = tokenize (textOf left) ∧ right = tokenize (textOf right) ∧
      Parted left (textOf right) := by
  have htext : text = textOf left ++ textOf right := by
    rw [← textOf_append, ← h, textOf_tokenize]
  cases left with
  | nil =>
    subst htext
    exact ⟨rfl, by simpa using h.symm, parted_nil_left _⟩
  | cons t left =>
    have hmem : t ∈ tokenize text := by rw [h]; simp
    have hne := (lexical_of_mem_tokenize hmem).text_ne_nil
    obtain ⟨c, a, hcons⟩ : ∃ c a, textOf (t :: left) = c :: a :=
      List.exists_cons_of_ne_nil (by simp [textOf_cons, hne])
    rw [htext, hcons, List.cons_append, tokenize] at h
    rw [hcons, tokenize]
    exact parted_of_grow_eq_append h hcons

theorem tokenize_between {whole text : List Char} {left x right : List Token}
    (hwhole : tokenize whole = left ++ x ++ right) (hne : text ≠ []) (hleft : Parted left text)
    (hright : Parted (tokenize text) (textOf right)) :
    tokenize (textOf left ++ text ++ textOf right) = left ++ tokenize text ++ right := by
  have hcut : tokenize whole = left ++ (x ++ right) := by rw [hwhole, List.append_assoc]
  have hleft_eq := (parted_of_tokenize_eq_append hcut).1
  have hright_eq := (parted_of_tokenize_eq_append hwhole).2.1
  have hfirst : tokenize (textOf left ++ text) = left ++ tokenize text := by
    rw [tokenize_append (hleft_eq ▸ hleft), ← hleft_eq]
  have hjoint : Parted (tokenize (textOf left ++ text)) (textOf right) := by
    have htokens : tokenize text ≠ [] := by
      intro hnil
      exact hne (by rw [← textOf_tokenize text, hnil]; rfl)
    intro t ht
    cases hlast : (tokenize text).getLast? with
    | none => exact absurd (List.getLast?_eq_none_iff.mp hlast) htokens
    | some last =>
      rw [hfirst, List.getLast?_append, hlast] at ht
      exact hright t (hlast.trans ht)
  rw [tokenize_append hjoint, hfirst, ← hright_eq]

/-! ### Tokens and blanks -/

section Blanks

open Text (isBlank)

theorem isBlank_eq_false_of_isNameChar {c : Char} (h : isNameChar c = true) : isBlank c = false := by
  apply Bool.eq_false_iff.mpr
  intro hblank
  have hname : c.toNat = 64 ∨ (65 ≤ c.toNat ∧ c.toNat ≤ 90) ∨ 97 ≤ c.toNat ∧ c.toNat ≤ 122 := by
    have hranges : isNameChar c =
        (decide (c.val ≥ 65 ∧ c.val ≤ 90) || (c.val ≥ 97 && c.val ≤ 122) || c == '@') := rfl
    simp only [hranges, Bool.or_eq_true, beq_iff_eq, decide_eq_true_eq, Bool.and_eq_true, ge_iff_le,
      UInt32.le_iff_toNat_le] at h
    rcases h with (h | h) | rfl
    · exact .inr (.inl h)
    · exact .inr (.inr h)
    · exact .inl rfl
  simp only [isBlank, Text.blankRanges, Text.inRanges] at hblank
  grind

/-- The character that all tokens of a kind begin with, for kinds that have one. -/
def TokenKind.initial? : TokenKind → Option Char
  | command | lineBreak | escapedChar | inlineMathOpen | inlineMathClose | displayMathOpen
  | displayMathClose => some '\\'
  | doubleDollar | dollar => some '$'
  | lBrace => some '\x7b'
  | rBrace => some '\x7d'
  | lBracket => some '['
  | rBracket => some ']'
  | _ => none

/-- The token kinds of single characters. -/
def TokenKind.isSingle : TokenKind → Bool
  | dollar | lBrace | rBrace | lBracket | rBracket | ampersand | tilde | stray => true
  | _ => false

theorem initial?_of_escapeKind? {c : Char} {kind : TokenKind} (h : escapeKind? c = some kind) :
    kind.initial? = some '\\' ∧ (kind = .command → isNameChar c = true) := by
  unfold escapeKind? at h
  split at h <;> grind [TokenKind.initial?]

theorem eq_of_initial?_firstKind {c d : Char} (h : (firstKind c).initial? = some d) : c = d := by
  unfold firstKind at h
  split at h <;> simp [TokenKind.initial?] at h <;> exact h

theorem eq_of_firstKind_eq_stray {c : Char} (h : firstKind c = .stray) : c = '\\' ∨ c = '\r' := by
  unfold firstKind at h
  split at h <;> simp_all

/-- How a token grows: a run goes on, or a single character becomes a token of two. -/
theorem continuedKind?_cases {kind longer : TokenKind} {last c : Char}
    (h : continuedKind? kind last c = some longer) :
    longer = kind ∧ (kind = .whitespace ∨ kind = .comment ∨ kind = .text ∨
        kind = .command ∧ (isNameChar c = true ∨ c = '*')) ∨
      kind = .dollar ∧ longer = .doubleDollar ∨
      kind = .stray ∧ last = '\r' ∧ longer = .newline ∨
      kind = .stray ∧ last ≠ '\r' ∧ escapeKind? c = some longer := by
  cases kind <;> simp only [continuedKind?] at h <;> grind

namespace Token

theorem Grown.eq_nil_of_isSingle {kind : TokenKind} {last : Char} {before : List Char}
    (h : Grown kind last before) (hkind : kind.isSingle = true) :
    before = [] ∧ firstKind last = kind := by
  cases h with
  | first => exact ⟨rfl, rfl⟩
  | next h hnext =>
    rcases continuedKind?_cases hnext with ⟨rfl, rfl | rfl | rfl | ⟨rfl, -⟩⟩ | ⟨-, rfl⟩ |
      ⟨-, -, rfl⟩ | ⟨-, -, hescape⟩
    all_goals try cases hkind
    have hinitial := (initial?_of_escapeKind? hescape).1
    cases kind <;> simp [TokenKind.isSingle, TokenKind.initial?] at hkind hinitial

theorem Grown.head_eq {kind : TokenKind} {last : Char} {before : List Char}
    (h : Grown kind last before) {c : Char} (hc : kind.initial? = some c) :
    (last :: before).reverse.head? = some c := by
  induction h with
  | first d => exact congrArg some (eq_of_initial?_firstKind hc)
  | @next kind longer last d before h hnext ih =>
    rw [List.reverse_cons, List.head?_append]
    rcases continuedKind?_cases hnext with ⟨rfl, -⟩ | ⟨rfl, rfl⟩ | ⟨-, -, rfl⟩ | ⟨rfl, hlast, hescape⟩
    · rw [ih hc]
      rfl
    · rw [ih hc]
      rfl
    · cases hc
    · obtain ⟨rfl, hstray⟩ := h.eq_nil_of_isSingle rfl
      rcases eq_of_firstKind_eq_stray hstray with rfl | hr
      · rw [(initial?_of_escapeKind? hescape).1] at hc
        exact hc
      · exact absurd hr hlast

theorem Lexical.head_eq {t : Token} (h : t.Lexical) {c : Char} (hc : t.kind.initial? = some c) :
    t.text.head? = some c := by
  obtain ⟨kind, last, before, rfl, hgrown⟩ := h
  exact hgrown.head_eq hc

theorem Grown.last_of_command {last : Char} {before : List Char} (h : Grown .command last before) :
    isNameChar last = true ∨ last = '*' := by
  generalize hkind : TokenKind.command = kind at h
  cases h with
  | first c =>
    unfold firstKind at hkind
    split at hkind <;> cases hkind
  | next h hnext =>
    subst hkind
    rcases continuedKind?_cases hnext with ⟨rfl, hrun⟩ | ⟨-, h⟩ | ⟨-, -, h⟩ | ⟨-, -, hescape⟩
    · simpa using hrun
    · cases h
    · cases h
    · exact .inl ((initial?_of_escapeKind? hescape).2 rfl)

/-- What takes a parameter block does not end in a blank. -/
theorem Lexical.isBlank_getLast {t : Token} (h : t.Lexical)
    (hkind : t.kind = .command ∨ t.kind = .rBrace ∨ t.kind = .rBracket) :
    ∀ c ∈ t.text.getLast?, isBlank c = false := by
  obtain ⟨kind, last, before, rfl, hgrown⟩ := h
  intro c hc
  obtain rfl : last = c := by simpa [ending] using hc
  rcases (hkind : kind = .command ∨ kind = .rBrace ∨ kind = .rBracket) with rfl | rfl | rfl
  · rcases hgrown.last_of_command with hname | rfl
    · exact isBlank_eq_false_of_isNameChar hname
    · decide
  · obtain rfl := eq_of_initial?_firstKind (d := '\x7d') (by
      rw [(hgrown.eq_nil_of_isSingle rfl).2]
      rfl)
    decide
  · obtain rfl := eq_of_initial?_firstKind (d := ']') (by
      rw [(hgrown.eq_nil_of_isSingle rfl).2]
      rfl)
    decide

/-- A token that ends in a blank and is continued by a backslash or a dollar sign is a comment. -/
theorem Lexical.kind_eq_comment {t : Token} (h : t.Lexical) {c : Char} (hc : c = '\\' ∨ c = '$')
    (hblank : ∀ c ∈ t.text.getLast?, isBlank c = true) (hgrows : t.grows c = true) :
    t.kind = .comment := by
  obtain ⟨kind, last, before, rfl, hgrown⟩ := h
  replace hblank : isBlank last = true := hblank last (by simp [ending])
  rw [grows_ending] at hgrows
  cases kind with
  | dollar =>
    obtain rfl := eq_of_initial?_firstKind (d := '$') (by
      rw [(hgrown.eq_nil_of_isSingle rfl).2]
      rfl)
    cases hblank
  | stray =>
    rcases eq_of_firstKind_eq_stray (hgrown.eq_nil_of_isSingle rfl).2 with rfl | rfl
    · cases hblank
    · rcases hc with rfl | rfl <;> cases hgrows
  | comment => rfl
  | command =>
    rcases hc with rfl | rfl <;> simp [continuedKind?, isNameChar] at hgrows
  | _ => rcases hc with rfl | rfl <;> cases hgrows

/-- The token kinds that a blank can continue. -/
def takesBlanks : TokenKind → Bool
  | .whitespace | .comment | .text | .stray => true
  | _ => false

theorem grows_eq_false_of_isBlank {t : Token} (h : takesBlanks t.kind = false) {c : Char}
    (hc : isBlank c = true) : t.grows c = false := by
  have hname : isNameChar c = false := Bool.eq_false_iff.mpr fun hname => by
    rw [isBlank_eq_false_of_isNameChar hname] at hc
    cases hc
  have hstar : c ≠ '*' := by
    rintro rfl
    cases hc
  have hdollar : c ≠ '$' := by
    rintro rfl
    cases hc
  unfold grows
  cases t.text.getLast? with
  | none => rfl
  | some last =>
    cases hkind : t.kind <;> simp [hkind, takesBlanks] at h <;>
      simp [continuedKind?, hname, hstar, hdollar]

theorem grows_of_comment {t : Token} (hlexical : t.Lexical) (h : t.kind = .comment) {c : Char}
    (hc : c ≠ '\n') : t.grows c = true := by
  obtain ⟨last, hlast⟩ := Option.ne_none_iff_exists'.mp
    (mt List.getLast?_eq_none_iff.mp hlexical.text_ne_nil)
  simp [grows, hlast, h, continuedKind?, hc]

/-! ### The ends of a text -/

theorem head?_textOf {tokens : List Token} (h : ∀ t ∈ tokens, t.Lexical) :
    (textOf tokens).head? = tokens.head?.bind fun t => t.text.head? := by
  cases tokens with
  | nil => rfl
  | cons t tokens =>
    obtain ⟨c, rest, htext⟩ := List.exists_cons_of_ne_nil (h t (by simp)).text_ne_nil
    simp [textOf_cons, htext]

theorem getLast?_textOf {tokens : List Token} (h : ∀ t ∈ tokens, t.Lexical) :
    (textOf tokens).getLast? = tokens.getLast?.bind fun t => t.text.getLast? := by
  induction tokens with
  | nil => rfl
  | cons t tokens ih =>
    cases tokens with
    | nil => simp [textOf_cons]
    | cons second tokens =>
      have hne : textOf (second :: tokens) ≠ [] := by
        simp [textOf_cons, (h second (by simp)).text_ne_nil]
      rw [List.getLast?_cons_cons, ← ih fun t ht => h t (List.mem_cons_of_mem _ ht), textOf_cons,
        List.getLast?_append, List.getLast?_eq_some_getLast hne]
      rfl

end Token

end Blanks

end TexAnchor
