import TexAnchor.Proofs.Replacing

/-! # Every text has at most one derivation

What a construct is and where it ends is settled by its tokens and the one behind it.  The first
token says how a construct begins (`begins?`), so two constructs over the same tokens are of one
production (`Produces.beginning?_eq`); each production then stops at the same place on both sides
(`Produces.determined`).  Lists of items stop where no item begins, and lists of blocks where no
block begins (`eq_of_tokensOf_append_eq`).

So a text has at most one derivation (`Derives.eq`).  It can be parsed if and only if it has one,
and the tree of the parsed document is that of its derivation (`Document.parse_iff_derives`). -/

namespace TexAnchor

namespace Grammar

open Text (Coord)
open Token (textOf)

/-! ### How constructs begin -/

/-- The ways in which constructs begin.  Both kinds of environments begin with a tag. -/
inductive Beginning
  | space
  | comment
  | symbol
  | text
  | group
  | math
  | command
  | tag
  | curlyBlock
  | squareBlock
deriving DecidableEq, Repr

/-- How a node of this kind begins; nothing but an item or a block has a beginning of its own. -/
def beginning? : NodeKind → Option Beginning
  | .whitespace _ => some .space
  | .comment _ => some .comment
  | .specialSymbol _ => some .symbol
  | .text _ => some .text
  | .group => some .group
  | .math (.environment _) _ => some .tag
  | .math _ _ => some .math
  | .command _ => some .command
  | .environment _ _ => some .tag
  | .curlyBlock => some .curlyBlock
  | .squareBlock => some .squareBlock
  | _ => none

/-- What begins with a token, in content or next to a head. -/
def begins? : Role → Token → Option Beginning
  | .document, _ => none
  | .item, t =>
    match t.kind with
    | .whitespace | .newline => some .space
    | .comment => some .comment
    | .ampersand | .tilde | .lineBreak | .escapedChar => some .symbol
    | .text | .lBracket | .rBracket | .stray => some .text
    | .lBrace => some .group
    | .dollar | .doubleDollar | .inlineMathOpen | .displayMathOpen => some .math
    | .command =>
      match markOf? t with
      | some .opening => some .tag
      | some .closing => none
      | none => some .command
    | .rBrace | .inlineMathClose | .displayMathClose => none
  | .block, t =>
    match t.kind with
    | .lBrace => some .curlyBlock
    | .lBracket => some .squareBlock
    | _ => none

/-- Nothing of a role begins with the first of the tokens. -/
def Stops (role : Role) (rest : List Token) : Prop :=
  ∀ t ∈ rest.head?, begins? role t = none

/-- The construct would not take the first of the tokens. -/
def Ends (m : Markup) (rest : List Token) : Prop :=
  ∀ t ∈ rest.head?, m.takes t.kind = false

theorem begins?_of_isSpace {t : Token} (h : t.kind.isSpace = true) :
    begins? .item t = some .space := by
  cases hkind : t.kind <;> simp_all [TokenKind.isSpace, begins?]

theorem begins?_of_isSymbolKind {t : Token} (h : isSymbolKind t.kind = true) :
    begins? .item t = some .symbol := by
  cases hkind : t.kind <;> simp_all [isSymbolKind, begins?]

theorem begins?_of_isTextKind {t : Token} (h : isTextKind t.kind = true) :
    begins? .item t = some .text := by
  cases hkind : t.kind <;> simp_all [isTextKind, begins?]

theorem begins?_of_isMathOpener {t : Token} (h : isMathOpener t.kind = true) :
    begins? .item t = some .math := by
  cases hkind : t.kind <;> simp_all [isMathOpener, begins?]

theorem beginning?_math {opener : TokenKind} (content : String) :
    beginning? (.math (mathDelimiter opener).2 content) = some .math := by
  cases opener <;> rfl

theorem IsTag.exists_begins {name : List Char} {tag : List Token} (h : IsTag .opening name tag) :
    ∃ t rest, tag = t :: rest ∧ begins? .item t = some .tag := by
  obtain @⟨command, opener, closer, inner, hcommand, -, -, -, -⟩ := h
  refine ⟨command, _, rfl, ?_⟩
  simp [begins?, kind_of_markOf? hcommand, hcommand]

/-- The first token of a construct says how it begins. -/
theorem Produces.exists_begins {role : Role} {kind : NodeKind} {parts : List Markup}
    (h : Produces role (.node kind parts)) (hrole : role ≠ .document) :
    ∃ t, (Markup.node kind parts).tokens.head? = some t ∧ begins? role t = beginning? kind ∧
      beginning? kind ≠ none := by
  cases h with
  | document => exact absurd rfl hrole
  | @space run hne hrun =>
    obtain ⟨t, run, rfl⟩ := List.exists_cons_of_ne_nil hne
    exact ⟨t, by simp, begins?_of_isSpace (hrun t (by simp)), by simp [beginning?]⟩
  | @comment t hkind =>
    exact ⟨t, by simp, by simp [begins?, hkind, beginning?], by simp [beginning?]⟩
  | @symbol t hkind => exact ⟨t, by simp, begins?_of_isSymbolKind hkind, by simp [beginning?]⟩
  | @text t hkind => exact ⟨t, by simp, begins?_of_isTextKind hkind, by simp [beginning?]⟩
  | @group opener _ _ hopener =>
    exact ⟨opener, by simp, by simp [begins?, hopener, beginning?], by simp [beginning?]⟩
  | @math opener _ _ hopener =>
    refine ⟨opener, by simp, ?_, by simp [beginning?_math]⟩
    rw [beginning?_math, begins?_of_isMathOpener hopener]
  | @command t _ hkind hmark =>
    exact ⟨t, by simp, by simp [begins?, hkind, hmark, beginning?], by simp [beginning?]⟩
  | environment hopening =>
    obtain ⟨t, rest, rfl, ht⟩ := hopening.exists_begins
    exact ⟨t, by simp, ht, by simp [beginning?]⟩
  | mathEnvironment hopening =>
    obtain ⟨t, rest, rfl, ht⟩ := hopening.exists_begins
    exact ⟨t, by simp, ht, by simp [beginning?]⟩
  | @curlyBlock opener _ _ hopener =>
    exact ⟨opener, by simp, by simp [begins?, hopener, beginning?], by simp [beginning?]⟩
  | @squareBlock opener _ _ hopener =>
    exact ⟨opener, by simp, by simp [begins?, hopener, beginning?], by simp [beginning?]⟩

/-- Constructs of one role over the same tokens begin in the same way. -/
theorem Produces.beginning?_eq {role : Role} {kind kind' : NodeKind} {parts parts' : List Markup}
    {rest rest' : List Token} (h : Produces role (.node kind parts))
    (h' : Produces role (.node kind' parts')) (hrole : role ≠ .document)
    (heq : (Markup.node kind parts).tokens ++ rest = (Markup.node kind' parts').tokens ++ rest') :
    beginning? kind' = beginning? kind := by
  obtain ⟨t, hhead, hbegins, -⟩ := h.exists_begins hrole
  obtain ⟨t', hhead', hbegins', -⟩ := h'.exists_begins hrole
  have hfirst := congrArg List.head? heq
  rw [List.head?_append, List.head?_append, hhead, hhead'] at hfirst
  rw [← hbegins, ← hbegins', Option.some.inj hfirst]

theorem Stops.ends {role : Role} {m : Markup} {rest : List Token} (h : Produces role m)
    (hrest : Stops role rest) : Ends m rest := by
  intro t ht
  have hstops := hrest t ht
  cases role with
  | document =>
    cases h
    rfl
  | block => exact h.takes_block t.kind
  | item =>
    apply Bool.eq_false_iff.mpr
    intro htakes
    rcases Markup.isSpace_or_opensBlock_of_takes htakes with hspace | hopens
    · rw [begins?_of_isSpace hspace] at hstops
      cases hstops
    · cases hkind : t.kind <;> simp_all [TokenKind.opensBlock, begins?]

/-! ### Raw material -/

/-- Tokens up to the first that is not of a sort are settled by the tokens. -/
theorem eq_of_append_eq_of_all (p : Token → Bool) {a b rest rest' : List Token}
    (ha : ∀ t ∈ a, p t = true) (hb : ∀ t ∈ b, p t = true) (hrest : ∀ t ∈ rest.head?, p t = false)
    (hrest' : ∀ t ∈ rest'.head?, p t = false) (h : a ++ rest = b ++ rest') :
    a = b ∧ rest = rest' := by
  have htake {a rest : List Token} (ha : ∀ t ∈ a, p t = true)
      (hrest : ∀ t ∈ rest.head?, p t = false) : (a ++ rest).takeWhile p = a := by
    rw [List.takeWhile_append_of_pos ha]
    cases rest with
    | nil => simp
    | cons t rest => simp [hrest t rfl]
  obtain rfl : a = b := by rw [← htake ha hrest, h, htake hb hrest']
  exact ⟨rfl, List.append_cancel_left h⟩

/-- The closing bracket of a square block is settled by the tokens behind the opening one. -/
theorem EndsOutside.eq_of_append_eq {depth : Nat} {a b rest rest' : List Token}
    {closer closer' : Token} (ha : EndsOutside depth a) (hb : EndsOutside depth b)
    (hcloser : closer.kind = .rBracket) (hcloser' : closer'.kind = .rBracket)
    (h : a ++ closer :: rest = b ++ closer' :: rest') :
    a = b ∧ closer = closer' ∧ rest = rest' := by
  induction a generalizing b depth with
  | nil =>
    cases b with
    | nil => exact ⟨rfl, List.cons.inj h⟩
    | cons t b =>
      obtain ⟨rfl, -⟩ := List.cons.inj h
      exact absurd ha (hb.1 hcloser)
  | cons t a ih =>
    cases b with
    | nil =>
      obtain ⟨rfl, -⟩ := List.cons.inj h
      exact absurd hb (ha.1 hcloser')
    | cons t' b =>
      rw [List.cons_append, List.cons_append, List.cons.injEq] at h
      obtain ⟨rfl, h⟩ := h
      obtain ⟨rfl, hrest⟩ := ih ha.2 hb.2 h
      exact ⟨rfl, hrest⟩

theorem IsTag.name_eq {mark mark' : EnvironmentMark} {name name' : List Char} {tag : List Token}
    (h : IsTag mark name tag) (h' : IsTag mark' name' tag) : name = name' := by
  obtain @⟨command, opener, closer, inner, -, -, -, -, hname⟩ := h
  generalize htag : command :: opener :: (inner ++ [closer]) = tag at h'
  obtain @⟨command', opener', closer', inner', -, -, -, -, hname'⟩ := h'
  obtain rfl : inner = inner' := by
    simp only [List.cons.injEq] at htag
    exact List.append_inj_left' htag.2.2 rfl
  rw [← hname, ← hname']

/-- A tag ends with its first closing brace, so another tag in it is its end. -/
theorem IsTag.eq_nil_of_append {mark mark' : EnvironmentMark} {name name' : List Char}
    {tag tag' before later : List Token} (h : IsTag mark name tag) (h' : IsTag mark' name' tag')
    (heq : tag = before ++ tag' ++ later) : later = [] := by
  obtain ⟨init, closer, rfl, hcloser⟩ := h'.exists_eq_append
  have hwhole : tag = (before ++ init) ++ closer :: later := by simpa using heq
  exact h.eq_nil_of_rBrace hwhole hcloser

theorem IsTag.eq_of_append_eq {mark mark' : EnvironmentMark} {name name' : List Char}
    {tag tag' rest rest' : List Token} (h : IsTag mark name tag) (h' : IsTag mark' name' tag')
    (heq : tag ++ rest = tag' ++ rest') : tag = tag' ∧ rest = rest' := by
  rcases List.append_eq_append_iff.mp heq with ⟨later, rfl, rfl⟩ | ⟨later, rfl, rfl⟩
  · obtain rfl : later = [] := h'.eq_nil_of_append h (show _ = [] ++ tag ++ later from rfl)
    simp
  · obtain rfl : later = [] := h.eq_nil_of_append h' (show _ = [] ++ tag' ++ later from rfl)
    simp

theorem IsFirstEnd.length_le {name : List Char} {content tag content' tag' rest rest' : List Token}
    (h : IsFirstEnd name content tag) (h' : IsFirstEnd name content' tag')
    (heq : content ++ tag ++ rest = content' ++ tag' ++ rest') :
    content'.length ≤ content.length := by
  rcases Nat.le_total content'.length content.length with hle | hle
  · exact hle
  rcases List.append_eq_append_iff.mp heq with ⟨later, hwhole, -⟩ | ⟨later, hwhole, -⟩
  · exact h'.2 content tag later hwhole h.1
  · -- The whole of `content' ++ tag'` lies in `content ++ tag`, so `tag'` ends where `tag` does.
    have hleft : content <+: content ++ tag ++ rest := ⟨tag ++ rest, by simp⟩
    have hright : content' <+: content ++ tag ++ rest := ⟨tag' ++ rest', by rw [heq]; simp⟩
    obtain ⟨between, rfl⟩ := List.prefix_of_prefix_length_le hleft hright hle
    have htag : tag = between ++ tag' ++ later := by simpa using hwhole
    obtain rfl : later = [] := h.1.eq_nil_of_append h'.1 htag
    exact h'.2 content tag [] (by simp [htag]) h.1

theorem IsFirstEnd.eq_of_append_eq {name : List Char}
    {content tag content' tag' rest rest' : List Token} (h : IsFirstEnd name content tag)
    (h' : IsFirstEnd name content' tag')
    (heq : content ++ tag ++ rest = content' ++ tag' ++ rest') :
    content = content' ∧ tag = tag' ∧ rest = rest' := by
  have hlength : content.length = content'.length :=
    Nat.le_antisymm (h'.length_le h heq.symm) (h.length_le h' heq)
  rw [List.append_assoc, List.append_assoc] at heq
  obtain ⟨hcontent, heq⟩ := List.append_inj heq hlength
  exact ⟨hcontent, h.1.eq_of_append_eq h'.1 heq⟩

/-! ### Constructs and lists of constructs -/

/-- The construct is the only one of its role over its tokens, given that the next token is not
taken. -/
def Determined (role : Role) (m : Markup) : Prop :=
  ∀ m' rest rest', Produces role m' → m.tokens ++ rest = m'.tokens ++ rest' → Ends m rest →
    Ends m' rest' → m = m'

theorem ends_of_chained {role : Role} {m : Markup} {ms : List Markup} {rest : List Token}
    (hrole : role ≠ .document) (hms : ∀ n ∈ m :: ms, Produces role n) (hchain : Chained (m :: ms))
    (hrest : Stops role rest) : Ends m (Markup.tokensOf ms ++ rest) := by
  cases ms with
  | nil => simpa using hrest.ends (hms m (by simp))
  | cons next ms =>
    obtain ⟨kind, parts, rfl⟩ := (hms next (by simp)).exists_eq_node
    obtain ⟨t, hhead, -⟩ := (hms (.node kind parts) (by simp)).exists_begins hrole
    intro t' ht'
    rw [Markup.tokensOf_cons, List.append_assoc, List.head?_append, hhead] at ht'
    obtain rfl : t = t' := Option.some.inj ht'
    have hfollows := (List.isChain_cons_cons.mp hchain).1
    exact hfollows t.kind (by rw [Markup.firstKind?, hhead]; rfl)

/-- Lists of constructs up to where no more of them begins are settled by the tokens. -/
theorem eq_of_tokensOf_append_eq {role : Role} (hrole : role ≠ .document) {ms ms' : List Markup}
    {rest rest' : List Token} (hdetermined : ∀ m ∈ ms, Determined role m)
    (hms : ∀ m ∈ ms, Produces role m) (hms' : ∀ m ∈ ms', Produces role m) (hchain : Chained ms)
    (hchain' : Chained ms') (hrest : Stops role rest) (hrest' : Stops role rest')
    (heq : Markup.tokensOf ms ++ rest = Markup.tokensOf ms' ++ rest') :
    ms = ms' ∧ rest = rest' := by
  have hnone {m : Markup} {ms : List Markup} {rest rest' : List Token} (hm : Produces role m)
      (hstops : Stops role rest) (heq : rest = Markup.tokensOf (m :: ms) ++ rest') : False := by
    obtain ⟨kind, parts, rfl⟩ := hm.exists_eq_node
    obtain ⟨t, hhead, hbegins, hsome⟩ := hm.exists_begins hrole
    rw [← hbegins] at hsome
    refine hsome (hstops t ?_)
    rw [heq, Markup.tokensOf_cons, List.append_assoc, List.head?_append, hhead]
    rfl
  induction ms generalizing ms' with
  | nil =>
    cases ms' with
    | nil => exact ⟨rfl, by simpa using heq⟩
    | cons m' ms' => exact (hnone (hms' m' (by simp)) hrest (by simpa using heq)).elim
  | cons m ms ih =>
    cases ms' with
    | nil => exact (hnone (hms m (by simp)) hrest' (by simpa using heq.symm)).elim
    | cons m' ms' =>
      have hends := ends_of_chained hrole hms hchain hrest
      have hends' := ends_of_chained hrole hms' hchain' hrest'
      rw [Markup.tokensOf_cons, Markup.tokensOf_cons, List.append_assoc, List.append_assoc] at heq
      obtain rfl := hdetermined m (by simp) m' _ _ (hms' m' (by simp)) heq hends hends'
      obtain ⟨rfl, hrest⟩ := ih (fun n hn => hdetermined n (by simp [hn]))
        (fun n hn => hms n (by simp [hn])) (fun n hn => hms' n (by simp [hn])) hchain.of_cons
        hchain'.of_cons (List.append_cancel_left heq)
      exact ⟨rfl, hrest⟩

theorem chained_blocks {blocks : List Markup} (h : ∀ m ∈ blocks, Produces .block m) :
    Chained blocks := by
  induction blocks with
  | nil => exact List.IsChain.nil
  | cons m blocks ih =>
    refine List.IsChain.cons (ih fun n hn => h n (by simp [hn])) fun next _ kind _ => ?_
    exact (h m (by simp)).takes_block kind

theorem stops_rBrace {t : Token} (h : t.kind = .rBrace) (rest : List Token) :
    Stops .item (t :: rest) := by
  intro t' ht'
  obtain rfl : t = t' := Option.some.inj ht'
  simp [begins?, h]

theorem stops_closing {name : List Char} {tag : List Token} (h : IsTag .closing name tag)
    (rest : List Token) : Stops .item (tag ++ rest) := by
  obtain @⟨command, opener, closer, inner, hcommand, -, -, -, -⟩ := h
  intro t ht
  obtain rfl : command = t := Option.some.inj ht
  simp [begins?, kind_of_markOf? hcommand, hcommand]

theorem stops_block {rest : List Token} (h : ∀ t ∈ rest.head?, t.kind.opensBlock = false) :
    Stops .block rest := by
  intro t ht
  have hopens := h t ht
  cases hkind : t.kind <;> simp_all [begins?, TokenKind.opensBlock]

theorem stops_body {name : List Char} {body : List Markup} {closing : List Token}
    (hbody : ∀ m ∈ body, Produces .item m) (hbegins : BeginsBody body)
    (hclosing : IsTag .closing name closing) (rest : List Token) :
    Stops .block (Markup.tokensOf body ++ (closing ++ rest)) := by
  apply stops_block
  intro t ht
  cases body with
  | nil =>
    obtain @⟨command, opener, closer, inner, hcommand, -, -, -, -⟩ := hclosing
    obtain rfl : command = t := by simpa using ht
    simp [kind_of_markOf? hcommand, TokenKind.opensBlock]
  | cons m body =>
    obtain ⟨kind, parts, rfl⟩ := (hbody m (by simp)).exists_eq_node
    obtain ⟨t', hhead, -⟩ := (hbody (.node kind parts) (by simp)).exists_begins (by simp)
    rw [Markup.tokensOf_cons, List.append_assoc, List.head?_append, hhead] at ht
    obtain rfl : t' = t := Option.some.inj ht
    exact hbegins _ rfl t'.kind (by rw [Markup.firstKind?, hhead]; rfl)

theorem eq_of_braces {opener opener' closer closer' : Token} {body body' : List Markup}
    {rest rest' : List Token} (hcloser : closer.kind = .rBrace) (hcloser' : closer'.kind = .rBrace)
    (hdetermined : ∀ m ∈ body, Determined .item m) (hbody : IsContent body)
    (hbody' : IsContent body') (heq : opener :: (Markup.tokensOf body ++ closer :: rest) =
      opener' :: (Markup.tokensOf body' ++ closer' :: rest')) :
    opener = opener' ∧ body = body' ∧ closer = closer' := by
  rw [List.cons.injEq] at heq
  obtain ⟨hbodies, hrest⟩ := eq_of_tokensOf_append_eq (by simp) hdetermined hbody.1 hbody'.1 hbody.2
    hbody'.2 (stops_rBrace hcloser rest) (stops_rBrace hcloser' rest') heq.2
  exact ⟨heq.1, hbodies, (List.cons.inj hrest).1⟩

/-- It is enough to look at constructs that begin in the same way. -/
theorem determined_of {role : Role} {kind : NodeKind} {parts : List Markup}
    (h : Produces role (.node kind parts)) (hrole : role ≠ .document)
    (hsame : ∀ kind' parts' rest rest', Produces role (.node kind' parts') →
      beginning? kind' = beginning? kind →
      Markup.tokensOf parts ++ rest = Markup.tokensOf parts' ++ rest' →
      Ends (.node kind parts) rest → Ends (.node kind' parts') rest' →
      Markup.node kind parts = .node kind' parts') : Determined role (.node kind parts) := by
  intro m' rest rest' h' heq hends hends'
  obtain ⟨kind', parts', rfl⟩ := h'.exists_eq_node
  refine hsame kind' parts' rest rest' h' (h.beginning?_eq h' hrole heq) ?_ hends hends'
  simpa using heq

theorem determined_space {run : List Token} (hne : run ≠ [])
    (hrun : ∀ t ∈ run, t.kind.isSpace = true) :
    Determined .item (.node (.whitespace (run.countP (·.kind = .newline))) [.raw run]) := by
  refine determined_of (.space hne hrun) (by simp)
    fun kind' parts' rest rest' h' hkind heq hends hends' => ?_
  cases h' with
  | @space run' hne' hrun' =>
    obtain ⟨rfl, -⟩ := eq_of_append_eq_of_all (fun t => t.kind.isSpace) hrun hrun' hends hends'
      (by simpa using heq)
    rfl
  | math => cases (beginning?_math _).symm.trans hkind
  | _ => cases hkind

/-- The kind of an item that is a single token. -/
def Beginning.single? : Beginning → Option (Token → NodeKind)
  | .comment => some fun t => .comment (String.ofList t.text.tail)
  | .symbol => some fun t => .specialSymbol (String.ofList t.text)
  | .text => some fun t => .text (String.ofList t.text)
  | _ => none

theorem Produces.exists_single {kind : NodeKind} {parts : List Markup}
    (h : Produces .item (.node kind parts)) {b : Beginning} {make : Token → NodeKind}
    (hbegins : beginning? kind = some b) (hsingle : b.single? = some make) :
    ∃ t, kind = make t ∧ parts = [.raw [t]] := by
  cases h with
  | comment | symbol | text =>
    cases hbegins
    cases hsingle
    exact ⟨_, rfl, rfl⟩
  | math =>
    cases (beginning?_math _).symm.trans hbegins
    cases hsingle
  | _ =>
    cases hbegins
    cases hsingle

theorem determined_single {kind : NodeKind} {t : Token} (h : Produces .item (.node kind [.raw [t]]))
    {b : Beginning} {make : Token → NodeKind} (hbegins : beginning? kind = some b)
    (hsingle : b.single? = some make) : Determined .item (.node kind [.raw [t]]) := by
  refine determined_of h (by simp) fun kind' parts' rest rest' h' hkind heq _ _ => ?_
  obtain ⟨_, rfl, hparts⟩ := h.exists_single hbegins hsingle
  obtain ⟨t', rfl, rfl⟩ := h'.exists_single (hkind.trans hbegins) hsingle
  obtain ⟨rfl, -⟩ : t = t' ∧ rest = rest' := by simpa using heq
  cases hparts
  rfl

theorem determined_math {opener closer : Token} {inner : List Token}
    (hopener : isMathOpener opener.kind = true)
    (hcloser : closer.kind = (mathDelimiter opener.kind).1)
    (hinner : ∀ t ∈ inner, t.kind ≠ closer.kind) :
    Determined .item (.node (.math (mathDelimiter opener.kind).2 (String.ofList (textOf inner)))
      [.raw (opener :: (inner ++ [closer]))]) := by
  refine determined_of (.math hopener hcloser hinner) (by simp)
    fun kind' parts' rest rest' h' hkind heq _ _ => ?_
  rw [beginning?_math] at hkind
  cases h' with
  | @math opener' closer' inner' _ hcloser' hinner' =>
    have heq : opener = opener' ∧ inner ++ closer :: rest = inner' ++ closer' :: rest' := by
      simpa using heq
    obtain ⟨rfl, hbehind⟩ := heq
    have hsame : closer'.kind = closer.kind := hcloser'.trans hcloser.symm
    have hstop (t : Token) (rest : List Token) (ht : t.kind = closer.kind) :
        ∀ t' ∈ (t :: rest).head?, (t'.kind != closer.kind) = false := by simp [ht]
    obtain ⟨rfl, hrest⟩ := eq_of_append_eq_of_all (fun t => t.kind != closer.kind)
      (fun t ht => bne_iff_ne.mpr (hinner t ht))
      (fun t ht => bne_iff_ne.mpr (hsame ▸ hinner' t ht)) (hstop closer rest rfl)
      (hstop closer' rest' hsame) hbehind
    rw [(List.cons.inj hrest).1]
  | _ => cases hkind

theorem determined_group {opener closer : Token} {body : List Markup}
    (hopener : opener.kind = .lBrace) (hcloser : closer.kind = .rBrace) (hbody : IsContent body)
    (hdetermined : ∀ m ∈ body, Determined .item m) :
    Determined .item (.node .group (.raw [opener] :: (body ++ [.raw [closer]]))) := by
  refine determined_of (.group hopener hcloser hbody.1 hbody.2) (by simp)
    fun kind' parts' rest rest' h' hkind heq _ _ => ?_
  cases h' with
  | group _ hcloser' hbody' hchain' =>
    obtain ⟨rfl, rfl, rfl⟩ := eq_of_braces hcloser hcloser' hdetermined hbody ⟨hbody', hchain'⟩
      (by simpa using heq)
    rfl
  | math => cases (beginning?_math _).symm.trans hkind
  | _ => cases hkind

theorem determined_curlyBlock {opener closer : Token} {body : List Markup}
    (hopener : opener.kind = .lBrace) (hcloser : closer.kind = .rBrace) (hbody : IsContent body)
    (hdetermined : ∀ m ∈ body, Determined .item m) :
    Determined .block (.node .curlyBlock (.raw [opener] :: (body ++ [.raw [closer]]))) := by
  refine determined_of (.curlyBlock hopener hcloser hbody.1 hbody.2) (by simp)
    fun kind' parts' rest rest' h' hkind heq _ _ => ?_
  cases h' with
  | curlyBlock _ hcloser' hbody' hchain' =>
    obtain ⟨rfl, rfl, rfl⟩ := eq_of_braces hcloser hcloser' hdetermined hbody ⟨hbody', hchain'⟩
      (by simpa using heq)
    rfl
  | squareBlock => cases hkind

theorem determined_squareBlock {opener closer : Token} {inner : List Token}
    (hopener : opener.kind = .lBracket) (hcloser : closer.kind = .rBracket)
    (hinner : EndsOutside 0 inner) :
    Determined .block (.node .squareBlock [.raw [opener], .items inner, .raw [closer]]) := by
  refine determined_of (.squareBlock hopener hcloser hinner) (by simp)
    fun kind' parts' rest rest' h' hkind heq _ _ => ?_
  cases h' with
  | @squareBlock opener' closer' inner' _ hcloser' hinner' =>
    have heq : opener = opener' ∧ inner ++ closer :: rest = inner' ++ closer' :: rest' := by
      simpa using heq
    obtain ⟨rfl, hbehind⟩ := heq
    obtain ⟨rfl, rfl, -⟩ := hinner.eq_of_append_eq hinner' hcloser hcloser' hbehind
    rfl
  | curlyBlock => cases hkind

theorem determined_command {t : Token} {blocks : List Markup} (ht : t.kind = .command)
    (hmark : markOf? t = none) (hblocks : ∀ m ∈ blocks, Produces .block m)
    (hdetermined : ∀ m ∈ blocks, Determined .block m) :
    Determined .item (.node (.command (String.ofList t.text.tail)) (.raw [t] :: blocks)) := by
  refine determined_of (.command ht hmark hblocks) (by simp)
    fun kind' parts' rest rest' h' hkind heq hends hends' => ?_
  cases h' with
  | @command t' blocks' _ _ hblocks' =>
    have heq : t = t' ∧ Markup.tokensOf blocks ++ rest = Markup.tokensOf blocks' ++ rest' := by
      simpa using heq
    obtain ⟨rfl, hbehind⟩ := heq
    obtain ⟨rfl, -⟩ := eq_of_tokensOf_append_eq (by simp) hdetermined hblocks hblocks'
      (chained_blocks hblocks) (chained_blocks hblocks') (stops_block hends) (stops_block hends')
      hbehind
    rfl
  | math => cases (beginning?_math _).symm.trans hkind
  | _ => cases hkind

theorem determined_environment {name : List Char} {opening closing : List Token}
    {blocks body : List Markup} (hopening : IsTag .opening name opening)
    (hplain : mathEnvironments.contains (String.ofList name) = false)
    (hblocks : ∀ m ∈ blocks, Produces .block m) (hbody : IsContent body) (hbegins : BeginsBody body)
    (hclosing : IsTag .closing name closing) (hdetermined : ∀ m ∈ blocks, Determined .block m)
    (hdetermined' : ∀ m ∈ body, Determined .item m) :
    Determined .item (.node (.environment (String.ofList name) blocks.length)
      (.raw opening :: (blocks ++ (body ++ [.raw closing])))) := by
  refine determined_of (.environment hopening hplain hblocks hbody.1 hbody.2 hbegins hclosing)
    (by simp) fun kind' parts' rest rest' h' hkind heq _ _ => ?_
  cases h' with
  | @environment name' opening' closing' blocks' body' hopening' _ hblocks' hbody' hchain' hbegins'
      hclosing' =>
    have heq : opening ++ (Markup.tokensOf blocks ++ (Markup.tokensOf body ++ (closing ++ rest))) =
        opening' ++ (Markup.tokensOf blocks' ++ (Markup.tokensOf body' ++ (closing' ++ rest'))) :=
      by simpa using heq
    obtain ⟨rfl, hhead⟩ := hopening.eq_of_append_eq hopening' heq
    obtain rfl := hopening.name_eq hopening'
    obtain ⟨rfl, hbodies⟩ := eq_of_tokensOf_append_eq (by simp) hdetermined hblocks hblocks'
      (chained_blocks hblocks) (chained_blocks hblocks')
      (stops_body hbody.1 hbegins hclosing rest) (stops_body hbody' hbegins' hclosing' rest') hhead
    obtain ⟨rfl, htags⟩ := eq_of_tokensOf_append_eq (by simp) hdetermined' hbody.1 hbody' hbody.2
      hchain' (stops_closing hclosing rest) (stops_closing hclosing' rest') hbodies
    rw [(hclosing.eq_of_append_eq hclosing' htags).1]
  | @mathEnvironment name' opening' content closing' hopening' hmath =>
    obtain ⟨rfl, -⟩ := hopening.eq_of_append_eq hopening' (by simpa using heq)
    rw [hopening.name_eq hopening', hmath] at hplain
    cases hplain
  | math => cases (beginning?_math _).symm.trans hkind
  | _ => cases hkind

theorem determined_mathEnvironment {name : List Char} {opening content closing : List Token}
    (hopening : IsTag .opening name opening)
    (hmath : mathEnvironments.contains (String.ofList name) = true)
    (hend : IsFirstEnd name content closing) :
    Determined .item (.node (.math (.environment (String.ofList name))
      (String.ofList (textOf content))) [.raw (opening ++ (content ++ closing))]) := by
  refine determined_of (.mathEnvironment hopening hmath hend) (by simp)
    fun kind' parts' rest rest' h' hkind heq _ _ => ?_
  cases h' with
  | @mathEnvironment name' opening' content' closing' hopening' _ hend' =>
    have heq : opening ++ (content ++ closing ++ rest) =
        opening' ++ (content' ++ closing' ++ rest') := by simpa using heq
    obtain ⟨rfl, hbehind⟩ := hopening.eq_of_append_eq hopening' heq
    obtain rfl := hopening.name_eq hopening'
    obtain ⟨rfl, rfl, -⟩ := hend.eq_of_append_eq hend' hbehind
    rfl
  | environment hopening' hplain =>
    obtain ⟨rfl, -⟩ := hopening.eq_of_append_eq hopening' (by simpa using heq)
    rw [hopening.name_eq hopening', hplain] at hmath
    cases hmath
  | math => cases (beginning?_math _).symm.trans hkind
  | _ => cases hkind

/-- A construct of the grammar is the only one over its tokens. -/
theorem Produces.determined {role : Role} {m : Markup} (h : Produces role m)
    (hrole : role ≠ .document) : Determined role m := by
  induction h with
  | document => exact absurd rfl hrole
  | space hne hrun => exact determined_space hne hrun
  | comment ht => exact determined_single (.comment ht) rfl rfl
  | symbol ht => exact determined_single (.symbol ht) rfl rfl
  | text ht => exact determined_single (.text ht) rfl rfl
  | group hopener hcloser hbody hchain ih =>
    exact determined_group hopener hcloser ⟨hbody, hchain⟩ fun m hm => ih m hm (by simp)
  | math hopener hcloser hinner => exact determined_math hopener hcloser hinner
  | command ht hmark hblocks ih =>
    exact determined_command ht hmark hblocks fun m hm => ih m hm (by simp)
  | environment hopening hplain hblocks hbody hchain hbegins hclosing ihblocks ihbody =>
    exact determined_environment hopening hplain hblocks ⟨hbody, hchain⟩ hbegins hclosing
      (fun m hm => ihblocks m hm (by simp)) fun m hm => ihbody m hm (by simp)
  | mathEnvironment hopening hmath hend => exact determined_mathEnvironment hopening hmath hend
  | curlyBlock hopener hcloser hbody hchain ih =>
    exact determined_curlyBlock hopener hcloser ⟨hbody, hchain⟩ fun m hm => ih m hm (by simp)
  | squareBlock hopener hcloser hinner => exact determined_squareBlock hopener hcloser hinner

/-! ### Whole texts -/

/-- The markup is a document of the grammar, and its tokens are those of the text. -/
structure Derives (text : List Char) (m : Markup) : Prop where
  produces : Produces .document m
  tokens_eq : m.tokens = tokenize text

/-- A text has at most one derivation. -/
theorem Derives.eq {text : List Char} {m m' : Markup} (h : Derives text m) (h' : Derives text m') :
    m = m' := by
  obtain ⟨hm, htokens⟩ := h
  obtain ⟨hm', htokens'⟩ := h'
  cases hm with
  | @document body hbody hchain =>
    cases hm' with
    | @document body' hbody' hchain' =>
      have heq : Markup.tokensOf body ++ [] = Markup.tokensOf body' ++ [] := by
        simpa using htokens.trans htokens'.symm
      have hdetermined : ∀ m ∈ body, Determined .item m :=
        fun m hm => (hbody m hm).determined (by simp)
      obtain ⟨rfl, -⟩ := eq_of_tokensOf_append_eq (by simp) hdetermined hbody hbody' hchain hchain'
        (by simp [Stops]) (by simp [Stops]) heq
      rfl

end Grammar

namespace Document

open Grammar

/-- The grammar decides which texts can be parsed, and as what: a text can be parsed exactly if it
has a derivation, which is then the only one, and the tree of the document is the tree of the
derivation. -/
theorem parse_iff_derives (path : Path) (text : List Char) :
    ((∃ d, parse path text = .ok d) ↔ ∃ m, Derives text m) ∧
      ∀ m, Derives text m → (∀ m', Derives text m' → m' = m) ∧
        ∃ d tree, parse path text = .ok d ∧ d.tree? = some tree ∧ m.trees .zero = [tree] := by
  refine ⟨⟨?_, ?_⟩, fun m hm => ⟨fun m' hm' => hm'.eq hm, ?_⟩⟩
  · rintro ⟨d, hparse⟩
    obtain ⟨p, m, -, hproduces, htokens, -⟩ := exists_markup_of_parse hparse
    exact ⟨m, hproduces, htokens⟩
  · rintro ⟨m, hm⟩
    obtain ⟨d, p, hparse, -⟩ := exists_parse_of_produces path hm.produces hm.tokens_eq
    exact ⟨d, hparse⟩
  · obtain ⟨d, p, hparse, hp, htree⟩ := exists_parse_of_produces path hm.produces hm.tokens_eq
    exact ⟨d, p.tree, hparse, hp.tree?, htree⟩

/-- A command with a block of each sort, `\a[b]{c}`. -/
def commandMarkup : Markup :=
  .node .latex [.node (.command "a") [.raw [⟨.command, ['\\', 'a']⟩],
    .node .squareBlock
      [.raw [⟨.lBracket, ['[']⟩], .items [⟨.text, ['b']⟩], .raw [⟨.rBracket, [']']⟩]],
    .node .curlyBlock [.raw [⟨.lBrace, ['\x7b']⟩], .node (.text "c") [.raw [⟨.text, ['c']⟩]],
      .raw [⟨.rBrace, ['\x7d']⟩]]]]

theorem parse_iff_derives_commandMarkup :
    let text := ['\\', 'a', '[', 'b', ']', '\x7b', 'c', '\x7d']
    Derives text commandMarkup ∧ (∀ m, Derives text m → m = commandMarkup) ∧
      ∃ d tree, parse ⟨"a.tex"⟩ text = .ok d ∧ d.tree? = some tree ∧
        commandMarkup.trees .zero = [tree] := by
  intro text
  have hsquare : Produces .block (.node .squareBlock
      [.raw [⟨.lBracket, ['[']⟩], .items [⟨.text, ['b']⟩], .raw [⟨.rBracket, [']']⟩]]) :=
    .squareBlock rfl rfl ⟨by simp, rfl⟩
  have hletter : Produces .item (.node (.text "c") [.raw [⟨.text, ['c']⟩]]) :=
    Produces.text (t := ⟨.text, ['c']⟩) rfl
  have hcurly : Produces .block (.node .curlyBlock (.raw [⟨.lBrace, ['\x7b']⟩] ::
      ([.node (.text "c") [.raw [⟨.text, ['c']⟩]]] ++ [.raw [⟨.rBrace, ['\x7d']⟩]]))) :=
    .curlyBlock rfl rfl (by simpa using hletter) (List.IsChain.singleton _)
  have hcommand := Produces.command (t := ⟨.command, ['\\', 'a']⟩) rfl rfl
    (List.forall_mem_cons.mpr ⟨hsquare, List.forall_mem_singleton.mpr hcurly⟩)
  have hm : Derives text commandMarkup :=
    ⟨.document (List.forall_mem_singleton.mpr hcommand) (List.IsChain.singleton _), rfl⟩
  exact ⟨hm, ((parse_iff_derives ⟨"a.tex"⟩ text).2 commandMarkup hm)⟩

end Document

end TexAnchor
