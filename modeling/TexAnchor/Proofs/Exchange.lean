import TexAnchor.Proofs.Reading

/-! # Exchanging a part of markup

`Exchange x y left right m m'` says that `m'` is `m` with the part `x`, which has the tokens `left`
before it and `right` behind it, exchanged for `y`.

An item can be exchanged for another of the same kind, as long as no head before it would take the
new one for a parameter block (`Suits`): then the grammar produces the new whole
(`Exchange.produces`). -/

namespace TexAnchor.Grammar

open Text (Coord)
open Token (textOf)

/-- One part of some markup is exchanged for another. -/
inductive Exchange (x y : Markup) : List Token → List Token → Markup → Markup → Prop
  | here : Exchange x y [] [] x y
  | inside {left right : List Token} {m m' : Markup} (kind : NodeKind) (before after : List Markup) :
    Exchange x y left right m m' →
    Exchange x y (Markup.tokensOf before ++ left) (right ++ Markup.tokensOf after)
      (.node kind (before ++ m :: after)) (.node kind (before ++ m' :: after))

variable {x y m m' : Markup} {left right : List Token}

theorem Exchange.tokens_eq (h : Exchange x y left right m m') :
    m.tokens = left ++ x.tokens ++ right ∧ m'.tokens = left ++ y.tokens ++ right := by
  induction h with
  | here => simp
  | inside kind before after _ ih => simp [ih.1, ih.2]

theorem Exchange.exists_eq_node (h : Exchange x y left right m m')
    (hx : ∃ kind parts, x = .node kind parts) : ∃ kind parts, m = .node kind parts := by
  cases h with
  | here => exact hx
  | inside => exact ⟨_, _, rfl⟩

theorem forall_mem_exchange {P : Markup → Prop} {pre post : List Markup}
    (h : ∀ n ∈ pre ++ m :: post, P n) (hm' : P m') : ∀ n ∈ pre ++ m' :: post, P n := by
  intro n hn
  rcases List.mem_append.mp hn with hn | hn
  · exact h n (by simp [hn])
  · rcases List.mem_cons.mp hn with rfl | hn
    exacts [hm', h n (by simp [hn])]

/-! ### What a head may be followed by -/

/-- The token kinds that a head can end in. -/
def endsHead : TokenKind → Bool
  | .command | .rBrace | .rBracket => true
  | _ => false

/-- `y` can take the place of `x` behind the tokens `left`: it is an item of the same kind, and it
opens no block unless `x` did or no head ends before it. -/
structure Suits (x y : Markup) (left : List Token) : Prop where
  produces_old : Produces .item x
  produces_new : Produces .item y
  tag_eq : ∀ kind parts kind' parts', x = .node kind parts → y = .node kind' parts' →
    kind.tag = kind'.tag
  opens : ∀ kind ∈ y.firstKind?, kind.opensBlock = true →
    (∃ kind' ∈ x.firstKind?, kind'.opensBlock = true) ∨ ∀ t ∈ left.getLast?, endsHead t.kind = false

theorem Suits.of_append {before : List Token} (h : Suits x y (before ++ left)) : Suits x y left := by
  refine ⟨h.produces_old, h.produces_new, h.tag_eq, fun kind hkind hopens => ?_⟩
  refine (h.opens kind hkind hopens).imp id fun hlast t ht => hlast t ?_
  rw [List.getLast?_append, Option.mem_def.mp ht]
  rfl

theorem Suits.takes_eq (h : Suits x y left) : y.takes = x.takes := by
  obtain ⟨kind, parts, hx⟩ := h.produces_old.exists_eq_node
  obtain ⟨kind', parts', hy⟩ := h.produces_new.exists_eq_node
  have htag := h.tag_eq _ _ _ _ hx hy
  funext k
  rw [hx, hy]
  cases kind <;> cases kind' <;> simp_all [NodeKind.tag, Markup.takes]

theorem Produces.firstKind_isSpace {kind : NodeKind} {parts : List Markup}
    (h : Produces .item (.node kind parts)) :
    ∃ k, (Markup.node kind parts).firstKind? = some k ∧
      (k.isSpace = true ↔ kind.tag = .whitespace) := by
  cases h with
  | @space run hne hrun =>
    obtain ⟨t, run, rfl⟩ := List.exists_cons_of_ne_nil hne
    exact ⟨t.kind, by simp [Markup.firstKind?], by simp [hrun t, NodeKind.tag]⟩
  | @comment t hkind =>
    exact ⟨t.kind, by simp [Markup.firstKind?], by simp [hkind, TokenKind.isSpace, NodeKind.tag]⟩
  | @symbol t hkind =>
    refine ⟨t.kind, by simp [Markup.firstKind?], ?_⟩
    cases h : t.kind <;> simp_all [isSymbolKind, TokenKind.isSpace, NodeKind.tag]
  | @text t hkind =>
    refine ⟨t.kind, by simp [Markup.firstKind?], ?_⟩
    cases h : t.kind <;> simp_all [isTextKind, TokenKind.isSpace, NodeKind.tag]
  | @group opener _ _ hkind =>
    exact ⟨opener.kind, by simp [Markup.firstKind?], by simp [hkind, TokenKind.isSpace, NodeKind.tag]⟩
  | @math opener _ _ hkind =>
    refine ⟨opener.kind, by simp [Markup.firstKind?], ?_⟩
    cases h : opener.kind <;> simp_all [isMathOpener, TokenKind.isSpace, NodeKind.tag]
  | @command t _ hkind =>
    exact ⟨t.kind, by simp [Markup.firstKind?], by simp [hkind, TokenKind.isSpace, NodeKind.tag]⟩
  | environment htag =>
    obtain ⟨t, rest, rfl, hkind⟩ := htag.exists_eq_cons
    exact ⟨t.kind, by simp [Markup.firstKind?], by simp [hkind, TokenKind.isSpace, NodeKind.tag]⟩
  | mathEnvironment htag =>
    obtain ⟨t, rest, rfl, hkind⟩ := htag.exists_eq_cons
    exact ⟨t.kind, by simp [Markup.firstKind?], by simp [hkind, TokenKind.isSpace, NodeKind.tag]⟩

theorem Suits.firstKind_isSpace (h : Suits x y left) {kind : TokenKind} (hkind : kind ∈ y.firstKind?)
    (hspace : kind.isSpace = true) : ∃ kind' ∈ x.firstKind?, kind'.isSpace = true := by
  obtain ⟨kx, px, rfl⟩ := h.produces_old.exists_eq_node
  obtain ⟨ky, py, rfl⟩ := h.produces_new.exists_eq_node
  have htag := h.tag_eq _ _ _ _ rfl rfl
  obtain ⟨k, hk, hiff⟩ := h.produces_new.firstKind_isSpace
  obtain ⟨k', hk', hiff'⟩ := h.produces_old.firstKind_isSpace
  obtain rfl : kind = k := Option.some.inj (hkind.symm.trans hk)
  exact ⟨k', hk', hiff'.mpr (htag.trans (hiff.mp hspace))⟩

theorem Produces.getLast_block (h : Produces .block m) :
    ∃ t ∈ m.tokens.getLast?, endsHead t.kind = true := by
  cases h with
  | @curlyBlock _ closer _ _ hcloser =>
    exact ⟨closer, by simp [List.getLast?_cons], by simp [hcloser, endsHead]⟩
  | @squareBlock _ closer _ _ hcloser =>
    exact ⟨closer, by simp [List.getLast?_cons], by simp [hcloser, endsHead]⟩

theorem getLast_head (first : List Token) {blocks : List Markup}
    (hfirst : ∃ t ∈ first.getLast?, endsHead t.kind = true)
    (hblocks : ∀ m ∈ blocks, Produces .block m) :
    ∃ t ∈ (first ++ Markup.tokensOf blocks).getLast?, endsHead t.kind = true := by
  rcases List.eq_nil_or_concat blocks with rfl | ⟨init, last, rfl⟩
  · simpa using hfirst
  · obtain ⟨t, ht, hends⟩ := (hblocks last (by simp)).getLast_block
    refine ⟨t, ?_, hends⟩
    simp [List.getLast?_append, Option.mem_def.mp ht]

theorem Produces.getLast_takesBlock {m : Markup} {kind : TokenKind} (h : Produces .item m)
    (hopens : kind.opensBlock = true) (htakes : m.takes kind = true) :
    ∃ t ∈ m.tokens.getLast?, endsHead t.kind = true := by
  cases h with
  | @command t blocks ht hmark hblocks =>
    have := getLast_head [t] ⟨t, rfl, by rw [ht]; rfl⟩ hblocks
    simpa using this
  | space => cases kind <;> simp_all [Markup.takes, TokenKind.isSpace, TokenKind.opensBlock]
  | _ => simp [Markup.takes] at htakes

theorem IsTag.getLast {mark : EnvironmentMark} {name : List Char} {tag : List Token}
    (h : IsTag mark name tag) : ∃ t ∈ tag.getLast?, endsHead t.kind = true := by
  obtain ⟨init, closer, rfl, hcloser⟩ := h.exists_eq_append
  exact ⟨closer, by simp, by simp [hcloser, endsHead]⟩

/-- What does not take the old item does not take the new one. -/
theorem Suits.follows {l : Markup} (before : List Token)
    (h : Suits x y (before ++ l.tokens)) (hl : Produces .item l) (hfollows : Follows l x) :
    Follows l y := by
  intro kind hkind
  apply Bool.eq_false_iff.mpr
  intro htakes
  rcases Markup.isSpace_or_opensBlock_of_takes htakes with hspace | hopens
  · obtain ⟨kind', hkind', hspace'⟩ := h.firstKind_isSpace hkind hspace
    obtain ⟨newlines, parts, rfl⟩ := Markup.eq_whitespace_of_takes hspace htakes
    have hnot := hfollows kind' hkind'
    simp [Markup.takes, hspace'] at hnot
  · rcases h.opens kind hkind hopens with ⟨kind', hkind', hopens'⟩ | hlast
    · obtain ⟨name, parts, rfl⟩ := Markup.eq_command_of_takes hopens htakes
      have hnot := hfollows kind' hkind'
      simp [Markup.takes, hopens'] at hnot
    · obtain ⟨t, ht, hends⟩ := hl.getLast_takesBlock hopens htakes
      have hmem : t ∈ (before ++ l.tokens).getLast? := by
        rw [List.getLast?_append, Option.mem_def.mp ht]
        rfl
      rw [hlast t hmem] at hends
      cases hends

/-! ### The grammar still produces the whole -/

theorem Exchange.takes_eq (h : Exchange x y left right m m') (hsuits : Suits x y left) :
    m'.takes = m.takes := by
  cases h with
  | here => exact hsuits.takes_eq
  | inside kind before after h =>
    funext k
    cases kind <;> rfl

/-- The first token of a construct that begins with raw material stays as it was. -/
theorem Exchange.firstKind_eq (h : Exchange x y left right m m') (hleft : left ≠ []) :
    m'.firstKind? = m.firstKind? := by
  obtain ⟨hm, hm'⟩ := h.tokens_eq
  obtain ⟨t, left, rfl⟩ := List.exists_cons_of_ne_nil hleft
  simp [Markup.firstKind?, hm, hm']

theorem eq_append_of_between {opener closer : List Token} {body before after : List Markup}
    (hm : ∃ kind parts, m = .node kind parts)
    (h : .raw opener :: (body ++ [.raw closer]) = before ++ m :: after) :
    ∃ pre post, before = .raw opener :: pre ∧ body = pre ++ m :: post ∧
      after = post ++ [.raw closer] := by
  obtain ⟨kind, parts, rfl⟩ := hm
  cases before with
  | nil => cases h
  | cons first pre =>
    simp only [List.cons_append, List.cons.injEq] at h
    obtain ⟨rfl, h⟩ := h
    rcases List.eq_nil_or_concat after with rfl | ⟨post, last, rfl⟩
    · obtain ⟨-, hlast⟩ := List.append_inj' h rfl
      cases hlast
    · have heq : body ++ [.raw closer] = (pre ++ .node kind parts :: post) ++ [last] := by
        simpa using h
      obtain ⟨rfl, hlast⟩ := List.append_inj' heq rfl
      obtain rfl : Markup.raw closer = last := by simpa using hlast
      exact ⟨pre, post, rfl, rfl, by simp⟩

theorem chained_exchange {pre post : List Markup} (h : Chained (pre ++ m :: post))
    (htakes : m'.takes = m.takes) (hlast : ∀ l ∈ pre.getLast?, Follows l m → Follows l m') :
    Chained (pre ++ m' :: post) := by
  unfold Chained at h ⊢
  rw [List.isChain_append, List.isChain_cons] at h ⊢
  obtain ⟨hpre, ⟨hnext, hpost⟩, hjoin⟩ := h
  refine ⟨hpre, ⟨fun n hn kind hkind => ?_, hpost⟩, fun l hl n hn => ?_⟩
  · rw [htakes]
    exact hnext n hn kind hkind
  · obtain rfl : m' = n := by simpa using hn
    exact hlast l hl (hjoin l hl m rfl)

/-- What the grammar produces in content or next to a head begins with tokens of its own. -/
theorem Produces.exists_raw {role : Role} {kind : NodeKind} {parts : List Markup}
    (h : Produces role (.node kind parts)) (hrole : role ≠ .document) :
    ∃ tokens later, parts = .raw tokens :: later ∧ tokens ≠ [] := by
  cases h with
  | document => exact absurd rfl hrole
  | space hne => exact ⟨_, _, rfl, hne⟩
  | environment htag =>
    obtain ⟨t, rest, rfl, -⟩ := htag.exists_eq_cons
    exact ⟨_, _, rfl, by simp⟩
  | mathEnvironment htag =>
    obtain ⟨t, rest, rfl, -⟩ := htag.exists_eq_cons
    exact ⟨_, _, rfl, by simp⟩
  | _ => exact ⟨_, _, rfl, by simp⟩

theorem Exchange.eq_or_left_ne_nil (h : Exchange x y left right m m')
    (hx : ∃ kind parts, x = .node kind parts) {role : Role} (hm : Produces role m)
    (hrole : role ≠ .document) : (m = x ∧ m' = y ∧ left = [] ∧ right = []) ∨ left ≠ [] := by
  cases h with
  | here => exact .inl ⟨rfl, rfl, rfl, rfl⟩
  | @inside l r m₁ m₁' kind before after h =>
    refine .inr ?_
    obtain ⟨tokens, later, hparts, hne⟩ := hm.exists_raw hrole
    obtain ⟨kind₁, parts₁, rfl⟩ := h.exists_eq_node hx
    cases before with
    | nil => cases hparts
    | cons first before =>
      obtain ⟨rfl, -⟩ := List.cons.inj hparts
      simp [hne]

theorem Exchange.isContent {pre post : List Markup} (h : Exchange x y left right m m')
    (before : List Token)
    (hsuits : Suits x y (before ++ Markup.tokensOf pre ++ left)) (hm' : Produces .item m')
    (hcontent : IsContent (pre ++ m :: post)) : IsContent (pre ++ m' :: post) := by
  obtain ⟨hitems, hchain⟩ := hcontent
  refine ⟨forall_mem_exchange hitems hm', ?_⟩
  apply chained_exchange hchain (h.takes_eq hsuits.of_append)
  intro l hl hfollows
  have hm := hitems m (by simp)
  rcases h.eq_or_left_ne_nil hsuits.produces_old.exists_eq_node hm (by simp) with
    ⟨rfl, rfl, rfl, -⟩ | hleft
  · obtain ⟨init, rfl⟩ := List.getLast?_eq_some_iff.mp hl
    refine Suits.follows (before ++ Markup.tokensOf init) ?_ (hitems l (by simp)) hfollows
    simpa using hsuits
  · intro kind hkind
    exact hfollows kind (by rwa [← h.firstKind_eq hleft])

theorem Produces.eq_item {role : Role} (h : Produces role m) (h' : Produces .item m) :
    role = .item := by
  cases h with
  | document => cases h'
  | curlyBlock => cases h'
  | squareBlock => cases h'
  | _ => rfl

/-- It is enough to look at exchanges inside the parts. -/
theorem Exchange.produces_of {role : Role} (hm : Produces role m)
    (hinside : ∀ kind before after m₁ m₁' l r, m = .node kind (before ++ m₁ :: after) →
      Exchange x y l r m₁ m₁' → Suits x y (Markup.tokensOf before ++ l) →
      Produces role (.node kind (before ++ m₁' :: after)))
    (h : Exchange x y left right m m') (hsuits : Suits x y left) : Produces role m' := by
  cases h with
  | here => exact hm.eq_item hsuits.produces_old ▸ hsuits.produces_new
  | inside kind before after h => exact hinside kind before after _ _ _ _ rfl h hsuits

theorem Exchange.produces_raw {role : Role} {kind : NodeKind} {tokens : List Token}
    (hm : Produces role (.node kind [.raw tokens]))
    (h : Exchange x y left right (.node kind [.raw tokens]) m') (hsuits : Suits x y left) : Produces role m' := by
  refine h.produces_of hm (fun kind before after m₁ m₁' l r heq h₁ _ => ?_) hsuits
  obtain ⟨kind₁, parts₁, rfl⟩ := h₁.exists_eq_node hsuits.produces_old.exists_eq_node
  have hmem : Markup.node kind₁ parts₁ ∈ [Markup.raw tokens] := by
    rw [(Markup.node.inj heq).2]
    simp
  simp at hmem

theorem append_eq_append_cons {α : Type} {a b pre post : List α} {m : α}
    (h : a ++ b = pre ++ m :: post) :
    (∃ post', a = pre ++ m :: post' ∧ post = post' ++ b) ∨
      ∃ pre', pre = a ++ pre' ∧ b = pre' ++ m :: post := by
  rcases List.append_eq_append_iff.mp h with ⟨pre', rfl, rfl⟩ | ⟨post', rfl, hpost⟩
  · exact .inr ⟨pre', rfl, rfl⟩
  · cases post' with
    | nil => exact .inr ⟨[], by simp, by simpa using hpost.symm⟩
    | cons first post' =>
      obtain ⟨rfl, rfl⟩ := List.cons.inj hpost
      exact .inl ⟨post', rfl, rfl⟩

theorem beginsBody_exchange {pre post : List Markup} {before : List Token}
    (hlast : ∃ t ∈ before.getLast?, endsHead t.kind = true) (h : Exchange x y left right m m')
    (hsuits : Suits x y (before ++ Markup.tokensOf pre ++ left)) (hm : Produces .item m)
    (hbegins : BeginsBody (pre ++ m :: post)) : BeginsBody (pre ++ m' :: post) := by
  cases pre with
  | cons first pre => exact hbegins
  | nil =>
    intro n hn kind hkind
    obtain rfl : m' = n := by simpa using hn
    have hold := hbegins m (by simp)
    rcases h.eq_or_left_ne_nil hsuits.produces_old.exists_eq_node hm (by simp) with
      ⟨rfl, rfl, rfl, -⟩ | hleft
    · apply Bool.eq_false_iff.mpr
      intro hopens
      rcases hsuits.opens kind hkind hopens with ⟨kind', hkind', hopens'⟩ | hnot
      · rw [hold kind' hkind'] at hopens'
        cases hopens'
      · obtain ⟨t, ht, hends⟩ := hlast
        rw [hnot t (by simpa using ht)] at hends
        cases hends
    · exact hold kind (by rwa [← h.firstKind_eq hleft])

/-- Exchanging an item for one that suits keeps a whole that the grammar produces. -/
theorem Exchange.produces {role : Role} (hm : Produces role m) (h : Exchange x y left right m m')
    (hsuits : Suits x y left) : Produces role m' := by
  have hx := hsuits.produces_old.exists_eq_node
  induction hm generalizing m' left right with
  | space hne hrun => exact h.produces_raw (.space hne hrun) hsuits
  | comment hkind => exact h.produces_raw (.comment hkind) hsuits
  | symbol hkind => exact h.produces_raw (.symbol hkind) hsuits
  | text hkind => exact h.produces_raw (.text hkind) hsuits
  | math hopener hcloser hinner => exact h.produces_raw (.math hopener hcloser hinner) hsuits
  | mathEnvironment hopening hmath hend =>
    exact h.produces_raw (.mathEnvironment hopening hmath hend) hsuits
  | squareBlock hopener hcloser hinner =>
    refine h.produces_of (.squareBlock hopener hcloser hinner)
      (fun kind before after m₁ m₁' l r heq h₁ _ => ?_) hsuits
    obtain ⟨kind₁, parts₁, rfl⟩ := h₁.exists_eq_node hx
    have hmem : Markup.node kind₁ parts₁ ∈ before ++ .node kind₁ parts₁ :: after := by simp
    rw [← (Markup.node.inj heq).2] at hmem
    simp at hmem
  | document hbody hchain ih =>
    refine h.produces_of (.document hbody hchain)
      (fun kind pre post m₁ m₁' l r heq h₁ hsuits₁ => ?_) hsuits
    obtain ⟨rfl, rfl⟩ := Markup.node.inj heq
    have hm₁' := ih m₁ (by simp) h₁ hsuits₁.of_append
    obtain ⟨hitems, hchain⟩ := h₁.isContent [] hsuits₁ hm₁' ⟨hbody, hchain⟩
    exact .document hitems hchain
  | @group opener closer body hopener hcloser hbody hchain ih =>
    refine h.produces_of (.group hopener hcloser hbody hchain)
      (fun kind before after m₁ m₁' l r heq h₁ hsuits₁ => ?_) hsuits
    obtain ⟨rfl, hparts⟩ := Markup.node.inj heq
    obtain ⟨pre, post, rfl, rfl, rfl⟩ := eq_append_of_between (h₁.exists_eq_node hx) hparts
    have hm₁' := ih m₁ (by simp) h₁ hsuits₁.of_append
    obtain ⟨hitems, hchain⟩ := h₁.isContent [opener] (by simpa using hsuits₁) hm₁'
      ⟨hbody, hchain⟩
    have := Produces.group hopener hcloser hitems hchain
    simpa using this
  | @curlyBlock opener closer body hopener hcloser hbody hchain ih =>
    refine h.produces_of (.curlyBlock hopener hcloser hbody hchain)
      (fun kind before after m₁ m₁' l r heq h₁ hsuits₁ => ?_) hsuits
    obtain ⟨rfl, hparts⟩ := Markup.node.inj heq
    obtain ⟨pre, post, rfl, rfl, rfl⟩ := eq_append_of_between (h₁.exists_eq_node hx) hparts
    have hm₁' := ih m₁ (by simp) h₁ hsuits₁.of_append
    obtain ⟨hitems, hchain⟩ := h₁.isContent [opener] (by simpa using hsuits₁) hm₁'
      ⟨hbody, hchain⟩
    have := Produces.curlyBlock hopener hcloser hitems hchain
    simpa using this
  | @command t blocks ht hmark hblocks ih =>
    refine h.produces_of (.command ht hmark hblocks)
      (fun kind before after m₁ m₁' l r heq h₁ hsuits₁ => ?_) hsuits
    obtain ⟨rfl, hparts⟩ := Markup.node.inj heq
    obtain ⟨kind₁, parts₁, rfl⟩ := h₁.exists_eq_node hx
    cases before with
    | nil => cases hparts
    | cons first before =>
      obtain ⟨rfl, rfl⟩ := List.cons.inj hparts
      exact .command ht hmark
        (forall_mem_exchange hblocks (ih _ (by simp) h₁ hsuits₁.of_append))
  | @environment name opening closing blocks body hopening hplain hblocks hbody hchain hbegins
      hclosing ihblocks ihbody =>
    refine h.produces_of (.environment hopening hplain hblocks hbody hchain hbegins hclosing)
      (fun kind before after m₁ m₁' l r heq h₁ hsuits₁ => ?_) hsuits
    obtain ⟨rfl, hparts⟩ := Markup.node.inj heq
    rw [← List.append_assoc] at hparts
    obtain ⟨pre, post, rfl, hinner, rfl⟩ := eq_append_of_between (h₁.exists_eq_node hx) hparts
    rcases append_eq_append_cons hinner with ⟨post', rfl, rfl⟩ | ⟨pre', rfl, rfl⟩
    · have hblocks' : ∀ n ∈ pre ++ m₁' :: post', Produces .block n :=
        forall_mem_exchange hblocks (ihblocks m₁ (by simp) h₁ hsuits₁.of_append)
      have := Produces.environment hopening hplain hblocks' hbody hchain hbegins hclosing
      simpa using this
    · have hm₁' := ihbody m₁ (by simp) h₁ hsuits₁.of_append
      have hsuits' : Suits x y ((opening ++ Markup.tokensOf blocks) ++ Markup.tokensOf pre' ++ l) := by
        simpa using hsuits₁
      obtain ⟨hitems, hchain'⟩ := h₁.isContent _ hsuits' hm₁' ⟨hbody, hchain⟩
      have hbegins' := beginsBody_exchange (getLast_head _ hopening.getLast hblocks) h₁ hsuits'
        (hbody m₁ (by simp)) hbegins
      have := Produces.environment hopening hplain hblocks hitems hchain' hbegins' hclosing
      simpa using this

end TexAnchor.Grammar
