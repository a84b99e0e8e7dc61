import Mathlib.Data.List.TakeWhile
import TexAnchor.Proofs.Payloads
import TexAnchor.Proofs.Derivation

/-! # How the content of a square block is divided

The reader closes a square block at the first bracket outside all braces, and counts tokens for that:
neither an escaped brace nor one in a comment is a token of its own.  The content is then divided by
its characters, and there these braces count.

`Divides` says what it is to divide a content at the commas outside all braces and its items at the
first equals sign outside all braces, whatever `outside` means.  Every list of parameters divides its
content by the depth of its characters (`Parameters.divides_items`).  By the depth of its tokens it does
so exactly if the two agree on the commas and on the first equals signs (`Divides.iff_sameMarks`), in
particular if no token but a brace has a brace in it (`Grammar.outside_iff_of_hidesNoBrace`). -/

namespace TexAnchor

open Text (Coord)
open Token (textOf)

namespace Parameters

/-! ### Division at marks outside braces -/

/-- No item of the list covers the place. -/
def Separates (items : List Tree) (place : Coord) : Prop :=
  ∀ item ∈ items, place < item.span.start ∨ item.span.stop ≤ place

/-- The equals sign behind `key` is the first one that is outside. -/
def Assigns (outside : List Char → Prop) (key : List Char) : Prop :=
  outside key ∧ ∀ a b, key = a ++ '=' :: b → ¬ outside a

/-- What an item declares: it is a key and a value if it has an equals sign outside, and a value if not. -/
inductive Declares (outside : List Char → Prop) (source : List Char) : NodeKind → Prop
  | value : (∀ a b, source = a ++ '=' :: b → ¬ outside a) →
    Declares outside source (.parameter (String.ofList source))
  | keyed {key value : List Char} : source = key ++ '=' :: value → Assigns outside key →
    Declares outside source
      (.assignment (String.ofList (Text.trim key)) (String.ofList (Text.trim value)))

/-- The items are what a text, which starts at `here`, consists of when it is divided at the commas
that are outside.  A stretch of the text is outside if the next character is. -/
structure Divides (outside : List Char → Prop) (here : Coord) (text : List Char)
    (items : List Tree) : Prop where
  /-- What is in no item is blank or a comma outside, and no comma outside is in an item. -/
  separates_iff : ∀ left c right, text = left ++ c :: right → Text.isBlank c = false →
    (Separates items (here.advance left) ↔ c = ',' ∧ outside left)
  /-- Between two items stands a comma outside. -/
  between : items.Pairwise fun item other => ∃ left right, text = left ++ ',' :: right ∧
    outside left ∧ item.span.stop ≤ here.advance left ∧ here.advance left < other.span.start
  /-- An item is a stretch of the text and declares what stands there. -/
  declares : ∀ item ∈ items, ∃ left source right, text = left ++ source ++ right ∧
    item.span = ⟨here.advance left, here.advance (left ++ source)⟩ ∧
    Declares (fun a => outside (left ++ a)) source item.kind

variable {outside outside' : List Char → Prop} {here : Coord} {text source : List Char}
  {items : List Tree} {kind : NodeKind}

theorem Assigns.congr (h : ∀ a, outside a ↔ outside' a) {key : List Char}
    (hkey : Assigns outside key) : Assigns outside' key :=
  ⟨(h key).mp hkey.1, fun a b hab hout => hkey.2 a b hab ((h a).mpr hout)⟩

theorem Declares.congr (h : ∀ a, outside a ↔ outside' a) (hdeclares : Declares outside source kind) :
    Declares outside' source kind := by
  cases hdeclares with
  | value hnone => exact .value fun a b hab hout => hnone a b hab ((h a).mpr hout)
  | keyed hsource hkey => exact .keyed hsource (hkey.congr h)

/-! ### Depth by characters -/

/-- The depth of braces behind a text that starts at a depth. -/
def depthBehind (depth : Nat) (text : List Char) : Nat := text.foldl depthAfter depth

/-- All braces of the text are closed. -/
def Outside (text : List Char) : Prop := depthBehind 0 text = 0

theorem depthBehind_append (depth : Nat) (a b : List Char) :
    depthBehind depth (a ++ b) = depthBehind (depthBehind depth a) b :=
  List.foldl_append

theorem inside_cons {mark c : Char} {depth : Nat} {text : List Char} (hc : ¬ (c = mark ∧ depth = 0))
    (htext : ∀ a b, text = a ++ mark :: b → depthBehind (depthAfter depth c) a ≠ 0) :
    ∀ a b, c :: text = a ++ mark :: b → depthBehind depth a ≠ 0 := by
  intro a b hab
  cases a with
  | nil =>
    obtain ⟨rfl, -⟩ := List.cons.inj hab
    exact fun hdepth => hc ⟨rfl, hdepth⟩
  | cons d a =>
    obtain ⟨rfl, hrest⟩ := List.cons.inj hab
    exact htext a b hrest

/-- The first mark that a text is cut at is the first one outside. -/
theorem cutAt?_eq (mark : Char) (depth : Nat) (text : List Char) :
    (∃ before after, cutAt? mark depth text = some (before, after) ∧
      text = before ++ mark :: after ∧ depthBehind depth before = 0 ∧
      ∀ a b, before = a ++ mark :: b → depthBehind depth a ≠ 0) ∨
    (cutAt? mark depth text = none ∧ ∀ a b, text = a ++ mark :: b → depthBehind depth a ≠ 0) := by
  induction text generalizing depth with
  | nil => exact .inr ⟨rfl, by simp⟩
  | cons c text ih =>
    rw [cutAt?]
    by_cases hmark : c = mark ∧ depth = 0
    · rw [if_pos hmark]
      exact .inl ⟨[], text, rfl, by rw [hmark.1, List.nil_append], hmark.2, by simp⟩
    · rw [if_neg hmark]
      rcases ih (depthAfter depth c) with ⟨before, after, hcut, rfl, hzero, hbefore⟩ | ⟨hcut, hnone⟩
      · exact .inl ⟨c :: before, after, by rw [hcut]; rfl, rfl, hzero, inside_cons hmark hbefore⟩
      · exact .inr ⟨by rw [hcut]; rfl, inside_cons hmark hnone⟩

theorem declares_kindOf (item : List Char) : Declares Outside item (kindOf item) := by
  unfold kindOf
  rcases cutAt?_eq '=' 0 item with ⟨key, value, hcut, hitem, hzero, hfirst⟩ | ⟨hcut, hnone⟩
  · rw [hcut]
    exact .keyed hitem ⟨hzero, hfirst⟩
  · rw [hcut]
    exact .value hnone

/-- Commas that divide a text stand outside, and no comma that stands outside is in a segment; the
first segment starts at a depth. -/
def Cut (depth : Nat) : List (List Char) → Prop
  | [] => True
  | [segment] => ∀ a b, segment = a ++ ',' :: b → depthBehind depth a ≠ 0
  | segment :: later => (∀ a b, segment = a ++ ',' :: b → depthBehind depth a ≠ 0) ∧
    depthBehind depth segment = 0 ∧ Cut 0 later

theorem cut_cons_of_cut {c : Char} {depth : Nat} {segment : List Char} {later : List (List Char)}
    (hcomma : ¬ (c = ',' ∧ depth = 0)) (h : Cut (depthAfter depth c) (segment :: later)) :
    Cut depth ((c :: segment) :: later) := by
  cases later with
  | nil => exact inside_cons hcomma h
  | cons second later => exact ⟨inside_cons hcomma h.1, h.2⟩

theorem cut_segments (depth : Nat) (text : List Char) : Cut depth (segments depth text) := by
  induction text generalizing depth with
  | nil => exact fun a b hab => by simp at hab
  | cons c text ih =>
    unfold segments
    split
    · next hcomma =>
      obtain ⟨rfl, rfl⟩ := hcomma
      obtain ⟨first, later, hsegments⟩ := List.exists_cons_of_ne_nil (segments_ne_nil 0 text)
      have hlater := ih 0
      rw [hsegments] at hlater ⊢
      exact ⟨fun a b hab => by simp at hab, rfl, hlater⟩
    · next hcomma =>
      split
      · next hnil => exact absurd hnil (segments_ne_nil _ _)
      · next segment later hsegments =>
        have hlater := ih (depthAfter depth c)
        rw [hsegments] at hlater
        exact cut_cons_of_cut hcomma hlater

/-! ### Segments and their items -/

theorem depthBehind_of_not_mem {depth : Nat} {text : List Char} (hopen : '\x7b' ∉ text)
    (hclose : '\x7d' ∉ text) : depthBehind depth text = depth := by
  induction text with
  | nil => rfl
  | cons c text ih =>
    rw [List.mem_cons, not_or] at hopen hclose
    have hsame : depthAfter depth c = depth := by
      rw [depthAfter, if_neg (Ne.symm hopen.1), if_neg (Ne.symm hclose.1)]
    show depthBehind (depthAfter depth c) text = depth
    rw [hsame]
    exact ih hopen.2 hclose.2

theorem depthBehind_of_blank {depth : Nat} {blanks : List Char}
    (h : ∀ c ∈ blanks, Text.isBlank c = true) : depthBehind depth blanks = depth := by
  refine depthBehind_of_not_mem (fun hmem => ?_) fun hmem => ?_
  · exact absurd (h _ hmem) (by decide)
  · exact absurd (h _ hmem) (by decide)

theorem exists_trim (segment : List Char) :
    ∃ blanks, segment = segment.takeWhile Text.isBlank ++ Text.trim segment ++ blanks ∧
      (∀ c ∈ segment.takeWhile Text.isBlank, Text.isBlank c = true) ∧
      ∀ c ∈ blanks, Text.isBlank c = true := by
  refine ⟨((Text.trimStart segment).reverse.takeWhile Text.isBlank).reverse, ?_,
    fun c hc => List.mem_takeWhile_imp hc, fun c hc => ?_⟩
  · rw [Text.trim, Text.trimEnd, List.append_assoc, ← List.reverse_append,
      List.takeWhile_append_dropWhile, List.reverse_reverse, Text.takeWhile_append_trimStart]
  · exact List.mem_takeWhile_imp (List.mem_reverse.mp hc)

/-- The item of a segment that starts at `here`, if there is one. -/
def own (here : Coord) (segment : List Char) : List Tree :=
  let item := Text.trim segment
  let start := here.advance (segment.takeWhile Text.isBlank)
  if item.isEmpty then [] else [Tree.leaf (kindOf item) start (start.advance item)]

theorem placeItems_cons (here : Coord) (segment : List Char) (later : List (List Char)) :
    placeItems here (segment :: later) =
      own here segment ++ placeItems ((here.advance segment).next ',') later := by
  simp only [placeItems, own]
  split <;> rfl

theorem exists_of_append_eq {a b left right : List Char} {c : Char}
    (h : a ++ b = left ++ c :: right) (hc : c ∉ a) :
    ∃ rest, left = a ++ rest ∧ b = rest ++ c :: right := by
  rcases List.append_eq_append_iff.mp h with ⟨rest, rfl, hb⟩ | ⟨rest, rfl, hb⟩
  · exact ⟨rest, rfl, hb⟩
  · cases rest with
    | nil => exact ⟨[], by simp, by simpa using hb.symm⟩
    | cons d rest =>
      obtain ⟨rfl, -⟩ := List.cons.inj hb
      simp at hc

theorem exists_of_append_eq' {a b left right : List Char} {c : Char}
    (h : a ++ b = left ++ c :: right) (hc : c ∉ b) : ∃ rest, a = left ++ c :: rest := by
  rcases List.append_eq_append_iff.mp h with ⟨rest, rfl, hb⟩ | ⟨rest, rfl, hb⟩
  · simp [hb] at hc
  · cases rest with
    | nil =>
      obtain rfl : c :: right = b := hb
      simp at hc
    | cons d rest =>
      obtain ⟨rfl, -⟩ := List.cons.inj hb
      exact ⟨rest, rfl⟩

theorem not_separates_own {here : Coord} {segment left right : List Char} {c : Char}
    (hsegment : segment = left ++ c :: right) (hc : Text.isBlank c = false) :
    ¬ Separates (own here segment) (here.advance left) := by
  obtain ⟨blanks, htrim, hfront, hback⟩ := exists_trim segment
  unfold own
  generalize segment.takeWhile Text.isBlank = front at htrim hfront ⊢
  generalize Text.trim segment = item at htrim ⊢
  have hnot {other : List Char} (hother : ∀ d ∈ other, Text.isBlank d = true) : c ∉ other :=
    fun hmem => by simp [hother c hmem] at hc
  rw [htrim, List.append_assoc] at hsegment
  obtain ⟨x, rfl, hrest⟩ := exists_of_append_eq hsegment (hnot hfront)
  obtain ⟨y, rfl⟩ := exists_of_append_eq' hrest (hnot hback)
  rw [if_neg (by simp)]
  intro hseparates
  rcases hseparates _ (List.mem_singleton.mpr rfl) with hlt | hle
  · rw [Coord.advance_append] at hlt
    exact Coord.not_lt.mpr (Coord.le_advance _ x) hlt
  · refine Coord.not_le.mpr ?_ hle
    rw [Coord.advance_append here front x]
    show (here.advance front).advance x < (here.advance front).advance (x ++ c :: y)
    rw [Coord.advance_append _ x]
    exact Coord.lt_advance _ (by simp)

theorem divides_own (here : Coord) {segment : List Char}
    (hsegment : ∀ a b, segment = a ++ ',' :: b → ¬ Outside a) :
    Divides Outside here segment (own here segment) := by
  refine ⟨fun left c right htext hc => ?_, ?_, fun item hitem => ?_⟩
  · refine iff_of_false (not_separates_own htext hc) ?_
    rintro ⟨rfl, hout⟩
    exact hsegment _ _ htext hout
  · simp only [own]
    split
    · exact List.Pairwise.nil
    · exact List.pairwise_singleton _ _
  · obtain ⟨blanks, htrim, hfront, -⟩ := exists_trim segment
    simp only [own] at hitem
    split at hitem
    · cases hitem
    · rw [List.mem_singleton] at hitem
      refine ⟨_, _, blanks, htrim, by rw [hitem, Coord.advance_append]; rfl, ?_⟩
      rw [hitem]
      refine (declares_kindOf _).congr fun a => ?_
      rw [Outside, Outside, depthBehind_append, depthBehind_of_blank hfront]

/-! ### Segments one after another -/

theorem outside_behind {segment : List Char} (h : Outside segment) (a : List Char) :
    Outside (segment ++ ',' :: a) ↔ Outside a := by
  have hsegment : depthBehind 0 segment = 0 := h
  rw [Outside, Outside, depthBehind_append, hsegment]
  rfl

theorem Divides.bounds {outside : List Char → Prop} {here : Coord} {text : List Char}
    {items : List Tree} (h : Divides outside here text items) {item : Tree} (hitem : item ∈ items) :
    here ≤ item.span.start ∧ item.span.stop ≤ here.advance text := by
  obtain ⟨left, source, right, rfl, hspan, -⟩ := h.declares item hitem
  rw [hspan, Coord.advance_append _ _ right]
  exact ⟨Coord.le_advance _ _, Coord.le_advance _ _⟩

theorem separates_append {items others : List Tree} {place : Coord} :
    Separates (items ++ others) place ↔ Separates items place ∧ Separates others place :=
  List.forall_mem_append

/-- Two texts with a comma outside between them are divided into the items of both. -/
theorem Divides.append {here : Coord} {segment rest : List Char} {items others : List Tree}
    (h : Divides Outside here segment items) (hout : Outside segment)
    (h' : Divides Outside ((here.advance segment).next ',') rest others) :
    Divides Outside here (segment ++ ',' :: rest) (items ++ others) := by
  have hplace (a : List Char) : here.advance (segment ++ ',' :: a) =
      ((here.advance segment).next ',').advance a := by
    rw [Coord.advance_append, Coord.advance_cons]
  have hstop {item : Tree} (hitem : item ∈ items) (a : List Char) :
      item.span.stop ≤ here.advance (segment ++ a) := by
    rw [Coord.advance_append]
    exact Coord.le_trans (h.bounds hitem).2 (Coord.le_advance _ a)
  have hstart {other : Tree} (hother : other ∈ others) {a : List Char} (ha : a <+: segment) :
      here.advance a < other.span.start := by
    obtain ⟨b, rfl⟩ := ha
    have hcomma : here.advance a < here.advance (a ++ b ++ [',']) := by
      rw [List.append_assoc, Coord.advance_append]
      exact Coord.lt_advance _ (by simp)
    rw [hplace []] at hcomma
    exact Coord.lt_of_lt_of_le hcomma (h'.bounds hother).1
  refine ⟨fun left c right htext hc => ?_, ?_, fun item hitem => ?_⟩
  · rw [separates_append]
    rcases List.append_eq_append_iff.mp htext with ⟨a, rfl, ha⟩ | ⟨a, rfl, ha⟩
    · cases a with
      | nil =>
        obtain ⟨rfl, -⟩ := List.cons.inj ha
        refine iff_of_true ⟨fun item hitem => .inr (hstop hitem []), fun other hother => .inl ?_⟩
          ⟨rfl, by rwa [List.append_nil]⟩
        rw [List.append_nil]
        exact hstart hother (List.prefix_refl _)
      | cons d a =>
        obtain ⟨rfl, hrest⟩ := List.cons.inj ha
        rw [outside_behind hout, ← h'.separates_iff a c right hrest hc, hplace]
        exact and_iff_right fun item hitem => .inr (hplace a ▸ hstop hitem (',' :: a))
    · cases a with
      | nil =>
        obtain ⟨rfl, -⟩ := List.cons.inj ha
        rw [List.append_nil] at h hout hstop hstart
        exact iff_of_true ⟨fun item hitem => .inr (by simpa using hstop hitem []),
          fun other hother => .inl (hstart hother (List.prefix_refl _))⟩ ⟨rfl, hout⟩
      | cons d a =>
        obtain ⟨rfl, -⟩ := List.cons.inj ha
        rw [← h.separates_iff left c a rfl hc]
        exact and_iff_left fun other hother => .inl (hstart hother (List.prefix_append _ _))
  · refine List.pairwise_append.mpr ⟨?_, ?_, fun item hitem other hother => ?_⟩
    · refine h.between.imp ?_
      rintro item other ⟨left, right, rfl, hbetween⟩
      exact ⟨left, right ++ ',' :: rest, by simp, hbetween⟩
    · refine h'.between.imp ?_
      rintro item other ⟨left, right, rfl, hleft, hbetween⟩
      exact ⟨segment ++ ',' :: left, right, by simp, (outside_behind hout left).mpr hleft,
        by rwa [hplace]⟩
    · exact ⟨segment, rest, rfl, hout, by simpa using hstop hitem [],
        hstart hother (List.prefix_refl _)⟩
  · rcases List.mem_append.mp hitem with hitem | hitem
    · obtain ⟨left, source, right, rfl, hitem⟩ := h.declares item hitem
      exact ⟨left, source, right ++ ',' :: rest, by simp, hitem⟩
    · obtain ⟨left, source, right, rfl, hspan, hdeclares⟩ := h'.declares item hitem
      refine ⟨segment ++ ',' :: left, source, right, by simp, ?_, hdeclares.congr fun a => ?_⟩
      · rw [hspan, ← hplace, ← hplace]
        simp
      · rw [← outside_behind hout (left ++ a)]
        simp

theorem divides_placeItems (here : Coord) {segments : List (List Char)} (hcut : Cut 0 segments)
    (hne : segments ≠ []) : Divides Outside here (joined segments) (placeItems here segments) := by
  induction segments generalizing here with
  | nil => exact absurd rfl hne
  | cons segment later ih =>
    rw [placeItems_cons]
    cases later with
    | nil =>
      rw [placeItems, List.append_nil]
      exact divides_own here hcut
    | cons second later =>
      obtain ⟨hsegment, hout, hlater⟩ := hcut
      rw [joined_cons_cons]
      exact (divides_own here hsegment).append hout (ih _ hlater (by simp))

/-- A list of parameters divides its text by the depth of the characters. -/
theorem divides_items (here : Coord) (text : List Char) :
    Divides Outside here text (Parameters.items here text) := by
  have h := divides_placeItems here (cut_segments 0 text) (segments_ne_nil 0 text)
  rwa [joined_segments] at h

/-! ### Divisions of one text -/

/-- Where two texts are cut at a mark, one of the cuts is before the other. -/
theorem eq_or_of_append_cons_eq {mark : Char} {a a' b b' : List Char}
    (h : a ++ mark :: b = a' ++ mark :: b') :
    a = a' ∨ (∃ x, a' = a ++ mark :: x) ∨ ∃ x, a = a' ++ mark :: x := by
  rcases List.append_eq_append_iff.mp h with ⟨x, rfl, hx⟩ | ⟨x, rfl, hx⟩
  · cases x with
    | nil => exact .inl (List.append_nil a).symm
    | cons d x =>
      obtain ⟨rfl, -⟩ := List.cons.inj hx
      exact .inr (.inl ⟨x, rfl⟩)
  · cases x with
    | nil => exact .inl (List.append_nil a')
    | cons d x =>
      obtain ⟨rfl, -⟩ := List.cons.inj hx
      exact .inr (.inr ⟨x, rfl⟩)

theorem Assigns.unique {key key' value value' : List Char} (h : Assigns outside key)
    (h' : Assigns outside key') (hsource : key ++ '=' :: value = key' ++ '=' :: value') :
    key = key' := by
  rcases eq_or_of_append_cons_eq hsource with heq | ⟨x, hx⟩ | ⟨x, hx⟩
  · exact heq
  · exact absurd h.1 (h'.2 _ _ hx)
  · exact absurd h'.1 (h.2 _ _ hx)

theorem exists_assigns {a b : List Char} (hsource : source = a ++ '=' :: b) (hout : outside a) :
    ∃ key value, source = key ++ '=' :: value ∧ Assigns outside key := by
  induction hlength : a.length using Nat.strong_induction_on generalizing a b with
  | _ n ih =>
    by_cases hfirst : ∀ x y, a = x ++ '=' :: y → ¬ outside x
    · exact ⟨a, b, hsource, hout, hfirst⟩
    · push Not at hfirst
      obtain ⟨x, y, rfl, hx⟩ := hfirst
      refine ih x.length ?_ (b := y ++ '=' :: b) ?_ hx rfl
      · simp [← hlength]
      · simp [hsource]

theorem count_trim (text : List Char) : (Text.trim text).count '=' = text.count '=' := by
  obtain ⟨blanks, htrim, hfront, hback⟩ := exists_trim text
  have hnone {other : List Char} (h : ∀ c ∈ other, Text.isBlank c = true) : other.count '=' = 0 :=
    List.count_eq_zero.mpr fun hmem => absurd (h _ hmem) (by decide)
  have hcount := congrArg (List.count '=') htrim
  rw [List.count_append, List.count_append, hnone hfront, hnone hback] at hcount
  omega

theorem key_eq_of_trim_eq {key key' value value' : List Char}
    (hsource : key ++ '=' :: value = key' ++ '=' :: value')
    (htrim : Text.trim key = Text.trim key') : key = key' := by
  have hcount := count_trim key
  rw [htrim, count_trim] at hcount
  rcases eq_or_of_append_cons_eq hsource with heq | ⟨x, rfl⟩ | ⟨x, rfl⟩
  · exact heq
  · simp only [List.count_append, List.count_cons_self] at hcount
    omega
  · simp only [List.count_append, List.count_cons_self] at hcount
    omega

/-- What declares the same has the same first equals sign outside. -/
theorem Declares.assigns_iff (h : Declares outside source kind) (h' : Declares outside' source kind)
    {key value : List Char} (hsource : source = key ++ '=' :: value) :
    Assigns outside key ↔ Assigns outside' key := by
  cases h with
  | value hnone =>
    cases h' with
    | value hnone' =>
      exact iff_of_false (fun hkey => hnone _ _ hsource hkey.1) fun hkey => hnone' _ _ hsource hkey.1
  | @keyed first rest hfirst hassigns =>
    generalize hkind : NodeKind.assignment _ _ = kind at h'
    cases h' with
    | value => cases hkind
    | @keyed first' rest' hfirst' hassigns' =>
      have htrim : Text.trim first = Text.trim first' :=
        String.ofList_injective (NodeKind.assignment.inj hkind).1
      obtain rfl := key_eq_of_trim_eq (hfirst.symm.trans hfirst') htrim
      refine ⟨fun hkey => ?_, fun hkey => ?_⟩
      · rwa [hkey.unique hassigns (hsource.symm.trans hfirst)]
      · rwa [hkey.unique hassigns' (hsource.symm.trans hfirst)]

theorem Declares.of_assigns_iff (h : Declares outside source kind)
    (hiff : ∀ key value, source = key ++ '=' :: value →
      (Assigns outside key ↔ Assigns outside' key)) : Declares outside' source kind := by
  cases h with
  | value hnone =>
    refine .value fun a b hab hout => ?_
    obtain ⟨key, value, hsource, hkey⟩ := exists_assigns hab hout
    exact hnone key value hsource ((hiff key value hsource).mpr hkey).1
  | keyed hsource hkey => exact .keyed hsource ((hiff _ _ hsource).mp hkey)

/-- The commas outside are the same for both, and so are the first equals signs outside in the items. -/
structure SameMarks (outside outside' : List Char → Prop) (here : Coord) (text : List Char)
    (items : List Tree) : Prop where
  comma_iff : ∀ left right, text = left ++ ',' :: right → (outside left ↔ outside' left)
  assigns_iff : ∀ item ∈ items, ∀ left source right, text = left ++ source ++ right →
    item.span = ⟨here.advance left, here.advance (left ++ source)⟩ →
    ∀ key value, source = key ++ '=' :: value →
      (Assigns (fun a => outside (left ++ a)) key ↔ Assigns (fun a => outside' (left ++ a)) key)

theorem eq_of_span_eq {left left' source' right right' : List Char}
    (htext : text = left ++ source ++ right) (htext' : text = left' ++ source' ++ right')
    (hspan : (⟨here.advance left, here.advance (left ++ source)⟩ : Span) =
      ⟨here.advance left', here.advance (left' ++ source')⟩) : left = left' ∧ source = source' := by
  obtain ⟨hstart, hstop⟩ := Span.mk.inj hspan
  have hprefix : left ++ source <+: text := ⟨right, htext.symm⟩
  have hprefix' : left' ++ source' <+: text := ⟨right', htext'.symm⟩
  have hboth := Coord.advance_inj here hprefix hprefix' hstop
  have hleft := Coord.advance_inj here ((List.prefix_append _ _).trans hprefix)
    ((List.prefix_append _ _).trans hprefix') hstart
  subst hleft
  exact ⟨rfl, List.append_cancel_left hboth⟩

/-- A list that divides a text in one way does so in another one exactly if the marks are the same. -/
theorem Divides.iff_sameMarks (h : Divides outside here text items) :
    Divides outside' here text items ↔ SameMarks outside outside' here text items := by
  constructor
  · intro h'
    refine ⟨fun left right htext => ?_, fun item hitem left source right htext hspan => ?_⟩
    · have hcomma := h.separates_iff left ',' right htext (by decide)
      have hcomma' := h'.separates_iff left ',' right htext (by decide)
      simpa using hcomma.symm.trans hcomma'
    · obtain ⟨left₁, source₁, right₁, htext₁, hspan₁, hdeclares⟩ := h.declares item hitem
      obtain ⟨left₂, source₂, right₂, htext₂, hspan₂, hdeclares'⟩ := h'.declares item hitem
      obtain ⟨rfl, rfl⟩ := eq_of_span_eq htext htext₁ (hspan.symm.trans hspan₁)
      obtain ⟨rfl, rfl⟩ := eq_of_span_eq htext htext₂ (hspan.symm.trans hspan₂)
      exact fun key value hsource => hdeclares.assigns_iff hdeclares' hsource
  · intro hsame
    refine ⟨fun left c right htext hc => ?_, h.between.imp ?_, fun item hitem => ?_⟩
    · rw [h.separates_iff left c right htext hc]
      refine and_congr_right ?_
      rintro rfl
      exact hsame.comma_iff left right htext
    · rintro item other ⟨left, right, htext, hleft, hbetween⟩
      exact ⟨left, right, htext, (hsame.comma_iff left right htext).mp hleft, hbetween⟩
    · obtain ⟨left, source, right, htext, hspan, hdeclares⟩ := h.declares item hitem
      exact ⟨left, source, right, htext, hspan,
        hdeclares.of_assigns_iff (hsame.assigns_iff item hitem left source right htext hspan)⟩

/-- If both agree at every place of the text, then their marks are the same. -/
theorem SameMarks.of_outside_iff (h : ∀ left c right, text = left ++ c :: right →
    (outside left ↔ outside' left)) : SameMarks outside outside' here text items := by
  refine ⟨fun left right htext => h left _ right htext, ?_⟩
  rintro item - left source right htext - key value hsource
  have hagree (a b : List Char) (c : Char) (hab : source = a ++ c :: b) :
      outside (left ++ a) ↔ outside' (left ++ a) :=
    h (left ++ a) c (b ++ right) (by simp [htext, hab])
  have hfirst : (∀ a b, key = a ++ '=' :: b → ¬ outside (left ++ a)) ↔
      ∀ a b, key = a ++ '=' :: b → ¬ outside' (left ++ a) :=
    forall_congr' fun a => forall_congr' fun b => imp_congr_right fun hab =>
      not_congr (hagree a (b ++ '=' :: value) '=' (by simp [hsource, hab]))
  exact and_congr (hagree key value '=' hsource) hfirst

end Parameters

/-! ### Depth by tokens -/

namespace Grammar

/-- The depth of braces at the token that a character is in, with `offset` characters before it; the
tokens start at a depth. -/
def depthAt (depth : Nat) : List Token → Nat → Nat
  | [], _ => depth
  | t :: tokens, offset =>
    if offset < t.text.length then depth
    else depthAt (depthAfter depth t) tokens (offset - t.text.length)

/-- The token that the next character is in stands outside all braces. -/
def Outside (tokens : List Token) (left : List Char) : Prop := depthAt 0 tokens left.length = 0

theorem depthAt_cons_append (depth : Nat) (t : Token) (tokens : List Token) (left : List Char) :
    depthAt depth (t :: tokens) (t.text ++ left).length =
      depthAt (depthAfter depth t) tokens left.length := by
  rw [depthAt, List.length_append, if_neg (by omega), Nat.add_sub_cancel_left]

theorem depthAt_cons_of_eq {depth : Nat} {t : Token} {a b : List Char} {c : Char}
    (ht : t.text = a ++ c :: b) (tokens : List Token) :
    depthAt depth (t :: tokens) a.length = depth := by
  rw [depthAt, if_pos (by simp [ht])]

theorem run_items_before (s : State) (opener : Placed) {here : Coord} {depth : Nat}
    {read passed later : List Token} {t : Token} (hinner : EndsOutside depth (passed ++ t :: later))
    {a b : List Char} {c : Char} (ht : t.text = a ++ c :: b) :
    run here { s with reading := .items opener depth read } passed =
      .ok { s with
        reading := .items opener (depthAt depth (passed ++ t :: later) (textOf passed ++ a).length)
          (passed.reverse ++ read) } := by
  induction passed generalizing here depth read with
  | nil =>
    rw [run_nil, List.nil_append, Token.textOf_nil, List.nil_append, depthAt_cons_of_eq ht]
    rfl
  | cons first passed ih =>
    obtain ⟨hbracket, hrest⟩ := hinner
    rw [run_cons (step_items s opener hbracket), ih hrest, Token.textOf_cons, List.append_assoc,
      List.cons_append, depthAt_cons_append, List.reverse_cons, List.append_assoc,
      List.singleton_append]

end Grammar

/-- Only a token that is a brace has a brace in it. -/
def Token.HidesNoBrace (t : Token) : Prop :=
  t.kind ≠ .lBrace → t.kind ≠ .rBrace → '\x7b' ∉ t.text ∧ '\x7d' ∉ t.text

namespace Grammar

open Parameters (Divides SameMarks items depthBehind depthBehind_append depthBehind_of_not_mem)

/-- A token that hides no brace changes the depth of its characters as it changes the one of tokens,
and only with its last character. -/
theorem depthBehind_of_hidesNoBrace {t : Token} (hlexical : t.Lexical) (hhides : t.HidesNoBrace)
    (depth : Nat) : depthBehind depth t.text = depthAfter depth t ∧
      ∀ a c b, t.text = a ++ c :: b → depthBehind depth a = depth := by
  have hsingle {brace : Char} (htext : t.text = [brace]) {a b : List Char} {c : Char}
      (hab : t.text = a ++ c :: b) : depthBehind depth a = depth := by
    rw [htext, eq_comm, List.append_eq_singleton_iff] at hab
    rcases hab with ⟨rfl, -⟩ | ⟨-, hnil⟩
    · rfl
    · cases hnil
  by_cases hopen : t.kind = .lBrace
  · have htext : t.text = ['\x7b'] := hlexical.spells hopen
    refine ⟨?_, fun a c b => hsingle htext⟩
    rw [htext, depthAfter, hopen]
    rfl
  by_cases hclose : t.kind = .rBrace
  · have htext : t.text = ['\x7d'] := hlexical.spells hclose
    refine ⟨?_, fun a c b => hsingle htext⟩
    rw [htext, depthAfter, hclose]
    rfl
  obtain ⟨hno_open, hno_close⟩ := hhides hopen hclose
  refine ⟨?_, fun a c b hab => ?_⟩
  · rw [depthBehind_of_not_mem hno_open hno_close, depthAfter]
    split <;> first | rfl | contradiction
  · rw [hab, List.mem_append, not_or] at hno_open hno_close
    exact depthBehind_of_not_mem hno_open.1 hno_close.1

/-- Where no token hides a brace, the depth of tokens is that of characters. -/
theorem depthAt_eq_depthBehind {tokens : List Token} (hlexical : ∀ t ∈ tokens, t.Lexical)
    (hhides : ∀ t ∈ tokens, t.HidesNoBrace) {depth : Nat} {left right : List Char} {c : Char}
    (htext : textOf tokens = left ++ c :: right) :
    depthAt depth tokens left.length = depthBehind depth left := by
  induction tokens generalizing depth left with
  | nil => simp at htext
  | cons t tokens ih =>
    obtain ⟨hwhole, hpart⟩ :=
      depthBehind_of_hidesNoBrace (hlexical t List.mem_cons_self) (hhides t List.mem_cons_self) depth
    have hlater {rest : List Char} (hrest : textOf tokens = rest ++ c :: right) :
        depthAt depth (t :: tokens) (t.text ++ rest).length = depthBehind depth (t.text ++ rest) := by
      rw [depthAt_cons_append, depthBehind_append, hwhole]
      exact ih (fun t ht => hlexical t (List.mem_cons_of_mem _ ht))
        (fun t ht => hhides t (List.mem_cons_of_mem _ ht)) hrest
    rw [Token.textOf_cons] at htext
    rcases List.append_eq_append_iff.mp htext with ⟨rest, rfl, hrest⟩ | ⟨rest, ht, hrest⟩
    · exact hlater hrest
    · cases rest with
      | nil =>
        rw [List.append_nil] at ht
        have hnext : textOf tokens = [] ++ c :: right := hrest.symm
        simpa [ht] using hlater hnext
      | cons d rest => rw [depthAt_cons_of_eq ht, hpart left d rest ht]

theorem outside_iff_of_hidesNoBrace {tokens : List Token} (hlexical : ∀ t ∈ tokens, t.Lexical)
    (hhides : ∀ t ∈ tokens, t.HidesNoBrace) {left right : List Char} {c : Char}
    (htext : textOf tokens = left ++ c :: right) :
    Parameters.Outside left ↔ Outside tokens left := by
  rw [Parameters.Outside, Outside, depthAt_eq_depthBehind hlexical hhides htext]

/-! ### Blocks that the reader closes -/

variable {origin : Coord} {text : List Char} {before after inner : List Token} {closer : Token}
  {s : State} {opener : Placed}

theorem exists_inner_of_run (hrun : run origin (State.initial origin) before = .ok s)
    (hreading : s.reading = .items opener 0 inner.reverse) :
    ∃ left, before = left ++ opener.toToken :: inner ∧ opener.kind = .lBracket ∧
      opener.start = origin.advance (textOf left) ∧ EndsOutside 0 inner := by
  obtain ⟨l, under, pending, -, hpending, hbefore⟩ := tracked_run (tracked_initial origin) hrun
  rw [hreading] at hpending
  cases hpending with
  | items _ hstart _ hopener hends =>
    rw [List.reverse_reverse] at hbefore hends
    exact ⟨consumed (l :: under), hbefore, hopener, hstart, by simpa using hends [] rfl⟩

/-- A square block that the reader closes is divided by the depth of its characters.  By the depth that
the reader itself counts it is so divided exactly if both have the same marks, and that is so if no
token in it hides a brace. -/
theorem divides_of_run (htokens : tokenize text = before ++ closer :: after)
    (hrun : run origin (State.initial origin) before = .ok s)
    (hreading : s.reading = .items opener 0 inner.reverse) (hcloser : closer.kind = .rBracket) :
    (∃ left, before = left ++ opener.toToken :: inner ∧ opener.kind = .lBracket) ∧
    (∀ passed t later a c b, inner = passed ++ t :: later → t.text = a ++ c :: b →
      run opener.stop { s with reading := .items opener 0 [] } passed = .ok { s with
        reading := .items opener (depthAt 0 inner (textOf passed ++ a).length) passed.reverse }) ∧
    run origin (State.initial origin) (before ++ [closer]) =
      .ok (s.add (.node .squareBlock ⟨opener.start, origin.advance (textOf (before ++ [closer]))⟩
        [.node .parameterList ⟨opener.stop, opener.stop.advance (textOf inner)⟩
          (items opener.stop (textOf inner))])) ∧
    Divides Parameters.Outside opener.stop (textOf inner) (items opener.stop (textOf inner)) ∧
    (Divides (Outside inner) opener.stop (textOf inner) (items opener.stop (textOf inner)) ↔
      SameMarks Parameters.Outside (Outside inner) opener.stop (textOf inner)
        (items opener.stop (textOf inner))) ∧
    ((∀ t ∈ inner, t.HidesNoBrace) →
      Divides (Outside inner) opener.stop (textOf inner) (items opener.stop (textOf inner))) := by
  obtain ⟨left, hbefore, hopener, hstart, hends⟩ := exists_inner_of_run hrun hreading
  have hdivides := Parameters.divides_items opener.stop (textOf inner)
  refine ⟨⟨left, hbefore, hopener⟩, fun passed t later a c b hinner ht => ?_, ?_, hdivides,
    hdivides.iff_sameMarks, fun hhides => hdivides.iff_sameMarks.mpr ?_⟩
  · rw [hinner] at hends ⊢
    rw [run_items_before s opener hends ht, List.append_nil]
  · have hstop : origin.advance (textOf before) = opener.stop.advance (textOf inner) := by
      rw [hbefore, Placed.stop, hstart, Token.textOf_append, Token.textOf_cons, Coord.advance_append,
        Coord.advance_append]
    have hcontent : collected inner.reverse = textOf inner := by
      rw [collected, List.reverse_reverse]
    rw [run_append hrun, run_singleton]
    simp [step, hreading, hcloser, squareBlock, hcontent, hstop, Placed.stop, Coord.advance_append,
      Token.textOf_cons]
  · refine .of_outside_iff fun a c b hab => outside_iff_of_hidesNoBrace (fun t ht => ?_) hhides hab
    have hmem : t ∈ tokenize text := by simp [htokens, hbefore, ht]
    exact lexical_of_mem_tokenize hmem

/-- A command with a square block in which marks stand inside braces and outside. -/
def nestedMarks : List Char :=
  ['\\', 'c', '[', 'a', ',', '\x7b', 'b', ',', '=', 'c', '\x7d', '=', 'd', ']']

theorem divides_of_run_nestedMarks : ∃ before inner closer s opener,
    tokenize nestedMarks = before ++ [closer] ∧
    run .zero (State.initial .zero) before = .ok s ∧
    s.reading = .items opener 0 inner.reverse ∧ closer.kind = .rBracket ∧
    (∀ t ∈ inner, t.HidesNoBrace) ∧ opener.stop = ⟨0, 3⟩ ∧
    Divides (Outside inner) ⟨0, 3⟩ ['a', ',', '\x7b', 'b', ',', '=', 'c', '\x7d', '=', 'd']
      [.leaf (.parameter "a") ⟨0, 3⟩ ⟨0, 4⟩,
        .leaf (.assignment "\x7bb,=c\x7d" "d") ⟨0, 5⟩ ⟨0, 13⟩] := by
  let opener : Placed := ⟨⟨.lBracket, ['[']⟩, ⟨0, 2⟩⟩
  let inner : List Token := [⟨.text, ['a', ',']⟩, ⟨.lBrace, ['\x7b']⟩, ⟨.text, ['b', ',', '=', 'c']⟩,
    ⟨.rBrace, ['\x7d']⟩, ⟨.text, ['=', 'd']⟩]
  let s : State := ⟨.items opener 0 inner.reverse, ⟨.command "c", ⟨0, 0⟩, ⟨0, 2⟩, []⟩,
    [⟨.root, ⟨0, 0⟩, ⟨0, 0⟩, []⟩]⟩
  have htokens : tokenize nestedMarks =
      ⟨.command, ['\\', 'c']⟩ :: opener.toToken :: inner ++ [⟨.rBracket, [']']⟩] := by rfl
  have hrun : run .zero (State.initial .zero) (⟨.command, ['\\', 'c']⟩ :: opener.toToken :: inner) =
      .ok s := by rfl
  have hhides : ∀ t ∈ inner, t.HidesNoBrace := by simp [inner, Token.HidesNoBrace]
  obtain ⟨-, -, -, -, -, hdivides⟩ := divides_of_run htokens hrun rfl rfl
  exact ⟨_, inner, _, s, opener, htokens, hrun, rfl, rfl, hhides, rfl, hdivides hhides⟩

/-- A command with a square block in which a comma stands behind an escaped brace. -/
def escapedBrace : List Char := ['\\', 'c', '[', 'a', '\\', '\x7b', ',', 'b', ']']

/-- The comma is outside all braces as the reader counts, but it is part of the only parameter. -/
theorem not_divides_escapedBrace : ∃ inner items,
    tokenize escapedBrace =
      ⟨.command, ['\\', 'c']⟩ :: ⟨.lBracket, ['[']⟩ :: inner ++ [⟨.rBracket, [']']⟩] ∧
    readFrom .zero escapedBrace = .ok [.node (.command "c") ⟨⟨0, 0⟩, ⟨0, 9⟩⟩
      [.node .squareBlock ⟨⟨0, 2⟩, ⟨0, 9⟩⟩ [.node .parameterList ⟨⟨0, 3⟩, ⟨0, 8⟩⟩ items]]] ∧
    items = [.leaf (.parameter "a\\\x7b,b") ⟨0, 3⟩ ⟨0, 8⟩] ∧
    textOf inner = ['a', '\\', '\x7b', ',', 'b'] ∧ Outside inner ['a', '\\', '\x7b'] ∧
    ¬ Parameters.Separates items ⟨0, 6⟩ ∧ ¬ Divides (Outside inner) ⟨0, 3⟩ (textOf inner) items := by
  let inner : List Token := [⟨.text, ['a']⟩, ⟨.escapedChar, ['\\', '\x7b']⟩, ⟨.text, [',', 'b']⟩]
  have hinside : ¬ Parameters.Separates [.leaf (.parameter "a\\\x7b,b") ⟨0, 3⟩ ⟨0, 8⟩] ⟨0, 6⟩ := by
    rw [Parameters.Separates, List.forall_mem_singleton]
    decide
  refine ⟨inner, _, by rfl, by rfl, rfl, rfl, rfl, hinside, fun hdivides => hinside ?_⟩
  exact (hdivides.separates_iff ['a', '\\', '\x7b'] ',' ['b'] rfl rfl).mpr ⟨rfl, rfl⟩

end Grammar

end TexAnchor
