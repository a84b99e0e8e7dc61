import Mathlib.Data.List.Forall2
import TexAnchor.Mapping.Batch
import TexAnchor.Mapping.Writer
import TexAnchor.Proofs.JsonGrammar

/-! # Reading back what was written

A batch is a text of lines, and each line is a record in the sense of the grammar of JSON.  This
module says what a batch is without its reader: where a text is cut into lines (`Lined`), which
values are records of a mapping (`Stands`), and which texts a writer of a list of mappings may
produce (`Written`).

* `Json.spells_quote`, `Json.spells_renderNat` — what the writers write belongs to the grammar;
* `lined_iff` — the one way to cut a text into lines;
* `stands_iff` — fields may come in any order, among others, or without names;
* `readLines_eq_error_iff` — the first line that is neither blank nor a usable mapping is named. -/

namespace TexAnchor

/-! ### Writing strings and numbers -/

namespace Json

theorem hexValue?_hexDigit : ∀ n < 16, hexValue? (hexDigit n) = some n := by
  decide

theorem content_unit {unit : Nat} {pieces : List Piece} (hhigh : isHigh unit = false)
    (hlow : isLow unit = false) :
    content (.unit unit :: pieces) = (content pieces).map (Char.ofNat unit :: ·) := by
  obtain _ | ⟨_ | _, pieces⟩ := pieces <;> simp [content, hhigh, hlow]

theorem exists_spelled_escape (c : Char) : ∃ piece,
    (∀ {pieces text}, Spelled pieces text → Spelled (piece :: pieces) (escape c ++ text)) ∧
      ∀ pieces, content (piece :: pieces) = (content pieces).map (c :: ·) := by
  unfold escape
  split
  case h_8 hquote hslash _ _ _ _ _ =>
    split
    next hcontrol =>
      refine ⟨.unit c.toNat, .unit ?_, fun pieces => ?_⟩
      · have hhigh := hexValue?_hexDigit (c.toNat / 16) (by omega)
        have hlow := hexValue?_hexDigit (c.toNat % 16) (by omega)
        have hzero : hexValue? '0' = some 0 := rfl
        simp only [unit?, hzero, hhigh, hlow, Option.bind_eq_bind, Option.bind_some, Option.pure_def]
        congr 2
        omega
      · rw [content_unit (by simp [isHigh]; omega) (by simp [isLow]; omega), Char.ofNat_toNat]
    next hcontrol =>
      exact ⟨.char c, .plain hquote hslash (Nat.le_of_not_lt hcontrol), fun _ => rfl⟩
  all_goals exact ⟨.char _, .short rfl, fun _ => rfl⟩

theorem exists_spelled_flatMap_escape (text : List Char) :
    ∃ pieces, Spelled pieces (text.flatMap escape) ∧ content pieces = some text := by
  induction text with
  | nil => exact ⟨[], .nil, rfl⟩
  | cons c text ih =>
    obtain ⟨pieces, hspelled, hcontent⟩ := ih
    obtain ⟨piece, hstep, hpiece⟩ := exists_spelled_escape c
    exact ⟨piece :: pieces, hstep hspelled, by rw [hpiece, hcontent]; rfl⟩

theorem spells_quote (text : List Char) : Spells (.string (some text)) (quote text) := by
  obtain ⟨pieces, hspelled, hcontent⟩ := exists_spelled_flatMap_escape text
  rw [← hcontent]
  exact .string hspelled

theorem ofDigits_toDigits (n : Nat) : ofDigits (Nat.toDigits 10 n) = n := by
  calc ofDigits (Nat.toDigits 10 n)
    _ = Nat.ofDigitChars 10 (Nat.toDigits 10 n) 0 := by
      simp only [ofDigits, Nat.ofDigitChars_eq_foldl, Nat.mul_comm]
      rfl
    _ = n := Nat.ofDigitChars_ten_toDigits

theorem head?_toDigits {n : Nat} (h : (Nat.toDigits 10 n).head? = some '0') :
    Nat.toDigits 10 n = ['0'] := by
  induction n using Nat.strong_induction_on with
  | _ n ih =>
    rcases Nat.lt_or_ge n 10 with hn | hn
    · rw [Nat.toDigits_of_lt_base hn] at h ⊢
      simpa using h
    · rw [Nat.toDigits_of_base_le (by decide) hn, List.head?_append_of_ne_nil _ Nat.toDigits_ne_nil] at h
      have hzero : n / 10 = 0 := by
        rw [← ofDigits_toDigits (n / 10), ih (n / 10) (by omega) h]
        rfl
      omega

theorem spells_renderNat (n : Nat) : Spells (.natural n) (renderNat n) := by
  have hdigits : Digits (Nat.toDigits 10 n) :=
    ⟨Nat.toDigits_ne_nil, fun c hc => Nat.isDigit_of_mem_toDigits (by decide) (by decide) hc⟩
  have number : Number (if false || false || false then .otherNumber
      else .natural (ofDigits (Nat.toDigits 10 n))) (minus false ++ Nat.toDigits 10 n ++ [] ++ []) :=
    .mk hdigits head?_toDigits .absent .absent
  simpa [minus, ofDigits_toDigits, renderNat] using Spells.number number

theorem feed_notMem_escape (c : Char) : '\n' ∉ escape c := by
  have hdigit : ∀ n < 16, '\n' ≠ hexDigit n := by decide
  unfold escape
  split
  case h_8 hfeed _ _ =>
    split
    · simp [hdigit (c.toNat / 16) (by omega), hdigit (c.toNat % 16) (by omega)]
    · simpa using Ne.symm hfeed
  all_goals decide

theorem feed_notMem_quote (text : List Char) : '\n' ∉ quote text := by
  simp [quote, feed_notMem_escape]

theorem feed_notMem_renderNat (n : Nat) : '\n' ∉ renderNat n := fun h => by
  simpa [Char.isDigit] using Nat.isDigit_of_mem_toDigits (by decide) (by decide) h

end Json

/-! ### Records -/

namespace Json

/-- One member has the name, and this is its value. -/
def Has (members : List (Content × Value)) (name : String) (value : Value) : Prop :=
  members.filter (fun member => member.1 = some name.toList) = [(some name.toList, value)]

/-- A record with these values for its fields: an object in which each name stands once, perhaps
among others, or an array of the values alone. -/
inductive Gives (names : List String) : Value → List Value → Prop
  | named {members values} : (∀ member ∈ members, member.1 ≠ none) →
      List.Forall₂ (Has members) names values → Gives names (.object members) values
  | positional {values} : values.length = names.length → Gives names (.array values) values

theorem map_ofList_beq (key : Content) (name : String) :
    (key.map String.ofList == some name) = decide (key = some name.toList) := by
  cases key with
  | none => rfl
  | some key =>
    rw [Bool.eq_iff_iff]
    simp [← String.toList_inj]

/-- A name that is not repeated has a value exactly if one member has it. -/
theorem has_iff {members : List (Content × Value)} {name : String} {value : Value} :
    Has members name value ↔
      (members.map fun member => member.1.map String.ofList).count (some name) ≤ 1 ∧
        (members.find? fun m => m.1.map String.ofList == some name).map (·.2) = some value := by
  have hcount : (members.map fun member => member.1.map String.ofList).count (some name) =
      (members.filter fun member => member.1 = some name.toList).length := by
    rw [List.count, List.countP_map, List.countP_eq_length_filter]
    simp only [Function.comp_def, map_ofList_beq]
  simp only [hcount, map_ofList_beq, ← List.head?_filter, Has]
  constructor
  · intro h
    simp [h]
  · rintro ⟨hlength, hvalue⟩
    obtain ⟨member, hmember, rfl⟩ := Option.map_eq_some_iff.mp hvalue
    obtain ⟨rest, hrest⟩ := List.head?_eq_some_iff.mp hmember
    have hkey : member.1 = some name.toList := by
      simpa using (List.mem_filter.mp (List.mem_of_mem_head? hmember)).2
    obtain rfl : rest = [] := by
      rw [hrest] at hlength
      simpa using hlength
    rw [hrest, ← hkey]

theorem forall₂_has_iff {members : List (Content × Value)} {names : List String}
    {values : List Value} :
    List.Forall₂ (Has members) names values ↔
      (∀ name ∈ names,
        (members.map fun member => member.1.map String.ofList).count (some name) ≤ 1) ∧
      (names.map fun name => (members.find? fun m => m.1.map String.ofList == some name).map (·.2)) =
        values.map some := by
  induction names generalizing values with
  | nil => cases values <;> simp
  | cons name names ih =>
    cases values with
    | nil => simp
    | cons value values =>
      rw [List.forall₂_cons, ih, has_iff]
      simp only [List.forall_mem_cons, List.map_cons, List.cons.injEq]
      tauto

theorem fields?_object {names : List String} {members : List (Content × Value)}
    {values : List Value} :
    (Value.object members).fields? true names = some (values.map some) ↔
      (∀ member ∈ members, member.1 ≠ none) ∧ List.Forall₂ (Has members) names values := by
  simp only [Value.fields?, forall₂_has_iff, Option.ite_none_right_eq_some, Bool.and_eq_true,
    List.all_eq_true, decide_eq_true_eq, Option.some.injEq, and_assoc]
  refine and_congr ?_ Iff.rfl
  simp only [List.forall_mem_map, Bool.true_or]
  refine forall₂_congr fun member _ => ?_
  cases member.1 <;> simp

theorem fields?_array {names : List String} {items values : List Value}
    (hlength : values.length = names.length) :
    (Value.array items).fields? true names = some (values.map some) ↔ items = values := by
  simp only [Value.fields?, Option.ite_none_right_eq_some, Option.some.injEq]
  constructor
  · rintro ⟨hitems, h⟩
    refine List.ext_getElem? fun i => ?_
    rcases Nat.lt_or_ge i names.length with hi | hi
    · have hget := congrArg (·[i]?) h
      simpa [hi, hlength] using hget
    · rw [List.getElem?_eq_none (by omega), List.getElem?_eq_none (by omega)]
  · rintro rfl
    refine ⟨by omega, List.ext_getElem? fun i => ?_⟩
    rcases Nat.lt_or_ge i names.length with hi | hi
    · simp [hi, hlength]
    · simp [hi, hlength]

theorem gives_iff {names : List String} {value : Value} {values : List Value}
    (hlength : values.length = names.length) :
    Gives names value values ↔ value.fields? true names = some (values.map some) := by
  constructor
  · rintro (⟨hkeys, hvalues⟩ | _)
    · exact fields?_object.mpr ⟨hkeys, hvalues⟩
    · exact (fields?_array hlength).mpr rfl
  · intro h
    cases value
    case object members =>
      obtain ⟨hkeys, hvalues⟩ := fields?_object.mp h
      exact .named hkeys hvalues
    case array items =>
      rw [(fields?_array hlength).mp h]
      exact .positional hlength
    all_goals simp [Value.fields?] at h

end Json

namespace Mapping

/-- The value is a record of the mapping. -/
structure Stands (value : Json.Value) (m : Mapping) : Prop where
  fields : Json.Gives fieldNames value [.string (some m.kind.toList), .natural m.id,
    .string (some m.sourceFile.spelling.toList), .natural m.line]
  id_lt : m.id < UInt64.size
  line_lt : m.line < UInt64.size

theorem text?_eq_some_iff {value : Json.Value} {text : String} :
    value.text? = some text ↔ value = .string (some text.toList) := by
  unfold Json.Value.text?
  split
  · simp [← String.toList_inj]
  next hne =>
    simp only [reduceCtorEq, false_iff]
    exact fun h => hne _ h

theorem word?_eq_some_iff {value : Json.Value} {n : Nat} :
    value.word? = some n ↔ value = .natural n ∧ n < UInt64.size := by
  unfold Json.Value.word?
  split
  next m =>
    simp only [Option.ite_none_right_eq_some, Option.some.injEq, Json.Value.natural.injEq]
    constructor
    · rintro ⟨h, rfl⟩
      exact ⟨rfl, h⟩
    · rintro ⟨rfl, h⟩
      exact ⟨h, rfl⟩
  next hne =>
    simp only [reduceCtorEq, false_iff]
    exact fun h => hne _ h.1

theorem stands_iff {value : Json.Value} {m : Mapping} :
    Stands value m ↔ ofValue? value = some m := by
  have hfields := @Json.gives_iff fieldNames value [.string (some m.kind.toList), .natural m.id,
    .string (some m.sourceFile.spelling.toList), .natural m.line] rfl
  constructor
  · rintro ⟨hgives, hid, hline⟩
    simp [ofValue?, hfields.mp hgives, Json.Value.text?, Json.Value.word?, hid, hline]
  · intro h
    simp only [ofValue?, Option.bind_eq_bind, Option.bind_eq_some_iff] at h
    obtain ⟨fields, hread, h⟩ := h
    split at h
    next kind id file line =>
      simp only [Option.bind_eq_some_iff, Option.pure_def, Option.some.injEq, text?_eq_some_iff,
        word?_eq_some_iff] at h
      obtain ⟨kind, rfl, id, ⟨rfl, hid⟩, file, rfl, line, ⟨rfl, hline⟩, rfl⟩ := h
      exact ⟨hfields.mpr hread, hid, hline⟩
    · simp at h

/-- The line is a mapping. -/
def Reads (line : List Char) (m : Mapping) : Prop :=
  ∃ value, Json.Padded value line ∧ Stands value m

theorem reads_iff {line : List Char} {m : Mapping} : Reads line m ↔ ofLine? line = some m := by
  simp only [Reads, ofLine?, Option.bind_eq_some_iff, Json.read?_eq_some_iff, stands_iff]

/-! ### Written mappings -/

/-- A mapping as the build step can name it: its numbers have sixty-four bits, and lines count from
one. -/
structure Fits (m : Mapping) : Prop where
  id_lt : m.id < UInt64.size
  line_lt : m.line < UInt64.size
  one_le : 1 ≤ m.line

theorem member_renderField (name : String) {value : Json.Value} {body : List Char}
    (h : Json.Spells value body) :
    Json.Member (some name.toList, value) (renderField name body) := by
  obtain ⟨pieces, hname, hcontent⟩ := Json.exists_spelled_flatMap_escape name.toList
  have hbody : Json.Padded value ([] ++ body ++ []) := .mk .nil h .nil
  have member := Json.Member.mk .nil hname .nil hbody
  rw [hcontent] at member
  simpa [renderField, Json.quote] using member

theorem Fits.reads {m : Mapping} (h : m.Fits) : Reads m.render m := by
  have kind := member_renderField "kind" (Json.spells_quote m.kind.toList)
  have id := member_renderField "id" (Json.spells_renderNat m.id)
  have file := member_renderField "source_file" (Json.spells_quote m.sourceFile.spelling.toList)
  have line := member_renderField "line" (Json.spells_renderNat m.line)
  have record : Json.Padded _ ([] ++ _ ++ []) :=
    .mk .nil (.object (.more kind (.more id (.more file (.last line))))) .nil
  refine ⟨_, by simpa [render] using record, ⟨.named (by simp) ?_, h.id_lt, h.line_lt⟩⟩
  simp [fieldNames, Json.Has]

theorem feed_notMem_render (m : Mapping) : '\n' ∉ m.render := by
  simp [render, renderField, Json.feed_notMem_quote, Json.feed_notMem_renderNat]

theorem getLast?_render (m : Mapping) : m.render.getLast? = some '\x7d' :=
  List.getLast?_concat

theorem isBlankText_render (m : Mapping) : Text.isBlankText m.render = false := by
  have hbrace : Text.isBlank '\x7b' = false := by decide
  simp [render, Text.isBlankText, hbrace]

/-! ### Lines -/

/-- The text falls into these lines: each but the last ends with a line feed, or with a carriage
return and a line feed, and the last may end without. -/
inductive Lined : List Char → List (List Char) → Prop
  | nil : Lined [] []
  | last {line} : line ≠ [] → '\n' ∉ line → Lined line [line]
  | feed {line text lines} : '\n' ∉ line → line.getLast? ≠ some '\r' → Lined text lines →
      Lined (line ++ '\n' :: text) (line :: lines)
  | returnFeed {line text lines} : '\n' ∉ line → Lined text lines →
      Lined (line ++ '\r' :: '\n' :: text) (line :: lines)

/-- A character that neither is a line feed nor stands before one as a carriage return lengthens the
line that it stands before, or is a line of its own. -/
theorem lines_cons {c : Char} {text : List Char} (hfeed : c ≠ '\n')
    (hreturn : c = '\r' → text.head? ≠ some '\n') :
    lines (c :: text) = (c :: (lines text).headD []) :: (lines text).tail := by
  rw [lines]
  · cases lines text <;> rfl
  · exact hfeed
  · rintro text hc rfl
    exact hreturn hc rfl

theorem lines_of_feed_notMem {line : List Char} (hne : line ≠ []) (h : '\n' ∉ line) :
    lines line = [line] := by
  induction line with
  | nil => exact absurd rfl hne
  | cons c line ih =>
    simp only [List.mem_cons, not_or] at h
    have hreturn : c = '\r' → line.head? ≠ some '\n' :=
      fun _ hhead => h.2 (List.mem_of_mem_head? hhead)
    rw [lines_cons (Ne.symm h.1) hreturn]
    cases line with
    | nil => rw [lines, List.headD_nil, List.tail_nil]
    | cons d line => rw [ih (by simp) h.2, List.headD_cons, List.tail_cons]

theorem lines_feed {line : List Char} (h : '\n' ∉ line) (hlast : line.getLast? ≠ some '\r')
    (text : List Char) : lines (line ++ '\n' :: text) = line :: lines text := by
  induction line with
  | nil => rw [List.nil_append, lines]
  | cons c line ih =>
    simp only [List.mem_cons, not_or] at h
    have hreturn : c = '\r' → (line ++ '\n' :: text).head? ≠ some '\n' := by
      rintro rfl hhead
      cases line with
      | nil => exact hlast rfl
      | cons d line => exact h.2 (List.mem_cons.mpr (.inl (by simpa using hhead.symm)))
    have hlast : line.getLast? ≠ some '\r' := by
      cases line with
      | nil => nofun
      | cons d line => simpa using hlast
    rw [List.cons_append, lines_cons (Ne.symm h.1) hreturn, ih h.2 hlast, List.headD_cons,
      List.tail_cons]

theorem lines_returnFeed {line : List Char} (h : '\n' ∉ line) (text : List Char) :
    lines (line ++ '\r' :: '\n' :: text) = line :: lines text := by
  induction line with
  | nil => rw [List.nil_append, lines]
  | cons c line ih =>
    simp only [List.mem_cons, not_or] at h
    have hreturn : c = '\r' → (line ++ '\r' :: '\n' :: text).head? ≠ some '\n' := by
      rintro - hhead
      cases line with
      | nil => simp at hhead
      | cons d line => exact h.2 (List.mem_cons.mpr (.inl (by simpa using hhead.symm)))
    rw [List.cons_append, lines_cons (Ne.symm h.1) hreturn, ih h.2, List.headD_cons, List.tail_cons]

theorem Lined.lines_eq {text : List Char} {ls : List (List Char)} (h : Lined text ls) :
    lines text = ls := by
  induction h with
  | nil => rw [lines]
  | last hne hline => exact lines_of_feed_notMem hne hline
  | feed hline hlast _ ih => rw [lines_feed hline hlast, ih]
  | returnFeed hline _ ih => rw [lines_returnFeed hline, ih]

theorem lined_lines (text : List Char) : Lined text (lines text) := by
  fun_induction lines text with
  | case1 => exact .nil
  | case2 text ih => exact .feed List.not_mem_nil nofun ih
  | case3 text ih => exact .returnFeed List.not_mem_nil ih
  | case4 c text hfeed _ hlines ih =>
    rw [hlines] at ih
    cases ih
    exact .last (by simp) (by simpa using Ne.symm hfeed)
  | case5 c text hfeed hreturn first later hlines ih =>
    rw [hlines] at ih
    cases ih with
    | last _ hline => exact .last (by simp) (by simpa using ⟨Ne.symm hfeed, hline⟩)
    | feed hline hlast ih =>
      have hline : '\n' ∉ c :: first := by simpa using ⟨Ne.symm hfeed, hline⟩
      refine .feed hline ?_ ih
      cases first with
      | nil => simpa using fun hc => hreturn _ hc rfl
      | cons d first => simpa using hlast
    | returnFeed hline ih =>
      have hline : '\n' ∉ c :: first := by simpa using ⟨Ne.symm hfeed, hline⟩
      exact .returnFeed hline ih

theorem lined_iff {text : List Char} {ls : List (List Char)} : Lined text ls ↔ lines text = ls :=
  ⟨Lined.lines_eq, fun h => h ▸ lined_lines text⟩

/-! ### Reading -/

theorem readLines_of_blank {line : List Char} (h : Text.isBlankText line = true) (number : Nat)
    (later : List (List Char)) : readLines number (line :: later) = readLines (number + 1) later := by
  simp [readLines, h]

theorem readLines_of_reads {line : List Char} {m : Mapping} (hblank : Text.isBlankText line = false)
    (h : Reads line m) (hline : m.line ≠ 0) (number : Nat) (later : List (List Char)) :
    readLines number (line :: later) = (readLines (number + 1) later).map (m :: ·) := by
  simp [readLines, hblank, reads_iff.mp h, hline]

/-- What ends a line. -/
inductive LineEnd : List Char → Prop
  | feed : LineEnd ['\n']
  | returnFeed : LineEnd ['\r', '\n']

/-- The text has these mappings, one on a line, and blank lines between them. -/
inductive Written : List Char → List Mapping → Prop
  | nil : Written [] []
  | lastBlank {line} : Text.isBlankText line = true → '\n' ∉ line → Written line []
  | lastMapping {m : Mapping} : m.Fits → Written m.render [m]
  | blank {line ending text ms} : Text.isBlankText line = true → '\n' ∉ line → LineEnd ending →
      Written text ms → Written (line ++ ending ++ text) ms
  | mapping {m : Mapping} {ending text ms} : m.Fits → LineEnd ending → Written text ms →
      Written (m.render ++ ending ++ text) (m :: ms)

/-- A blank line remains blank even if its last carriage return counts as part of its end. -/
theorem exists_lines_of_blank {line ending : List Char} (hblank : Text.isBlankText line = true)
    (hline : '\n' ∉ line) (hend : LineEnd ending) (text : List Char) :
    ∃ first, Text.isBlankText first = true ∧ lines (line ++ ending ++ text) = first :: lines text := by
  cases hend with
  | returnFeed => exact ⟨line, hblank, by simpa using lines_returnFeed hline text⟩
  | feed =>
    by_cases hlast : line.getLast? = some '\r'
    · obtain ⟨first, rfl⟩ := List.getLast?_eq_some_iff.mp hlast
      have hfirst : '\n' ∉ first := fun h => hline (List.mem_append_left _ h)
      have hblank : Text.isBlankText first = true := by
        simp only [Text.isBlankText, List.all_append, Bool.and_eq_true] at hblank ⊢
        exact hblank.1
      exact ⟨first, hblank, by simpa using lines_returnFeed hfirst text⟩
    · exact ⟨line, hblank, by simpa using lines_feed hline hlast text⟩

theorem lines_render (m : Mapping) {ending : List Char} (hend : LineEnd ending) (text : List Char) :
    lines (m.render ++ ending ++ text) = m.render :: lines text := by
  cases hend with
  | feed =>
    have hlast : m.render.getLast? ≠ some '\r' := by
      rw [getLast?_render]
      decide
    simpa using lines_feed (feed_notMem_render m) hlast text
  | returnFeed => simpa using lines_returnFeed (feed_notMem_render m) text

theorem Fits.readLines_render {m : Mapping} (h : m.Fits) (number : Nat) (later : List (List Char)) :
    Mapping.readLines number (m.render :: later) =
      (Mapping.readLines (number + 1) later).map (m :: ·) :=
  readLines_of_reads (isBlankText_render m) h.reads (Nat.ne_of_gt h.one_le) number later

theorem Written.readLines_lines {text : List Char} {ms : List Mapping} (h : Written text ms)
    (number : Nat) : readLines number (lines text) = .ok ms := by
  induction h generalizing number with
  | nil => rw [lines, readLines]
  | @lastBlank line hblank hline =>
    by_cases hne : line = []
    · rw [hne, lines, readLines]
    · rw [lines_of_feed_notMem hne hline, readLines_of_blank hblank, readLines]
  | @lastMapping m hfits =>
    have hne : m.render ≠ [] := by simp [render]
    rw [lines_of_feed_notMem hne (feed_notMem_render m), hfits.readLines_render, readLines]
    rfl
  | blank hblank hline hend _ ih =>
    obtain ⟨first, hfirst, hlines⟩ := exists_lines_of_blank hblank hline hend _
    rw [hlines, readLines_of_blank hfirst, ih]
  | @mapping m _ _ _ hfits hend _ ih =>
    rw [lines_render m hend, hfits.readLines_render, ih]
    rfl

/-! ### The first fault -/

/-- A line that is no obstacle: it is blank, or a mapping to a line that counts from one. -/
def Passes (line : List Char) : Prop :=
  Text.isBlankText line = true ∨ ∃ m, Reads line m ∧ m.line ≠ 0

/-- A line that is an obstacle, with the error that names it by its number. -/
inductive Faulty (line : List Char) : (Nat → MappingError) → Prop
  | malformed : Text.isBlankText line = false → (∀ m, ¬ Reads line m) → Faulty line .malformed
  | zeroLine {m : Mapping} : Text.isBlankText line = false → Reads line m → m.line = 0 →
      Faulty line .zeroLine

theorem passes_or_faulty (line : List Char) : Passes line ∨ ∃ fault, Faulty line fault := by
  by_cases hblank : Text.isBlankText line = true
  · exact .inl (.inl hblank)
  · rw [Bool.not_eq_true] at hblank
    by_cases hreads : ∃ m, Reads line m
    · obtain ⟨m, hm⟩ := hreads
      by_cases hline : m.line = 0
      · exact .inr ⟨_, .zeroLine hblank hm hline⟩
      · exact .inl (.inr ⟨m, hm, hline⟩)
    · exact .inr ⟨_, .malformed hblank (not_exists.mp hreads)⟩

theorem Faulty.readLines_cons {line : List Char} {fault : Nat → MappingError}
    (h : Faulty line fault) (number : Nat) (later : List (List Char)) :
    readLines number (line :: later) = .error (fault number) := by
  cases h with
  | malformed hblank hreads =>
    have hnone : ofLine? line = none :=
      Option.eq_none_iff_forall_not_mem.mpr fun m hm => hreads m (reads_iff.mpr hm)
    simp [readLines, hblank, hnone]
  | zeroLine hblank hreads hline => simp [readLines, hblank, reads_iff.mp hreads, hline]

theorem Passes.readLines_cons {line : List Char} (h : Passes line) (number : Nat)
    (later : List (List Char)) (e : MappingError) :
    readLines number (line :: later) = .error e ↔ readLines (number + 1) later = .error e := by
  by_cases hblank : Text.isBlankText line = true
  · rw [readLines_of_blank hblank]
  · obtain ⟨m, hreads, hline⟩ := h.resolve_left hblank
    rw [readLines_of_reads (Bool.eq_false_iff.mpr hblank) hreads hline]
    cases readLines (number + 1) later <;> simp [Except.map]

/-- Reading fails exactly at the first line that is an obstacle. -/
theorem readLines_eq_error_iff {number : Nat} {ls : List (List Char)} {e : MappingError} :
    readLines number ls = .error e ↔ ∃ before line later fault, ls = before ++ line :: later ∧
      (∀ l ∈ before, Passes l) ∧ Faulty line fault ∧ e = fault (number + before.length) := by
  constructor
  · intro h
    induction ls generalizing number with
    | nil => simp [readLines] at h
    | cons line ls ih =>
      rcases passes_or_faulty line with hpasses | ⟨fault, hfault⟩
      · obtain ⟨before, bad, later, fault, rfl, hbefore, hbad, rfl⟩ :=
          ih ((hpasses.readLines_cons number ls e).mp h)
        refine ⟨line :: before, bad, later, fault, rfl, ?_, hbad, ?_⟩
        · simpa using ⟨hpasses, hbefore⟩
        · rw [List.length_cons, Nat.add_right_comm, Nat.add_assoc]
      · rw [hfault.readLines_cons, Except.error.injEq] at h
        exact ⟨[], line, ls, fault, rfl, nofun, hfault, h.symm⟩
  · rintro ⟨before, line, later, fault, rfl, hbefore, hfault, rfl⟩
    induction before generalizing number with
    | nil => exact hfault.readLines_cons number later
    | cons l before ih =>
      rw [List.forall_mem_cons] at hbefore
      rw [List.cons_append, hbefore.1.readLines_cons, ih hbefore.2, List.length_cons,
        Nat.add_right_comm, Nat.add_assoc]

/-- Reading a batch undoes writing it, and of any other text the first line that is neither blank
nor a usable mapping is named, whatever follows it. -/
theorem readBatch_of_written_and_eq_error_iff :
    (∀ {text ms}, Written text ms → readBatch text = .ok ms) ∧
      ∀ text,
        (∀ k, readBatch text = .error (.malformed k) ↔
          ∃ before line later, Lined text (before ++ line :: later) ∧ k = before.length + 1 ∧
            (∀ l ∈ before, Passes l) ∧ Text.isBlankText line = false ∧ ∀ m, ¬ Reads line m) ∧
        (∀ k, readBatch text = .error (.zeroLine k) ↔
          ∃ before line later m, Lined text (before ++ line :: later) ∧ k = before.length + 1 ∧
            (∀ l ∈ before, Passes l) ∧ Text.isBlankText line = false ∧ Reads line m ∧
              m.line = 0) ∧
        readBatch text ≠ .error .unreadable := by
  refine ⟨fun h => h.readLines_lines 1, fun text => ⟨fun k => ?_, fun k => ?_, ?_⟩⟩
  · simp only [readBatch, readLines_eq_error_iff, lined_iff]
    constructor
    · rintro ⟨before, line, later, fault, hlines, hbefore, hfault, hk⟩
      cases hfault with
      | malformed hblank hreads =>
        obtain rfl := by simpa using hk
        exact ⟨before, line, later, hlines, Nat.add_comm _ _, hbefore, hblank, hreads⟩
      | zeroLine => simp at hk
    · rintro ⟨before, line, later, hlines, rfl, hbefore, hblank, hreads⟩
      exact ⟨before, line, later, _, hlines, hbefore, .malformed hblank hreads, by
        rw [Nat.add_comm]⟩
  · simp only [readBatch, readLines_eq_error_iff, lined_iff]
    constructor
    · rintro ⟨before, line, later, fault, hlines, hbefore, hfault, hk⟩
      cases hfault with
      | malformed => simp at hk
      | @zeroLine m hblank hreads hline =>
        obtain rfl := by simpa using hk
        exact ⟨before, line, later, m, hlines, Nat.add_comm _ _, hbefore, hblank, hreads, hline⟩
    · rintro ⟨before, line, later, m, hlines, rfl, hbefore, hblank, hreads, hline⟩
      exact ⟨before, line, later, _, hlines, hbefore, .zeroLine hblank hreads hline, by
        rw [Nat.add_comm]⟩
  · rw [readBatch, Ne, readLines_eq_error_iff]
    rintro ⟨before, line, later, fault, -, -, hfault, hunreadable⟩
    cases hfault <;> simp at hunreadable

/-- A mapping with all that must be escaped, behind a blank line, is read back; a record without
fields on the third line is named. -/
theorem readBatch_of_written_and_eq_error_iff_escaped :
    let m : Mapping := ⟨"a \"b\" \\ \x01 \n é", 18446744073709551615, ⟨"ü/\".tex"⟩, 1⟩
    readBatch (['\t'] ++ ['\n'] ++ (m.render ++ ['\r', '\n'] ++ m.render)) = .ok [m, m] ∧
      readBatch (['\t'] ++ '\n' :: (m.render ++ '\r' :: '\n' :: ['\x7b', '\x7d'])) =
        .error (.malformed 3) := by
  intro m
  have hfits : m.Fits := ⟨by decide, by decide, by decide⟩
  have hlined : Lined (['\t'] ++ '\n' :: (m.render ++ '\r' :: '\n' :: ['\x7b', '\x7d']))
      ([['\t'], m.render] ++ ['\x7b', '\x7d'] :: []) :=
    .feed (by decide) (by decide)
      (.returnFeed (feed_notMem_render m) (.last (by decide) (by decide)))
  have hbefore : ∀ l ∈ [['\t'], m.render], Passes l := by
    simp only [List.forall_mem_cons, List.not_mem_nil, false_implies, implies_true, and_true]
    exact ⟨.inl rfl, .inr ⟨m, hfits.reads, by decide⟩⟩
  have hreads : ∀ m, ¬ Reads ['\x7b', '\x7d'] m := by
    intro m h
    rw [reads_iff] at h
    cases h
  exact ⟨readBatch_of_written_and_eq_error_iff.1 (.blank rfl (by decide) .feed
      (.mapping hfits .returnFeed (.lastMapping hfits))),
    ((readBatch_of_written_and_eq_error_iff.2 _).1 3).mpr
      ⟨_, _, _, hlined, rfl, hbefore, rfl, hreads⟩⟩

end Mapping

end TexAnchor
