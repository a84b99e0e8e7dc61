import Mathlib.Data.List.DropRight
import TexAnchor.Json.Value

/-! # The grammar of JSON

What a JSON text is, said without a reader: `Spells value text` has one rule for each form a value can
take, and `Padded` allows white space around it.  The reader walks the text from the left, takes as
many digits as there are, and is handed a bound on the nesting of its steps.  It accepts exactly the
texts of the grammar (`read?_eq_some_iff`), so none of these choices, nor the bound, can be seen from
outside.

* `Spelled.of_pieces?`, `Spelled.pieces?_append` — strings, up to the quote that closes them;
* `Number.of_number?`, `Number.number?_append` — numbers, up to what must follow them;
* `soundAt`, `completeAt` — the two directions, for values, items and members at once. -/

namespace TexAnchor.Json

/-! ### White space -/

/-- A text of white space. -/
def Space (text : List Char) : Prop :=
  ∀ c ∈ text, c = ' ' ∨ c = '\t' ∨ c = '\n' ∨ c = '\r'

theorem Space.nil : Space [] := by
  simp [Space]

/-- The text does not start with white space. -/
def Inked (text : List Char) : Prop :=
  ∀ c ∈ text.head?, ¬ (c = ' ' ∨ c = '\t' ∨ c = '\n' ∨ c = '\r')

theorem exists_space_append_skip (text : List Char) :
    ∃ space, Space space ∧ text = space ++ skip text := by
  refine ⟨text.takeWhile fun c => c == ' ' || c == '\t' || c == '\n' || c == '\r', ?_, ?_⟩
  · intro c hc
    simpa [or_assoc] using List.mem_takeWhile_imp hc
  · exact List.takeWhile_append_dropWhile.symm

theorem skip_append {space text : List Char} (hspace : Space space) (htext : Inked text) :
    skip (space ++ text) = text := by
  induction space with
  | nil =>
    cases text with
    | nil => rfl
    | cons c text =>
      have hc := htext c rfl
      simp [skip, or_assoc, hc]
  | cons c space ih =>
    have hc := hspace c (by simp)
    have := ih fun d hd => hspace d (by simp [hd])
    simpa [skip, List.dropWhile_cons, or_assoc, hc] using this

theorem skip_skip (text : List Char) : skip (skip text) = skip text :=
  List.dropWhile_idempotent _ text

/-! ### Strings -/

/-- The text between the quotes of a string, with what it is written with. -/
inductive Spelled : List Piece → List Char → Prop
  | nil : Spelled [] []
  /-- A character that stands for itself. -/
  | plain {c pieces text} : c ≠ '"' → c ≠ '\\' → 0x20 ≤ c.toNat → Spelled pieces text →
      Spelled (.char c :: pieces) (c :: text)
  /-- A backslash and a letter or mark. -/
  | short {c d pieces text} : shortEscape? c = some d → Spelled pieces text →
      Spelled (.char d :: pieces) ('\\' :: c :: text)
  /-- A backslash, the letter u and four digits in base sixteen. -/
  | unit {p q r s unit pieces text} : unit? p q r s = some unit → Spelled pieces text →
      Spelled (unit :: pieces) ('\\' :: 'u' :: p :: q :: r :: s :: text)

theorem Spelled.of_pieces? {text rest : List Char} {pieces : List Piece}
    (h : pieces? text = some (pieces, rest)) :
    ∃ body, Spelled pieces body ∧ text = body ++ '"' :: rest := by
  fun_induction pieces? text generalizing pieces rest with
  | case1 => simp at h
  | case2 text =>
    obtain ⟨rfl, rfl⟩ : [] = pieces ∧ text = rest := by simpa using h
    exact ⟨[], .nil, rfl⟩
  | case3 p q r s text ih =>
    simp only [Option.bind_eq_bind, Option.pure_def, Option.bind_eq_some_iff, Option.some.injEq,
      Prod.mk.injEq, Prod.exists] at h
    obtain ⟨first, hfirst, later, rest', hlater, rfl, rfl⟩ := h
    obtain ⟨body, hbody, rfl⟩ := ih hlater
    exact ⟨_, .unit hfirst hbody, rfl⟩
  | case4 c text _ ih =>
    simp only [Option.bind_eq_bind, Option.pure_def, Option.bind_eq_some_iff, Option.some.injEq,
      Prod.mk.injEq, Prod.exists] at h
    obtain ⟨first, hfirst, later, rest', hlater, rfl, rfl⟩ := h
    obtain ⟨body, hbody, rfl⟩ := ih hlater
    exact ⟨_, .short hfirst hbody, rfl⟩
  | case5 c text => simp at h
  | case6 c text hquote _ hslash hcontrol ih =>
    simp only [Option.map_eq_some_iff, Prod.mk.injEq, Prod.exists] at h
    obtain ⟨later, rest', hlater, rfl, rfl⟩ := h
    obtain ⟨body, hbody, rfl⟩ := ih hlater
    have hplain : c ≠ '\\' := by
      intro hc
      cases body with
      | nil => exact hslash _ _ hc rfl
      | cons d body => exact hslash _ _ hc rfl
    exact ⟨c :: body, .plain hquote hplain (Nat.le_of_not_lt hcontrol) hbody, rfl⟩

theorem Spelled.pieces?_append {pieces : List Piece} {body : List Char} (h : Spelled pieces body)
    (rest : List Char) : pieces? (body ++ '"' :: rest) = some (pieces, rest) := by
  induction h with
  | nil => simp [pieces?]
  | plain hquote hslash hcontrol _ ih =>
    have := Nat.not_lt.mpr hcontrol
    simp [pieces?, *]
  | @short c d _ _ hd _ ih =>
    have hc : c ≠ 'u' := by rintro rfl; simp [shortEscape?] at hd
    simp [pieces?, hc, hd, ih]
  | unit hunit _ ih => simp [pieces?, hunit, ih]

/-! ### Numbers -/

/-- Some decimal digits. -/
def Digits (text : List Char) : Prop :=
  text ≠ [] ∧ ∀ c ∈ text, c.isDigit = true

/-- A fraction, or nothing. -/
inductive Fraction : Bool → List Char → Prop
  | absent : Fraction false []
  | present {text} : Digits text → Fraction true ('.' :: text)

/-- An exponent, or nothing. -/
inductive Exponent : Bool → List Char → Prop
  | absent : Exponent false []
  | present {c sign text} : c = 'e' ∨ c = 'E' → sign = [] ∨ sign = ['+'] ∨ sign = ['-'] →
      Digits text → Exponent true (c :: sign ++ text)

/-- The minus sign of a number, or nothing. -/
def minus (negative : Bool) : List Char :=
  if negative then ['-'] else []

/-- A number: digits without a leading zero, then perhaps a fraction and an exponent. -/
inductive Number : Value → List Char → Prop
  | mk {negative digits hasFraction fraction hasExponent exponent} :
      Digits digits → (digits.head? = some '0' → digits = ['0']) →
      Fraction hasFraction fraction → Exponent hasExponent exponent →
      Number (if negative || hasFraction || hasExponent then .otherNumber
        else .natural (ofDigits digits)) (minus negative ++ digits ++ fraction ++ exponent)

/-- What may follow a value inside a larger one, and the end of the text. -/
def Ends (rest : List Char) : Prop :=
  ∀ c ∈ rest.head?, c ∈ [' ', '\t', '\n', '\r', ',', ']', '\x7d']

/-- The text does not start with a digit. -/
def Undigited (text : List Char) : Prop :=
  ∀ c ∈ text.head?, c.isDigit = false

theorem Digits.of_digits? {text digits rest : List Char}
    (h : digits? text = some (digits, rest)) : Digits digits ∧ text = digits ++ rest := by
  unfold digits? at h
  split at h
  · simp at h
  next hne =>
    obtain ⟨rfl, rfl⟩ := by simpa using h
    refine ⟨⟨hne, fun c hc => List.mem_takeWhile_imp hc⟩, List.takeWhile_append_dropWhile.symm⟩

theorem Digits.digits?_append {digits rest : List Char} (h : Digits digits)
    (hrest : Undigited rest) : digits? (digits ++ rest) = some (digits, rest) := by
  have hsplit : rest.takeWhile Char.isDigit = [] ∧ rest.dropWhile Char.isDigit = rest := by
    cases rest with
    | nil => exact ⟨rfl, rfl⟩
    | cons c rest => simp [hrest c rfl]
  have hne := h.1
  simp [digits?, List.takeWhile_append_of_pos h.2, List.dropWhile_append_of_pos h.2, hsplit]

theorem Fraction.of_fraction? {text rest : List Char} {present : Bool}
    (h : fraction? text = some (present, rest)) :
    ∃ fraction, Fraction present fraction ∧ text = fraction ++ rest := by
  unfold fraction? at h
  split at h
  · simp only [Option.map_eq_some_iff, Prod.mk.injEq, Prod.exists] at h
    obtain ⟨digits, rest', h, rfl, rfl⟩ := h
    obtain ⟨hdigits, rfl⟩ := Digits.of_digits? h
    exact ⟨_, .present hdigits, rfl⟩
  · obtain ⟨rfl, rfl⟩ := by simpa using h
    exact ⟨[], .absent, rfl⟩

theorem Fraction.fraction?_append {fraction rest : List Char} {present : Bool}
    (h : Fraction present fraction) (hrest : Undigited rest) (hdot : '.' ∉ rest.head?) :
    fraction? (fraction ++ rest) = some (present, rest) := by
  cases h with
  | absent =>
    cases rest with
    | nil => rfl
    | cons c rest =>
      have hc : c ≠ '.' := by simpa using hdot
      simp [fraction?, hc]
  | present hdigits => simp [fraction?, hdigits.digits?_append hrest]

theorem Exponent.of_exponent? {text rest : List Char} {present : Bool}
    (h : exponent? text = some (present, rest)) :
    ∃ exponent, Exponent present exponent ∧ text = exponent ++ rest := by
  unfold exponent? at h
  split at h
  next c text =>
    split at h
    next hc =>
      simp only [Option.map_eq_some_iff, Prod.mk.injEq, Prod.exists] at h
      obtain ⟨digits, rest', h, rfl, rfl⟩ := h
      obtain ⟨sign, unsigned, hsign, rfl, hread⟩ : ∃ sign unsigned,
          (sign = [] ∨ sign = ['+'] ∨ sign = ['-']) ∧ text = sign ++ unsigned ∧
            digits? unsigned = some (digits, rest') := by
        split at h
        · exact ⟨['+'], _, .inr (.inl rfl), rfl, h⟩
        · exact ⟨['-'], _, .inr (.inr rfl), rfl, h⟩
        · exact ⟨[], _, .inl rfl, rfl, h⟩
      obtain ⟨hdigits, rfl⟩ := Digits.of_digits? hread
      exact ⟨_, .present hc hsign hdigits, by simp⟩
    next =>
      obtain ⟨rfl, rfl⟩ := by simpa using h
      exact ⟨[], .absent, rfl⟩
  · obtain ⟨rfl, rfl⟩ := by simpa using h
    exact ⟨[], .absent, rfl⟩

theorem Exponent.exponent?_append {exponent rest : List Char} {present : Bool}
    (h : Exponent present exponent) (hrest : Undigited rest)
    (he : 'e' ∉ rest.head? ∧ 'E' ∉ rest.head?) :
    exponent? (exponent ++ rest) = some (present, rest) := by
  cases h with
  | absent =>
    cases rest with
    | nil => rfl
    | cons c rest =>
      have hc : ¬ (c = 'e' ∨ c = 'E') := by simpa using he
      simp [exponent?, hc]
  | @present c sign digits hc hsign hdigits =>
    have hread := hdigits.digits?_append hrest
    obtain rfl | rfl | rfl := hsign
    · obtain ⟨d, digits, rfl⟩ := List.exists_cons_of_ne_nil hdigits.1
      have hplus : d ≠ '+' := by rintro rfl; simpa using hdigits.2 '+'
      have hminus : d ≠ '-' := by rintro rfl; simpa using hdigits.2 '-'
      simp_all [exponent?]
    · simp [exponent?, hc, hread]
    · simp [exponent?, hc, hread]

theorem number?_minus {negative : Bool} {text : List Char}
    (h : negative = true ∨ '-' ∉ text.head?) :
    number? (minus negative ++ text) = (digits? text).bind fun (digits, rest) =>
      if digits.head? = some '0' ∧ digits ≠ ['0'] then none
      else (fraction? rest).bind fun (hasFraction, rest) =>
        (exponent? rest).bind fun (hasExponent, rest) =>
          if negative || hasFraction || hasExponent then some (.otherNumber, rest)
          else some (.natural (ofDigits digits), rest) := by
  cases negative with
  | true => rfl
  | false =>
    cases text with
    | nil => rfl
    | cons c text =>
      have hc : c ≠ '-' := by simpa using h
      simp [number?, minus, hc]

/-- What may follow a value cannot continue a number. -/
theorem Ends.not_mem_head? {rest : List Char} (h : Ends rest) {c : Char}
    (hc : c ∉ [' ', '\t', '\n', '\r', ',', ']', '\x7d']) : c ∉ rest.head? :=
  fun hmem => hc (h c hmem)

theorem Ends.undigited {rest : List Char} (h : Ends rest) : Undigited rest := by
  intro c hc
  have := h c hc
  simp only [List.mem_cons, List.not_mem_nil, or_false] at this
  obtain rfl | rfl | rfl | rfl | rfl | rfl | rfl := this <;> rfl

theorem Number.number?_append {value : Value} {body rest : List Char} (h : Number value body)
    (hrest : Ends rest) : number? (body ++ rest) = some (value, rest) := by
  obtain @⟨negative, digits, hasFraction, fraction, hasExponent, exponent, hdigits, hlead,
    hfraction, hexponent⟩ := h
  -- Neither the fraction nor the exponent starts like what comes before it could go on.
  have afterFraction : Undigited (exponent ++ rest) ∧ '.' ∉ (exponent ++ rest).head? := by
    cases hexponent with
    | absent => exact ⟨hrest.undigited, hrest.not_mem_head? (by decide)⟩
    | present hc => obtain rfl | rfl := hc <;> simp [Undigited, Char.isDigit]
  have afterDigits : Undigited (fraction ++ (exponent ++ rest)) := by
    cases hfraction with
    | absent => exact afterFraction.1
    | present => simp [Undigited, Char.isDigit]
  have hsign : '-' ∉ (digits ++ (fraction ++ (exponent ++ rest))).head? := by
    obtain ⟨d, digits, rfl⟩ := List.exists_cons_of_ne_nil hdigits.1
    have hd := hdigits.2 d (by simp)
    rintro hmem
    obtain rfl : d = '-' := by simpa using hmem
    simp [Char.isDigit] at hd
  have hdigits := hdigits.digits?_append afterDigits
  have hfraction := hfraction.fraction?_append afterFraction.1 afterFraction.2
  have hexponent := hexponent.exponent?_append hrest.undigited
    ⟨hrest.not_mem_head? (by decide), hrest.not_mem_head? (by decide)⟩
  have hzero : ¬ (digits.head? = some '0' ∧ digits ≠ ['0']) := fun h => h.2 (hlead h.1)
  simp only [List.append_assoc, number?_minus (.inr hsign), hdigits, hfraction, hexponent, hzero,
    Option.bind_some, if_false]
  split <;> rfl

theorem Number.of_number? {text rest : List Char} {value : Value}
    (h : number? text = some (value, rest)) :
    ∃ body, Number value body ∧ text = body ++ rest := by
  obtain ⟨negative, unsigned, rfl, hunsigned⟩ : ∃ negative unsigned,
      text = minus negative ++ unsigned ∧ (negative = true ∨ '-' ∉ unsigned.head?) := by
    by_cases hsign : '-' ∈ text.head?
    · obtain ⟨text, rfl⟩ := List.head?_eq_some_iff.mp hsign
      exact ⟨true, text, rfl, .inl rfl⟩
    · exact ⟨false, text, rfl, .inr hsign⟩
  simp only [number?_minus hunsigned, Option.bind_eq_some_iff, Prod.exists] at h
  obtain ⟨digits, rest₁, hread, h⟩ := h
  obtain ⟨hdigits, rfl⟩ := Digits.of_digits? hread
  split at h
  · simp at h
  next hzero =>
    simp only [Option.bind_eq_some_iff, Prod.exists] at h
    obtain ⟨hasFraction, rest₂, hread₂, hasExponent, rest₃, hread₃, h⟩ := h
    obtain ⟨fraction, hfraction, rfl⟩ := Fraction.of_fraction? hread₂
    obtain ⟨exponent, hexponent, rfl⟩ := Exponent.of_exponent? hread₃
    have hlead : digits.head? = some '0' → digits = ['0'] := by simpa using hzero
    have number : Number (if negative || hasFraction || hasExponent then .otherNumber
        else .natural (ofDigits digits)) (minus negative ++ digits ++ fraction ++ exponent) :=
      .mk hdigits hlead hfraction hexponent
    obtain ⟨hvalue, rfl⟩ : (if negative || hasFraction || hasExponent then Value.otherNumber
        else .natural (ofDigits digits)) = value ∧ rest₃ = rest := by
      split at h <;> simp_all
    rw [hvalue] at number
    exact ⟨_, number, by simp⟩

/-! ### Values -/

mutual

/-- The text of a value. -/
inductive Spells : Value → List Char → Prop
  | null : Spells .null ['n', 'u', 'l', 'l']
  | true : Spells (.bool true) ['t', 'r', 'u', 'e']
  | false : Spells (.bool false) ['f', 'a', 'l', 's', 'e']
  | string {pieces body} : Spelled pieces body →
      Spells (.string (content pieces)) ('"' :: body ++ ['"'])
  | number {value body} : Number value body → Spells value body
  | noItems {space} : Space space → Spells (.array []) ('[' :: space ++ [']'])
  | array {items body} : Items items body → Spells (.array items) ('[' :: body ++ [']'])
  | noMembers {space} : Space space → Spells (.object []) ('\x7b' :: space ++ ['\x7d'])
  | object {members body} : Members members body →
      Spells (.object members) ('\x7b' :: body ++ ['\x7d'])

/-- The text of a value with white space around it. -/
inductive Padded : Value → List Char → Prop
  | mk {before value body after} : Space before → Spells value body → Space after →
      Padded value (before ++ body ++ after)

/-- Values with commas between them. -/
inductive Items : List Value → List Char → Prop
  | last {value body} : Padded value body → Items [value] body
  | more {value body items later} : Padded value body → Items items later →
      Items (value :: items) (body ++ ',' :: later)

/-- A quoted name, a colon and a value. -/
inductive Member : Content × Value → List Char → Prop
  | mk {before pieces name after value body} : Space before → Spelled pieces name → Space after →
      Padded value body →
      Member (content pieces, value) (before ++ '"' :: name ++ '"' :: after ++ ':' :: body)

/-- Members with commas between them. -/
inductive Members : List (Content × Value) → List Char → Prop
  | last {member body} : Member member body → Members [member] body
  | more {member body members later} : Member member body → Members members later →
      Members (member :: members) (body ++ ',' :: later)

end

theorem Space.ends_append {space rest : List Char} (hspace : Space space) (hrest : Ends rest) :
    Ends (space ++ rest) := by
  cases space with
  | nil => exact hrest
  | cons c space =>
    rintro d ⟨⟩
    obtain rfl | rfl | rfl | rfl := hspace c (by simp) <;> decide

theorem value?_skip (depth : Nat) (text : List Char) :
    value? depth (skip text) = value? depth text := by
  cases depth with
  | zero => rw [value?, value?]
  | succ depth => rw [value?, value?, skip_skip]

theorem items?_skip (depth : Nat) (text : List Char) :
    items? depth (skip text) = items? depth text := by
  cases depth with
  | zero => rw [items?, items?]
  | succ depth => rw [items?, items?, value?_skip]

theorem members?_skip (depth : Nat) (text : List Char) :
    members? depth (skip text) = members? depth text := by
  cases depth with
  | zero => rw [members?, members?]
  | succ depth => rw [members?, members?, skip_skip]

/-! ### What is read belongs to the grammar -/

/-- With this bound on its steps the reader accepts nothing but what the grammar allows. -/
structure SoundAt (depth : Nat) : Prop where
  value : ∀ {text rest value}, value? depth text = some (value, rest) →
    ∃ before body, Space before ∧ Spells value body ∧ text = before ++ body ++ rest
  items : ∀ {text rest items}, items? depth text = some (items, rest) →
    ∃ body, Items items body ∧ text = body ++ ']' :: rest
  members : ∀ {text rest members}, members? depth text = some (members, rest) →
    ∃ body, Members members body ∧ text = body ++ '\x7d' :: rest

theorem SoundAt.padded {depth : Nat} (sound : SoundAt depth) {text rest : List Char} {value : Value}
    (h : value? depth text = some (value, rest)) :
    ∃ body, Padded value body ∧ text = body ++ skip rest := by
  obtain ⟨before, body, hbefore, hbody, rfl⟩ := sound.value h
  obtain ⟨after, hafter, hrest⟩ := exists_space_append_skip rest
  refine ⟨_, .mk hbefore hbody hafter, ?_⟩
  rw [List.append_assoc _ after, ← hrest]

theorem SoundAt.value_succ {depth : Nat} (sound : SoundAt depth) {text rest : List Char}
    {value : Value} (h : value? (depth + 1) text = some (value, rest)) :
    ∃ before body, Space before ∧ Spells value body ∧ text = before ++ body ++ rest := by
  obtain ⟨before, hbefore, htext⟩ := exists_space_append_skip text
  suffices hbody : ∃ body, Spells value body ∧ skip text = body ++ rest by
    obtain ⟨body, hbody, hskip⟩ := hbody
    exact ⟨before, body, hbefore, hbody, by rw [htext, hskip, List.append_assoc]⟩
  rw [value?] at h
  split at h
  next later hskip =>
    obtain ⟨rfl, rfl⟩ := by simpa using h
    exact ⟨_, .null, hskip⟩
  next later hskip =>
    obtain ⟨rfl, rfl⟩ := by simpa using h
    exact ⟨_, .true, hskip⟩
  next later hskip =>
    obtain ⟨rfl, rfl⟩ := by simpa using h
    exact ⟨_, .false, hskip⟩
  next later hskip =>
    simp only [string?, Option.map_map, Option.map_eq_some_iff, Function.comp_apply, Prod.exists,
      Prod.mk.injEq] at h
    obtain ⟨pieces, later, hpieces, rfl, rfl⟩ := h
    obtain ⟨body, hbody, rfl⟩ := Spelled.of_pieces? hpieces
    exact ⟨_, .string hbody, by simp [hskip]⟩
  next later hskip =>
    obtain ⟨space, hspace, hlater⟩ := exists_space_append_skip later
    split at h
    next hclose =>
      obtain ⟨rfl, rfl⟩ := by simpa using h
      exact ⟨_, .noItems hspace, by rw [hskip, hlater, hclose]; simp⟩
    next =>
      simp only [items?_skip, Option.map_eq_some_iff, Prod.exists, Prod.mk.injEq] at h
      obtain ⟨items, later', hitems, rfl, rfl⟩ := h
      obtain ⟨body, hbody, rfl⟩ := sound.items hitems
      exact ⟨_, .array hbody, by simp [hskip]⟩
  next later hskip =>
    obtain ⟨space, hspace, hlater⟩ := exists_space_append_skip later
    split at h
    next hclose =>
      obtain ⟨rfl, rfl⟩ := by simpa using h
      exact ⟨_, .noMembers hspace, by rw [hskip, hlater, hclose]; simp⟩
    next =>
      simp only [members?_skip, Option.map_eq_some_iff, Prod.exists, Prod.mk.injEq] at h
      obtain ⟨members, later', hmembers, rfl, rfl⟩ := h
      obtain ⟨body, hbody, rfl⟩ := sound.members hmembers
      exact ⟨_, .object hbody, by simp [hskip]⟩
  next =>
    obtain ⟨body, hbody, hskip⟩ := Number.of_number? h
    exact ⟨body, .number hbody, hskip⟩

theorem SoundAt.items_succ {depth : Nat} (sound : SoundAt depth) {text rest : List Char}
    {items : List Value} (h : items? (depth + 1) text = some (items, rest)) :
    ∃ body, Items items body ∧ text = body ++ ']' :: rest := by
  simp only [items?, Option.bind_eq_bind, Option.pure_def, Option.bind_eq_some_iff, Prod.exists] at h
  obtain ⟨value, later, hvalue, h⟩ := h
  obtain ⟨body, hbody, rfl⟩ := sound.padded hvalue
  split at h
  next hcomma =>
    simp only [Option.bind_eq_some_iff, Option.some.injEq, Prod.exists, Prod.mk.injEq] at h
    obtain ⟨items, _, hitems, rfl, rfl⟩ := h
    obtain ⟨more, hmore, rfl⟩ := sound.items hitems
    exact ⟨_, .more hbody hmore, by simp [hcomma]⟩
  next hclose =>
    obtain ⟨rfl, rfl⟩ := by simpa using h
    exact ⟨_, .last hbody, by rw [hclose]⟩
  · simp at h

theorem SoundAt.members_succ {depth : Nat} (sound : SoundAt depth) {text rest : List Char}
    {members : List (Content × Value)} (h : members? (depth + 1) text = some (members, rest)) :
    ∃ body, Members members body ∧ text = body ++ '\x7d' :: rest := by
  obtain ⟨before, hbefore, htext⟩ := exists_space_append_skip text
  rw [members?] at h
  split at h
  next later hquote =>
    simp only [string?, Option.bind_eq_bind, Option.pure_def, Option.bind_eq_some_iff,
      Option.map_eq_some_iff, Prod.exists, Prod.mk.injEq] at h
    obtain ⟨_, _, ⟨pieces, afterName, hpieces, rfl, rfl⟩, h⟩ := h
    obtain ⟨name, hname, rfl⟩ := Spelled.of_pieces? hpieces
    obtain ⟨after, hafter, hafterName⟩ := exists_space_append_skip afterName
    split at h
    next hcolon =>
      simp only [Option.bind_eq_some_iff, Prod.exists] at h
      obtain ⟨value, _, hvalue, h⟩ := h
      obtain ⟨body, hbody, rfl⟩ := sound.padded hvalue
      have member : Member (content pieces, value)
          (before ++ '"' :: name ++ '"' :: after ++ ':' :: body) := .mk hbefore hname hafter hbody
      rw [htext, hquote, hafterName, hcolon]
      split at h
      next hcomma =>
        simp only [Option.bind_eq_some_iff, Option.some.injEq, Prod.exists, Prod.mk.injEq] at h
        obtain ⟨members, _, hmembers, rfl, rfl⟩ := h
        obtain ⟨more, hmore, rfl⟩ := sound.members hmembers
        exact ⟨_, .more member hmore, by simp [hcomma]⟩
      next hclose =>
        obtain ⟨rfl, rfl⟩ := by simpa using h
        exact ⟨_, .last member, by simp [hclose]⟩
      · simp at h
    · simp at h
  · simp at h

theorem soundAt (depth : Nat) : SoundAt depth := by
  induction depth with
  | zero => constructor <;> simp [value?, items?, members?]
  | succ depth sound => exact ⟨sound.value_succ, sound.items_succ, sound.members_succ⟩

/-! ### What belongs to the grammar is read -/

theorem Number.exists_cons {value : Value} {body : List Char} (h : Number value body) :
    ∃ c later, body = c :: later ∧ (c = '-' ∨ c.isDigit = true) := by
  obtain @⟨negative, digits, _, fraction, _, exponent, hdigits, -, -, -⟩ := h
  obtain ⟨d, digits, rfl⟩ := List.exists_cons_of_ne_nil hdigits.1
  cases negative with
  | true => exact ⟨_, _, rfl, .inl rfl⟩
  | false => exact ⟨d, _, rfl, .inr (hdigits.2 d (by simp))⟩

theorem Spells.exists_cons {value : Value} {body : List Char} (h : Spells value body) :
    ∃ c later, body = c :: later ∧ c ∉ [' ', '\t', '\n', '\r', ',', ']', '\x7d'] := by
  cases h
  case number h =>
    obtain ⟨c, later, rfl, hc⟩ := h.exists_cons
    refine ⟨c, later, rfl, ?_⟩
    simp only [List.mem_cons, List.not_mem_nil, or_false]
    rintro (rfl | rfl | rfl | rfl | rfl | rfl | rfl) <;> simp [Char.isDigit] at hc
  all_goals exact ⟨_, _, rfl, by decide⟩

theorem Spells.inked_append {value : Value} {body : List Char} (h : Spells value body)
    (rest : List Char) : Inked (body ++ rest) := by
  obtain ⟨c, later, rfl, hc⟩ := h.exists_cons
  rintro d ⟨⟩
  simp_all

theorem Padded.skip_append {value : Value} {body : List Char} (h : Padded value body)
    (rest : List Char) : ∃ c later, skip (body ++ rest) = c :: later ∧ c ≠ ']' := by
  obtain @⟨before, _, body, after, hbefore, hbody, -⟩ := h
  have hskip := Json.skip_append hbefore (hbody.inked_append (after ++ rest))
  obtain ⟨c, later, rfl, hc⟩ := hbody.exists_cons
  refine ⟨c, later ++ (after ++ rest), by simpa using hskip, ?_⟩
  rintro rfl
  simp at hc

theorem Items.skip_append {items : List Value} {body : List Char} (h : Items items body)
    (rest : List Char) : ∃ c later, skip (body ++ rest) = c :: later ∧ c ≠ ']' := by
  cases h with
  | last h => exact h.skip_append rest
  | @more _ body _ later h _ => simpa using h.skip_append (',' :: later ++ rest)

theorem Member.skip_append {member : Content × Value} {body : List Char} (h : Member member body)
    (rest : List Char) : ∃ later, skip (body ++ rest) = '"' :: later := by
  obtain @⟨before, _, name, after, _, body, hbefore, -, -, -⟩ := h
  refine ⟨name ++ '"' :: after ++ ':' :: body ++ rest, ?_⟩
  have hskip : skip (before ++ '"' :: (name ++ '"' :: after ++ ':' :: body ++ rest)) = _ :=
    Json.skip_append hbefore (by simp [Inked])
  simpa using hskip

theorem Members.skip_append {members : List (Content × Value)} {body : List Char}
    (h : Members members body) (rest : List Char) :
    ∃ later, skip (body ++ rest) = '"' :: later := by
  cases h with
  | last h => exact h.skip_append rest
  | @more _ body _ later h _ => simpa using h.skip_append (',' :: later ++ rest)

/-- With this bound on its steps the reader accepts every text of the grammar that is so short that
two steps for each of its characters are enough. -/
structure CompleteAt (depth : Nat) : Prop where
  value : ∀ {before body rest value}, Space before → Spells value body → Ends rest →
    2 * body.length ≤ depth → value? depth (before ++ body ++ rest) = some (value, rest)
  items : ∀ {body rest items}, Items items body → 2 * body.length + 1 ≤ depth →
    items? depth (body ++ ']' :: rest) = some (items, rest)
  members : ∀ {body rest members}, Members members body → 2 * body.length + 1 ≤ depth →
    members? depth (body ++ '\x7d' :: rest) = some (members, rest)

theorem CompleteAt.padded {depth : Nat} (complete : CompleteAt depth) {body rest : List Char}
    {value : Value} (h : Padded value body) (hends : Ends rest) (hinked : Inked rest)
    (hdepth : 2 * body.length ≤ depth) :
    ∃ later, value? depth (body ++ rest) = some (value, later) ∧ skip later = rest := by
  obtain @⟨before, _, body, after, hbefore, hbody, hafter⟩ := h
  refine ⟨after ++ rest, ?_, skip_append hafter hinked⟩
  rw [List.append_assoc _ after]
  refine complete.value hbefore hbody (hafter.ends_append hends) ?_
  simp only [List.length_append] at hdepth
  omega

theorem CompleteAt.value_succ {depth : Nat} (complete : CompleteAt depth)
    {before body rest : List Char} {value : Value} (hbefore : Space before)
    (h : Spells value body) (hends : Ends rest) (hdepth : 2 * body.length ≤ depth + 1) :
    value? (depth + 1) (before ++ body ++ rest) = some (value, rest) := by
  have hskip : skip (before ++ body ++ rest) = body ++ rest := by
    rw [List.append_assoc]
    exact skip_append hbefore (h.inked_append rest)
  rw [value?, hskip]
  cases h with
  | null => rfl
  | true => rfl
  | false => rfl
  | string hbody => simp [string?, hbody.pieces?_append]
  | number h =>
    have hread := h.number?_append hends
    obtain ⟨c, later, rfl, hc⟩ := h.exists_cons
    rw [List.cons_append] at hread ⊢
    split
    all_goals simp_all [Char.isDigit]
  | noItems hspace =>
    have hclose : skip (_ ++ ']' :: rest) = ']' :: rest := skip_append hspace (by simp [Inked])
    simp [hclose]
  | @array items body hitems =>
    have hread : items? depth (skip (body ++ ']' :: rest)) = some (items, rest) := by
      rw [items?_skip]
      refine complete.items hitems ?_
      simp only [List.length_cons, List.length_append] at hdepth
      omega
    obtain ⟨c, later, hfirst, hc⟩ := hitems.skip_append (']' :: rest)
    rw [hfirst] at hread
    simp [hfirst, hc, hread]
  | noMembers hspace =>
    have hclose : skip (_ ++ '\x7d' :: rest) = '\x7d' :: rest :=
      skip_append hspace (by simp [Inked])
    simp [hclose]
  | @object members body hmembers =>
    have hread : members? depth (skip (body ++ '\x7d' :: rest)) = some (members, rest) := by
      rw [members?_skip]
      refine complete.members hmembers ?_
      simp only [List.length_cons, List.length_append] at hdepth
      omega
    obtain ⟨later, hfirst⟩ := hmembers.skip_append ('\x7d' :: rest)
    rw [hfirst] at hread
    simp [hfirst, hread]

theorem CompleteAt.items_succ {depth : Nat} (complete : CompleteAt depth) {body rest : List Char}
    {items : List Value} (h : Items items body) (hdepth : 2 * body.length + 1 ≤ depth + 1) :
    items? (depth + 1) (body ++ ']' :: rest) = some (items, rest) := by
  cases h with
  | last h =>
    obtain ⟨after, hvalue, hafter⟩ : ∃ after, value? depth (body ++ ']' :: rest) = some (_, after) ∧
        skip after = ']' :: rest :=
      complete.padded h (by simp [Ends]) (by simp [Inked]) (by omega)
    simp [items?, hvalue, hafter]
  | @more value body items more h hitems =>
    simp only [List.length_append, List.length_cons] at hdepth
    obtain ⟨after, hvalue, hafter⟩ : ∃ after,
        value? depth (body ++ ',' :: (more ++ ']' :: rest)) = some (value, after) ∧
          skip after = ',' :: (more ++ ']' :: rest) :=
      complete.padded h (by simp [Ends]) (by simp [Inked]) (by omega)
    have hmore : items? depth (more ++ ']' :: rest) = some (items, rest) :=
      complete.items hitems (by omega)
    simp [items?, hvalue, hafter, hmore]

/-- After a member the reader goes on behind a comma and stops behind a brace. -/
theorem CompleteAt.member {depth : Nat} (complete : CompleteAt depth) {body rest : List Char}
    {member : Content × Value} {c : Char} (h : Member member body) (hc : c = ',' ∨ c = '\x7d')
    (hdepth : 2 * body.length ≤ depth + 1) :
    members? (depth + 1) (body ++ c :: rest) =
      if c = ',' then (members? depth rest).map fun more => (member :: more.1, more.2)
      else some ([member], rest) := by
  obtain @⟨before, pieces, name, after, value, body, hbefore, hname, hafter, hbody⟩ := h
  simp only [List.length_append, List.length_cons] at hdepth
  have hends : Ends (c :: rest) := by
    rintro d ⟨⟩
    obtain rfl | rfl := hc <;> decide
  have hinked : Inked (c :: rest) := by
    rintro d ⟨⟩
    obtain rfl | rfl := hc <;> decide
  obtain ⟨later, hvalue, hlater⟩ := complete.padded hbody hends hinked (by omega)
  have hquote : skip (before ++ '"' :: (name ++ '"' :: (after ++ ':' :: (body ++ c :: rest)))) =
      '"' :: (name ++ '"' :: (after ++ ':' :: (body ++ c :: rest))) :=
    skip_append hbefore (by simp [Inked])
  have hcolon : skip (after ++ ':' :: (body ++ c :: rest)) = ':' :: (body ++ c :: rest) :=
    skip_append hafter (by simp [Inked])
  simp only [List.append_assoc, List.cons_append, members?, hquote, string?, hname.pieces?_append,
    Option.map_some, Option.bind_eq_bind, Option.bind_some, hcolon, hvalue, Option.pure_def, hlater]
  obtain rfl | rfl := hc
  · rw [if_pos rfl]
    cases hmore : members? depth rest <;> simp [hmore]
  · rfl

theorem CompleteAt.members_succ {depth : Nat} (complete : CompleteAt depth)
    {body rest : List Char} {members : List (Content × Value)} (h : Members members body)
    (hdepth : 2 * body.length + 1 ≤ depth + 1) :
    members? (depth + 1) (body ++ '\x7d' :: rest) = some (members, rest) := by
  cases h with
  | last h => rw [complete.member h (.inr rfl) (by omega), if_neg (by decide)]
  | @more member body members more h hmembers =>
    simp only [List.length_append, List.length_cons] at hdepth
    have hmore : members? depth (more ++ '\x7d' :: rest) = some (members, rest) :=
      complete.members hmembers (by omega)
    rw [List.append_assoc, List.cons_append, complete.member h (.inl rfl) (by omega), if_pos rfl,
      hmore, Option.map_some]

theorem completeAt (depth : Nat) : CompleteAt depth := by
  induction depth with
  | zero =>
    refine ⟨fun _ h _ hdepth => ?_, fun _ hdepth => ?_, fun _ hdepth => ?_⟩
    · obtain ⟨c, later, rfl, -⟩ := h.exists_cons
      simp at hdepth
    · omega
    · omega
  | succ depth complete =>
    exact ⟨complete.value_succ, complete.items_succ, complete.members_succ⟩

/-- The reader accepts exactly the texts of the grammar: the bound on its steps is never met, and
nothing depends on its taking as many digits as there are. -/
theorem read?_eq_some_iff {text : List Char} {value : Value} :
    read? text = some value ↔ Padded value text := by
  constructor
  · intro h
    unfold read? at h
    split at h
    next value' rest hvalue =>
      obtain ⟨body, hbody, htext⟩ := (soundAt _).padded hvalue
      split at h
      next hrest =>
        obtain rfl : value' = value := by simpa using h
        rw [htext, hrest, List.append_nil]
        exact hbody
      · simp at h
    · simp at h
  · intro h
    obtain ⟨rest, hvalue, hrest⟩ := (completeAt (2 * text.length + 2)).padded h
      (by simp [Ends] : Ends []) (by simp [Inked]) (by omega)
    rw [List.append_nil] at hvalue
    simp [read?, hvalue, hrest]

end TexAnchor.Json
