import TexAnchor.Proofs.Accounting
import TexAnchor.Proofs.Changes
import TexAnchor.Proofs.Coordinates

/-! # What a built-in provider cannot build

A provider reads its model off the node, off the nodes below it and off the text between two of them.
The text is looked up by places that the tree has kept, and the tree may have fallen behind the text;
but places are put in order before the text is cut and are clamped to it, so there always is a text
(`Subject.exists_spanText?`).  What a provider accepts is what it looks for, with one exception: a
table needs not have a parameter in braces, and then its columns are missing (`View.lacksColumns`).

* `Provider.build_of_mem_builtin` — the outcome of one model;
* `Extraction.failures_eq_and_models_eq` — the outcome of an extraction, pair by pair. -/

namespace TexAnchor

/-! ### Computations that succeed -/

/-- The computation has a result. -/
def Succeeds {ε α : Type} (x : Except ε α) : Prop :=
  ∃ a, x = .ok a

namespace Succeeds

variable {ε α β : Type} {x : Except ε α}

theorem ok (a : α) : Succeeds (.ok a : Except ε α) := ⟨a, rfl⟩

theorem bind {f : α → Except ε β} (hx : Succeeds x) (hf : ∀ a, Succeeds (f a)) :
    Succeeds (x >>= f) := by
  obtain ⟨a, rfl⟩ := hx
  exact hf a

theorem map (hx : Succeeds x) (f : α → β) : Succeeds (x.map f) := by
  obtain ⟨a, rfl⟩ := hx
  exact ok (f a)

theorem mapM {f : α → Except ε β} {l : List α} (h : ∀ a ∈ l, Succeeds (f a)) :
    Succeeds (l.mapM f) := by
  induction l with
  | nil => exact ok []
  | cons a l ih =>
    rw [List.forall_mem_cons] at h
    rw [List.mapM_cons]
    exact h.1.bind fun b => (ih h.2).bind fun bs => ok (b :: bs)

end Succeeds

/-! ### Texts between nodes -/

theorem Document.exists_textIn? (d : Document) {r : Range} (h : r.Ordered) :
    ∃ text, d.textIn? r = some text :=
  ⟨_, if_pos (Text.offsetOf_le_offsetOf h .zero d.text)⟩

namespace Subject

variable (s : Subject)

theorem exists_spanText? (nodes : List View) : ∃ text, s.spanText? nodes = some text := by
  unfold spanText?
  split
  · exact s.document.exists_textIn? (Range.ordered_spanning _ _)
  · exact ⟨[], rfl⟩

theorem succeeds_trimmedSpan (provider : String) (nodes : List View) :
    Succeeds (s.trimmedSpan provider nodes) := by
  obtain ⟨text, htext⟩ := s.exists_spanText? nodes
  rw [trimmedSpan, htext]
  exact .ok _

theorem succeeds_argument (provider : String) (block : View) :
    Succeeds (s.argument provider block) :=
  s.succeeds_trimmedSpan provider block.children

end Subject

/-- The node is a table without a parameter in braces, which would have given the columns. -/
def View.lacksColumns (v : View) : Bool :=
  v.kind.environmentName?.any Provider.Tabular.environments.contains && v.curlyBlocks.isEmpty

namespace Provider

variable {s : Subject}

/-! ### Tables -/

namespace Tabular

theorem succeeds_rowsFrom (s : Subject) (row : List String) (cell body : List View) :
    Succeeds (rowsFrom s row cell body) := by
  induction body generalizing row cell with
  | nil =>
    refine (s.succeeds_trimmedSpan name (trimTrivia cell)).bind fun last => ?_
    split
    · exact .ok []
    · exact .ok _
  | cons v body ih =>
    have htext := s.succeeds_trimmedSpan name (trimTrivia cell)
    rw [rowsFrom]
    cases markOf v.kind with
    | cellEnd => exact htext.bind fun text => ih (row ++ [text]) []
    | rowEnd => exact htext.bind fun last => (ih [] []).bind fun rows => .ok _
    | rule => exact ih row cell
    | content => exact ih row (cell ++ [v])

/-- A table is built exactly if it has a parameter in braces. -/
theorem build_of_acceptsNode (h : provider.acceptsNode s.view = true) :
    (s.view.lacksColumns = true →
        build s = .error (.missingParameter name "column specification")) ∧
      (s.view.lacksColumns = false → Succeeds (build s)) := by
  have henvironment : s.view.kind.environmentName?.any environments.contains = true := h
  rw [View.lacksColumns, henvironment, Bool.true_and]
  obtain ⟨environment, hname, -⟩ := (Option.any_eq_true _ _).mp henvironment
  rw [build, hname]
  simp only
  cases hblocks : s.view.curlyBlocks.getLast? with
  | none =>
    rw [List.getLast?_eq_none_iff.mp hblocks]
    exact ⟨fun _ => rfl, nofun⟩
  | some columns =>
    have hne : s.view.curlyBlocks.isEmpty = false := by
      rw [List.isEmpty_eq_false_iff]
      rintro hnil
      rw [hnil] at hblocks
      cases hblocks
    rw [hne]
    refine ⟨nofun, fun _ => ?_⟩
    have hrows := succeeds_rowsFrom s [] [] s.view.body
    refine (s.succeeds_argument name columns).bind fun columnSpec => ?_
    split
    · exact ((s.succeeds_argument name _).map some).bind fun width => hrows.bind fun rows => .ok _
    · exact (Succeeds.ok none).bind fun width => hrows.bind fun rows => .ok _

end Tabular

/-! ### Grids -/

namespace Grid

theorem succeeds_size? (s : Subject) (v : View) : Succeeds (size? s v) := by
  unfold size?
  split
  · exact (s.succeeds_argument name _).map some
  · exact .ok none

theorem succeeds_cell (s : Subject) (v : View) : Succeeds (cell s v) := by
  obtain ⟨content, hcontent⟩ := s.exists_spanText? (trimTrivia v.body)
  rw [cell, hcontent]
  exact (succeeds_size? s v).bind fun width => .ok _

theorem succeeds_row (s : Subject) (v : View) : Succeeds (row s v) :=
  (Succeeds.mapM fun cell _ => succeeds_cell s cell).bind fun _ =>
    (succeeds_size? s v).bind fun _ => .ok _

theorem succeeds_build (h : provider.acceptsNode s.view = true) : Succeeds (build s) := by
  have hname : s.view.kind.environmentName? = some name := by simpa [provider] using h
  rw [build, if_pos hname]
  exact (Succeeds.mapM fun row _ => succeeds_row s row).bind fun _ => .ok _

end Grid

/-! ### Images and mathematics -/

theorem Image.succeeds_build (h : Image.provider.acceptsNode s.view = true) :
    Succeeds (Image.build s) := by
  obtain ⟨-, hblocks⟩ := (Bool.and_eq_true _ _).mp h
  rw [Image.build]
  cases hlast : s.view.curlyBlocks.getLast? with
  | none => simp [List.getLast?_eq_none_iff.mp hlast] at hblocks
  | some block => exact (s.succeeds_argument Image.name block).bind fun _ => .ok _

theorem Math.succeeds_build (h : Math.provider.acceptsNode s.view = true) :
    Succeeds (Math.build s) := by
  have hdisplayed : Math.isDisplayed s.view.kind = true := h
  unfold Math.isDisplayed at hdisplayed
  split at hdisplayed
  next hkind =>
    rw [Math.build, hkind]
    exact .ok _
  · cases hdisplayed

/-! ### All of them -/

theorem owner?_of_lacksColumns {v : View} (h : v.lacksColumns = true) :
    v.owner? = some Tabular.name := by
  obtain ⟨henvironment, -⟩ := (Bool.and_eq_true _ _).mp h
  obtain ⟨name, hname, hmem⟩ := (Option.any_eq_true _ _).mp henvironment
  have hgrid : name ≠ Grid.name := by
    rintro rfl
    revert hmem
    decide
  cases hkind : v.kind with
  | environment environment count =>
    obtain rfl : environment = name := by simpa [hkind, NodeKind.environmentName?] using hname
    rw [View.owner?, hkind, ownerOf?, if_neg hgrid, if_pos (by simpa using hmem)]
  | _ => simp [hkind, NodeKind.environmentName?] at hname

variable {p : Provider}

/-- A built-in provider builds a model of every node that it accepts, unless the node is a table that
lacks its columns. -/
theorem build_of_mem_builtin (hp : p ∈ builtin) (h : p.acceptsNode s.view = true) :
    (s.view.lacksColumns = true → p.name = Tabular.name ∧
        p.build s = .error (.missingParameter Tabular.name "column specification")) ∧
      (s.view.lacksColumns = false → Succeeds (p.build s)) := by
  have howner := owner?_of_acceptsNode hp h
  have hname : s.view.lacksColumns = true → p.name = Tabular.name := by
    intro hlacks
    rw [owner?_of_lacksColumns hlacks] at howner
    exact (Option.some.inj howner).symm
  simp only [builtin, List.mem_cons, List.not_mem_nil, or_false] at hp
  rcases hp with rfl | rfl | rfl | rfl
  · exact ⟨fun hlacks => absurd (hname hlacks) (by decide), fun _ => Image.succeeds_build h⟩
  · obtain ⟨herror, hok⟩ := Tabular.build_of_acceptsNode h
    exact ⟨fun hlacks => ⟨rfl, herror hlacks⟩, hok⟩
  · exact ⟨fun hlacks => absurd (hname hlacks) (by decide), fun _ => Grid.succeeds_build h⟩
  · exact ⟨fun hlacks => absurd (hname hlacks) (by decide), fun _ => Math.succeeds_build h⟩

end Provider

namespace Extraction

variable {d : Document} {ps : Providers} {mappings : List Mapping}

/-! ### Pair by pair -/

/-- A mapping and a node that a provider is to build a model of. -/
structure Attempt where
  provider : Provider
  mapping : Mapping
  node : NodeId

/-- What the providers from a place on are to build, in order; each has the pairs of the mappings that
belong to it with the nodes that the ones before it left free. -/
def attemptsFrom (d : Document) (ps : Providers) (mappings : List Mapping) (used : List NodeId)
    (index : Nat) : List Provider → List Attempt
  | [] => []
  | p :: later =>
    let c := correlateFor d p (assignedTo ps index mappings) used
    c.pairs.map (fun pair => ⟨p, pair.1, pair.2⟩) ++
      attemptsFrom d ps mappings (used ++ c.pairs.map (·.2)) (index + 1) later

/-- What is to be built in an extraction, in order. -/
def attempts (d : Document) (ps : Providers) (mappings : List Mapping) : List Attempt :=
  attemptsFrom d ps mappings [] 0 ps.list

/-- What came of an attempt. -/
def Attempt.outcome (d : Document) (a : Attempt) : Extraction :=
  build d a.provider (a.mapping, a.node)

/-- The attempt is doomed: its node is a table without a parameter in braces. -/
def Attempt.lacksColumns (d : Document) (a : Attempt) : Bool :=
  (d.arena.view? a.node).any View.lacksColumns

theorem sharesFrom_eq (d : Document) (ps : Providers) (mappings : List Mapping)
    (used : List NodeId) (index : Nat) (later : List Provider) :
    ((sharesFrom d ps mappings used index later).flatMap fun s => s.failures.map Prod.snd) =
        ((attemptsFrom d ps mappings used index later).flatMap fun a => (a.outcome d).report.failures) ∧
      (sharesFrom d ps mappings used index later).flatMap Share.models =
        (attemptsFrom d ps mappings used index later).flatMap fun a => (a.outcome d).models := by
  induction later generalizing used index with
  | nil => exact ⟨rfl, rfl⟩
  | cons p later ih =>
    obtain ⟨hfailures, hmodels⟩ := ih
      (used ++ (correlateFor d p (assignedTo ps index mappings) used).pairs.map (·.2)) (index + 1)
    simp only [sharesFrom, attemptsFrom, List.flatMap_cons, List.flatMap_append, hfailures, hmodels,
      List.flatMap_map, Attempt.outcome]
    simp [shareOf, List.map_flatMap, Function.comp_def]

theorem outcomes_extractFrom (d : Document) (ps : Providers) (mappings : List Mapping) :
    (extractFrom d mappings ps).report.failures =
        ((attempts d ps mappings).flatMap fun a => (a.outcome d).report.failures) ∧
      (extractFrom d mappings ps).models =
        (attempts d ps mappings).flatMap fun a => (a.outcome d).models := by
  rw [extractFrom_eq]
  exact sharesFrom_eq d ps mappings [] 0 ps.list

theorem exists_view_of_mem_attemptsFrom {used : List NodeId} {index : Nat} {later : List Provider}
    {a : Attempt} (h : a ∈ attemptsFrom d ps mappings used index later) :
    a.provider ∈ later ∧ ∃ v, d.arena.view? a.node = some v ∧ a.provider.acceptsNode v = true := by
  induction later generalizing used index with
  | nil => cases h
  | cons p later ih =>
    rcases List.mem_append.mp h with h | h
    · obtain ⟨pair, hpair, rfl⟩ := List.mem_map.mp h
      exact ⟨List.mem_cons_self, (exists_view_of_mem_correlateFor hpair).2⟩
    · obtain ⟨hmem, hview⟩ := ih h
      exact ⟨List.mem_cons_of_mem p hmem, hview⟩

/-- The failure to build a table that lacks its columns. -/
def Attempt.failure (d : Document) (a : Attempt) : ModelFailure :=
  ⟨d.path, Provider.Tabular.name, a.mapping.id, a.node,
    .missingParameter Provider.Tabular.name "column specification"⟩

theorem Attempt.outcome_eq {a : Attempt} (hbuiltin : ∀ p ∈ ps.list, p ∈ Provider.builtin)
    (h : a ∈ attempts d ps mappings) :
    (a.outcome d).report.failures = (if a.lacksColumns d then [a.failure d] else []) ∧
      (a.outcome d).models.map (fun m => (m.mapping, m.node)) =
        if a.lacksColumns d then [] else [(a.mapping, a.node)] := by
  obtain ⟨hprovider, v, hview, haccepts⟩ := exists_view_of_mem_attemptsFrom h
  have hlacks : a.lacksColumns d = v.lacksColumns := by rw [lacksColumns, hview, Option.any_some]
  obtain ⟨herror, hok⟩ : _ ∧ (_ → Succeeds (a.provider.build ⟨d, v, a.mapping⟩)) :=
    Provider.build_of_mem_builtin (hbuiltin _ hprovider) haccepts
  have hcases := @build_cases d a.provider (a.mapping, a.node) v hview
  rw [hlacks, outcome]
  cases hcolumns : v.lacksColumns with
  | true =>
    obtain ⟨hname, hbuild⟩ := herror hcolumns
    rcases hcases with ⟨kind, content, hmade, -⟩ | ⟨error, hmade, houtcome⟩
    · rw [hbuild] at hmade
      cases hmade
    · rw [hbuild] at hmade
      obtain rfl := Except.error.inj hmade
      rw [houtcome, hname]
      exact ⟨rfl, rfl⟩
  | false =>
    obtain ⟨made, hbuild⟩ := hok hcolumns
    rcases hcases with ⟨kind, content, -, houtcome⟩ | ⟨error, hmade, -⟩
    · rw [houtcome]
      exact ⟨rfl, rfl⟩
    · rw [hbuild] at hmade
      cases hmade

theorem flatMap_eq_map_filter {α β : Type} {f : α → List β} {g : α → β} {keep : α → Bool}
    {l : List α} (h : ∀ a ∈ l, f a = if keep a then [g a] else []) :
    l.flatMap f = (l.filter keep).map g := by
  induction l with
  | nil => rfl
  | cons a l ih =>
    rw [List.forall_mem_cons] at h
    rw [List.flatMap_cons, h.1, ih h.2, List.filter_cons]
    split <;> rfl

/-- Whatever has become of a document and its tree, an extraction with built-in providers fails for the
tables without a parameter in braces, for want of their columns, and for no other reason; of every
other pair of a mapping and a node it makes a model. -/
theorem failures_eq_and_models_eq (hbuiltin : ∀ p ∈ ps.list, p ∈ Provider.builtin) (d : Document)
    (mappings : List Mapping) :
    (extractFrom d mappings ps).report.failures =
        ((attempts d ps mappings).filter fun a => a.lacksColumns d).map (Attempt.failure d) ∧
      (extractFrom d mappings ps).models.map (fun m => (m.mapping, m.node)) =
        ((attempts d ps mappings).filter fun a => !a.lacksColumns d).map
          fun a => (a.mapping, a.node) := by
  obtain ⟨hfailures, hmodels⟩ := outcomes_extractFrom d ps mappings
  rw [hfailures, hmodels, List.map_flatMap]
  refine ⟨flatMap_eq_map_filter fun a ha => (Attempt.outcome_eq hbuiltin ha).1,
    flatMap_eq_map_filter fun a ha => ?_⟩
  rw [(Attempt.outcome_eq hbuiltin ha).2]
  cases a.lacksColumns d <;> rfl

/-- Two tables, the second without columns. -/
def twoTables : String :=
  "\\begin\x7btabular\x7d\x7bc\x7da\\end\x7btabular\x7d\\begin\x7btabular\x7db\\end\x7btabular\x7d"

/-- Two tables of whose source an edit has left four characters. -/
def twoTablesLeft : Document :=
  ((Document.parse ⟨"a.tex"⟩ twoTables.toList).toOption.getD default).perform
    (.applyEdit ⟨⟨.ofCoord ⟨0, 3⟩, .ofCoord ⟨0, 60⟩⟩, []⟩)

/-- Of the first table a model is made, though hardly anything is left of its source; the second lacks
its columns. -/
theorem failures_eq_and_models_eq_twoTables :
    let mappings : List Mapping := [⟨"tabular", 7, ⟨"a.tex"⟩, 1⟩, ⟨"tabular", 8, ⟨"a.tex"⟩, 1⟩]
    let e := extractFrom twoTablesLeft mappings (Providers.builtin none)
    e.report.failures =
        [⟨⟨"a.tex"⟩, "tabular", 8, ⟨6⟩, .missingParameter "tabular" "column specification"⟩] ∧
      e.models.map (fun m => (m.mapping, m.node)) = [(⟨"tabular", 7, ⟨"a.tex"⟩, 1⟩, ⟨4⟩)] := by
  intro mappings e
  have hbuiltin : ∀ p ∈ (Providers.builtin none).list, p ∈ Provider.builtin :=
    fun p hp => (List.mem_filter.mp hp).1
  obtain ⟨hfailures, hmodels⟩ := failures_eq_and_models_eq hbuiltin twoTablesLeft mappings
  rw [hfailures, hmodels]
  exact ⟨by decide +kernel, by decide +kernel⟩

end Extraction

end TexAnchor
