import TexAnchor.Proofs.Extracting
import TexAnchor.Proofs.Translation

/-! # Candidates before and after a write

The nodes that the built-in providers accept can be read off a tree (`Tree.owners`), so documents with
the same tree have the same candidates.  When a text that is a single node of a provider
(`Provider.IsNodeOf`) is written over a node of that provider, the candidates are those from before,
moved with the edit and without the ones inside the old node (`movedCandidates`,
`forall₂_movedCandidates`). -/

namespace TexAnchor

open Text (Coord)

/-! ### Owners -/

namespace Tree

mutual

/-- The nodes of a tree, parents before children, with the providers that accept them. -/
def owners : Tree → List (Option String × Span)
  | node kind span children =>
    (Provider.ownerOf? kind (children.map fun c => c.kind.tag), span) :: ownersOf children

/-- The nodes of some trees in order. -/
def ownersOf : List Tree → List (Option String × Span)
  | [] => []
  | t :: forest => t.owners ++ ownersOf forest

end

theorem ownersOf_eq (forest : List Tree) : ownersOf forest = forest.flatMap owners := by
  induction forest with
  | nil => rfl
  | cons t forest ih => rw [ownersOf, ih, List.flatMap_cons]

theorem kind_map (f : Coord → Coord) (t : Tree) : (t.map f).kind = t.kind := by
  cases t
  rfl

mutual

theorem owners_map (f : Coord → Coord) : (t : Tree) →
    (t.map f).owners.map Prod.fst = t.owners.map Prod.fst
  | node kind span children => by
    rw [map, owners, owners, mapForest_eq, List.map_map]
    simp only [List.map_cons, Function.comp_def, kind_map, ← mapForest_eq, ownersOf_map f children]

theorem ownersOf_map (f : Coord → Coord) : (forest : List Tree) →
    (ownersOf (mapForest f forest)).map Prod.fst = (ownersOf forest).map Prod.fst
  | [] => rfl
  | t :: forest => by
    rw [mapForest, ownersOf, ownersOf, List.map_append, List.map_append, owners_map f t,
      ownersOf_map f forest]

end

end Tree

/-- A node of an arena with the provider that accepts it. -/
structure Entry where
  id : NodeId
  owner? : Option String
  range : Range

/-- What does not depend on the arena. -/
def Entry.place (e : Entry) : Option String × Span :=
  (e.owner?, e.range.span)

/-- The entry of a live node. -/
def View.entry (v : View) : Entry :=
  ⟨v.id, v.owner?, v.range⟩

namespace Planted

mutual

/-- The nodes of a planted tree, parents before children. -/
def entries : Planted → List Entry
  | node id kind range children =>
    ⟨id, Provider.ownerOf? kind (children.map fun c => c.kind.tag), range⟩ :: entriesOf children

/-- The nodes of some planted trees in order. -/
def entriesOf : List Planted → List Entry
  | [] => []
  | p :: ps => p.entries ++ entriesOf ps

end

theorem entriesOf_eq (ps : List Planted) : entriesOf ps = ps.flatMap entries := by
  induction ps with
  | nil => rfl
  | cons p ps ih => rw [entriesOf, ih, List.flatMap_cons]

@[simp] theorem entries_node (id : NodeId) (kind : NodeKind) (range : Range)
    (children : List Planted) : (node id kind range children).entries =
      ⟨id, Provider.ownerOf? kind (children.map fun c => c.kind.tag), range⟩ ::
        children.flatMap entries := by
  rw [entries, entriesOf_eq]

theorem kind_mapRange (f : Range → Range) (p : Planted) : (p.mapRange f).kind = p.kind := by
  cases p
  rw [mapRange_node]
  rfl

variable {a : Arena} {old new p p' : Planted}

theorem ids_eq_map_entries (p : Planted) : p.ids = p.entries.map Entry.id := by
  match p with
  | .node id kind range children =>
    rw [ids_node, entries_node, List.map_cons, List.map_flatMap]
    exact congrArg _ (List.flatMap_congr fun c _ => c.ids_eq_map_entries)

theorem owners_tree (p : Planted) : p.tree.owners = p.entries.map Entry.place := by
  match p with
  | .node id kind range children =>
    rw [tree_node, entries_node, Tree.owners, Tree.ownersOf_eq, List.map_cons, List.map_map,
      List.map_flatMap, List.flatMap_map]
    simp only [Function.comp_def, kind_tree]
    exact congrArg _ (List.flatMap_congr fun c _ => c.owners_tree)

theorem entries_mapRange (f : Range → Range) (p : Planted) :
    (p.mapRange f).entries = p.entries.map fun e => { e with range := f e.range } := by
  match p with
  | .node id kind range children =>
    rw [mapRange_node, entries_node, entries_node, List.map_cons, List.map_map, List.map_flatMap,
      List.flatMap_map]
    simp only [Function.comp_def, kind_mapRange]
    exact congrArg _ (List.flatMap_congr fun c _ => c.entries_mapRange f)

theorem Grafted.kind_tag_eq (h : Grafted old new p p') (htag : new.kind.tag = old.kind.tag) :
    p'.kind.tag = p.kind.tag := by
  cases h with
  | here => exact htag
  | inside => rfl

theorem Grafted.entries_eq (h : Grafted old new p p') (htag : new.kind.tag = old.kind.tag) :
    ∃ left right, p.entries = left ++ old.entries ++ right ∧
      p'.entries = left ++ new.entries ++ right := by
  induction h with
  | here => exact ⟨[], [], by simp, by simp⟩
  | @inside q q' id kind range before after hq ih =>
    obtain ⟨left, right, hp, hp'⟩ := ih
    have hkind := hq.kind_tag_eq htag
    refine ⟨⟨id, Provider.ownerOf? kind ((before ++ q :: after).map fun c => c.kind.tag), range⟩ ::
      (before.flatMap entries ++ left), right ++ after.flatMap entries, by simp [hp], ?_⟩
    simp [hp', hkind]

end Planted

/-! ### Candidates of a document -/

theorem Arena.Holds.map_entry {a : Arena} {parent : Option NodeId} {p : Planted}
    (h : a.Holds parent p) : (p.ids.filterMap a.view?).map View.entry = p.entries := by
  induction h with
  | @node parent id kind range children hget hchildren ih =>
    have htags : (children.map Planted.id).filterMap (fun id => (a.view? id).map (·.kind.tag)) =
        children.map fun c => c.kind.tag := by
      rw [List.filterMap_map, List.filterMap_eq_map_iff_forall_eq_some]
      intro c hc
      obtain ⟨ids, hc⟩ := (hchildren c hc).get?
      simp only [Function.comp_apply, view?, hc, Option.map_some]
      rfl
    rw [Planted.ids_node, Planted.entries_node, List.filterMap_cons, view?, hget,
      List.filterMap_flatMap, Option.map_some, List.map_cons, List.map_flatMap]
    refine congrArg₂ _ ?_ (List.flatMap_congr ih)
    simp only [View.entry, View.owner?, View.kind, View.range, View.children, List.map_filterMap]
    rw [← htags]
    rfl

namespace Extraction

variable {d d' : Document} {p p' : Planted} {pr : Provider}

theorem map_entry_candidateViews (hpr : pr ∈ Provider.builtin) (h : d.arena.Carries p) :
    (candidateViews d pr).map View.entry = p.entries.filter fun e => e.owner? = some pr.name := by
  have hroot := h.holds.get?
  rw [h.root_eq] at hroot
  obtain ⟨children, hroot⟩ := hroot
  have hviews : candidateViews d pr = (p.ids.filterMap d.arena.view?).filter pr.acceptsNode := by
    rw [candidateViews, Document.root?, Arena.view?, hroot]
    simp only [Option.map_some, Option.getD_some, View.descendants, h.descendants_root]
  rw [hviews, ← h.holds.map_entry, List.filter_map]
  refine congrArg _ (List.filter_congr fun v _ => ?_)
  rw [Bool.eq_iff_iff, Provider.acceptsNode_iff hpr, Function.comp_apply, decide_eq_true_iff]
  rfl

/-- The nodes of a provider as an edit moves them, without those inside the node `id`. -/
def movedCandidates (d : Document) (pr : Provider) (id : NodeId) (e : Edit) : List Candidate :=
  ((candidateViews d pr).filter fun v =>
    v.id = id ∨ v.id ∉ d.arena.descendants id).map fun v => ⟨v.id, e.mapPosition v.range.start⟩

/-- The entries of a provider. -/
def entriesOf (name : String) (entries : List Entry) : List Entry :=
  entries.filter fun e => e.owner? = some name

variable {e : Edit} {old new grown : Planted} {name : String} {rest : List (Option String)}

theorem map_place_entriesOf (name : String) (entries : List Entry) :
    (entriesOf name entries).map Entry.place =
      (entries.map Entry.place).filter fun q => q.1 = some name := by
  rw [entriesOf, List.filter_map]
  rfl

theorem entriesOf_cons (owner : String) (x : Entry) (entries : List Entry) :
    entriesOf owner (x :: entries) =
      (if x.owner? = some owner then [x] else []) ++ entriesOf owner entries := by
  rw [entriesOf, List.filter_cons]
  split <;> simp_all [entriesOf]

theorem movedCandidates_eq (hpr : pr ∈ Provider.builtin) (h : d.arena.Carries p) (id : NodeId)
    (e : Edit) : movedCandidates d pr id e =
      ((entriesOf pr.name (p.mapRange e.mapRange).entries).filter fun x =>
        x.id = id ∨ x.id ∉ d.arena.descendants id).map fun x => ⟨x.id, x.range.start⟩ := by
  have howned : entriesOf pr.name (p.mapRange e.mapRange).entries =
      (candidateViews d pr).map fun v => ⟨v.id, v.owner?, e.mapRange v.range⟩ := by
    have hviews := congrArg (List.map fun x : Entry => { x with range := e.mapRange x.range })
      (map_entry_candidateViews hpr h)
    rw [List.map_map] at hviews
    rw [Planted.entries_mapRange, entriesOf, List.filter_map]
    exact hviews.symm
  rw [howned, List.filter_map, List.map_map]
  rfl

/-- The second node is where an edit moves the first one. -/
def Follows (d d' : Document) (e : Edit) (id id' : NodeId) : Prop :=
  ∃ node node', d.arena.get? id = some node ∧ d'.arena.get? id' = some node' ∧
    node'.range.span = (e.mapRange node.range).span

/-- Of an old node with those below it only the node itself is left, and of the new nodes too, if
nobody accepts one below. -/
theorem map_place_middle (hnodup : old.ids.Nodup)
    (hold : ∀ x ∈ old.entries.head?, x.owner? = some name)
    (hnew : new.tree.owners.map Prod.fst = some name :: rest)
    (hspan : new.range.span = (e.mapRange old.range).span) {owner : String}
    (hrest : some owner ∉ rest) :
    ((entriesOf owner (old.mapRange e.mapRange).entries).filter fun x =>
      x.id = old.id ∨ x.id ∉ old.ids).map Entry.place =
        (entriesOf owner new.entries).map Entry.place := by
  obtain ⟨id, kind, range, children⟩ := old
  obtain ⟨id', kind', range', children'⟩ := new
  have howner := hold _ (by rw [Planted.entries_node]; rfl)
  rw [Planted.owners_tree, List.map_map, Planted.entries_node, List.map_cons, List.cons.injEq] at hnew
  obtain ⟨howner', hbelow'⟩ := hnew
  rw [Planted.ids_node, List.nodup_cons] at hnodup
  rw [Planted.entries_mapRange, Planted.entries_node, Planted.entries_node, List.map_cons,
    Planted.id_node, Planted.ids_node]
  have hbelow : ((entriesOf owner ((children.flatMap Planted.entries).map fun x =>
      { x with range := e.mapRange x.range })).filter fun x =>
        x.id = id ∨ x.id ∉ id :: children.flatMap Planted.ids) = [] := by
    apply List.filter_eq_nil_iff.mpr
    intro x hx
    obtain ⟨y, hy, rfl⟩ := List.mem_map.mp (List.mem_filter.mp hx).1
    have hmem : y.id ∈ children.flatMap Planted.ids := by
      obtain ⟨c, hc, hy⟩ := List.mem_flatMap.mp hy
      refine List.mem_flatMap.mpr ⟨c, hc, ?_⟩
      rw [Planted.ids_eq_map_entries]
      exact List.mem_map_of_mem hy
    have hne : y.id ≠ id := fun heq => hnodup.1 (heq ▸ hmem)
    simp [hne, hmem]
  have hbelow'' : entriesOf owner (children'.flatMap Planted.entries) = [] := by
    apply List.filter_eq_nil_iff.mpr
    intro x hx
    rw [decide_eq_true_iff]
    intro howned
    have hmem := List.mem_map_of_mem (f := Prod.fst ∘ Entry.place) hx
    rw [hbelow'] at hmem
    exact hrest (howned ▸ hmem)
  replace howner : Provider.ownerOf? kind (children.map fun c => c.kind.tag) = some name := howner
  replace howner' : Provider.ownerOf? kind' (children'.map fun c => c.kind.tag) = some name := howner'
  replace hspan : range'.span = (e.mapRange range).span := hspan
  rw [entriesOf_cons, entriesOf_cons, List.filter_append, hbelow, hbelow'', List.append_nil,
    List.append_nil, howner, howner']
  by_cases hname : name = owner
  · simp [hname, Entry.place, hspan]
  · simp [hname]

/-- Of the nodes below the old node none is left, and there are none below the new one. -/
theorem map_place_moved (hnodup : p.ids.Nodup)
    (hgrafted : Planted.Grafted (old.mapRange e.mapRange) new (p.mapRange e.mapRange) grown)
    (hold : ∀ x ∈ old.entries.head?, x.owner? = some name)
    (hnew : new.tree.owners.map Prod.fst = some name :: rest)
    (hspan : new.range.span = (e.mapRange old.range).span)
    (htag : new.kind.tag = old.kind.tag) {owner : String} (hrest : some owner ∉ rest) :
    ((entriesOf owner (p.mapRange e.mapRange).entries).filter fun x =>
      x.id = old.id ∨ x.id ∉ old.ids).map Entry.place =
        (entriesOf owner grown.entries).map Entry.place := by
  obtain ⟨left, right, hp, hgrown⟩ := hgrafted.entries_eq (by rwa [Planted.kind_mapRange])
  have hids : p.ids = left.map Entry.id ++ old.ids ++ right.map Entry.id := by
    rw [← Planted.ids_mapRange e.mapRange p, Planted.ids_eq_map_entries, hp,
      ← Planted.ids_mapRange e.mapRange old, Planted.ids_eq_map_entries (old.mapRange _)]
    simp
  rw [hids, List.append_assoc, List.nodup_append] at hnodup
  obtain ⟨-, hnodup, hleft⟩ := hnodup
  obtain ⟨hold_nodup, -, hright⟩ := List.nodup_append.mp hnodup
  have hkeep {side : List Entry} (hside : ∀ x ∈ side, x.id ∉ old.ids) :
      (entriesOf owner side).filter (fun x => x.id = old.id ∨ x.id ∉ old.ids) =
        entriesOf owner side :=
    List.filter_eq_self.mpr fun x hx =>
      decide_eq_true (.inr (hside x (List.mem_filter.mp hx).1))
  have hkeep_left := hkeep fun x hx hmem =>
    hleft x.id (List.mem_map_of_mem hx) x.id (List.mem_append_left _ hmem) rfl
  have hkeep_right := hkeep fun x hx hmem =>
    hright x.id hmem x.id (List.mem_map_of_mem hx) rfl
  have hmiddle : ((entriesOf owner (old.mapRange e.mapRange).entries).filter fun x =>
      x.id = old.id ∨ x.id ∉ old.ids).map Entry.place =
        (entriesOf owner new.entries).map Entry.place :=
    map_place_middle hold_nodup hold hnew hspan hrest
  simp only [entriesOf] at hkeep_left hkeep_right hmiddle
  rw [hp, hgrown]
  simp only [entriesOf, List.filter_append, List.map_append, hkeep_left, hkeep_right, hmiddle]

theorem get?_of_mem_entries (h : d.arena.Carries p) {x : Entry} (hx : x ∈ p.entries) :
    ∃ node, d.arena.get? x.id = some node ∧ node.range = x.range := by
  rw [← h.holds.map_entry] at hx
  obtain ⟨v, hv, rfl⟩ := List.mem_map.mp hx
  obtain ⟨id, -, hview⟩ := List.mem_filterMap.mp hv
  obtain ⟨node, hnode, rfl⟩ := Option.map_eq_some_iff.mp hview
  exact ⟨node, hnode, rfl⟩

/-- The candidates after a write over a node are the moved ones from before. -/
theorem forall₂_movedCandidates (hpr : pr ∈ Provider.builtin) (h : d.arena.Carries p)
    (h' : d'.arena.Carries p') (hocc : old.Occurs p)
    (hgrafted : Planted.Grafted (old.mapRange e.mapRange) new (p.mapRange e.mapRange) grown)
    (htree : p'.tree = grown.tree) (hold : ∀ x ∈ old.entries.head?, x.owner? = some name)
    (hnew : new.tree.owners.map Prod.fst = some name :: rest)
    (hspan : new.range.span = (e.mapRange old.range).span)
    (htag : new.kind.tag = old.kind.tag) (hrest : some pr.name ∉ rest) :
    List.Forall₂ (Alike (Follows d d' e)) (movedCandidates d pr old.id e)
      ((candidateViews d' pr).map fun v => ⟨v.id, v.range.start⟩) := by
  have hdescendants : d.arena.descendants old.id = old.ids := by
    obtain ⟨parent, hholds⟩ := h.holds.exists_holds_occurs hocc
    refine Arena.descendantsWithin_of_holds hholds (le_trans ?_ h.length_ids_le)
    obtain ⟨left, right, hids, -⟩ := hgrafted.ids_eq
    rw [Planted.ids_mapRange, Planted.ids_mapRange] at hids
    simp only [hids, List.length_append]
    omega
  have hplaces := map_place_moved h.nodup hgrafted hold hnew hspan htag hrest
  rw [map_place_entriesOf pr.name grown.entries, ← Planted.owners_tree, ← htree,
    Planted.owners_tree, ← map_place_entriesOf] at hplaces
  have hviews : ((candidateViews d' pr).map fun v => (⟨v.id, v.range.start⟩ : Candidate)) =
      (entriesOf pr.name p'.entries).map fun x => ⟨x.id, x.range.start⟩ := by
    rw [entriesOf, ← map_entry_candidateViews hpr h', List.map_map]
    rfl
  rw [movedCandidates_eq hpr h, hdescendants, hviews, List.forall₂_map_left_iff,
    List.forall₂_map_right_iff]
  rw [← List.forall₂_eq_eq_eq, List.forall₂_map_left_iff, List.forall₂_map_right_iff] at hplaces
  refine List.forall₂_iff_zip.mpr ⟨hplaces.length_eq, fun {x y} hxy => ?_⟩
  have hspans : x.range.span = y.range.span := congrArg Prod.snd (List.forall₂_zip hplaces hxy)
  obtain ⟨hx, hy⟩ := List.of_mem_zip hxy
  replace hx := (List.mem_filter.mp (List.mem_filter.mp hx).1).1
  replace hy := (List.mem_filter.mp hy).1
  rw [Planted.entries_mapRange] at hx
  obtain ⟨x, hmem, rfl⟩ := List.mem_map.mp hx
  obtain ⟨node, hnode, hrange⟩ := get?_of_mem_entries h hmem
  obtain ⟨node', hnode', hrange'⟩ := get?_of_mem_entries h' hy
  refine ⟨congrArg Span.start hspans, node, node', hnode, hnode', ?_⟩
  rw [hrange', hrange]
  exact hspans.symm

end Extraction

/-! ### Texts that are single nodes -/

/-- The text is a single node that the provider `name` accepts, and none of the providers `names`
accepts a node inside it. -/
def Provider.IsNodeOf (names : List String) (name : String) (text : List Char) : Prop :=
  ∃ t rest, Grammar.readFrom .zero text = .ok [t] ∧ t.owners.map Prod.fst = some name :: rest ∧
    ∀ other ∈ names, some other ∉ rest

namespace Grammar

open Token (textOf Parted)

variable {name : String} {text : List Char} {kind : NodeKind} {parts : List Markup}

theorem grows_closer {t : Token} (h : t.kind = .rBrace ∨ t.kind = .rBracket ∨
    t.kind = .doubleDollar ∨ t.kind = .displayMathClose) (c : Char) : t.grows c = false := by
  rcases h with h | h | h | h <;> simp [Token.grows, h, continuedKind?]

theorem Produces.exists_closer (h : Produces .item (.node kind parts)) {here : Coord}
    (howner : Provider.ownerOf? kind ((Markup.forest here parts).map fun c => c.kind.tag) =
      some name) :
    ∃ init closer, (Markup.node kind parts).tokens = init ++ [closer] ∧
      ∀ c, closer.grows c = false := by
  cases h with
  | @command t blocks _ _ hblocks =>
    rcases List.eq_nil_or_concat blocks with rfl | ⟨init, last, rfl⟩
    · simp [Provider.ownerOf?] at howner
    · have hlast : ∃ init closer, last.tokens = init ++ [closer] ∧ ∀ c, closer.grows c = false := by
        cases hblocks last (by simp) with
        | @curlyBlock opener closer body _ hcloser =>
          exact ⟨opener :: Markup.tokensOf body, closer, by simp, grows_closer (.inl hcloser)⟩
        | @squareBlock opener closer inner _ hcloser =>
          exact ⟨opener :: inner, closer, by simp, grows_closer (.inr (.inl hcloser))⟩
      obtain ⟨tokens, closer, heq, hgrows⟩ := hlast
      exact ⟨t :: (Markup.tokensOf init ++ tokens), closer, by simp [heq], hgrows⟩
  | @math opener closer inner hopener hcloser =>
    refine ⟨opener :: inner, closer, by simp, grows_closer ?_⟩
    rw [hcloser]
    cases hkind : opener.kind <;>
      simp_all [isMathOpener, mathDelimiter, Provider.ownerOf?, MathDelimiter.isDisplay]
  | @environment name opening closing blocks body _ _ _ _ _ _ hclosing =>
    obtain ⟨init, closer, rfl, hcloser⟩ := hclosing.exists_eq_append
    exact ⟨opening ++ Markup.tokensOf blocks ++ Markup.tokensOf body ++ init, closer, by simp,
      grows_closer (.inl hcloser)⟩
  | @mathEnvironment name opening content closing _ _ hend =>
    obtain ⟨init, closer, rfl, hcloser⟩ := hend.1.exists_eq_append
    exact ⟨opening ++ content ++ init, closer, by simp, grows_closer (.inl hcloser)⟩
  | _ => simp [Provider.ownerOf?] at howner

end Grammar

namespace Provider

open Token (Parted)

variable {names : List String} {name : String} {text : List Char}

theorem cases_of_ownerOf? {kind : NodeKind} {children : List KindTag}
    (h : ownerOf? kind children = some name) :
    kind.tag = .command ∧ name = Image.name ∨
      kind.tag = .environment ∧ (name = Grid.name ∨ name = Tabular.name) ∨
      kind.tag = .math ∧ name = Math.name := by
  cases kind with
  | command command =>
    rw [ownerOf?, Option.ite_none_right_eq_some] at h
    exact .inl ⟨rfl, (Option.some.inj h.2).symm⟩
  | environment environment count =>
    rw [ownerOf?] at h
    split at h
    · exact .inr (.inl ⟨rfl, .inl (Option.some.inj h).symm⟩)
    · rw [Option.ite_none_right_eq_some] at h
      exact .inr (.inl ⟨rfl, .inr (Option.some.inj h.2).symm⟩)
  | math delimiter content =>
    rw [ownerOf?, Option.ite_none_right_eq_some] at h
    exact .inr (.inr ⟨rfl, (Option.some.inj h.2).symm⟩)
  | _ => simp [ownerOf?] at h

theorem tag_eq_of_ownerOf? {kind kind' : NodeKind} {children children' : List KindTag}
    (h : ownerOf? kind children = some name) (h' : ownerOf? kind' children' = some name) :
    kind.tag = kind'.tag := by
  rcases cases_of_ownerOf? h with ⟨htag, rfl⟩ | ⟨htag, rfl | rfl⟩ | ⟨htag, rfl⟩ <;>
    rcases cases_of_ownerOf? h' with ⟨htag', hname⟩ | ⟨htag', hname | hname⟩ | ⟨htag', hname⟩ <;>
    first
    | exact htag.trans htag'.symm
    | exact absurd hname (by decide)

theorem IsNodeOf.exists_tree (h : IsNodeOf names name text) (origin : Coord) :
    ∃ t children rest, Grammar.readFrom origin text = .ok [t] ∧
      ownerOf? t.kind children = some name ∧ t.owners.map Prod.fst = some name :: rest ∧
      ∀ other ∈ names, some other ∉ rest := by
  obtain ⟨⟨kind, span, children⟩, rest, hread, howners, hrest⟩ := h
  have howner := howners
  rw [Tree.owners, List.map_cons, List.cons.injEq] at howner
  exact ⟨_, _, rest, Grammar.readFrom_translate hread origin, howner.1,
    (Tree.owners_map _ _).trans howners, hrest⟩

/-- Nothing can join a text that is a single node of a provider to what stands behind it. -/
theorem IsNodeOf.parted (h : IsNodeOf names name text) (after : List Char) :
    Parted (tokenize text) after := by
  obtain ⟨t, rest, hread, howners, -⟩ := h
  obtain ⟨y, hy, htokens, htree⟩ := Grammar.exists_item_of_readFrom hread
  obtain ⟨kind, parts, rfl⟩ := hy.exists_eq_node
  rw [Markup.trees_node, List.singleton_inj] at htree
  rw [← htree, Tree.owners, List.map_cons, List.cons.injEq] at howners
  obtain ⟨init, closer, heq, hgrows⟩ := hy.exists_closer howners.1
  intro last hlast c _
  rw [← htokens, heq, List.getLast?_concat, Option.mem_some_iff] at hlast
  exact hlast ▸ hgrows c

end Provider

namespace Extraction

open Token (Parted)

variable {d : Document} {p : Planted} {pr : Provider} {v : View} {names : List String}
  {name : String} {text : List Char}

/-- After a text that is a single node of a provider has been written over a node of that provider,
the candidates are the moved ones from before, if nothing joins the text to what stands before it. -/
theorem forall₂_candidates_replaceNode (hpr : pr ∈ Provider.builtin) (h : d.arena.Carries p)
    (hstep : d.InStep) (hid : v.id ∈ p.ids) (hview : d.arena.view? v.id = some v)
    (howner : v.owner? = some name) (htext : Provider.IsNodeOf names name text)
    (hname : pr.name ∈ names) (hleft : Parted (tokenize (d.around v.range).1) text) {outcome : Replacement}
    (hdone : (d.replaceNode v.id text).2 = .ok outcome) :
    List.Forall₂ (Alike (Follows d (d.replaceNode v.id text).1.freeDetached ⟨v.range, text⟩))
      (movedCandidates d pr v.id ⟨v.range, text⟩)
      ((candidateViews (d.replaceNode v.id text).1.freeDetached pr).map fun v =>
        ⟨v.id, v.range.start⟩) := by
  have hnode := Arena.get?_of_view? hview
  have hmarked : Grammar.isMarked v.node.kind.tag = true := Provider.isMarked_of_ownerOf? howner
  obtain ⟨t, children, rest, hread, howner', howners, hrest⟩ :=
    htext.exists_tree v.range.start.coord
  obtain ⟨old, new, p', grown, hocc, hold, hkind, hrange, rfl, hgrafted, hp', htree⟩ :=
    Document.exists_grafted_of_parted h hstep hid hnode hmarked hread
      (Provider.tag_eq_of_ownerOf? howner' howner) hleft (htext.parted _) hdone
  have hcarries : (d.replaceNode v.id text).1.freeDetached.arena.Carries p' := hp'.freeDetached
  have hfirst : ∀ x ∈ old.entries.head?, x.owner? = some name := by
    obtain ⟨parent, hholds⟩ := h.holds.exists_holds_occurs hocc
    obtain ⟨id, kind, range, below⟩ := old
    obtain rfl : id = v.id := hold
    intro x hx
    rw [← hholds.map_entry, Planted.ids_node, List.filterMap_cons, hview, List.map_cons,
      List.head?_cons, Option.mem_some_iff] at hx
    exact hx ▸ howner
  have hspan : new.range.span = (Edit.mapRange ⟨v.range, text⟩ old.range).span := by
    obtain ⟨before, source, after, hne, hcovers⟩ :=
      Document.exists_covers h hstep hid hnode hmarked
    have hspan := Grammar.span_of_readFrom hread
    obtain ⟨id, kind, range, below⟩ := new
    rw [Planted.tree_node] at hspan
    have hsettled := h.settled_range hid hnode
    rw [hrange]
    apply Eq.trans hspan
    rw [View.range, hcovers.span_mapRange hne hsettled, hcovers.start_eq, ← Coord.advance_append]
  have htag := (Provider.tag_eq_of_ownerOf? howner' howner).trans (congrArg NodeKind.tag hkind).symm
  rw [Planted.kind_tree] at htag
  have hfollows := forall₂_movedCandidates hpr h hcarries hocc hgrafted htree hfirst howners hspan
    htag (hrest _ hname)
  rwa [hold] at hfollows

/-- The pairing of a provider's mappings with its nodes as an edit of the node `id` moves them. -/
def movedPairing (d : Document) (mappings : List Mapping) (pr : Provider) (id : NodeId) (e : Edit) :
    Correlation :=
  correlate (mappings.filter pr.acceptsMapping) (movedCandidates d pr id e)

/-- After the write the mappings are paired as with the moved nodes. -/
theorem movedPairing_forall₂ (mappings : List Mapping) (hpr : pr ∈ Provider.builtin)
    (h : d.arena.Carries p) (hstep : d.InStep) (hid : v.id ∈ p.ids)
    (hview : d.arena.view? v.id = some v) (howner : v.owner? = some name)
    (htext : Provider.IsNodeOf names name text) (hname : pr.name ∈ names)
    (hleft : Parted (tokenize (d.around v.range).1) text)
    {outcome : Replacement} (hdone : (d.replaceNode v.id text).2 = .ok outcome) :
    List.Forall₂
      (PairedAlike (Follows d (d.replaceNode v.id text).1.freeDetached ⟨v.range, text⟩))
      (movedPairing d mappings pr v.id ⟨v.range, text⟩).pairs
      (pairing (d.replaceNode v.id text).1.freeDetached mappings pr).pairs :=
  correlate_forall₂ _
    (forall₂_candidates_replaceNode hpr h hstep hid hview howner htext hname hleft hdone)

theorem exists_view_of_mem_movedPairing {mappings : List Mapping} {id : NodeId} {e : Edit}
    {pair : Mapping × NodeId} (h : pair ∈ (movedPairing d mappings pr id e).pairs) :
    ∃ u ∈ candidateViews d pr, u.id = pair.2 := by
  obtain ⟨-, c, hc, hnode⟩ := mem_correlate h
  obtain ⟨u, hu, rfl⟩ := List.mem_map.mp hc
  exact ⟨u, (List.mem_filter.mp hu).1, hnode⟩

end Extraction

end TexAnchor
