import Mathlib.Algebra.GroupWithZero.Nat
import TexAnchor.Proofs.Pairing
import TexAnchor.Proofs.Sources
import TexAnchor.Extraction.Basic

/-! # What an extraction finds

No two built-in providers accept the same mapping or the same node, so each of them pairs its own
mappings with its own nodes (`Extraction.pairing`), and the models of a document are the models of
these pairs (`models_extractFrom`).  Every model stands for a node of the document's tree that has
marks of its own (`exists_view_of_mem_models`). -/

namespace TexAnchor

/-! ### The built-in providers -/

namespace Provider

/-- The name of the built-in provider that accepts a node, given its kind and its children's. -/
def ownerOf? (kind : NodeKind) (children : List KindTag) : Option String :=
  match kind with
  | .command name =>
    if Image.isImageCommand name ∧ .curlyBlock ∈ children then some Image.name else none
  | .environment name _ =>
    if name = Grid.name then some Grid.name
    else if name ∈ Tabular.environments then some Tabular.name else none
  | .math delimiter _ => if delimiter.isDisplay then some Math.name else none
  | _ => none

end Provider

/-- The name of the built-in provider that accepts the node. -/
def View.owner? (v : View) : Option String :=
  Provider.ownerOf? v.kind (v.children.map fun child => child.kind.tag)

namespace Provider

variable {p q : Provider} {v : View} {m : Mapping}

theorem isEmpty_curlyBlocks {name : String} (hkind : v.kind = .command name) :
    v.curlyBlocks.isEmpty = false ↔ .curlyBlock ∈ v.children.map fun child => child.kind.tag := by
  rw [View.curlyBlocks, View.parameterBlocks, hkind, List.isEmpty_eq_false_iff_exists_mem,
    List.mem_map]
  simp only [List.mem_filter, beq_iff_eq]

theorem eq_of_name_eq (hp : p ∈ builtin) (hq : q ∈ builtin) (hname : p.name = q.name) : p = q :=
  List.inj_on_of_nodup_map (f := name) (by decide) hp hq hname

theorem owner?_of_acceptsNode (hp : p ∈ builtin) (hv : p.acceptsNode v = true) :
    v.owner? = some p.name := by
  simp only [builtin, List.mem_cons, List.not_mem_nil, or_false] at hp
  rw [View.owner?]
  rcases hp with rfl | rfl | rfl | rfl
  · cases hkind : v.kind with
    | command name =>
      have hblocks := isEmpty_curlyBlocks hkind
      simp_all [Image.provider, ownerOf?, NodeKind.commandName?]
    | _ => simp [Image.provider, NodeKind.commandName?, hkind] at hv
  · cases hkind : v.kind with
    | environment name count =>
      have hname : name ≠ Grid.name := by
        rintro rfl
        simp [Tabular.provider, NodeKind.environmentName?, hkind, Tabular.environments,
          Grid.name] at hv
      simp_all [Tabular.provider, ownerOf?, NodeKind.environmentName?]
    | _ => simp [Tabular.provider, NodeKind.environmentName?, hkind] at hv
  · cases hkind : v.kind with
    | environment name count => simp_all [Grid.provider, ownerOf?, NodeKind.environmentName?]
    | _ => simp [Grid.provider, NodeKind.environmentName?, hkind] at hv
  · cases hkind : v.kind with
    | math delimiter content => simp_all [Math.provider, ownerOf?, Math.isDisplayed]
    | _ => simp [Math.provider, Math.isDisplayed, hkind] at hv

theorem exists_acceptsNode {name : String} (h : v.owner? = some name) :
    ∃ q ∈ builtin, q.name = name ∧ q.acceptsNode v = true := by
  rw [View.owner?] at h
  cases hkind : v.kind with
  | command command =>
    have hblocks := isEmpty_curlyBlocks hkind
    simp only [hkind, ownerOf?, Option.ite_none_right_eq_some, Option.some.injEq] at h
    refine ⟨Image.provider, by simp [builtin], h.2, ?_⟩
    simp_all [Image.provider, NodeKind.commandName?]
  | environment environment count =>
    rw [hkind, ownerOf?] at h
    split at h
    · next heq =>
      exact ⟨Grid.provider, by simp [builtin], Option.some.inj h,
        by simp [Grid.provider, NodeKind.environmentName?, hkind, heq]⟩
    · rw [Option.ite_none_right_eq_some] at h
      exact ⟨Tabular.provider, by simp [builtin], Option.some.inj h.2,
        by simp [Tabular.provider, NodeKind.environmentName?, hkind, h.1]⟩
  | math delimiter content =>
    simp only [hkind, ownerOf?, Option.ite_none_right_eq_some, Option.some.injEq] at h
    exact ⟨Math.provider, by simp [builtin], h.2,
      by simp [Math.provider, Math.isDisplayed, hkind, h.1]⟩
  | _ => simp [hkind, ownerOf?] at h

theorem acceptsNode_iff (hp : p ∈ builtin) : p.acceptsNode v = true ↔ v.owner? = some p.name := by
  constructor
  · exact owner?_of_acceptsNode hp
  · intro h
    obtain ⟨q, hq, hname, hv⟩ := exists_acceptsNode h
    rwa [← eq_of_name_eq hq hp hname]

theorem acceptsMapping_eq (hp : p ∈ builtin) : p.acceptsMapping m = (m.kind == p.name) := by
  simp only [builtin, List.mem_cons, List.not_mem_nil, or_false] at hp
  rcases hp with rfl | rfl | rfl | rfl <;> rfl

/-- The built-in providers accept constructs with marks of their own only. -/
theorem isMarked_of_ownerOf? {kind : NodeKind} {children : List KindTag} {name : String}
    (h : ownerOf? kind children = some name) : Grammar.isMarked kind.tag = true := by
  cases kind <;> simp_all [ownerOf?, Grammar.isMarked, NodeKind.tag]

end Provider

theorem Arena.get?_of_view? {a : Arena} {id : NodeId} {v : View} (h : a.view? id = some v) :
    a.get? id = some v.node := by
  obtain ⟨node, hnode, rfl⟩ := Option.map_eq_some_iff.mp h
  exact hnode

namespace Extraction

variable {d : Document} {ps : Providers} {p : Provider} {mappings : List Mapping} {v : View}

/-- The pairing of a provider's mappings with its nodes. -/
def pairing (d : Document) (mappings : List Mapping) (p : Provider) : Correlation :=
  correlate (mappings.filter p.acceptsMapping)
    ((candidateViews d p).map fun v => ⟨v.id, v.range.start⟩)

theorem view?_of_mem_candidateViews (h : v ∈ candidateViews d p) :
    d.arena.view? v.id = some v ∧ v.id ∈ d.arena.descendants Arena.root ∧ p.acceptsNode v = true := by
  rw [candidateViews, List.mem_filter] at h
  obtain ⟨hv, haccepts⟩ := h
  cases hroot : d.root? with
  | none => simp [hroot] at hv
  | some root =>
    obtain ⟨node, -, rfl⟩ := Option.map_eq_some_iff.mp hroot
    rw [hroot, Option.map_some, Option.getD_some, View.descendants] at hv
    obtain ⟨id, hid, hview⟩ := List.mem_filterMap.mp hv
    obtain ⟨node, hnode, rfl⟩ := Option.map_eq_some_iff.mp hview
    exact ⟨hview, hid, haccepts⟩

theorem exists_view_of_mem_pairing {pair : Mapping × NodeId}
    (h : pair ∈ (pairing d mappings p).pairs) :
    (pair.1 ∈ mappings ∧ p.acceptsMapping pair.1 = true) ∧
      ∃ v ∈ candidateViews d p, v.id = pair.2 := by
  obtain ⟨hm, c, hc, hnode⟩ := mem_correlate h
  obtain ⟨v, hv, rfl⟩ := List.mem_map.mp hc
  exact ⟨List.mem_filter.mp hm, v, hv, hnode⟩

theorem not_mem_of_list_eq (hps : ps.list.Sublist Provider.builtin) {earlier later : List Provider}
    (hlist : ps.list = earlier ++ p :: later) {q : Provider} (hq : q ∈ earlier) : q.name ≠ p.name := by
  have hnodup : (Provider.builtin.map Provider.name).Nodup := by decide
  have hnames := (hps.map Provider.name).nodup hnodup
  rw [hlist, List.map_append, List.map_cons] at hnames
  intro hname
  refine (List.nodup_append.mp hnames).2.2 _ (List.mem_map_of_mem hq) p.name (by simp) hname

/-- The mappings that none of some providers accepts. -/
def unclaimed (qs : List Provider) (mappings : List Mapping) : List Mapping :=
  mappings.filter fun m => qs.all fun q => !q.acceptsMapping m

/-- A mapping is assigned to a provider if it is the first one that accepts it. -/
theorem assignedTo_eq_filter (mappings : List Mapping) {earlier later : List Provider}
    (hlist : ps.list = earlier ++ p :: later) :
    assignedTo ps earlier.length mappings = (unclaimed earlier mappings).filter p.acceptsMapping := by
  rw [unclaimed, List.filter_filter]
  refine List.filter_congr fun m _ => Bool.eq_iff_iff.mpr ?_
  rw [beq_iff_eq, Providers.assign?, hlist, List.findIdx?_eq_some_iff_getElem, Bool.and_eq_true,
    List.all_eq_true]
  constructor
  · rintro ⟨_, haccepts, hearlier⟩
    refine ⟨by simpa using haccepts, fun q hq => ?_⟩
    obtain ⟨j, hj, rfl⟩ := List.mem_iff_getElem.mp hq
    simpa [List.getElem_append_left hj] using hearlier j hj
  · rintro ⟨haccepts, hearlier⟩
    refine ⟨by simp, by simpa using haccepts, fun j hj => ?_⟩
    simpa [List.getElem_append_left hj] using hearlier _ (List.getElem_mem hj)

theorem assignedTo_eq (hps : ps.list.Sublist Provider.builtin) {earlier later : List Provider}
    (hlist : ps.list = earlier ++ p :: later) :
    assignedTo ps earlier.length mappings = mappings.filter p.acceptsMapping := by
  have hp : p ∈ Provider.builtin := hps.subset (by simp [hlist])
  rw [assignedTo_eq_filter mappings hlist, unclaimed, List.filter_filter]
  refine List.filter_congr fun m _ => Bool.eq_iff_iff.mpr ?_
  rw [Bool.and_eq_true, List.all_eq_true, and_iff_left_iff_imp]
  intro haccepts q hq
  have hbuiltin : q ∈ Provider.builtin := hps.subset (by simp [hlist, hq])
  rw [Provider.acceptsMapping_eq hp, beq_iff_eq] at haccepts
  rw [Provider.acceptsMapping_eq hbuiltin, haccepts, Bool.not_eq_true', beq_eq_false_iff_ne]
  exact (not_mem_of_list_eq hps hlist hq).symm

/-- The nodes that the providers before took are none of the provider's own. -/
theorem correlateFor_eq (hps : ps.list.Sublist Provider.builtin) {earlier later : List Provider}
    (hlist : ps.list = earlier ++ p :: later) {used : List NodeId}
    (hused : ∀ id ∈ used, ∃ q ∈ earlier, ∃ v, d.arena.view? id = some v ∧ q.acceptsNode v = true) :
    correlateFor d p (assignedTo ps earlier.length mappings) used = pairing d mappings p := by
  have hp : p ∈ Provider.builtin := hps.subset (by simp [hlist])
  have hfree : ((candidateViews d p).filter fun v => !used.contains v.id) = candidateViews d p := by
    apply List.filter_eq_self.mpr
    intro v hv
    rw [Bool.not_eq_true', List.contains_eq_mem, decide_eq_false_iff_not]
    intro hmem
    obtain ⟨hview, -, haccepts⟩ := view?_of_mem_candidateViews hv
    obtain ⟨q, hq, v', hview', haccepts'⟩ := hused v.id hmem
    obtain rfl : v = v' := Option.some.inj (hview.symm.trans hview')
    have hname := (Provider.acceptsNode_iff (hps.subset (by simp [hlist, hq]))).mp haccepts'
    rw [(Provider.acceptsNode_iff hp).mp haccepts] at hname
    exact not_mem_of_list_eq hps hlist hq (Option.some.inj hname).symm
  rw [correlateFor, hfree, assignedTo_eq hps hlist, pairing]

/-! ### The models -/

@[simp] theorem models_merge (e other : Extraction) :
    (e.merge other).models = e.models ++ other.models := rfl

theorem foldl_merge {α : Type} (f : α → Extraction) (l : List α) (e : Extraction) :
    l.foldl (fun e x => e.merge (f x)) e =
      ⟨e.models ++ l.flatMap fun x => (f x).models,
        ⟨e.report.files + (l.map fun x => (f x).report.files).sum,
          e.report.models + (l.map fun x => (f x).report.models).sum,
          e.report.unassigned + (l.map fun x => (f x).report.unassigned).sum,
          e.report.shortfalls ++ l.flatMap fun x => (f x).report.shortfalls,
          e.report.failures ++ l.flatMap fun x => (f x).report.failures⟩⟩ := by
  induction l generalizing e with
  | nil => simp
  | cons x l ih =>
    rw [List.foldl_cons, ih]
    simp [merge, Report.merge, Nat.add_assoc]

theorem models_foldl_merge {α : Type} (f : α → Extraction) (l : List α) (e : Extraction) :
    (l.foldl (fun e x => e.merge (f x)) e).models = e.models ++ l.flatMap fun x => (f x).models := by
  rw [foldl_merge]

theorem models_ofCorrelation (c : Correlation) :
    (ofCorrelation d p c).models = c.pairs.flatMap fun pair => (build d p pair).models := by
  have hshortfall : (shortfall d p c).models = [] := by
    unfold shortfall
    split <;> rfl
  rw [ofCorrelation, models_merge, models_foldl_merge, hshortfall, List.append_nil]
  rfl

theorem models_byProvider (hps : ps.list.Sublist Provider.builtin) {earlier later : List Provider}
    (hlist : ps.list = earlier ++ later) {used : List NodeId}
    (hused : ∀ id ∈ used, ∃ q ∈ earlier, ∃ v, d.arena.view? id = some v ∧ q.acceptsNode v = true) :
    (byProvider d ps mappings used earlier.length later).models = later.flatMap fun p =>
      (pairing d mappings p).pairs.flatMap fun pair => (build d p pair).models := by
  induction later generalizing earlier used with
  | nil => rfl
  | cons p later ih =>
    have hlist' : ps.list = (earlier ++ [p]) ++ later := by simp [hlist]
    rw [byProvider, List.flatMap_cons, correlateFor_eq hps hlist hused, models_merge,
      models_ofCorrelation]
    refine congrArg _ ?_
    rw [show earlier.length + 1 = (earlier ++ [p]).length by simp]
    apply ih hlist'
    intro id hid
    rcases List.mem_append.mp hid with hid | hid
    · obtain ⟨q, hq, hview⟩ := hused id hid
      exact ⟨q, List.mem_append_left _ hq, hview⟩
    · obtain ⟨pair, hpair, rfl⟩ := List.mem_map.mp hid
      obtain ⟨-, v, hv, hid⟩ := exists_view_of_mem_pairing hpair
      obtain ⟨hview, -, haccepts⟩ := view?_of_mem_candidateViews hv
      exact ⟨p, by simp, v, hid ▸ hview, haccepts⟩

end Extraction

open Extraction

variable {d : Document} {ps : Providers} {mappings : List Mapping} {m : Model}

theorem models_extractFrom (hps : ps.list.Sublist Provider.builtin) :
    (extractFrom d mappings ps).models = ps.list.flatMap fun p =>
      (pairing d mappings p).pairs.flatMap fun pair => (build d p pair).models := by
  have hused : ∀ id ∈ ([] : List NodeId), ∃ q ∈ ([] : List Provider), ∃ v,
      d.arena.view? id = some v ∧ q.acceptsNode v = true := by simp
  rw [extractFrom, models_merge, List.nil_append]
  exact models_byProvider hps rfl hused

theorem models_extractAll (documents : List Document) (mappings : Registry) (ps : Providers) :
    (extractAll documents mappings ps).models = documents.flatMap fun d =>
      (extractFrom d (mappings.get d.path) ps).models :=
  models_foldl_merge _ _ _

theorem mem_models_extractFrom (hps : ps.list.Sublist Provider.builtin) :
    m ∈ (extractFrom d mappings ps).models ↔ ∃ p ∈ ps.list, ∃ v ∈ candidateViews d p,
      (m.mapping, v.id) ∈ (pairing d mappings p).pairs ∧
        p.build ⟨d, v, m.mapping⟩ = .ok (m.kind, m.content) ∧
        m.sourceFile = d.path ∧ m.node = v.id ∧ m.range = v.range := by
  rw [models_extractFrom hps]
  simp only [List.mem_flatMap]
  constructor
  · rintro ⟨p, hp, pair, hpair, hm⟩
    obtain ⟨-, v, hv, hid⟩ := exists_view_of_mem_pairing hpair
    obtain ⟨hview, -, -⟩ := view?_of_mem_candidateViews hv
    rw [build, ← hid, hview] at hm
    simp only at hm
    split at hm
    · next kind content hbuild =>
      obtain rfl := List.mem_singleton.mp hm
      refine ⟨p, hp, v, hv, ?_, hbuild, rfl, rfl, rfl⟩
      rw [hid]
      exact hpair
    · cases hm
  · rintro ⟨p, hp, v, hv, hpair, hbuild, hfile, hnode, hrange⟩
    refine ⟨p, hp, _, hpair, ?_⟩
    obtain ⟨hview, -, -⟩ := view?_of_mem_candidateViews hv
    rw [build, hview]
    simp only [hbuild, List.mem_singleton]
    obtain ⟨kind, file, node, range, mapping, content⟩ := m
    simp_all

/-- Every model stands for a node of the tree with marks of its own. -/
theorem exists_view_of_mem_models (hps : ps.list.Sublist Provider.builtin)
    (hm : m ∈ (extractFrom d mappings ps).models) :
    m.sourceFile = d.path ∧ m.node ∈ d.arena.descendants Arena.root ∧
      ∃ node, d.arena.get? m.node = some node ∧ m.range = node.range ∧
        Grammar.isMarked node.kind.tag = true := by
  obtain ⟨p, hp, v, hv, -, -, hfile, hnode, hrange⟩ := (mem_models_extractFrom hps).mp hm
  obtain ⟨hview, hmem, haccepts⟩ := view?_of_mem_candidateViews hv
  rw [hnode]
  exact ⟨hfile, hmem, v.node, Arena.get?_of_view? hview, hrange,
    Provider.isMarked_of_ownerOf? ((Provider.acceptsNode_iff (hps.subset hp)).mp haccepts)⟩

end TexAnchor
