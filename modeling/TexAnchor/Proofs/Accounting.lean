import TexAnchor.Proofs.Extracting

/-! # The account of an extraction

Providers come to a document one after the other.  Each has the mappings that no provider before it
accepts, and the nodes that no provider before it took; a pair takes its node even if no model can be
built from it.  What a provider does with its mappings and nodes is its `Extraction.Share`.

`Extraction.Accounted` says that an extraction is made of the shares of its providers, and that the
shares leave no mapping and no node out and have none twice. -/

namespace TexAnchor

namespace Extraction

/-- What a provider did in an extraction. -/
structure Share where
  provider : Provider
  models : List Model
  /-- The paired mappings of which no model could be built, with the report of that. -/
  failures : List (Mapping × ModelFailure)
  /-- The mappings without partner. -/
  mappings : List Mapping
  /-- The nodes without partner. -/
  nodes : List NodeId

namespace Share

/-- What was paired, whether a model came of it or not. -/
def pairs (s : Share) : List (Mapping × NodeId) :=
  s.models.map (fun m => (m.mapping, m.node)) ++ s.failures.map fun f => (f.1, f.2.node)

/-- The mappings of the provider. -/
def allMappings (s : Share) : List Mapping :=
  s.models.map Model.mapping ++ s.failures.map Prod.fst ++ s.mappings

/-- What is reported as left without partner, if anything. -/
def shortfall? (d : Document) (s : Share) : Option Shortfall :=
  if s.mappings.isEmpty && s.nodes.isEmpty then none
  else some ⟨d.path, s.provider.name, s.mappings.map Mapping.id, s.nodes⟩

end Share

/-- The nodes that were paired in some shares. -/
def pairedNodes (shares : List Share) : List NodeId :=
  shares.flatMap fun s => s.pairs.map Prod.snd

/-- The nodes of the document's tree that a provider accepts. -/
def candidateIds (d : Document) (p : Provider) : List NodeId :=
  (d.arena.descendants Arena.root).filter fun id => (d.arena.view? id).any p.acceptsNode

/-- The extraction from a document consists of the shares of the providers, and the shares have every
mapping once and every node as often as it can be had. -/
structure Accounted (d : Document) (mappings : List Mapping) (ps : Providers) (e : Extraction)
    (shares : List Share) : Prop where
  providers_eq : shares.map Share.provider = ps.list
  models_eq : e.models = shares.flatMap Share.models
  failures_eq : e.report.failures = shares.flatMap fun s => s.failures.map Prod.snd
  shortfalls_eq : e.report.shortfalls = shares.filterMap (Share.shortfall? d)
  unassigned_eq : e.report.unassigned = (unclaimed ps.list mappings).length
  files_eq : e.report.files = 1
  count_eq : e.report.models = e.models.length
  /-- Every mapping of the list is unassigned or in one place of one share. -/
  mappings_perm : (unclaimed ps.list mappings ++ shares.flatMap Share.allMappings).Perm mappings
  length_eq : mappings.length =
    e.report.unassigned + e.report.unmatchedMappings + e.report.failures.length + e.models.length
  /-- A mapping belongs to the first provider that accepts it. -/
  first_accepts : ∀ before s after, shares = before ++ s :: after → ∀ m ∈ s.allMappings,
    s.provider.acceptsMapping m = true ∧ ∀ q ∈ before, q.provider.acceptsMapping m = false
  /-- The nodes that a provider accepts are in one place of its share, apart from those that were
  paired before. -/
  nodes_perm : ∀ before s after, shares = before ++ s :: after →
    (s.pairs.map Prod.snd ++ s.nodes).Perm
      ((candidateIds d s.provider).filter fun id => !(pairedNodes before).contains id)
  paired_accepted : ∀ s ∈ shares, ∀ pair ∈ s.pairs, d.arena.isAttached pair.2 = true ∧
    ∃ v, d.arena.view? pair.2 = some v ∧ s.provider.acceptsNode v = true
  nodup_paired : (pairedNodes shares).Nodup
  one_sided : ∀ entry ∈ e.report.shortfalls, entry.mappings = [] ∨ entry.nodes = []
  models_built : ∀ s ∈ shares, ∀ m ∈ s.models, m.sourceFile = d.path ∧
    ∃ v, d.arena.view? m.node = some v ∧ m.range = v.range ∧
      s.provider.build ⟨d, v, m.mapping⟩ = .ok (m.kind, m.content)
  failures_built : ∀ s ∈ shares, ∀ f ∈ s.failures,
    f.2.sourceFile = d.path ∧ f.2.provider = s.provider.name ∧ f.2.mapping = f.1.id ∧
      ∃ v, d.arena.view? f.2.node = some v ∧ s.provider.build ⟨d, v, f.1⟩ = .error f.2.error

variable {d : Document} {ps : Providers} {p : Provider} {mappings : List Mapping}

/-! ### The shares -/

/-- A provider's share after its pairing. -/
def shareOf (d : Document) (p : Provider) (c : Correlation) : Share where
  provider := p
  models := c.pairs.flatMap fun pair => (build d p pair).models
  failures := c.pairs.flatMap fun pair => (build d p pair).report.failures.map (pair.1, ·)
  mappings := c.unmatchedMappings
  nodes := c.unmatchedNodes

/-- The shares of the providers from a place on. -/
def sharesFrom (d : Document) (ps : Providers) (mappings : List Mapping) (used : List NodeId)
    (index : Nat) : List Provider → List Share
  | [] => []
  | p :: later =>
    let c := correlateFor d p (assignedTo ps index mappings) used
    shareOf d p c :: sharesFrom d ps mappings (used ++ c.pairs.map (·.2)) (index + 1) later

/-- The extraction that consists of some shares. -/
def total (d : Document) (shares : List Share) : Extraction :=
  ⟨shares.flatMap Share.models,
    { Report.empty with
      models := (shares.flatMap Share.models).length
      shortfalls := shares.filterMap (Share.shortfall? d)
      failures := shares.flatMap fun s => s.failures.map Prod.snd }⟩

/-- A pair whose node is live becomes a model or a failure. -/
theorem build_cases {pair : Mapping × NodeId} {v : View} (hv : d.arena.view? pair.2 = some v) :
    (∃ kind content, p.build ⟨d, v, pair.1⟩ = .ok (kind, content) ∧
      build d p pair = ⟨[⟨kind, d.path, pair.2, v.range, pair.1, content⟩],
        { Report.empty with models := 1 }⟩) ∨
    ∃ error, p.build ⟨d, v, pair.1⟩ = .error error ∧
      build d p pair = ⟨[], { Report.empty with
        failures := [⟨d.path, p.name, pair.1.id, pair.2, error⟩] }⟩ := by
  rw [build, hv]
  simp only
  cases hbuild : p.build ⟨d, v, pair.1⟩ with
  | ok made => exact .inl ⟨made.1, made.2, rfl, rfl⟩
  | error error => exact .inr ⟨error, rfl, rfl⟩

theorem report_build (d : Document) (p : Provider) (pair : Mapping × NodeId) :
    (build d p pair).report.files = 0 ∧
      (build d p pair).report.models = (build d p pair).models.length ∧
      (build d p pair).report.unassigned = 0 ∧ (build d p pair).report.shortfalls = [] := by
  unfold build
  split
  · exact ⟨rfl, rfl, rfl, rfl⟩
  · split <;> exact ⟨rfl, rfl, rfl, rfl⟩

theorem foldl_build (d : Document) (p : Provider) (pairs : List (Mapping × NodeId)) :
    pairs.foldl (fun e pair => e.merge (build d p pair)) empty =
      ⟨pairs.flatMap fun pair => (build d p pair).models, { Report.empty with
        models := (pairs.flatMap fun pair => (build d p pair).models).length
        failures := pairs.flatMap fun pair => (build d p pair).report.failures }⟩ := by
  have hreport := report_build d p
  rw [foldl_merge, List.length_flatMap]
  simp [empty, Report.empty, fun pair => (hreport pair).1, fun pair => (hreport pair).2.1,
    fun pair => (hreport pair).2.2.1, fun pair => (hreport pair).2.2.2]

theorem shortfall_eq (d : Document) (p : Provider) (c : Correlation) :
    shortfall d p c = ⟨[], { Report.empty with
      shortfalls := ((shareOf d p c).shortfall? d).toList }⟩ := by
  unfold shortfall Share.shortfall? shareOf
  split <;> rfl

theorem total_cons (d : Document) (s : Share) (shares : List Share) :
    total d (s :: shares) = (total d [s]).merge (total d shares) := by
  simp only [total, merge, Report.merge, Report.empty, List.flatMap_cons, List.flatMap_nil,
    List.append_nil, List.length_append, Nat.zero_add]
  cases h : s.shortfall? d <;> simp [h]

theorem ofCorrelation_eq (d : Document) (p : Provider) (c : Correlation) :
    ofCorrelation d p c = total d [shareOf d p c] := by
  rw [ofCorrelation, foldl_build, shortfall_eq]
  have hfailures : (shareOf d p c).failures.map Prod.snd =
      c.pairs.flatMap fun pair => (build d p pair).report.failures := by
    simp [shareOf, List.map_flatMap, Function.comp_def]
  have hone : [shareOf d p c].filterMap (Share.shortfall? d) =
      ((shareOf d p c).shortfall? d).toList := by
    cases h : (shareOf d p c).shortfall? d <;> simp [h]
  simp only [total, merge, Report.merge, Report.empty, List.flatMap_cons, List.flatMap_nil,
    List.append_nil, hfailures, hone, Nat.add_zero, List.nil_append]
  rfl

/-- Provider after provider, an extraction adds up to their shares. -/
theorem byProvider_eq (d : Document) (ps : Providers) (mappings : List Mapping)
    (used : List NodeId) (index : Nat) (later : List Provider) :
    byProvider d ps mappings used index later =
      total d (sharesFrom d ps mappings used index later) := by
  induction later generalizing used index with
  | nil => rfl
  | cons p later ih => rw [byProvider, sharesFrom, total_cons, ih, ofCorrelation_eq]

theorem provider_sharesFrom (used : List NodeId) (index : Nat) (later : List Provider) :
    (sharesFrom d ps mappings used index later).map Share.provider = later := by
  induction later generalizing used index with
  | nil => rfl
  | cons p later ih => rw [sharesFrom, List.map_cons, ih, shareOf]

/-! ### Candidates -/

theorem map_id_candidateViews (d : Document) (p : Provider) :
    (candidateViews d p).map View.id = candidateIds d p := by
  have hviews (ids : List NodeId) : ((ids.filterMap d.arena.view?).filter p.acceptsNode).map View.id =
      ids.filter fun id => (d.arena.view? id).any p.acceptsNode := by
    induction ids with
    | nil => rfl
    | cons id ids ih =>
      cases hview : d.arena.view? id with
      | none =>
        rw [List.filterMap_cons_none hview, ih, List.filter_cons_of_neg (by simp [hview])]
      | some v =>
        obtain ⟨node, -, rfl⟩ := Option.map_eq_some_iff.mp hview
        rw [List.filterMap_cons_some hview, List.filter_cons, List.filter_cons, hview]
        split <;> simp_all
  rw [candidateViews, candidateIds]
  cases hroot : d.arena.get? Arena.root with
  | none =>
    simp [Document.root?, Arena.view?, hroot, Arena.descendants_eq_nil hroot]
  | some node =>
    simp only [Document.root?, Arena.view?, hroot, Option.map_some, Option.getD_some]
    exact hviews _

theorem mem_candidateIds {id : NodeId} (h : id ∈ candidateIds d p) :
    id ∈ d.arena.descendants Arena.root ∧
      ∃ v, d.arena.view? id = some v ∧ p.acceptsNode v = true := by
  obtain ⟨hmem, haccepts⟩ := List.mem_filter.mp h
  exact ⟨hmem, Option.any_eq_true _ _ |>.mp haccepts⟩

theorem correlateFor_nodes (mappings : List Mapping) (used : List NodeId) :
    ((correlateFor d p mappings used).pairs.map Prod.snd ++
      (correlateFor d p mappings used).unmatchedNodes).Perm
      ((candidateIds d p).filter fun id => !used.contains id) := by
  have hperm := correlate_nodes mappings
    (((candidateViews d p).filter fun v => !used.contains v.id).map fun v => ⟨v.id, v.range.start⟩)
  rw [List.map_map] at hperm
  rw [← map_id_candidateViews, List.filter_map]
  exact hperm

theorem exists_view_of_mem_correlateFor {used : List NodeId} {pair : Mapping × NodeId}
    (h : pair ∈ (correlateFor d p mappings used).pairs) :
    pair.2 ∈ d.arena.descendants Arena.root ∧
      ∃ v, d.arena.view? pair.2 = some v ∧ p.acceptsNode v = true := by
  have hmem := (correlateFor_nodes mappings used).subset
    (List.mem_append_left _ (List.mem_map_of_mem h))
  obtain ⟨hmem, v, hview, haccepts⟩ := mem_candidateIds (List.mem_filter.mp hmem).1
  exact ⟨hmem, v, hview, haccepts⟩

/-! ### One share -/

theorem Share.map_fst_pairs (s : Share) :
    s.pairs.map Prod.fst = s.models.map Model.mapping ++ s.failures.map Prod.fst := by
  simp [pairs, Function.comp_def]

theorem pairs_shareOf (d : Document) (p : Provider) (mappings : List Mapping) (used : List NodeId) :
    (shareOf d p (correlateFor d p mappings used)).pairs.Perm
      (correlateFor d p mappings used).pairs := by
  have hpairs (l : List (Mapping × NodeId)) (hl : ∀ pair ∈ l, ∃ v, d.arena.view? pair.2 = some v) :
      ((l.flatMap fun pair => (build d p pair).models).map (fun m => (m.mapping, m.node)) ++
        (l.flatMap fun pair => (build d p pair).report.failures.map (pair.1, ·)).map
          fun f => (f.1, f.2.node)).Perm l := by
    induction l with
    | nil => simp
    | cons pair l ih =>
      have ih := ih fun other hother => hl other (List.mem_cons_of_mem _ hother)
      obtain ⟨v, hv⟩ := hl pair (by simp)
      rcases build_cases (p := p) hv with ⟨kind, content, -, hbuild⟩ | ⟨error, -, hbuild⟩
      · simpa [hbuild, Report.empty] using ih
      · simp only [List.flatMap_cons, hbuild, List.nil_append, List.map_cons, List.map_nil,
          List.cons_append]
        exact List.perm_middle.trans (ih.cons pair)
  refine hpairs _ fun pair hpair => ?_
  obtain ⟨-, v, hv, -⟩ := exists_view_of_mem_correlateFor hpair
  exact ⟨v, hv⟩

theorem allMappings_shareOf (d : Document) (p : Provider) (mappings : List Mapping)
    (used : List NodeId) : (shareOf d p (correlateFor d p mappings used)).allMappings.Perm mappings := by
  have hpairs := (pairs_shareOf d p mappings used).map Prod.fst
  rw [Share.map_fst_pairs] at hpairs
  exact (hpairs.append_right _).trans (correlate_mappings mappings _)

theorem nodes_shareOf (used : List NodeId) :
    ((shareOf d p (correlateFor d p mappings used)).pairs.map Prod.snd ++
      (shareOf d p (correlateFor d p mappings used)).nodes).Perm
      ((candidateIds d p).filter fun id => !used.contains id) :=
  (((pairs_shareOf d p mappings used).map Prod.snd).append_right _).trans (correlateFor_nodes mappings used)

theorem models_shareOf (used : List NodeId) :
    ∀ m ∈ (shareOf d p (correlateFor d p mappings used)).models, m.sourceFile = d.path ∧
      ∃ v, d.arena.view? m.node = some v ∧ m.range = v.range ∧
        p.build ⟨d, v, m.mapping⟩ = .ok (m.kind, m.content) := by
  intro m hm
  obtain ⟨pair, hpair, hm⟩ := List.mem_flatMap.mp hm
  obtain ⟨-, v, hv, -⟩ := exists_view_of_mem_correlateFor hpair
  rcases build_cases (p := p) hv with ⟨kind, content, hok, hbuild⟩ | ⟨error, -, hbuild⟩
  · rw [hbuild] at hm
    obtain rfl := List.mem_singleton.mp hm
    exact ⟨rfl, v, hv, rfl, hok⟩
  · rw [hbuild] at hm
    cases hm

theorem failures_shareOf (used : List NodeId) :
    ∀ f ∈ (shareOf d p (correlateFor d p mappings used)).failures,
      f.2.sourceFile = d.path ∧ f.2.provider = p.name ∧ f.2.mapping = f.1.id ∧
        ∃ v, d.arena.view? f.2.node = some v ∧ p.build ⟨d, v, f.1⟩ = .error f.2.error := by
  intro f hf
  obtain ⟨pair, hpair, hf⟩ := List.mem_flatMap.mp hf
  obtain ⟨-, v, hv, -⟩ := exists_view_of_mem_correlateFor hpair
  obtain ⟨failure, hfailure, rfl⟩ := List.mem_map.mp hf
  rcases build_cases (p := p) hv with ⟨kind, content, -, hbuild⟩ | ⟨error, herror, hbuild⟩
  · rw [hbuild] at hfailure
    cases hfailure
  · rw [hbuild] at hfailure
    obtain rfl := List.mem_singleton.mp hfailure
    exact ⟨rfl, rfl, rfl, v, hv, herror⟩

/-! ### All shares -/

theorem mappings_sharesFrom (d : Document) (mappings : List Mapping) (earlier : List Provider)
    {later : List Provider} (hlist : ps.list = earlier ++ later) (used : List NodeId) :
    (unclaimed ps.list mappings ++
      (sharesFrom d ps mappings used earlier.length later).flatMap Share.allMappings).Perm
      (unclaimed earlier mappings) := by
  induction later generalizing earlier used with
  | nil => simp [hlist, sharesFrom]
  | cons p later ih =>
    have hlist' : ps.list = (earlier ++ [p]) ++ later := by simp [hlist]
    have hrest := ih (earlier ++ [p]) hlist' (used ++
      (correlateFor d p (assignedTo ps earlier.length mappings) used).pairs.map (·.2))
    have hlater : unclaimed (earlier ++ [p]) mappings =
        (unclaimed earlier mappings).filter fun m => !p.acceptsMapping m := by
      rw [unclaimed, unclaimed, List.filter_filter]
      exact List.filter_congr fun m _ => by simp [Bool.and_comm]
    rw [hlater, List.length_append, List.length_singleton] at hrest
    have hshare := allMappings_shareOf d p (assignedTo ps earlier.length mappings) used
    rw [sharesFrom, List.flatMap_cons]
    rw [assignedTo_eq_filter mappings hlist] at hshare hrest ⊢
    refine List.perm_append_comm_assoc _ _ _ |>.trans ?_
    exact (hshare.append hrest).trans (List.filter_append_perm _ _)

theorem exists_shareOf {used : List NodeId} {index : Nat} {later : List Provider}
    {before after : List Share} {s : Share}
    (h : sharesFrom d ps mappings used index later = before ++ s :: after) :
    ∃ used', s = shareOf d s.provider (correlateFor d s.provider
        (assignedTo ps (index + before.length) mappings) used') ∧
      ∀ id, id ∈ used' ↔ id ∈ used ∨ id ∈ pairedNodes before := by
  induction later generalizing used index before with
  | nil => simp [sharesFrom] at h
  | cons p later ih =>
    rw [sharesFrom] at h
    cases before with
    | nil =>
      obtain ⟨rfl, -⟩ := List.cons.inj h
      exact ⟨used, rfl, fun id => by simp [pairedNodes]⟩
    | cons first before =>
      obtain ⟨rfl, hrest⟩ := List.cons.inj h
      obtain ⟨used', hshare, hused⟩ := ih hrest
      refine ⟨used', ?_, fun id => ?_⟩
      · rw [hshare, List.length_cons, Nat.add_right_comm, Nat.add_assoc]
        rfl
      · have hpairs := ((pairs_shareOf d p (assignedTo ps index mappings) used).map
          Prod.snd).mem_iff (a := id)
        rw [hused, List.mem_append, pairedNodes, pairedNodes, List.flatMap_cons, List.mem_append,
          hpairs, or_assoc]

theorem length_shares (shares : List Share) : (shares.flatMap Share.allMappings).length =
    (shares.flatMap Share.models).length +
      (shares.flatMap fun s => s.failures.map Prod.snd).length +
      (shares.map fun s => s.mappings.length).sum := by
  induction shares with
  | nil => rfl
  | cons s shares ih =>
    simp only [List.flatMap_cons, List.length_append, List.map_cons, List.sum_cons, ih,
      Share.allMappings, List.length_map]
    omega

theorem unmatchedMappings_shares (d : Document) (shares : List Share) (total : Nat) :
    (shares.filterMap (Share.shortfall? d)).foldl (fun total s => total + s.mappings.length) total =
      total + (shares.map fun s => s.mappings.length).sum := by
  induction shares generalizing total with
  | nil => rfl
  | cons s shares ih =>
    cases h : s.shortfall? d with
    | none =>
      have hempty : s.mappings = [] := by
        unfold Share.shortfall? at h
        split at h
        · next hboth =>
          rw [Bool.and_eq_true, List.isEmpty_iff] at hboth
          exact hboth.1
        · cases h
      rw [List.filterMap_cons_none h, ih]
      simp [hempty]
    | some entry =>
      have hlength : entry.mappings.length = s.mappings.length := by
        unfold Share.shortfall? at h
        split at h
        · cases h
        · obtain rfl := Option.some.inj h
          exact List.length_map _
      rw [List.filterMap_cons_some h, List.foldl_cons, ih, hlength, List.map_cons, List.sum_cons,
        Nat.add_assoc]

/-- If no share has a node that an earlier one paired, no node is paired twice. -/
theorem nodup_pairedNodes {shares : List Share}
    (h : ∀ before s after, shares = before ++ s :: after → (s.pairs.map Prod.snd).Nodup ∧
      ∀ id ∈ s.pairs.map Prod.snd, id ∉ pairedNodes before) : (pairedNodes shares).Nodup := by
  induction shares using List.reverseRecOn with
  | nil => simp [pairedNodes]
  | append_singleton before s ih =>
    have hbefore := ih fun before' s' after' heq => h before' s' (after' ++ [s]) (by simp [heq])
    obtain ⟨hnodup, hapart⟩ := h before s [] rfl
    rw [pairedNodes, List.flatMap_append, List.flatMap_singleton, List.nodup_append']
    exact ⟨hbefore, hnodup, fun id hid hid' => hapart id hid' hid⟩

/-! ### The shares of an extraction -/

/-- The shares of all providers. -/
def shares (d : Document) (mappings : List Mapping) (ps : Providers) : List Share :=
  sharesFrom d ps mappings [] 0 ps.list

theorem countP_assign? (ps : Providers) (mappings : List Mapping) :
    (mappings.countP fun m => (ps.assign? m).isNone) = (unclaimed ps.list mappings).length := by
  rw [List.countP_eq_length_filter, unclaimed]
  refine congrArg List.length (List.filter_congr fun m _ => Bool.eq_iff_iff.mpr ?_)
  rw [Providers.assign?, Option.isNone_iff_eq_none, List.findIdx?_eq_none_iff, List.all_eq_true]
  simp

/-- What an extraction reports is what its shares add up to. -/
theorem extractFrom_eq (d : Document) (mappings : List Mapping) (ps : Providers) :
    extractFrom d mappings ps = ⟨(shares d mappings ps).flatMap Share.models,
      { files := 1
        models := ((shares d mappings ps).flatMap Share.models).length
        unassigned := (unclaimed ps.list mappings).length
        shortfalls := (shares d mappings ps).filterMap (Share.shortfall? d)
        failures := (shares d mappings ps).flatMap fun s => s.failures.map Prod.snd }⟩ := by
  rw [extractFrom, byProvider_eq, countP_assign?]
  simp [total, merge, Report.merge, Report.empty, shares]

theorem provider_shares (d : Document) (mappings : List Mapping) (ps : Providers) :
    (shares d mappings ps).map Share.provider = ps.list :=
  provider_sharesFrom [] 0 ps.list

theorem mappings_shares (d : Document) (mappings : List Mapping) (ps : Providers) :
    (unclaimed ps.list mappings ++ (shares d mappings ps).flatMap Share.allMappings).Perm
      mappings := by
  have hall : unclaimed [] mappings = mappings := List.filter_eq_self.mpr fun _ _ => rfl
  have hperm := mappings_sharesFrom d mappings [] ps.list.nil_append.symm []
  rwa [hall] at hperm

theorem length_mappings (d : Document) (mappings : List Mapping) (ps : Providers) :
    mappings.length = (extractFrom d mappings ps).report.unassigned +
    (extractFrom d mappings ps).report.unmatchedMappings +
    (extractFrom d mappings ps).report.failures.length +
    (extractFrom d mappings ps).models.length := by
  have hlength := (mappings_shares d mappings ps).length_eq
  have hunmatched := unmatchedMappings_shares d (shares d mappings ps) 0
  rw [List.length_append, length_shares] at hlength
  rw [extractFrom_eq, Report.unmatchedMappings, hunmatched]
  simp only
  omega

section Split

variable {before after : List Share} {s : Share}
  (hsplit : shares d mappings ps = before ++ s :: after)

include hsplit

/-- In its place a share is that of a pairing of the unclaimed mappings with the nodes that were not
paired before. -/
theorem exists_share : ∃ used, s = shareOf d s.provider (correlateFor d s.provider
      ((unclaimed (before.map Share.provider) mappings).filter s.provider.acceptsMapping) used) ∧
    ∀ id, id ∈ used ↔ id ∈ pairedNodes before := by
  obtain ⟨used, hs, hused⟩ := exists_shareOf hsplit
  have hlist : ps.list = before.map Share.provider ++ s.provider :: after.map Share.provider := by
    rw [← provider_shares d mappings, hsplit, List.map_append, List.map_cons]
  have hassigned := assignedTo_eq_filter mappings hlist
  rw [List.length_map] at hassigned
  rw [Nat.zero_add, hassigned] at hs
  exact ⟨used, hs, fun id => by simp [hused]⟩

theorem first_accepts_share {m : Mapping} (hm : m ∈ s.allMappings) :
    s.provider.acceptsMapping m = true ∧ ∀ q ∈ before, q.provider.acceptsMapping m = false := by
  obtain ⟨used, hs, -⟩ := exists_share hsplit
  rw [hs] at hm
  have hm := (allMappings_shareOf _ _ _ used).subset hm
  rw [List.mem_filter, unclaimed, List.mem_filter, List.all_eq_true] at hm
  refine ⟨hm.2, fun q hq => ?_⟩
  simpa using hm.1.2 _ (List.mem_map_of_mem hq)

theorem nodes_share : (s.pairs.map Prod.snd ++ s.nodes).Perm
    ((candidateIds d s.provider).filter fun id => !(pairedNodes before).contains id) := by
  obtain ⟨used, hs, hused⟩ := exists_share hsplit
  rw [hs]
  refine (nodes_shareOf used).trans (List.Perm.of_eq (List.filter_congr fun id _ => ?_))
  rw [List.contains_eq_mem, List.contains_eq_mem, decide_eq_decide.mpr (hused id)]

theorem one_sided_share {entry : Shortfall} (hentry : s.shortfall? d = some entry) :
    entry.mappings = [] ∨ entry.nodes = [] := by
  obtain ⟨used, hs, -⟩ := exists_share hsplit
  unfold Share.shortfall? at hentry
  split at hentry
  · cases hentry
  · obtain rfl := Option.some.inj hentry
    rw [hs]
    exact (correlate_unmatched _ _).imp_left fun hnone => List.map_eq_nil_iff.mpr hnone

end Split

theorem accounted_shares (hd : d.Reachable) (mappings : List Mapping) (ps : Providers) :
    Accounted d mappings ps (extractFrom d mappings ps) (shares d mappings ps) := by
  obtain ⟨tree, htree⟩ := hd.exists_carries
  have hlength := length_mappings d mappings ps
  rw [extractFrom_eq] at hlength ⊢
  have hsplit {s : Share} (hs : s ∈ shares d mappings ps) :
      ∃ before after, shares d mappings ps = before ++ s :: after := List.append_of_mem hs
  exact {
    providers_eq := provider_shares d mappings ps
    models_eq := rfl
    failures_eq := rfl
    shortfalls_eq := rfl
    unassigned_eq := rfl
    files_eq := rfl
    count_eq := rfl
    mappings_perm := mappings_shares d mappings ps
    length_eq := hlength
    first_accepts := fun before s after hsplit m hm => first_accepts_share hsplit hm
    nodes_perm := fun before s after hsplit => nodes_share hsplit
    paired_accepted := fun s hs pair hpair => by
      obtain ⟨before, after, hsplit⟩ := hsplit hs
      have hmem := (nodes_share hsplit).subset (List.mem_append_left _ (List.mem_map_of_mem hpair))
      obtain ⟨hroot, v, hview, haccepts⟩ := mem_candidateIds (List.mem_filter.mp hmem).1
      rw [htree.descendants_root] at hroot
      exact ⟨htree.isAttached_iff.mpr hroot, v, hview, haccepts⟩
    nodup_paired := nodup_pairedNodes fun before s after hsplit => by
      have hids : (candidateIds d s.provider).Nodup :=
        (htree.descendants_root ▸ htree.nodup).filter _
      have hperm := nodes_share hsplit
      refine ⟨(List.nodup_append.mp (hperm.nodup_iff.mpr (hids.filter _))).1, fun id hid => ?_⟩
      simpa using (List.mem_filter.mp (hperm.subset (List.mem_append_left _ hid))).2
    one_sided := fun entry hentry => by
      obtain ⟨s, hs, hentry⟩ := List.mem_filterMap.mp hentry
      obtain ⟨before, after, hsplit⟩ := hsplit hs
      exact one_sided_share hsplit hentry
    models_built := fun s hs => by
      obtain ⟨before, after, hsplit⟩ := hsplit hs
      obtain ⟨used, hs, -⟩ := exists_share hsplit
      rw [hs]
      exact models_shareOf used
    failures_built := fun s hs => by
      obtain ⟨before, after, hsplit⟩ := hsplit hs
      obtain ⟨used, hs, -⟩ := exists_share hsplit
      rw [hs]
      exact failures_shareOf used }

end Extraction

open Extraction

/-- Whatever the providers accept, the extraction from a document accounts for every mapping of the
list and every node of the tree, and the extraction from several documents is the sum of theirs. -/
theorem accounted_extractFrom_and_extractAll_eq :
    (∀ d : Document, d.Reachable → ∀ (mappings : List Mapping) (ps : Providers),
      ∃ shares, Accounted d mappings ps (extractFrom d mappings ps) shares) ∧
    ∀ (documents : List Document) (registry : Registry) (ps : Providers),
      extractAll documents registry ps =
        let extractions := documents.map fun d => extractFrom d (registry.get d.path) ps
        ⟨extractions.flatMap Extraction.models,
          { files := (extractions.map fun e => e.report.files).sum
            models := (extractions.map fun e => e.report.models).sum
            unassigned := (extractions.map fun e => e.report.unassigned).sum
            shortfalls := extractions.flatMap fun e => e.report.shortfalls
            failures := extractions.flatMap fun e => e.report.failures }⟩ := by
  refine ⟨fun d hd mappings ps => ⟨_, accounted_shares hd mappings ps⟩,
    fun documents registry ps => ?_⟩
  rw [extractAll, foldl_merge]
  simp [Extraction.empty, Report.empty, List.flatMap_map, Function.comp_def]

/-- A provider of models for texts that cannot build the model of mapping zero. -/
def Provider.letters : Provider where
  name := "letter"
  acceptsMapping := Provider.ofKind "letter"
  acceptsNode v := v.kind.tag == .text
  build s := if s.mapping.id = 0 then .error (.staleNode "letter") else .ok ("letter", .math "" false)

/-- A provider of models for all nodes. -/
def Provider.anything : Provider where
  name := "any"
  acceptsMapping m := m.kind != "other"
  acceptsNode _ := true
  build _ := .ok ("any", .math "" false)

/-- Two providers compete for the letters; one mapping is given twice, one has no provider and one no
node. -/
theorem accounted_spacedLetters :
    let mappings : List Mapping := [⟨"letter", 1, ⟨"a.tex"⟩, 1⟩, ⟨"letter", 0, ⟨"a.tex"⟩, 1⟩,
      ⟨"other", 2, ⟨"a.tex"⟩, 1⟩, ⟨"letter", 1, ⟨"a.tex"⟩, 1⟩, ⟨"letter", 3, ⟨"a.tex"⟩, 1⟩,
      ⟨"any", 4, ⟨"a.tex"⟩, 1⟩]
    let e := extractFrom Document.spacedLetters mappings ⟨[.letters, .anything]⟩
    (∃ shares, Accounted Document.spacedLetters mappings ⟨[.letters, .anything]⟩ e shares) ∧
      e.models.map Model.node = [⟨1⟩, ⟨5⟩, ⟨0⟩] ∧ e.report.failures.map ModelFailure.node = [⟨3⟩] ∧
      e.report.shortfalls.map Shortfall.mappings = [[3], []] ∧
      e.report.shortfalls.map Shortfall.nodes = [[], [⟨2⟩, ⟨4⟩]] ∧ e.report.unassigned = 1 :=
  have hparse : Document.parse ⟨"a.tex"⟩ ['a', ' ', 'x', ' ', 'b'] = .ok Document.spacedLetters := rfl
  ⟨accounted_extractFrom_and_extractAll_eq.1 Document.spacedLetters (.parse hparse) _ _,
    by decide +kernel⟩

end TexAnchor
