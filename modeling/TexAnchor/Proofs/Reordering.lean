import TexAnchor.Proofs.Accounting
import TexAnchor.Proofs.Partners

/-! # The order of the mappings

A build step may write the mappings of a file in any order.  As long as no two mappings of a provider
are on one line, an extraction finds the same whatever the order is (`reordered_extractFrom`).

Two mappings on different lines do not compete for a candidate, so they can change places in the exact
phase (`Correlation.exact_swap`), and it leaves the same candidates.  Ranking by line then forgets the
order (`Correlation.byLine_eq`).  So a provider uses the same nodes, and the next one has the same
candidates (`Extraction.sharesFrom_reordered`). -/

namespace TexAnchor

namespace Correlation

variable {m n : Mapping} {mappings mappings' : List Mapping} {nodes : List Candidate}

/-! ### The exact phase -/

/-- The exact phases find the same, in some order, and leave the same candidates. -/
structure Exact.Reordered (e e' : Exact) : Prop where
  pairs : e.pairs.Perm e'.pairs
  mappings : e.mappings.Perm e'.mappings
  nodes_eq : e.nodes = e'.nodes

theorem Exact.Reordered.put {e e' : Exact} (h : e.Reordered e') (m : Mapping)
    (found : Option Candidate) : (e.put m found).Reordered (e'.put m found) := by
  cases found with
  | some c => exact ⟨h.pairs.cons _, h.mappings, h.nodes_eq⟩
  | none => exact ⟨h.pairs, h.mappings.cons m, h.nodes_eq⟩

theorem Exact.reordered_put_put (e : Exact) (m n : Mapping) (found found' : Option Candidate) :
    ((e.put n found').put m found).Reordered ((e.put m found).put n found') := by
  cases found with
  | some c =>
    cases found' with
    | some c' => exact ⟨.swap _ _ _, .refl _, rfl⟩
    | none => exact ⟨.refl _, .refl _, rfl⟩
  | none =>
    cases found' with
    | some c' => exact ⟨.refl _, .refl _, rfl⟩
    | none => exact ⟨.refl _, .swap _ _ _, rfl⟩

theorem startsOnLine_eq_false (hline : m.line ≠ n.line) {c : Candidate}
    (hstarts : startsOnLine m c = true) : startsOnLine n c = false := by
  rw [← Bool.not_eq_true, startsOnLine_iff]
  rw [startsOnLine_iff] at hstarts
  omega

theorem find?_eraseP_of_line_ne (hline : m.line ≠ n.line) (nodes : List Candidate) :
    (nodes.eraseP (startsOnLine m)).find? (startsOnLine n) = nodes.find? (startsOnLine n) := by
  rw [← List.head?_filter, filter_eraseP_of_disjoint fun _ => startsOnLine_eq_false hline,
    List.head?_filter]

/-- Mappings on different lines do not get into each other's way. -/
theorem exact_swap (hline : m.line ≠ n.line) (mappings : List Mapping) (nodes : List Candidate) :
    (exact (m :: n :: mappings) nodes).Reordered (exact (n :: m :: mappings) nodes) := by
  have hcomm : (nodes.eraseP (startsOnLine m)).eraseP (startsOnLine n) =
      (nodes.eraseP (startsOnLine n)).eraseP (startsOnLine m) :=
    List.eraseP_comm fun c _ => by
      rw [startsOnLine_iff, startsOnLine_iff]
      omega
  rw [exact_cons, exact_cons, exact_cons n, exact_cons m, find?_eraseP_of_line_ne hline,
    find?_eraseP_of_line_ne hline.symm, hcomm]
  exact Exact.reordered_put_put _ m n _ _

theorem exact_reordered (h : mappings.Perm mappings') (hlines : (mappings.map Mapping.line).Nodup)
    (nodes : List Candidate) : (exact mappings nodes).Reordered (exact mappings' nodes) := by
  induction h generalizing nodes with
  | nil => exact ⟨.refl _, .refl _, rfl⟩
  | cons m _ ih =>
    rw [exact_cons, exact_cons]
    exact (ih (List.nodup_cons.mp hlines).2 _).put m _
  | swap m n mappings =>
    refine exact_swap (fun hline => ?_) mappings nodes
    exact (List.nodup_cons.mp hlines).1 (hline ▸ List.mem_cons_self)
  | trans h _ ih ih' =>
    have hfirst := ih hlines nodes
    have hsecond := ih' ((h.map Mapping.line).nodup_iff.mp hlines) nodes
    exact ⟨hfirst.pairs.trans hsecond.pairs, hfirst.mappings.trans hsecond.mappings,
      hfirst.nodes_eq.trans hsecond.nodes_eq⟩

/-! ### The whole pairing -/

theorem byLine_eq (h : mappings.Perm mappings') (hlines : (mappings.map Mapping.line).Nodup) :
    byLine mappings = byLine mappings' := by
  have hsorted (l : List Mapping) : (byLine l).Pairwise fun a b => a.line ≤ b.line :=
    (stablySorted_mergeSort (fun _ _ _ => Nat.le_trans) Nat.le_total Mapping.line l).pairwise
  have hperm : (byLine mappings).Perm mappings := List.mergeSort_perm _ _
  have hperm' : (byLine mappings').Perm mappings' := List.mergeSort_perm _ _
  refine List.Perm.eq_of_pairwise (fun a b ha hb hab hba => ?_) (hsorted _) (hsorted _)
    (hperm.trans (h.trans hperm'.symm))
  exact List.inj_on_of_nodup_map hlines (hperm.subset ha) (h.symm.subset (hperm'.subset hb))
    (Nat.le_antisymm hab hba)

/-- The pairings have the same pairs and leave the same mappings, in some order, and the same nodes. -/
structure Reordered (c c' : Correlation) : Prop where
  pairs : c.pairs.Perm c'.pairs
  mappings : c.unmatchedMappings.Perm c'.unmatchedMappings
  nodes_eq : c.unmatchedNodes = c'.unmatchedNodes

theorem correlate_reordered (h : mappings.Perm mappings')
    (hlines : (mappings.map Mapping.line).Nodup) (nodes : List Candidate) :
    (correlate mappings nodes).Reordered (correlate mappings' nodes) := by
  have hexact := exact_reordered h hlines nodes
  have hleft : ((exact mappings nodes).mappings.map Mapping.line).Nodup := by
    have hall := ((exact_mappings mappings nodes).map Mapping.line).nodup_iff.mpr hlines
    rw [List.map_append] at hall
    exact (List.nodup_append.mp hall).2.1
  have hranked := byLine_eq hexact.mappings hleft
  refine ⟨?_, ?_, ?_⟩
  · rw [pairs_correlate, pairs_correlate, hranked, hexact.nodes_eq]
    exact hexact.pairs.append_right _
  · rw [unmatchedMappings_correlate, unmatchedMappings_correlate, hranked, hexact.nodes_eq]
    split
    · exact hexact.mappings
    · exact .refl _
  · have hempty : (exact mappings nodes).mappings = [] ↔ (exact mappings' nodes).mappings = [] := by
      rw [← List.length_eq_zero_iff, ← List.length_eq_zero_iff, hexact.mappings.length_eq]
    rw [unmatchedNodes_correlate, unmatchedNodes_correlate, hexact.nodes_eq,
      hexact.mappings.length_eq]
    simp only [hempty]

end Correlation

/-! ### One provider after the other -/

/-- The entries are about one provider of one file, with the same mappings in some order and the same
nodes. -/
structure Shortfall.Reordered (s s' : Shortfall) : Prop where
  file_eq : s.sourceFile = s'.sourceFile
  provider_eq : s.provider = s'.provider
  mappings : s.mappings.Perm s'.mappings
  nodes_eq : s.nodes = s'.nodes

namespace Extraction

variable {d : Document} {ps : Providers} {p : Provider} {mappings mappings' : List Mapping}
  {used used' : List NodeId}

/-- A provider did the same in two extractions, with its mappings in some order. -/
structure Share.Reordered (s s' : Share) : Prop where
  provider_eq : s.provider = s'.provider
  models : s.models.Perm s'.models
  failures : s.failures.Perm s'.failures
  pairs : s.pairs.Perm s'.pairs
  mappings : s.mappings.Perm s'.mappings
  nodes_eq : s.nodes = s'.nodes

theorem shareOf_reordered {c c' : Correlation} (h : c.Reordered c') (d : Document) (p : Provider) :
    (shareOf d p c).Reordered (shareOf d p c') := by
  have hmodels : (shareOf d p c).models.Perm (shareOf d p c').models := h.pairs.flatMap_right _
  have hfailures : (shareOf d p c).failures.Perm (shareOf d p c').failures := h.pairs.flatMap_right _
  exact ⟨rfl, hmodels, hfailures, (hmodels.map _).append (hfailures.map _), h.mappings, h.nodes_eq⟩

theorem correlateFor_reordered (h : mappings.Perm mappings')
    (hlines : (mappings.map Mapping.line).Nodup) (hused : used.Perm used') :
    (correlateFor d p mappings used).Reordered (correlateFor d p mappings' used') := by
  have hfree : ((candidateViews d p).filter fun v => !used.contains v.id) =
      (candidateViews d p).filter fun v => !used'.contains v.id :=
    List.filter_congr fun v _ => congrArg _ hused.contains_eq
  rw [correlateFor, correlateFor, hfree]
  exact Correlation.correlate_reordered h hlines _

/-- Every provider has the same nodes to choose from, since those before it used the same ones. -/
theorem sharesFrom_reordered (h : mappings.Perm mappings')
    (hlines : ∀ index, ((assignedTo ps index mappings).map Mapping.line).Nodup)
    (hused : used.Perm used') (index : Nat) (later : List Provider) :
    List.Forall₂ Share.Reordered (sharesFrom d ps mappings used index later)
      (sharesFrom d ps mappings' used' index later) := by
  induction later generalizing used used' index with
  | nil => exact .nil
  | cons p later ih =>
    have hpairing := correlateFor_reordered (d := d) (p := p) (h.filter _) (hlines index) hused
    exact .cons (shareOf_reordered hpairing d p) (ih (hused.append (hpairing.pairs.map _)) _)

theorem flatMap_reordered {α : Type} {f : Share → List α}
    (hf : ∀ s s' : Share, s.Reordered s' → (f s).Perm (f s')) {shares shares' : List Share}
    (h : List.Forall₂ Share.Reordered shares shares') :
    (shares.flatMap f).Perm (shares'.flatMap f) := by
  induction h with
  | nil => exact .refl _
  | cons hs _ ih =>
    rw [List.flatMap_cons, List.flatMap_cons]
    exact (hf _ _ hs).append ih

theorem shortfall?_reordered {s s' : Share} (h : s.Reordered s') :
    Option.Rel Shortfall.Reordered (s.shortfall? d) (s'.shortfall? d) := by
  rw [Share.shortfall?, Share.shortfall?, h.mappings.isEmpty_eq, h.nodes_eq]
  split
  · exact .none
  · exact .some ⟨rfl, congrArg Provider.name h.provider_eq, h.mappings.map _, rfl⟩

/-- The extractions have the same models and report the same, in some order. -/
structure Reordered (e e' : Extraction) : Prop where
  models : e.models.Perm e'.models
  failures : e.report.failures.Perm e'.report.failures
  shortfalls : List.Forall₂ Shortfall.Reordered e.report.shortfalls e'.report.shortfalls
  unassigned_eq : e.report.unassigned = e'.report.unassigned
  files_eq : e.report.files = e'.report.files
  count_eq : e.report.models = e'.report.models

end Extraction

open Extraction

/-- The order of the mappings does not matter if no two mappings of a provider are on one line: every
provider makes the same pairs, and so the extractions have the same models and report the same. -/
theorem reordered_extractFrom (d : Document) (ps : Providers) {mappings mappings' : List Mapping}
    (h : mappings.Perm mappings')
    (hlines : ∀ index, ((assignedTo ps index mappings).map Mapping.line).Nodup) :
    (extractFrom d mappings ps).Reordered (extractFrom d mappings' ps) ∧
      List.Forall₂ Share.Reordered (shares d mappings ps) (shares d mappings' ps) ∧
      (d.Reachable →
        Accounted d mappings ps (extractFrom d mappings ps) (shares d mappings ps) ∧
        Accounted d mappings' ps (extractFrom d mappings' ps) (shares d mappings' ps)) := by
  have hshares : List.Forall₂ Share.Reordered (shares d mappings ps) (shares d mappings' ps) :=
    sharesFrom_reordered h hlines (.refl _) 0 ps.list
  have hmodels := flatMap_reordered (fun _ _ hs => hs.models) hshares
  refine ⟨?_, hshares, fun hd => ⟨accounted_shares hd _ ps, accounted_shares hd _ ps⟩⟩
  rw [extractFrom_eq, extractFrom_eq]
  exact {
    models := hmodels
    failures := flatMap_reordered (fun _ _ hs => hs.failures.map _) hshares
    shortfalls := List.rel_filterMap (fun _ _ hs => shortfall?_reordered hs) hshares
    unassigned_eq := (h.filter _).length_eq
    files_eq := rfl
    count_eq := hmodels.length_eq }

/-- Three letters on lines of their own.  Two providers have a mapping of the first line each, one
mapping comes too late, one has no provider, and of one no model can be built. -/
theorem reordered_extractFrom_letterLines :
    let mappings : List Mapping := [⟨"letter", 1, ⟨"a.tex"⟩, 9⟩, ⟨"letter", 7, ⟨"a.tex"⟩, 3⟩,
      ⟨"any", 4, ⟨"a.tex"⟩, 1⟩, ⟨"letter", 3, ⟨"a.tex"⟩, 1⟩, ⟨"other", 2, ⟨"a.tex"⟩, 1⟩,
      ⟨"letter", 0, ⟨"a.tex"⟩, 2⟩]
    let ps : Providers := ⟨[.letters, .anything]⟩
    ∃ d, Document.parse ⟨"a.tex"⟩ ['a', '\n', 'b', '\n', 'c'] = .ok d ∧
      (extractFrom d mappings ps).Reordered (extractFrom d mappings.reverse ps) ∧
      (extractFrom d mappings ps).models.map Model.node = [⟨5⟩, ⟨1⟩, ⟨0⟩] ∧
      (extractFrom d mappings.reverse ps).models.map Model.node = [⟨1⟩, ⟨5⟩, ⟨0⟩] ∧
      (extractFrom d mappings ps).report.failures.map ModelFailure.node = [⟨3⟩] ∧
      (extractFrom d mappings ps).report.shortfalls.map Shortfall.mappings = [[1], []] ∧
      (extractFrom d mappings ps).report.shortfalls.map Shortfall.nodes = [[], [⟨2⟩, ⟨4⟩]] :=
  ⟨_, rfl, (reordered_extractFrom _ _ (List.reverse_perm _).symm fun
    | 0 => by decide
    | 1 => by decide
    | _ + 2 => by exact List.nodup_nil).1, by decide +kernel⟩

end TexAnchor
