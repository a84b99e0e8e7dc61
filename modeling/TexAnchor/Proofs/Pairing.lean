import Mathlib.Data.List.Forall2
import Mathlib.Data.List.Sublists
import TexAnchor.Extraction.Correlation

/-! # The pairing of mappings with nodes

Every mapping and every node is paired once or left over (`correlate_mappings`, `correlate_nodes`),
and only one side has anything left over (`correlate_unmatched`).  The pairing depends on the places
where the nodes start and on nothing else of them (`correlate_forall₂`): nodes in other arenas that
start at the same places are paired with the same mappings. -/

namespace TexAnchor

namespace Correlation

theorem map_fst_zip_eq_take {α β : Type} (l : List α) (l' : List β) :
    (l.zip l').map Prod.fst = l.take l'.length := by
  induction l generalizing l' with
  | nil => simp
  | cons a l ih =>
    cases l' with
    | nil => simp
    | cons b l' => simpa using ih l'

theorem map_snd_zip_eq_take {α β : Type} (l : List α) (l' : List β) :
    (l.zip l').map Prod.snd = l'.take l.length := by
  induction l generalizing l' with
  | nil => simp
  | cons a l ih =>
    cases l' with
    | nil => simp
    | cons b l' => simpa using ih l'

theorem exists_of_forall₂ {α β : Type} {R : α → β → Prop} {l : List α} {l' : List β}
    (h : List.Forall₂ R l l') : (∀ a ∈ l, ∃ b ∈ l', R a b) ∧ ∀ b ∈ l', ∃ a ∈ l, R a b := by
  induction h with
  | nil => simp
  | @cons a b l l' hab _ ih =>
    refine ⟨fun x hx => ?_, fun y hy => ?_⟩
    · rcases List.mem_cons.mp hx with rfl | hx
      · exact ⟨b, by simp, hab⟩
      · obtain ⟨y, hy, hxy⟩ := ih.1 x hx
        exact ⟨y, by simp [hy], hxy⟩
    · rcases List.mem_cons.mp hy with rfl | hy
      · exact ⟨a, by simp, hab⟩
      · obtain ⟨x, hx, hxy⟩ := ih.2 y hy
        exact ⟨x, by simp [hx], hxy⟩

/-! ### What is paired -/

theorem exact_mappings (mappings : List Mapping) (nodes : List Candidate) :
    ((exact mappings nodes).pairs.map Prod.fst ++ (exact mappings nodes).mappings).Perm mappings := by
  induction mappings generalizing nodes with
  | nil => exact .refl _
  | cons m mappings ih =>
    rw [exact]
    split
    · exact (ih _).cons m
    · exact List.perm_middle.trans ((ih _).cons m)

theorem exact_nodes (mappings : List Mapping) (nodes : List Candidate) :
    ((exact mappings nodes).pairs.map Prod.snd ++
      (exact mappings nodes).nodes.map Candidate.node).Perm (nodes.map Candidate.node) := by
  induction mappings generalizing nodes with
  | nil => exact .refl _
  | cons m mappings ih =>
    rw [exact]
    split
    · next c hc =>
      obtain ⟨hstarts, before, after, rfl, hbefore⟩ := List.find?_eq_some_iff_append.mp hc
      have herase : (before ++ c :: after).eraseP (startsOnLine m) = before ++ after := by
        rw [List.eraseP_append_right _ fun b hb => by simpa using hbefore b hb,
          List.eraseP_cons_of_pos hstarts]
      rw [herase]
      apply ((ih _).cons c.node).trans
      rw [List.map_append, List.map_append, List.map_cons]
      exact List.perm_middle.symm
    · exact ih _

end Correlation

open Correlation

variable {mappings : List Mapping} {nodes nodes' : List Candidate}

/-- Every mapping is in one pair, or it is left without a partner. -/
theorem correlate_mappings (mappings : List Mapping) (nodes : List Candidate) :
    ((correlate mappings nodes).pairs.map Prod.fst ++
      (correlate mappings nodes).unmatchedMappings).Perm mappings := by
  have hperm := exact_mappings mappings nodes
  rw [correlate]
  simp only
  split
  · exact hperm
  · rw [List.map_append, map_fst_zip_eq_take, List.append_assoc, List.take_append_drop]
    exact ((List.mergeSort_perm _ _).append_left _).trans hperm

theorem correlate_nodes (mappings : List Mapping) (nodes : List Candidate) :
    ((correlate mappings nodes).pairs.map Prod.snd ++
      (correlate mappings nodes).unmatchedNodes).Perm (nodes.map Candidate.node) := by
  have hperm := exact_nodes mappings nodes
  rw [correlate]
  simp only
  split
  · exact hperm
  · rw [List.map_append, map_snd_zip_eq_take, List.append_assoc, List.take_append_drop]
    exact (((List.mergeSort_perm _ _).map _).append_left _).trans hperm

theorem correlate_unmatched (mappings : List Mapping) (nodes : List Candidate) :
    (correlate mappings nodes).unmatchedMappings = [] ∨
      (correlate mappings nodes).unmatchedNodes = [] := by
  rw [correlate]
  simp only
  split
  · next hempty =>
    rw [Bool.or_eq_true, List.isEmpty_iff, List.isEmpty_iff] at hempty
    exact hempty.imp_right fun hnodes => by rw [hnodes, List.map_nil]
  · simp only [List.drop_eq_nil_iff]
    exact Nat.le_total _ _

theorem mem_correlate {pair : Mapping × NodeId} (h : pair ∈ (correlate mappings nodes).pairs) :
    pair.1 ∈ mappings ∧ ∃ c ∈ nodes, c.node = pair.2 := by
  have hmappings := (correlate_mappings mappings nodes).subset
  have hnodes := (correlate_nodes mappings nodes).subset
  exact ⟨hmappings (List.mem_append_left _ (List.mem_map_of_mem h)),
    List.mem_map.mp (hnodes (List.mem_append_left _ (List.mem_map_of_mem h)))⟩

theorem nodup_correlate (h : (mappings.map Mapping.id).Nodup) (nodes : List Candidate) :
    ((correlate mappings nodes).pairs.map fun pair => pair.1.id).Nodup := by
  have hall := ((correlate_mappings mappings nodes).map Mapping.id).nodup_iff.mpr h
  rw [List.map_append, List.map_map] at hall
  exact (List.nodup_append.mp hall).1

theorem eq_of_mem_correlate (h : (mappings.map Mapping.id).Nodup) {m : Mapping} {id id' : NodeId}
    (hid : (m, id) ∈ (correlate mappings nodes).pairs)
    (hid' : (m, id') ∈ (correlate mappings nodes).pairs) : id = id' :=
  congrArg Prod.snd (List.inj_on_of_nodup_map (nodup_correlate h nodes) hid hid' rfl)

/-! ### What the pairing depends on -/

/-- The candidates start at the same place, and their nodes are related. -/
def Alike (R : NodeId → NodeId → Prop) (c c' : Candidate) : Prop :=
  c.start.coord = c'.start.coord ∧ R c.node c'.node

/-- The pairs have the same mapping, and their nodes are related. -/
def PairedAlike (R : NodeId → NodeId → Prop) (pair pair' : Mapping × NodeId) : Prop :=
  pair.1 = pair'.1 ∧ R pair.2 pair'.2

variable {R : NodeId → NodeId → Prop}

namespace Correlation

theorem Alike.startsOnLine_eq {c c' : Candidate} (h : Alike R c c') (m : Mapping) :
    startsOnLine m c = startsOnLine m c' := by
  have hline : c.start.line = c'.start.line := congrArg Text.Coord.line h.1
  rw [startsOnLine, startsOnLine, hline]

/-- The exact phase takes candidates that are alike at once. -/
theorem find?_forall₂ (h : List.Forall₂ (Alike R) nodes nodes') (m : Mapping) :
    (nodes.find? (startsOnLine m) = none ∧ nodes'.find? (startsOnLine m) = none) ∨
    ∃ c c', nodes.find? (startsOnLine m) = some c ∧ nodes'.find? (startsOnLine m) = some c' ∧
      Alike R c c' ∧ List.Forall₂ (Alike R) (nodes.eraseP (startsOnLine m))
        (nodes'.eraseP (startsOnLine m)) := by
  induction h with
  | nil => exact .inl ⟨rfl, rfl⟩
  | @cons c c' nodes nodes' hc hnodes ih =>
    have hsame := Alike.startsOnLine_eq hc m
    cases hstarts : startsOnLine m c with
    | true =>
      refine .inr ⟨c, c', ?_, ?_, hc, ?_⟩
      · rw [List.find?_cons_of_pos hstarts]
      · rw [List.find?_cons_of_pos (hsame ▸ hstarts)]
      · rw [List.eraseP_cons_of_pos hstarts, List.eraseP_cons_of_pos (hsame ▸ hstarts)]
        exact hnodes
    | false =>
      have hnot : ¬ startsOnLine m c = true := by simp [hstarts]
      have hnot' : ¬ startsOnLine m c' = true := by simp [← hsame, hstarts]
      rw [List.find?_cons_of_neg hnot, List.find?_cons_of_neg hnot', List.eraseP_cons_of_neg hnot,
        List.eraseP_cons_of_neg hnot']
      apply ih.imp id
      rintro ⟨d, d', hd, hd', halike, hrest⟩
      exact ⟨d, d', hd, hd', halike, .cons hc hrest⟩

theorem exact_forall₂ (mappings : List Mapping) (h : List.Forall₂ (Alike R) nodes nodes') :
    List.Forall₂ (PairedAlike R) (exact mappings nodes).pairs (exact mappings nodes').pairs ∧
      (exact mappings nodes).mappings = (exact mappings nodes').mappings ∧
      List.Forall₂ (Alike R) (exact mappings nodes).nodes (exact mappings nodes').nodes := by
  induction mappings generalizing nodes nodes' with
  | nil => exact ⟨.nil, rfl, h⟩
  | cons m mappings ih =>
    rw [exact, exact]
    rcases find?_forall₂ h m with ⟨hnone, hnone'⟩ | ⟨c, c', hc, hc', halike, hrest⟩
    · rw [hnone, hnone']
      obtain ⟨hpairs, hmappings, hnodes⟩ := ih h
      exact ⟨hpairs, congrArg (m :: ·) hmappings, hnodes⟩
    · rw [hc, hc']
      obtain ⟨hpairs, hmappings, hnodes⟩ := ih hrest
      exact ⟨.cons ⟨rfl, halike.2⟩ hpairs, hmappings, hnodes⟩

theorem byStart_forall₂ (h : List.Forall₂ (Alike R) nodes nodes') :
    List.Forall₂ (Alike R) (byStart nodes) (byStart nodes') := by
  have halike : ∀ z ∈ nodes.zip nodes', Alike R z.1 z.2 := fun z hz => List.forall₂_zip h hz
  -- Sorting the two lists is sorting the list of their pairs, by the left or by the right starts.
  let sorted := (nodes.zip nodes').mergeSort fun a b => a.1.start ≤ b.1.start
  have hleft : sorted.map Prod.fst = byStart nodes := by
    have hmap := List.map_mergeSort (l := nodes.zip nodes') (f := Prod.fst)
      (r := fun a b => a.1.start ≤ b.1.start) (s := fun a b => a.start ≤ b.start)
      fun _ _ _ _ => rfl
    rwa [List.map_fst_zip h.length_eq.le] at hmap
  have hright : sorted.map Prod.snd = byStart nodes' := by
    have hmap := List.map_mergeSort (l := nodes.zip nodes') (f := Prod.snd)
      (r := fun a b => a.1.start ≤ b.1.start) (s := fun a b => a.start ≤ b.start) fun a ha b hb => by
        have hle : a.1.start ≤ b.1.start ↔ a.2.start ≤ b.2.start := by
          show a.1.start.coord ≤ b.1.start.coord ↔ a.2.start.coord ≤ b.2.start.coord
          rw [(halike a ha).1, (halike b hb).1]
        simp only [hle]
    rwa [List.map_snd_zip h.length_eq.ge] at hmap
  rw [← hleft, ← hright, List.forall₂_map_left_iff, List.forall₂_map_right_iff, List.forall₂_same]
  exact fun z hz => halike z (List.mem_mergeSort.mp hz)

theorem zip_forall₂ (mappings : List Mapping) (h : List.Forall₂ (Alike R) nodes nodes') :
    List.Forall₂ (PairedAlike R) (mappings.zip (nodes.map Candidate.node))
      (mappings.zip (nodes'.map Candidate.node)) := by
  induction h generalizing mappings with
  | nil => simp
  | cons hc _ ih =>
    cases mappings with
    | nil => simp
    | cons m mappings => exact .cons ⟨rfl, hc.2⟩ (ih mappings)

end Correlation

/-- Nodes that start at the same places are paired with the same mappings. -/
theorem correlate_forall₂ (mappings : List Mapping) (h : List.Forall₂ (Alike R) nodes nodes') :
    List.Forall₂ (PairedAlike R) (correlate mappings nodes).pairs
      (correlate mappings nodes').pairs := by
  obtain ⟨hpairs, hmappings, hnodes⟩ := exact_forall₂ mappings h
  have hempty : (exact mappings nodes).nodes.isEmpty = (exact mappings nodes').nodes.isEmpty := by
    rw [Bool.eq_iff_iff, List.isEmpty_iff_length_eq_zero, List.isEmpty_iff_length_eq_zero,
      hnodes.length_eq]
  rw [correlate, correlate]
  simp only [hmappings, hempty]
  split
  · exact hpairs
  · exact List.rel_append hpairs (zip_forall₂ _ (byStart_forall₂ hnodes))

end TexAnchor
