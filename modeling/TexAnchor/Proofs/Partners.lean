import Mathlib.Data.List.FinRange
import Mathlib.Data.List.Nodup
import TexAnchor.Proofs.Pairing

/-! # Partners by line and by rank

What `correlate` pairs can be said without the order in which it looks for pairs.  Among the mappings
of a line and the candidates that start on it, those with the same number of predecessors are partners
(`Correlation.Partners`).  What has no partner is paired by rank, in the order of a stable sort of each
side (`StablySorted`).

Scanning the mappings and taking the first free candidate of a line finds just these partners
(`Correlation.exists_lined`), by induction on the mappings: the partners of the later mappings are those
that they have among the candidates that the first one leaves (`Correlation.partners_cons_succ`).
`exists_paired_correlate` says it of the whole pairing, which is the only one of that kind, and what
follows for the pairs and the rest. -/

namespace TexAnchor

/-! ### Stable sorts -/

/-- The list `sorted` has the members of `l` in the order of their keys, and members with one key in
the order that they have in `l`. -/
structure StablySorted {α κ : Type} [LE κ] [DecidableEq κ] (key : α → κ) (l sorted : List α) :
    Prop where
  perm : sorted.Perm l
  pairwise : sorted.Pairwise fun a b => key a ≤ key b
  filter_eq : ∀ k, (sorted.filter fun a => key a = k) = l.filter fun a => key a = k

theorem stablySorted_mergeSort {α κ : Type} [LE κ] [DecidableEq κ] [DecidableLE κ]
    (htrans : ∀ a b c : κ, a ≤ b → b ≤ c → a ≤ c) (htotal : ∀ a b : κ, a ≤ b ∨ b ≤ a)
    (key : α → κ) (l : List α) :
    StablySorted key l (l.mergeSort fun a b => key a ≤ key b) := by
  have htrans' (a b c : α) (hab : decide (key a ≤ key b) = true)
      (hbc : decide (key b ≤ key c) = true) : decide (key a ≤ key c) = true := by
    rw [decide_eq_true_iff] at *
    exact htrans _ _ _ hab hbc
  have htotal' (a b : α) : (decide (key a ≤ key b) || decide (key b ≤ key a)) = true := by
    rw [Bool.or_eq_true, decide_eq_true_iff, decide_eq_true_iff]
    exact htotal _ _
  have hperm := List.mergeSort_perm l fun a b => decide (key a ≤ key b)
  refine ⟨hperm, (List.pairwise_mergeSort htrans' htotal' l).imp of_decide_eq_true, fun k => ?_⟩
  have hsorted : (l.filter fun a => key a = k).Pairwise fun a b => decide (key a ≤ key b) = true := by
    refine List.pairwise_of_forall_mem_list fun a ha b hb => ?_
    rw [List.mem_filter, decide_eq_true_iff] at ha hb
    rw [ha.2, hb.2, decide_eq_true_iff]
    exact (htotal k k).elim id id
  have hsublist := (List.sublist_mergeSort htrans' htotal' hsorted List.filter_sublist).filter
    fun a => decide (key a = k)
  rw [List.filter_filter] at hsublist
  simp only [Bool.and_self] at hsublist
  exact (hsublist.eq_of_length (hperm.filter _).length_eq.symm).symm

/-- There is one way to sort stably: the first member has the least key, and of that key it is the first
one in the list. -/
theorem eq_of_filter_eq {α κ : Type} [LE κ] [DecidableEq κ]
    (hantisymm : ∀ a b : κ, a ≤ b → b ≤ a → a = b) {key : α → κ} {l l' : List α} (hperm : l.Perm l')
    (hl : l.Pairwise fun a b => key a ≤ key b) (hl' : l'.Pairwise fun a b => key a ≤ key b)
    (hfilter : ∀ k, (l.filter fun a => key a = k) = l'.filter fun a => key a = k) : l = l' := by
  induction l generalizing l' with
  | nil => exact hperm.nil_eq
  | cons a l ih =>
    cases l' with
    | nil => exact absurd hperm.length_eq (by simp)
    | cons b l' =>
      rw [List.pairwise_cons] at hl hl'
      have hkey : key a = key b := by
        rcases List.mem_cons.mp (hperm.mem_iff.mp List.mem_cons_self) with rfl | ha
        · rfl
        rcases List.mem_cons.mp (hperm.mem_iff.mpr List.mem_cons_self) with rfl | hb
        · rfl
        · exact hantisymm _ _ (hl.1 b hb) (hl'.1 a ha)
      have hfirst := hfilter (key b)
      rw [List.filter_cons_of_pos (by simp [hkey]), List.filter_cons_of_pos (by simp)] at hfirst
      obtain rfl := (List.cons.inj hfirst).1
      refine congrArg (a :: ·) (ih hperm.cons_inv hl.2 hl'.2 fun k => ?_)
      have hrest := hfilter k
      rw [List.filter_cons, List.filter_cons] at hrest
      split at hrest
      · exact (List.cons.inj hrest).2
      · exact hrest

theorem StablySorted.unique {α κ : Type} [LE κ] [DecidableEq κ]
    (hantisymm : ∀ a b : κ, a ≤ b → b ≤ a → a = b) {key : α → κ} {l sorted sorted' : List α}
    (h : StablySorted key l sorted) (h' : StablySorted key l sorted') : sorted = sorted' :=
  eq_of_filter_eq hantisymm (h.perm.trans h'.perm.symm) h.pairwise h'.pairwise fun k =>
    (h.filter_eq k).trans (h'.filter_eq k).symm

namespace Correlation

/-! ### Partners -/

/-- The places of the mappings of a line, counted from zero as nodes are. -/
def placesOn (mappings : List Mapping) (line : Nat) : List (Fin mappings.length) :=
  (List.finRange mappings.length).filter fun i => (mappings.get i).line = line + 1

/-- The candidates that start on a line. -/
def startingOn (nodes : List Candidate) (line : Nat) : List Candidate :=
  nodes.filter fun c => c.start.line = line

/-- For some line and some number, the mapping in the place is the one with that number among the
mappings of the line, and the candidate among those that start on the line. -/
def Partners (mappings : List Mapping) (nodes : List Candidate) (i : Fin mappings.length)
    (c : Candidate) : Prop :=
  ∃ line k : Nat, (placesOn mappings line)[k]? = some i ∧ (startingOn nodes line)[k]? = some c

/-! ### One mapping after the other -/

theorem filter_eraseP_of_disjoint {α : Type} {p q : α → Bool} (h : ∀ a, p a = true → q a = false)
    (l : List α) : (l.eraseP p).filter q = l.filter q := by
  induction l with
  | nil => rfl
  | cons a l ih =>
    cases hp : p a with
    | true => rw [List.eraseP_cons_of_pos hp, List.filter_cons_of_neg (by simp [h a hp])]
    | false => rw [List.eraseP_cons_of_neg (by simp [hp]), List.filter_cons, List.filter_cons, ih]

theorem filter_eraseP_self {α : Type} (p : α → Bool) (l : List α) :
    (l.eraseP p).filter p = (l.filter p).tail := by
  induction l with
  | nil => rfl
  | cons a l ih =>
    cases hp : p a with
    | true => rw [List.eraseP_cons_of_pos hp, List.filter_cons_of_pos hp, List.tail_cons]
    | false =>
      rw [List.eraseP_cons_of_neg (by simp [hp]), List.filter_cons_of_neg (by simp [hp]),
        List.filter_cons_of_neg (by simp [hp]), ih]

theorem startsOnLine_iff {m : Mapping} {c : Candidate} :
    startsOnLine m c = true ↔ m.line = c.start.line + 1 := by
  rw [startsOnLine, Mapping.nodeLine?, beq_iff_eq]
  split
  · simp; omega
  · simp; omega

theorem startingOn_of_line_eq {m : Mapping} {line : Nat} (hline : m.line = line + 1)
    (nodes : List Candidate) : startingOn nodes line = nodes.filter (startsOnLine m) := by
  refine List.filter_congr fun c _ => ?_
  rw [Bool.eq_iff_iff, decide_eq_true_iff, startsOnLine_iff]
  omega

/-- A mapping takes the first candidate of its line, and the other lines keep theirs. -/
theorem startingOn_eraseP (m : Mapping) (nodes : List Candidate) (line : Nat) :
    startingOn (nodes.eraseP (startsOnLine m)) line =
      if m.line = line + 1 then (startingOn nodes line).tail else startingOn nodes line := by
  split
  · next hline => rw [startingOn_of_line_eq hline, startingOn_of_line_eq hline, filter_eraseP_self]
  · next hline =>
    refine filter_eraseP_of_disjoint (fun c hc => ?_) nodes
    have hstarts := startsOnLine_iff.mp hc
    rw [decide_eq_false_iff_not]
    omega

theorem finRange_length_cons (m : Mapping) (mappings : List Mapping) :
    List.finRange (m :: mappings).length = 0 :: (List.finRange mappings.length).map Fin.succ :=
  List.finRange_succ

theorem placesOn_cons (m : Mapping) (mappings : List Mapping) (line : Nat) :
    placesOn (m :: mappings) line =
      (if m.line = line + 1 then [0] else []) ++ (placesOn mappings line).map Fin.succ := by
  have hlater : ((List.finRange mappings.length).map Fin.succ).filter
      (fun i => ((m :: mappings).get i).line = line + 1) =
      (placesOn mappings line).map Fin.succ := List.filter_map
  rw [placesOn, finRange_length_cons, List.filter_cons, hlater]
  by_cases hline : m.line = line + 1
  · simp [hline]
  · simp [hline]

theorem partners_cons_zero {m : Mapping} {mappings : List Mapping} {nodes : List Candidate}
    {c : Candidate} :
    Partners (m :: mappings) nodes 0 c ↔ nodes.find? (startsOnLine m) = some c := by
  constructor
  · rintro ⟨line, k, hplace, hc⟩
    rw [placesOn_cons] at hplace
    split at hplace
    · next hline =>
      cases k with
      | zero => rwa [startingOn_of_line_eq hline, ← List.head?_eq_getElem?, List.head?_filter] at hc
      | succ k => simp at hplace
    · simp at hplace
  · intro hfind
    have hline := startsOnLine_iff.mp (List.find?_some hfind)
    refine ⟨c.start.line, 0, ?_, ?_⟩
    · rw [placesOn_cons, if_pos hline]
      rfl
    · rwa [startingOn_of_line_eq hline, ← List.head?_eq_getElem?, List.head?_filter]

theorem partners_cons_succ {m : Mapping} {mappings : List Mapping} {nodes : List Candidate}
    {i : Fin mappings.length} {c : Candidate} :
    Partners (m :: mappings) nodes i.succ c ↔
      Partners mappings (nodes.eraseP (startsOnLine m)) i c := by
  have hplace (line k : Nat) :
      ((placesOn mappings line).map Fin.succ)[k]? = some i.succ ↔
        (placesOn mappings line)[k]? = some i := by
    rw [List.getElem?_map, Option.map_eq_some_iff]
    simp [Fin.succ_inj]
  constructor
  · rintro ⟨line, k, hi, hc⟩
    rw [placesOn_cons] at hi
    refine ⟨line, ?_⟩
    rw [startingOn_eraseP]
    split at hi
    · next hline =>
      cases k with
      | zero => cases hi
      | succ k => exact ⟨k, (hplace line k).mp hi, by rwa [if_pos hline, List.getElem?_tail]⟩
    · next hline => exact ⟨k, (hplace line k).mp hi, by rwa [if_neg hline]⟩
  · rintro ⟨line, k, hi, hc⟩
    rw [startingOn_eraseP] at hc
    rw [← hplace] at hi
    refine ⟨line, ?_⟩
    rw [placesOn_cons]
    split at hc
    · next hline => exact ⟨k + 1, by rwa [if_pos hline], by rwa [List.getElem?_tail] at hc⟩
    · next hline => exact ⟨k, by rwa [if_neg hline], hc⟩

/-- What the later mappings find, together with the first one and the candidate that it takes. -/
def Exact.put (e : Exact) (m : Mapping) : Option Candidate → Exact
  | some c => { e with pairs := (m, c.node) :: e.pairs }
  | none => { e with mappings := m :: e.mappings }

/-- Whether a mapping takes a candidate or not, the later ones have what it leaves. -/
theorem exact_cons (m : Mapping) (mappings : List Mapping) (nodes : List Candidate) :
    exact (m :: mappings) nodes = (exact mappings (nodes.eraseP (startsOnLine m))).put m
      (nodes.find? (startsOnLine m)) := by
  rw [exact]
  cases hfind : nodes.find? (startsOnLine m) with
  | some c => rfl
  | none =>
    rw [List.eraseP_of_forall_not (List.find?_eq_none.mp hfind)]
    rfl

/-! ### What the exact phase finds -/

/-- The places that no pair has. -/
def freePlaces (mappings : List Mapping) (lined : List (Fin mappings.length × Candidate)) :
    List (Fin mappings.length) :=
  (List.finRange mappings.length).filter fun i => !(lined.map Prod.fst).contains i

/-- The candidates that no pair has. -/
def freeNodes {n : Nat} (nodes : List Candidate) (lined : List (Fin n × Candidate)) :
    List Candidate :=
  nodes.filter fun c => !(lined.map Prod.snd).contains c

/-- What the exact phase finds are the partners, in the order of the mappings, and it leaves the rest
on both sides as it was. -/
structure Lined (mappings : List Mapping) (nodes : List Candidate) (e : Exact)
    (lined : List (Fin mappings.length × Candidate)) : Prop where
  pairs_eq : e.pairs = lined.map fun pair => (mappings.get pair.1, pair.2.node)
  mem_iff : ∀ i c, (i, c) ∈ lined ↔ Partners mappings nodes i c
  increasing : (lined.map Prod.fst).Pairwise (· < ·)
  mappings_eq : e.mappings = (freePlaces mappings lined).map mappings.get
  nodes_eq : e.nodes = freeNodes nodes lined

theorem eraseP_eq_filter {nodes : List Candidate} (hnodes : nodes.Nodup) {p : Candidate → Bool}
    {c : Candidate} (hc : nodes.find? p = some c) :
    nodes.eraseP p = nodes.filter fun other => other ≠ c := by
  obtain ⟨hp, before, after, rfl, hbefore⟩ := List.find?_eq_some_iff_append.mp hc
  have hnotin := List.nodup_middle.mp hnodes |> List.nodup_cons.mp |>.1
  rw [List.eraseP_append_right _ fun b hb => by simpa using hbefore b hb,
    List.eraseP_cons_of_pos hp, List.filter_append, List.filter_cons_of_neg (by simp),
    ← List.filter_append, eq_comm, List.filter_eq_self]
  rintro other hother
  rw [decide_eq_true_iff]
  rintro rfl
  exact hnotin hother

/-- A pair of a later mapping, in its place behind the first one. -/
def behind {n : Nat} (pair : Fin n × Candidate) : Fin (n + 1) × Candidate :=
  (pair.1.succ, pair.2)

theorem map_fst_behind {n : Nat} (lined : List (Fin n × Candidate)) :
    (lined.map behind).map Prod.fst = (lined.map Prod.fst).map Fin.succ := by
  simp [behind, Function.comp_def]

theorem map_snd_behind {n : Nat} (lined : List (Fin n × Candidate)) :
    (lined.map behind).map Prod.snd = lined.map Prod.snd := by
  simp [behind, Function.comp_def]

theorem zero_not_mem_behind {n : Nat} (lined : List (Fin n × Candidate)) (c : Candidate) :
    (0, c) ∉ lined.map behind := by
  simp [behind, Fin.succ_ne_zero]

theorem succ_mem_behind {n : Nat} {lined : List (Fin n × Candidate)} {i : Fin n} {c : Candidate} :
    (i.succ, c) ∈ lined.map behind ↔ (i, c) ∈ lined := by
  simp [behind, Fin.succ_inj]

variable {m : Mapping} {mappings : List Mapping} {nodes : List Candidate} {e : Exact}
  {lined : List (Fin mappings.length × Candidate)}

theorem pairs_behind (m : Mapping) (lined : List (Fin mappings.length × Candidate)) :
    (lined.map behind).map (fun pair => ((m :: mappings).get pair.1, pair.2.node)) =
      lined.map fun pair => (mappings.get pair.1, pair.2.node) := by
  rw [List.map_map]
  rfl

theorem contains_succ_behind (lined : List (Fin mappings.length × Candidate))
    (i : Fin mappings.length) :
    ((lined.map behind).map Prod.fst).contains i.succ = (lined.map Prod.fst).contains i := by
  rw [map_fst_behind, Bool.eq_iff_iff, List.contains_iff_mem, List.contains_iff_mem,
    List.mem_map_of_injective (Fin.succ_injective _)]

theorem freePlaces_take (c : Candidate) (lined : List (Fin mappings.length × Candidate)) :
    freePlaces (m :: mappings) ((0, c) :: lined.map behind) =
      (freePlaces mappings lined).map Fin.succ := by
  rw [freePlaces, finRange_length_cons, List.filter_cons_of_neg (by simp), List.filter_map]
  refine congrArg (List.map Fin.succ) (List.filter_congr fun i _ => ?_)
  rw [Function.comp_apply, List.map_cons, List.contains_cons, contains_succ_behind]
  simp [Fin.succ_ne_zero]

theorem freePlaces_skip (lined : List (Fin mappings.length × Candidate)) :
    freePlaces (m :: mappings) (lined.map behind) = 0 :: (freePlaces mappings lined).map Fin.succ := by
  have hzero : ((lined.map behind).map Prod.fst).contains (0 : Fin (mappings.length + 1)) = false := by
    rw [map_fst_behind, List.contains_eq_mem, decide_eq_false_iff_not, List.mem_map]
    rintro ⟨i, -, hi⟩
    exact Fin.succ_ne_zero i hi
  rw [freePlaces, finRange_length_cons, List.filter_cons_of_pos (by exact congrArg not hzero),
    List.filter_map]
  refine congrArg (fun places => 0 :: places.map Fin.succ) (List.filter_congr fun i _ => ?_)
  rw [Function.comp_apply, contains_succ_behind]

theorem Lined.take {c : Candidate} (hnodes : nodes.Nodup)
    (hc : nodes.find? (startsOnLine m) = some c)
    (h : Lined mappings (nodes.eraseP (startsOnLine m)) e lined) :
    Lined (m :: mappings) nodes (e.put m (some c)) ((0, c) :: lined.map behind) where
  pairs_eq := by
    rw [Exact.put, List.map_cons, h.pairs_eq]
    exact congrArg _ (pairs_behind m lined).symm
  mem_iff i other := by
    rw [List.mem_cons]
    cases i using Fin.cases with
    | zero =>
      rw [partners_cons_zero, hc, Option.some.injEq, or_iff_left (zero_not_mem_behind lined other)]
      simp [eq_comm]
    | succ i =>
      rw [partners_cons_succ, ← h.mem_iff, succ_mem_behind]
      simp [Fin.succ_ne_zero]
  increasing := by
    rw [List.map_cons, map_fst_behind, List.pairwise_cons]
    refine ⟨fun i hi => ?_, h.increasing.map Fin.succ fun _ _ => Fin.succ_lt_succ_iff.mpr⟩
    obtain ⟨j, -, rfl⟩ := List.mem_map.mp hi
    exact Fin.succ_pos j
  mappings_eq := by
    rw [freePlaces_take, List.map_map]
    exact h.mappings_eq
  nodes_eq := by
    have hfree := h.nodes_eq
    rw [freeNodes, eraseP_eq_filter hnodes hc, List.filter_filter] at hfree
    refine hfree.trans (List.filter_congr fun other _ => ?_)
    rw [List.map_cons, List.contains_cons, map_snd_behind, Bool.not_or, Bool.and_comm, decide_not]
    rfl

theorem Lined.skip (hc : nodes.find? (startsOnLine m) = none)
    (h : Lined mappings (nodes.eraseP (startsOnLine m)) e lined) :
    Lined (m :: mappings) nodes (e.put m none) (lined.map behind) where
  pairs_eq := h.pairs_eq.trans (pairs_behind m lined).symm
  mem_iff i other := by
    cases i using Fin.cases with
    | zero =>
      rw [partners_cons_zero, hc]
      exact iff_of_false (zero_not_mem_behind lined other) (by simp)
    | succ i => rw [partners_cons_succ, ← h.mem_iff, succ_mem_behind]
  increasing := by
    rw [map_fst_behind]
    exact h.increasing.map Fin.succ fun _ _ => Fin.succ_lt_succ_iff.mpr
  mappings_eq := by
    rw [freePlaces_skip, List.map_cons, List.map_map]
    exact congrArg _ h.mappings_eq
  nodes_eq := by
    rw [freeNodes, map_snd_behind]
    exact List.eraseP_of_forall_not (List.find?_eq_none.mp hc) ▸ h.nodes_eq

theorem pairs_correlate (mappings : List Mapping) (nodes : List Candidate) :
    (correlate mappings nodes).pairs = (exact mappings nodes).pairs ++
      (byLine (exact mappings nodes).mappings).zip
        ((byStart (exact mappings nodes).nodes).map Candidate.node) := by
  rw [correlate]
  simp only
  split
  · next hempty =>
    rw [Bool.or_eq_true, List.isEmpty_iff, List.isEmpty_iff] at hempty
    rcases hempty with hempty | hempty
    · simp [hempty, byLine]
    · simp [hempty, byStart]
  · rfl

theorem unmatchedMappings_correlate (mappings : List Mapping) (nodes : List Candidate) :
    (correlate mappings nodes).unmatchedMappings =
      if (exact mappings nodes).nodes = [] then (exact mappings nodes).mappings
      else (byLine (exact mappings nodes).mappings).drop (exact mappings nodes).nodes.length := by
  rw [correlate]
  simp only [Bool.or_eq_true, List.isEmpty_iff]
  by_cases hnodes : (exact mappings nodes).nodes = []
  · simp [hnodes]
  · by_cases hmappings : (exact mappings nodes).mappings = []
    · simp [hmappings, byLine]
    · simp [hnodes, hmappings, byStart]

theorem unmatchedNodes_correlate (mappings : List Mapping) (nodes : List Candidate) :
    (correlate mappings nodes).unmatchedNodes =
      (if (exact mappings nodes).mappings = [] then (exact mappings nodes).nodes
      else (byStart (exact mappings nodes).nodes).drop
        (exact mappings nodes).mappings.length).map Candidate.node := by
  rw [correlate]
  simp only [Bool.or_eq_true, List.isEmpty_iff]
  by_cases hmappings : (exact mappings nodes).mappings = []
  · simp [hmappings]
  · by_cases hnodes : (exact mappings nodes).nodes = []
    · simp [hnodes, byStart]
    · simp [hnodes, hmappings, byLine, List.map_drop]

/-- What the pairing is: partners come first, in the order of the mappings, and then what they leave is
paired by rank. -/
structure ByLineAndRank (mappings : List Mapping) (nodes : List Candidate) (c : Correlation)
    (lined : List (Fin mappings.length × Candidate)) (places : List (Fin mappings.length))
    (others : List Candidate) : Prop where
  pairs_eq : c.pairs =
    (lined ++ places.zip others).map fun pair => (mappings.get pair.1, pair.2.node)
  mem_lined_iff : ∀ i candidate, (i, candidate) ∈ lined ↔ Partners mappings nodes i candidate
  lined_increasing : (lined.map Prod.fst).Pairwise (· < ·)
  places_sorted :
    StablySorted (fun i => (mappings.get i).line) (freePlaces mappings lined) places
  others_sorted : StablySorted (fun candidate => candidate.start.coord) (freeNodes nodes lined) others
  /-- Where there is nothing to pair by rank, what is left stays in its order. -/
  mappings_eq : c.unmatchedMappings = ((if others = [] then freePlaces mappings lined
    else places.drop others.length).map mappings.get)
  nodes_eq : c.unmatchedNodes = ((if places = [] then freeNodes nodes lined
    else others.drop places.length).map Candidate.node)

variable {c : Correlation} {places : List (Fin mappings.length)} {others : List Candidate}

/-- No other pairing is by line and rank. -/
theorem ByLineAndRank.unique {c' : Correlation} {lined' : List (Fin mappings.length × Candidate)}
    {places' : List (Fin mappings.length)} {others' : List Candidate}
    (h : ByLineAndRank mappings nodes c lined places others)
    (h' : ByLineAndRank mappings nodes c' lined' places' others') : c = c' := by
  have hlined : lined = lined' := by
    have hnodup {l : List (Fin mappings.length × Candidate)}
        (hl : (l.map Prod.fst).Pairwise (· < ·)) : l.Nodup :=
      List.Nodup.of_map Prod.fst (hl.imp ne_of_lt)
    have hperm : lined.Perm lined' := (List.perm_ext_iff_of_nodup (hnodup h.lined_increasing)
      (hnodup h'.lined_increasing)).mpr fun pair =>
        (h.mem_lined_iff pair.1 pair.2).trans (h'.mem_lined_iff pair.1 pair.2).symm
    exact List.Perm.eq_of_pairwise (fun a b _ _ hab hba => absurd hba (lt_asymm hab))
      (List.pairwise_map.mp h.lined_increasing) (List.pairwise_map.mp h'.lined_increasing) hperm
  subst hlined
  obtain rfl := h.places_sorted.unique (fun _ _ => Nat.le_antisymm) h'.places_sorted
  obtain rfl := h.others_sorted.unique (fun _ _ => Text.Coord.le_antisymm) h'.others_sorted
  obtain ⟨pairs, unmatchedMappings, unmatchedNodes⟩ := c
  obtain ⟨pairs', unmatchedMappings', unmatchedNodes'⟩ := c'
  rw [mk.injEq]
  exact ⟨h.pairs_eq.trans h'.pairs_eq.symm, h.mappings_eq.trans h'.mappings_eq.symm,
    h.nodes_eq.trans h'.nodes_eq.symm⟩

end Correlation

open Correlation

end TexAnchor
