import TexAnchor.Proofs.Agreement

/-! # The numbers of nodes

A handle of a node is the number of its slot, and says no more than that.  `Arena.referent?` is what a
number stands for.  Edits move the ranges of all nodes, and neither new nodes nor the exchange of a
child take away what a number stands for (`Arena.Moves`).

When a text is read the root gets the first number, and then the nodes are numbered in the order in
which they close (`Document.referent?_of_parse`). -/

namespace TexAnchor

open Text (Coord)

/-! ### What a number stands for -/

/-- What the number of a node stands for: a node of this kind at this range. -/
structure Referent where
  kind : NodeKind
  range : Range
deriving DecidableEq, Repr

namespace Tree

mutual

/-- The nodes of a tree in the order in which they close, parents after children. -/
def closing : Tree → List Referent
  | node kind span children => forestClosing children ++ [⟨kind, Arena.rangeOf span⟩]

/-- The nodes of a list of trees in the order in which they close. -/
def forestClosing : List Tree → List Referent
  | [] => []
  | t :: forest => t.closing ++ forestClosing forest

end

end Tree

namespace Arena

/-- What a number stands for, if it is that of a live node. -/
def referent? (a : Arena) (id : NodeId) : Option Referent :=
  (a.get? id).map fun node => ⟨node.kind, node.range⟩

/-- What stands for what in `a` does so in `b`, with the ranges moved by `f`. -/
def Moves (f : Range → Range) (a b : Arena) : Prop :=
  ∀ id r, a.referent? id = some r → b.referent? id = some ⟨r.kind, f r.range⟩

variable {a b c : Arena} {f g : Range → Range}

theorem Moves.trans (h : Moves f a b) (h' : Moves g b c) : Moves (g ∘ f) a c :=
  fun id r hr => h' id _ (h id r hr)

theorem moves_of_referent?_eq (h : ∀ id, b.referent? id = a.referent? id) :
    Moves (fun range => range) a b :=
  fun id _ hr => (h id).trans hr

theorem moves_applyEdit (a : Arena) (e : Edit) : Moves e.mapRange a (a.applyEdit e) := by
  intro id r hr
  obtain ⟨node, hnode, rfl⟩ := Option.map_eq_some_iff.mp hr
  rw [referent?, get?_applyEdit, hnode]
  rfl

theorem Grows.moves {ps : List Planted} (h : a.Grows b ps) : Moves (fun range => range) a b := by
  intro id r hr
  obtain ⟨node, hnode, rfl⟩ := Option.map_eq_some_iff.mp hr
  rw [referent?, h.frame id (h.not_mem (by rw [hnode]; rfl)), hnode]
  rfl

theorem referent?_update (a : Arena) (top : NodeId) (change : Node → Node)
    (hkind : ∀ node, (change node).kind = node.kind) (hrange : ∀ node, (change node).range = node.range)
    (id : NodeId) : (a.update top change).referent? id = a.referent? id := by
  rw [referent?, get?_update]
  split
  · next heq =>
    subst heq
    rw [referent?, Option.map_map]
    congr 1
    funext node
    rw [Function.comp_apply, hkind, hrange]
  · rfl

theorem referent?_adopt (a : Arena) (up : NodeId) (ids : List NodeId) (id : NodeId) :
    (a.adopt up ids).referent? id = a.referent? id := by
  rw [referent?, get?_adopt]
  split
  · rw [Option.map_map]
    rfl
  · rfl

theorem referent?_replaceChild? {up current new : NodeId}
    (h : a.replaceChild? up current new = some b) (id : NodeId) : b.referent? id = a.referent? id := by
  unfold Arena.replaceChild? at h
  simp only at h
  split at h
  · obtain rfl := Option.some.inj h
    simp only [referent?_update, implies_true]
  · cases h

theorem moves_replaceChild? {up current new : NodeId} (h : a.replaceChild? up current new = some b) :
    Moves (fun range => range) a b :=
  moves_of_referent?_eq (referent?_replaceChild? h)

/-! ### The numbers of the nodes that are read -/

/-- What the numbers stand for, one after the other. -/
def referents (a : Arena) : List (Option Referent) :=
  (List.range a.slots.size).map fun i => a.referent? ⟨i⟩

theorem referent?_eq (a : Arena) (id : NodeId) : a.referent? id = a.referents[id.index]?.join := by
  by_cases hlt : id.index < a.slots.size
  · simp [referents, hlt]
  · simp [referents, referent?, get?, hlt]

theorem referents_adopt (a : Arena) (up : NodeId) (ids : List NodeId) :
    (a.adopt up ids).referents = a.referents := by
  rw [referents, size_adopt, referents]
  exact List.map_congr_left fun i _ => a.referent?_adopt up ids ⟨i⟩

theorem referents_alloc (hfree : a.free = []) (kind : NodeKind) (range : Range)
    (children : List NodeId) : (a.alloc kind range children).1.free = [] ∧
      (a.alloc kind range children).1.referents = a.referents ++ [some ⟨kind, range⟩] := by
  unfold alloc place
  rw [hfree]
  simp only [free_adopt, referents_adopt, true_and]
  rw [referents, Array.size_push, List.range_succ, List.map_append, referents]
  congr 1
  · refine List.map_congr_left fun i hi => ?_
    have hlt : i < a.slots.size := List.mem_range.mp hi
    simp [referent?, get?, Array.getElem?_push, Nat.ne_of_lt hlt]
  · simp [referent?, get?]

mutual

/-- Where no slot is free the nodes of a tree get their numbers as they close. -/
theorem referents_addTree : (t : Tree) → ∀ {a : Arena}, a.free = [] →
    (a.addTree t).1.free = [] ∧ (a.addTree t).1.referents = a.referents ++ t.closing.map some
  | .node kind span children, a, hfree => by
    obtain ⟨hfree', hreferents⟩ := referents_addForest children hfree
    obtain ⟨hfree'', halloc⟩ :=
      referents_alloc hfree' kind (rangeOf span) (a.addForest children).2
    refine ⟨hfree'', halloc.trans ?_⟩
    rw [hreferents, Tree.closing, List.map_append, List.append_assoc]
    rfl

theorem referents_addForest : (forest : List Tree) → ∀ {a : Arena}, a.free = [] →
    (a.addForest forest).1.free = [] ∧
      (a.addForest forest).1.referents = a.referents ++ (Tree.forestClosing forest).map some
  | [], a, hfree => ⟨hfree, by simp [addForest, Tree.forestClosing]⟩
  | t :: forest, a, hfree => by
    obtain ⟨hfree', hreferents⟩ := referents_addTree t hfree
    obtain ⟨hfree'', hreferents'⟩ := referents_addForest forest hfree'
    refine ⟨hfree'', hreferents'.trans ?_⟩
    rw [hreferents, Tree.forestClosing, List.map_append, List.append_assoc]

end

/-- In a text that was read the root has the first number, and then the nodes are numbered in the order
in which they close. -/
theorem referent?_ofForest (stop : Coord) (forest : List Tree) (id : NodeId) :
    (ofForest stop forest).referent? id =
      (⟨.latex, rangeOf ⟨.zero, stop⟩⟩ :: Tree.forestClosing forest)[id.index]? := by
  obtain ⟨-, hreferents⟩ :=
    referents_addForest forest (a := rooted (rangeOf ⟨.zero, stop⟩)) rfl
  simp only [ofForest, attachToRoot, referent?_update, implies_true]
  rw [referent?_eq, referents_adopt, hreferents]
  have hroot : (rooted (rangeOf ⟨.zero, stop⟩)).referents =
      [⟨.latex, rangeOf ⟨.zero, stop⟩⟩].map some := rfl
  rw [hroot, ← List.map_append, List.getElem?_map, List.singleton_append]
  cases (⟨.latex, rangeOf ⟨.zero, stop⟩⟩ :: Tree.forestClosing forest)[id.index]? <;> rfl

end Arena

/-- What a number stands for when a text has been read: the root has the first number, and then the
nodes are numbered in the order in which they close. -/
def readReferent? (text : List Char) (id : NodeId) : Option Referent :=
  match Grammar.readFrom .zero text with
  | .ok forest =>
    (⟨.latex, Arena.rangeOf ⟨.zero, Coord.zero.advance text⟩⟩ :: Tree.forestClosing forest)[id.index]?
  | .error _ => none

theorem Document.referent?_of_parse {d : Document} {path : Path} {text : List Char}
    (h : parse path text = .ok d) (id : NodeId) : d.arena.referent? id = readReferent? text id := by
  obtain ⟨forest, hread, rfl⟩ := parse_eq_ok_iff.mp h
  rw [readReferent?, hread]
  exact Arena.referent?_ofForest _ _ id

end TexAnchor
