import TexAnchor.Arena.Walk
import TexAnchor.Proofs.ArenaRuns

/-! # What a walk visits

A walk works off an agenda, and what is on the agenda are the tops of trees that are still to be
visited, each with its depth (`Walk.visitAgenda_eq`).  So a walk makes the visits of a list one after
the other: the live nodes below the start which are not deeper below it than it may go
(`View.nearby`), parents before children, each taken to the method for its kind.

That holds in every monad, whether a visit acts at once or suspends.  A walk that may be stopped makes
the same visits up to the one in which the token is cancelled (`Walk.CancelledIn`), and tells whether
these were all (`Arena.Reached.walk_and_walkUntil_eq`). -/

namespace TexAnchor

/-- The visitor whose methods are those of a function for every kind, with what is particular to the
node in its kind. -/
def Visitor.ofKinds {m : Type → Type} (visit : NodeKind → View → m Unit) : Visitor m where
  visitLatex := visit .latex
  visitText v content := visit (.text content) v
  visitWhitespace v newlines := visit (.whitespace newlines) v
  visitComment v content := visit (.comment content) v
  visitSpecialSymbol v symbol := visit (.specialSymbol symbol) v
  visitCommand v name := visit (.command name) v
  visitEnvironment v name count := visit (.environment name count) v
  visitGroup := visit .group
  visitMath v delimiter content := visit (.math delimiter content) v
  visitCurlyBlock := visit .curlyBlock
  visitSquareBlock := visit .squareBlock
  visitParameterList := visit .parameterList
  visitParameter v value := visit (.parameter value) v
  visitAssignment v key value := visit (.assignment key value) v

namespace Arena

/-- So many steps from parent to child lead from `up` to a node. -/
inductive StepsBelow (a : Arena) (up : NodeId) : Nat → NodeId → Prop
  | self : StepsBelow a up 0 up
  | step {steps : Nat} {mid id : NodeId} :
    StepsBelow a up steps mid → a.IsParent mid id → StepsBelow a up (steps + 1) id

/-- The number of steps from parent to parent that lead to `up`, if a bound on them is enough. -/
def stepsUp (a : Arena) (up : NodeId) : Nat → NodeId → Nat
  | 0, _ => 0
  | bound + 1, id =>
    if id = up then 0
    else match (a.get? id).bind Node.parent with
      | some mid => a.stepsUp up bound mid + 1
      | none => 0

/-- How deep a node is below `up`. -/
def depthBelow (a : Arena) (up id : NodeId) : Nat :=
  a.stepsUp up a.capacity id

end Arena

/-- The nodes below the start that a walk with a greatest depth may visit, parents before children. -/
def View.nearby (start : View) (maxDepth : Option Nat) : List View :=
  start.descendants.filter fun v => maxDepth.all (start.arena.depthBelow start.id v.id ≤ ·)

namespace Walk

variable {m : Type → Type} [Monad m]

/-- The token is cancelled in the `n`-th of some visits, or before them if `n` is zero: asked between
two visits, it is cancelled exactly if `n` visits were made by then.  What was done before the visits
may have made the token. -/
def CancelledIn (n : Nat) (before : m Unit) (stopped : m Bool) (visits : List (m Unit)) : Prop :=
  ∀ made < visits.length,
    (do before; (visits.take made).forM id; stopped) =
      (do before; (visits.take made).forM id; return decide (n ≤ made))

/-- Some visits one after the other, each unless it is stopped before it; the answer is whether none
was left out. -/
def visitEach (stopped : m Bool) : List (m Unit) → m Bool
  | [] => pure true
  | visit :: visits => do
    if ← stopped then pure false
    else
      visit
      visitEach stopped visits

end Walk

/-! ### Methods and kinds -/

namespace Visitor

variable {m : Type → Type}

theorem exists_ofKinds (visitor : Visitor m) : ∃ visit, visitor = ofKinds visit := by
  refine ⟨fun kind v => ?_, ?_⟩
  · cases kind with
    | latex => exact visitor.visitLatex v
    | text content => exact visitor.visitText v content
    | whitespace newlines => exact visitor.visitWhitespace v newlines
    | comment content => exact visitor.visitComment v content
    | specialSymbol symbol => exact visitor.visitSpecialSymbol v symbol
    | command name => exact visitor.visitCommand v name
    | environment name count => exact visitor.visitEnvironment v name count
    | group => exact visitor.visitGroup v
    | math delimiter content => exact visitor.visitMath v delimiter content
    | curlyBlock => exact visitor.visitCurlyBlock v
    | squareBlock => exact visitor.visitSquareBlock v
    | parameterList => exact visitor.visitParameterList v
    | parameter value => exact visitor.visitParameter v value
    | assignment key value => exact visitor.visitAssignment v key value
  · rfl

theorem accept_ofKinds (visit : NodeKind → View → m Unit) (v : View) :
    (ofKinds visit).accept v = visit v.kind v := by
  unfold accept
  cases v.kind <;> rfl

end Visitor

/-! ### Depths -/

namespace Planted

mutual

/-- The identities of the nodes, parents before children, each with its depth; the top's is given. -/
def depths (depth : Nat) : Planted → List (NodeId × Nat)
  | node id _ _ children => (id, depth) :: depthsOf (depth + 1) children

/-- The identities and depths of the nodes of some trees in order; the tops' depth is given. -/
def depthsOf (depth : Nat) : List Planted → List (NodeId × Nat)
  | [] => []
  | p :: ps => p.depths depth ++ depthsOf depth ps

end

theorem depthsOf_eq (depth : Nat) (ps : List Planted) :
    depthsOf depth ps = ps.flatMap (depths depth) := by
  induction ps with
  | nil => rfl
  | cons p ps ih => rw [depthsOf, ih, List.flatMap_cons]

@[simp] theorem depths_node (depth : Nat) (id : NodeId) (kind : NodeKind) (range : Range)
    (children : List Planted) : (node id kind range children).depths depth =
      (id, depth) :: children.flatMap (depths (depth + 1)) := by
  rw [depths, depthsOf_eq]

end Planted

namespace Arena

variable {a : Arena} {p : Planted} {ps : List Planted} {up mid id : NodeId} {steps : Nat}
  {parent : Option NodeId}

theorem StepsBelow.head (hup : a.IsParent up mid) (h : a.StepsBelow mid steps id) :
    a.StepsBelow up (steps + 1) id := by
  induction h with
  | self => exact .step .self hup
  | step _ hid ih => exact .step ih hid

theorem StepsBelow.reflTransGen (h : a.StepsBelow up steps id) :
    Relation.ReflTransGen a.IsParent up id := by
  induction h with
  | self => exact .refl
  | step _ hid ih => exact ih.tail hid

theorem exists_stepsBelow (h : Relation.ReflTransGen a.IsParent up id) :
    ∃ steps, a.StepsBelow up steps id := by
  induction h with
  | refl => exact ⟨0, .self⟩
  | tail _ hid ih =>
    obtain ⟨steps, hmid⟩ := ih
    exact ⟨steps + 1, hmid.step hid⟩

theorem Holds.map_fst_depths (h : a.Holds parent p) (depth : Nat) :
    (p.depths depth).map Prod.fst = p.ids := by
  induction h generalizing depth with
  | @node parent id kind range children _ _ ih =>
    rw [Planted.depths_node, Planted.ids_node, List.map_cons, List.map_flatMap]
    exact congrArg _ (List.flatMap_congr fun c hc => ih c hc _)

/-- A node's depth in a held tree is that of the top and the number of steps from there. -/
theorem Holds.stepsBelow_of_mem_depths (h : a.Holds parent p) {depth : Nat} {x : NodeId × Nat}
    (hx : x ∈ p.depths depth) : ∃ steps, x.2 = depth + steps ∧ a.StepsBelow p.id steps x.1 := by
  induction h generalizing depth with
  | @node parent id kind range children _ hchildren ih =>
    rw [Planted.depths_node, List.mem_cons] at hx
    rcases hx with rfl | hx
    · exact ⟨0, rfl, .self⟩
    · obtain ⟨c, hc, hx⟩ := List.mem_flatMap.mp hx
      obtain ⟨steps, hdepth, hsteps⟩ := ih c hc hx
      obtain ⟨below, hchild⟩ := (hchildren c hc).get?
      exact ⟨steps + 1, by omega, .head ⟨_, hchild, rfl⟩ hsteps⟩

/-- Every step goes to a node with fewer nodes below it. -/
theorem Consists.length_descendants_add_le (h : a.Consists ps) (hsteps : a.StepsBelow up steps id) :
    (a.descendants id).length + steps ≤ (a.descendants up).length := by
  induction hsteps with
  | self => exact Nat.le_refl _
  | step _ hid ih =>
    have hlt := h.length_descendants_lt hid
    omega

/-- Counting up from a node finds the number of steps that lead down to it. -/
theorem Consists.stepsUp_eq (h : a.Consists ps) (hsteps : a.StepsBelow up steps id) {bound : Nat}
    (hbound : steps < bound) : a.stepsUp up bound id = steps := by
  induction hsteps generalizing bound with
  | self =>
    obtain ⟨bound, rfl⟩ : ∃ n, bound = n + 1 := ⟨bound - 1, by omega⟩
    rw [stepsUp, if_pos rfl]
  | @step steps mid id hmid hid ih =>
    obtain ⟨bound, rfl⟩ : ∃ n, bound = n + 1 := ⟨bound - 1, by omega⟩
    have hne : id ≠ up := by
      rintro rfl
      exact h.acyclic _ (Relation.TransGen.tail' hmid.reflTransGen hid)
    obtain ⟨node, hnode, hparent⟩ := hid
    rw [stepsUp, if_neg hne, hnode, Option.bind_some, hparent]
    simp only [ih (by omega : steps < bound)]

theorem Consists.isSome_of_mem_descendants (h : a.Consists ps) (hid : id ∈ a.descendants up) :
    (a.get? id).isSome = true := by
  obtain ⟨hlive, hchain⟩ := h.mem_descendants_iff.mp hid
  cases hchain with
  | refl => exact hlive
  | tail _ hid =>
    obtain ⟨node, hnode, -⟩ := hid
    simp [hnode]

/-- The depth of a node below another is the number of steps that lead down to it. -/
theorem Consists.stepsBelow_iff (h : a.Consists ps) (hid : id ∈ a.descendants up) :
    a.StepsBelow up steps id ↔ steps = a.depthBelow up id := by
  have heq {steps : Nat} (hsteps : a.StepsBelow up steps id) : a.depthBelow up id = steps := by
    refine h.stepsUp_eq hsteps ?_
    have hle := h.length_descendants_add_le hsteps
    have hself : id ∈ a.descendants id :=
      h.mem_descendants_iff.mpr ⟨h.isSome_of_mem_descendants hid, .refl⟩
    have hcapacity : (a.descendants up).length ≤ a.capacity :=
      length_le_capacity (h.nodup_descendants up) fun _ => h.isSome_of_mem_descendants
    have hpos := List.length_pos_of_mem hself
    omega
  refine ⟨fun hsteps => (heq hsteps).symm, ?_⟩
  rintro rfl
  obtain ⟨steps, hsteps⟩ := exists_stepsBelow (h.mem_descendants_iff.mp hid).2
  exact heq hsteps ▸ hsteps

end Arena

/-! ### The agenda -/

namespace Walk

variable {m : Type → Type} [Monad m] {a : Arena}

/-- The live nodes of some trees that are not too deep, in order; each tree comes with its depth. -/
def due (a : Arena) (maxDepth : Option Nat) (entries : List (Planted × Nat)) : List View :=
  ((entries.flatMap fun x => x.1.depths x.2).filter fun x => maxDepth.all (x.2 ≤ ·)).filterMap
    fun x => a.view? x.1

/-- The agenda with the tops of some trees. -/
def agendaOf (a : Arena) (entries : List (Planted × Nat)) : List (View × Nat) :=
  entries.filterMap fun x => (a.view? x.1.id).map (·, x.2)

/-- What is put on the agenda after a visit. -/
def deeper (maxDepth : Option Nat) (children : List Planted) (depth : Nat) : List (Planted × Nat) :=
  if descends maxDepth depth then children.map (·, depth + 1) else []

theorem below_eq (maxDepth : Option Nat) {v : View} {children : List Planted}
    (hchildren : v.node.children = children.map Planted.id) (depth : Nat) :
    below maxDepth v depth = agendaOf v.arena (deeper maxDepth children depth) := by
  unfold below deeper
  split
  · simp [View.children, hchildren, agendaOf, List.filterMap_map, List.map_filterMap]
  · rfl

theorem mem_deeper {maxDepth : Option Nat} {children : List Planted} {depth : Nat}
    {x : Planted × Nat} (hx : x ∈ deeper maxDepth children depth) :
    x.1 ∈ children ∧ maxDepth.all (x.2 ≤ ·) = true := by
  unfold deeper at hx
  split at hx
  · next hdescends =>
    obtain ⟨c, hc, rfl⟩ := List.mem_map.mp hx
    exact ⟨hc, hdescends⟩
  · cases hx

theorem length_ids_deeper_le (maxDepth : Option Nat) (children : List Planted) (depth : Nat) :
    ((deeper maxDepth children depth).flatMap fun x => x.1.ids).length ≤
      (children.flatMap Planted.ids).length := by
  unfold deeper
  split
  · rw [List.flatMap_map]
  · exact Nat.zero_le _

theorem due_cons {maxDepth : Option Nat} {parent : Option NodeId} {id : NodeId} {kind : NodeKind}
    {range : Range} {children : List Planted} {depth : Nat} {entries : List (Planted × Nat)}
    {v : View} (hv : a.view? id = some v) (h : a.Holds parent (.node id kind range children))
    (hdepth : maxDepth.all (depth ≤ ·) = true) :
    due a maxDepth ((.node id kind range children, depth) :: entries) =
      v :: due a maxDepth (deeper maxDepth children depth ++ entries) := by
  have hdeeper : ((children.flatMap (Planted.depths (depth + 1))).filter fun x =>
      maxDepth.all (x.2 ≤ ·)) = ((deeper maxDepth children depth).flatMap fun x =>
        x.1.depths x.2).filter fun x => maxDepth.all (x.2 ≤ ·) := by
    unfold deeper
    split
    · rw [List.flatMap_map]
    · next hstop =>
      refine List.filter_eq_nil_iff.mpr fun x hx => ?_
      obtain ⟨c, hc, hx⟩ := List.mem_flatMap.mp hx
      cases h with
      | node _ hchildren =>
        obtain ⟨steps, hsteps, -⟩ := (hchildren c hc).stepsBelow_of_mem_depths hx
        cases maxDepth with
        | none => cases hstop rfl
        | some most =>
          simp only [descends, Option.all_some, decide_eq_true_eq] at hstop ⊢
          omega
  simp only [due, List.flatMap_cons, List.flatMap_append, List.filter_append, Planted.depths_node,
    ← hdeeper, List.cons_append, List.filter_cons, if_pos hdepth, List.filterMap_cons, hv]

/-- As long as the bound on visits is enough for all trees on the agenda, just what is due is
visited. -/
theorem visitAgenda_eq (visitor : Visitor m) (maxDepth : Option Nat) (stopped : m Bool)
    {visits : Nat} {entries : List (Planted × Nat)}
    (hheld : ∀ x ∈ entries, ∃ parent, a.Holds parent x.1)
    (hdepth : ∀ x ∈ entries, maxDepth.all (x.2 ≤ ·) = true)
    (hvisits : (entries.flatMap fun x => x.1.ids).length ≤ visits) :
    visitAgenda visitor maxDepth stopped visits (agendaOf a entries) =
      visitEach stopped ((due a maxDepth entries).map visitor.accept) := by
  induction visits generalizing entries with
  | zero =>
    cases entries with
    | nil => simp [agendaOf, due, visitAgenda, visitEach]
    | cons x entries =>
      obtain ⟨⟨id, kind, range, children⟩, depth⟩ := x
      simp at hvisits
  | succ visits ih =>
    cases entries with
    | nil => simp [agendaOf, due, visitAgenda, visitEach]
    | cons x entries =>
      obtain ⟨⟨id, kind, range, children⟩, depth⟩ := x
      obtain ⟨parent, htop⟩ := hheld _ (List.mem_cons_self ..)
      have hheld' : ∀ x ∈ deeper maxDepth children depth ++ entries, ∃ parent,
          a.Holds parent x.1 := by
        intro x hx
        rcases List.mem_append.mp hx with hx | hx
        · cases htop with
          | node _ hchildren => exact ⟨_, hchildren x.1 (mem_deeper hx).1⟩
        · exact hheld x (List.mem_cons_of_mem _ hx)
      have hdepth' : ∀ x ∈ deeper maxDepth children depth ++ entries,
          maxDepth.all (x.2 ≤ ·) = true := by
        intro x hx
        rcases List.mem_append.mp hx with hx | hx
        exacts [(mem_deeper hx).2, hdepth x (List.mem_cons_of_mem _ hx)]
      have hvisits' : ((deeper maxDepth children depth ++ entries).flatMap fun x =>
          x.1.ids).length ≤ visits := by
        have hle := length_ids_deeper_le maxDepth children depth
        simp only [List.flatMap_cons, Planted.ids_node, List.length_append, List.length_cons,
          List.flatMap_append] at hvisits hle ⊢
        omega
      have hv : a.view? id = some ⟨a, id, ⟨kind, range, children.map Planted.id, parent⟩⟩ := by
        cases htop with
        | node hget => rw [Arena.view?, hget, Option.map_some]
      have hagenda : agendaOf a ((.node id kind range children, depth) :: entries) =
          (⟨a, id, ⟨kind, range, children.map Planted.id, parent⟩⟩, depth) :: agendaOf a entries := by
        simp only [agendaOf, List.filterMap_cons, Planted.id_node, hv, Option.map_some]
      rw [hagenda, due_cons hv htop (hdepth _ (List.mem_cons_self ..)), List.map_cons, visitAgenda,
        visitEach, below_eq maxDepth rfl, ← ih hheld' hdepth' hvisits', agendaOf, agendaOf, agendaOf,
        List.filterMap_append]

/-! ### Visits that may be stopped -/

variable [LawfulMonad m]

theorem visitEach_append (before : m Unit) (stopped : m Bool) (n : Nat) (made later : List (m Unit))
    (hmade : made.length ≤ n) (h : CancelledIn n before stopped (made ++ later)) :
    (do before; made.forM id; visitEach stopped later) =
      (do before; ((made ++ later).take n).forM id; return decide ((made ++ later).length ≤ n)) := by
  induction later generalizing made with
  | nil => simp [visitEach, hmade, List.take_of_length_le]
  | cons visit later ih =>
    have hasked := h made.length (by simp)
    rw [List.take_left] at hasked
    have hstep : (do before; made.forM id; visitEach stopped (visit :: later)) =
        (do before; made.forM id
            if decide (n ≤ made.length) then pure false
            else
              visit
              visitEach stopped later) := by
      have hanswered := congrArg (· >>= fun answer =>
        if answer then pure false else visit >>= fun _ => visitEach stopped later) hasked
      simpa only [bind_assoc, pure_bind, visitEach] using hanswered
    rw [hstep]
    by_cases hn : n ≤ made.length
    · obtain rfl : made.length = n := Nat.le_antisymm hmade hn
      have hleft : ¬ made.length + (later.length + 1) ≤ made.length := by omega
      simp [hleft]
    · have hmade' : (made ++ [visit]).length ≤ n := by
        rw [List.length_append, List.length_singleton]
        omega
      have hlater := ih (made ++ [visit]) hmade' (by simpa using h)
      simpa [hn, List.forM_append] using hlater

/-- Visits in the `n`-th of which the token is cancelled end after it. -/
theorem visitEach_of_cancelledIn {n : Nat} {before : m Unit} {stopped : m Bool}
    {visits : List (m Unit)} (h : CancelledIn n before stopped visits) :
    (do before; visitEach stopped visits) =
      (do before; (visits.take n).forM id; return decide (visits.length ≤ n)) := by
  simpa using visitEach_append before stopped n [] visits (Nat.zero_le n) h

theorem visitEach_pure_false (visits : List (m Unit)) :
    visitEach (pure false) visits = (do visits.forM id; return true) := by
  induction visits with
  | nil => simp [visitEach]
  | cons visit visits ih => simp [visitEach, ih]

/-- A walk with a token that is never cancelled makes the visits of a walk without one. -/
theorem visitAgenda_pure_false (visitor : Visitor m) (maxDepth : Option Nat) (visits : Nat)
    (agenda : List (View × Nat)) : visitAgenda visitor maxDepth (pure false) visits agenda =
      (do visitAll visitor maxDepth visits agenda; return true) := by
  induction visits generalizing agenda with
  | zero => cases agenda <;> simp [visitAgenda, visitAll]
  | succ visits ih =>
    cases agenda with
    | nil => simp [visitAgenda, visitAll]
    | cons item agenda => simp [visitAgenda, visitAll, ih]

/-- The kinds and identities of visited nodes. -/
abbrev Record := List (NodeKind × NodeId)

/-- A visit that puts the node on record. -/
def record (kind : NodeKind) (v : View) : StateM Record Unit :=
  modify (· ++ [(kind, v.id)])

/-- The token that is cancelled once `n` nodes are on record. -/
def recorded (n : Nat) : StateM Record Bool :=
  return decide (n ≤ (← get).length)

theorem forM_record (views : List View) (seen : Record) :
    (views.map fun v => record v.kind v).forM id seen =
      ((), seen ++ views.map fun v => (v.kind, v.id)) := by
  induction views generalizing seen with
  | nil => simp; rfl
  | cons v views ih =>
    have hstep : (((v :: views).map fun v => record v.kind v).forM id) seen =
        (views.map fun v => record v.kind v).forM id (seen ++ [(v.kind, v.id)]) := rfl
    rw [hstep, ih, List.append_assoc, List.map_cons, List.singleton_append]

theorem cancelledIn_recorded (n : Nat) (views : List View) :
    CancelledIn n (set ([] : Record)) (recorded n) (views.map fun v => record v.kind v) := by
  intro made hmade
  rw [List.length_map] at hmade
  funext seen
  have hlast (last : StateM Record Bool) :
      (do set ([] : Record); ((views.map fun v : View => record v.kind v).take made).forM id; last) seen =
        last ((views.take made).map fun v => (v.kind, v.id)) := by
    have hrecord := forM_record (views.take made) []
    rw [List.map_take] at hrecord
    exact congrArg (fun x => last x.2) hrecord
  rw [hlast, hlast]
  show (decide (n ≤ _), _) = (decide (n ≤ made), _)
  rw [List.length_map, List.length_take_of_le hmade.le]

end Walk

/-! ### Walks -/

theorem View.walk_eq {m : Type → Type} [Monad m] [LawfulMonad m] (start : View) (visitor : Visitor m)
    (maxDepth : Option Nat) :
    start.walk visitor maxDepth = discard (start.walkUntil visitor maxDepth (pure false)) := by
  rw [walkUntil, Walk.visitAgenda_pure_false, walk]
  simp [discard, map_const]

namespace Arena

variable {a : Arena} {counts : List Nat} {id : NodeId} {start : View}

theorem map_id_filter_view? {ids : List NodeId} (hlive : ∀ i ∈ ids, (a.get? i).isSome = true)
    (near : NodeId → Bool) :
    ((ids.filterMap a.view?).filter fun v => near v.id).map View.id = ids.filter near := by
  induction ids with
  | nil => rfl
  | cons i ids ih =>
    have ih := ih fun j hj => hlive j (List.mem_cons_of_mem _ hj)
    obtain ⟨node, hnode⟩ := Option.isSome_iff_exists.mp (hlive i (List.mem_cons_self ..))
    rw [List.filterMap_cons_some (by rw [view?, hnode, Option.map_some]), List.filter_cons,
      List.filter_cons]
    split
    · rw [List.map_cons, ih]
    · exact ih

theorem Consists.exists_due {ps : List Planted} (h : a.Consists ps) (hstart : a.view? id = some start)
    (maxDepth : Option Nat) : ∃ p parent, p.id = id ∧ a.Holds parent p ∧ p.ids.length ≤ a.capacity ∧
      Walk.due a maxDepth [(p, 0)] = start.nearby maxDepth := by
  obtain ⟨node, hnode, rfl⟩ := Option.map_eq_some_iff.mp hstart
  obtain ⟨p, hp, hholds, hid⟩ := h.exists_mem hnode
  obtain ⟨kind, range, children, parent, hocc, htop⟩ := hholds.exists_at hid
  have hdescendants := htop.descendants_eq (hocc.nodup (nodup_ids_of_mem h.nodup hp))
  refine ⟨_, parent, rfl, htop, ?_, ?_⟩
  · rw [← hdescendants]
    exact length_le_capacity (h.nodup_descendants _) fun _ => h.isSome_of_mem_descendants
  · rw [Planted.id_node] at hdescendants
    rw [View.nearby, View.descendants, hdescendants, ← htop.map_fst_depths 0, List.filterMap_map,
      List.filter_filterMap, Walk.due, List.flatMap_singleton, List.filterMap_filter]
    refine List.filterMap_congr fun x hx => ?_
    obtain ⟨steps, hdepth, hsteps⟩ := htop.stepsBelow_of_mem_depths hx
    have hmem : x.1 ∈ a.descendants id := by
      rw [hdescendants, ← htop.map_fst_depths 0]
      exact List.mem_map_of_mem hx
    obtain rfl := (h.stepsBelow_iff hmem).mp hsteps
    rw [Nat.zero_add] at hdepth
    cases hview : a.view? x.1 with
    | none => simp [hview]
    | some v =>
      have hv : v.id = x.1 := by
        obtain ⟨_, -, rfl⟩ := Option.map_eq_some_iff.mp hview
        rfl
      simp [hview, hdepth, hv, Option.filter]

/-- The visits of a walk from a live node, which may be stopped before each of them. -/
theorem Consists.walkUntil_eq {ps : List Planted} (h : a.Consists ps)
    (hstart : a.view? id = some start) {m : Type → Type} [Monad m] (visitor : Visitor m)
    (maxDepth : Option Nat) (stopped : m Bool) : start.walkUntil visitor maxDepth stopped =
      Walk.visitEach stopped ((start.nearby maxDepth).map visitor.accept) := by
  obtain ⟨p, parent, rfl, hp, hcapacity, hdue⟩ := h.exists_due hstart maxDepth
  obtain ⟨node, hnode, rfl⟩ := Option.map_eq_some_iff.mp hstart
  have hagenda : Walk.agendaOf a [(p, 0)] = [(⟨a, p.id, node⟩, 0)] := by
    simp only [Walk.agendaOf, List.filterMap_cons, hstart, Option.map_some, List.filterMap_nil]
  rw [View.walkUntil, ← hagenda, ← hdue]
  refine Walk.visitAgenda_eq visitor maxDepth stopped ?_ ?_ (by simpa using hcapacity)
  · simpa using ⟨parent, hp⟩
  · simp

/-- In a run of an arena, a walk from a live node visits the nodes below it that are at most as many
steps below it as the walk may go, each once, parents before children, and takes each to the method
for its kind.  If the token is cancelled in the `n`-th visit these are the first `n` of the visits,
and the answer is whether there are no others. -/
theorem Reached.walk_and_walkUntil_eq (h : Reached a counts) (hstart : a.view? id = some start)
    (maxDepth : Option Nat) :
    (∀ i ∈ a.descendants id, ∀ steps, a.StepsBelow id steps i ↔ steps = a.depthBelow id i) ∧
      (start.nearby maxDepth).map View.id =
        ((a.descendants id).filter fun i => maxDepth.all (a.depthBelow id i ≤ ·)) ∧
      ((start.nearby maxDepth).map View.id).Nodup ∧
      ∀ {m : Type → Type} [Monad m] [LawfulMonad m],
        (∀ visitor : Visitor m, ∃ visit, visitor = .ofKinds visit) ∧
        ∀ visit : NodeKind → View → m Unit,
          start.walk (.ofKinds visit) maxDepth =
            (start.nearby maxDepth).forM (fun v => visit v.kind v) ∧
          ∀ (n : Nat) (before : m Unit) (stopped : m Bool),
            Walk.CancelledIn n before stopped
              ((start.nearby maxDepth).map fun v => visit v.kind v) →
            (do before; start.walkUntil (.ofKinds visit) maxDepth stopped) =
              (do before
                  ((start.nearby maxDepth).take n).forM fun v => visit v.kind v
                  return decide ((start.nearby maxDepth).length ≤ n)) := by
  obtain ⟨⟨ps, hps⟩, -⟩ := h.exists_consists
  have hnearby : (start.nearby maxDepth).map View.id =
      (a.descendants id).filter fun i => maxDepth.all (a.depthBelow id i ≤ ·) := by
    obtain ⟨node, -, rfl⟩ := Option.map_eq_some_iff.mp hstart
    exact map_id_filter_view? (fun _ => hps.isSome_of_mem_descendants)
      fun i => maxDepth.all (a.depthBelow id i ≤ ·)
  refine ⟨fun i hi steps => hps.stepsBelow_iff hi, hnearby,
    hnearby ▸ (hps.nodup_descendants id).filter _,
    ⟨Visitor.exists_ofKinds, fun visit => ⟨?_, fun n before stopped hcancelled => ?_⟩⟩⟩
  · rw [View.walk_eq, hps.walkUntil_eq hstart, funext (Visitor.accept_ofKinds visit),
      Walk.visitEach_pure_false]
    simp [discard, map_const]
  · rw [hps.walkUntil_eq hstart, funext (Visitor.accept_ofKinds visit),
      Walk.visitEach_of_cancelledIn hcancelled, List.length_map, ← List.map_take]
    simp only [List.forM_eq_forM, List.forM_map, id_eq]

/-- In a document of a letter and a group, the root and its children are visited, but not the letter
in the group. -/
theorem walk_and_walkUntil_eq_letterAndGroup : ∃ start, letterAndGroup.view? root = some start ∧
    ((start.walk (.ofKinds Walk.record) (some 1)).run []).2 =
      [(.latex, ⟨0⟩), (.text "a", ⟨1⟩), (.whitespace 0, ⟨2⟩), (.group, ⟨4⟩)] ∧
    (do set ([] : Walk.Record); start.walkUntil (.ofKinds Walk.record) (some 1) (Walk.recorded 3)).run [] =
      (false, [(.latex, ⟨0⟩), (.text "a", ⟨1⟩), (.whitespace 0, ⟨2⟩)]) ∧
    ((do set ([] : Walk.Record); start.walkUntil (.ofKinds Walk.record) (some 1) (Walk.recorded 4)).run []).1 =
      true := by
  have hparse : Arena.parse ['a', ' ', '{', 'b', '}'] = .ok letterAndGroup := rfl
  have hstart : letterAndGroup.view? root = some ⟨letterAndGroup, root,
      (letterAndGroup.get? root).getD default⟩ := rfl
  obtain ⟨-, -, -, hwalks⟩ := (Reached.parse hparse).walk_and_walkUntil_eq hstart (some 1)
  obtain ⟨hwalk, huntil⟩ := hwalks.2 Walk.record
  refine ⟨_, hstart, ?_, ?_, ?_⟩
  · rw [hwalk]
    rfl
  · rw [huntil 3 _ _ (Walk.cancelledIn_recorded _ _)]
    rfl
  · rw [huntil 4 _ _ (Walk.cancelledIn_recorded _ _)]
    rfl

end Arena

end TexAnchor
