import TexAnchor.Proofs.Failing
import TexAnchor.Proofs.Numbering

/-! # What operations do to the nodes of a file

`Operation.effect` is what an operation does to the nodes of a file: it leaves them, it moves them by
an edit, or it reads the file anew.

As long as a file is not read anew every node that was there keeps its number and its kind, and its
range moves with the edits; no slot is used again before the nodes outside the tree are freed
(`Document.Descends`, `Workspace.Tidy.exists_descends`).  What is there after the file has been read
anew is what a parse makes of its text (`Effect.Takes`, `Workspace.Tidy.takes_perform`). -/

namespace TexAnchor

/-! ### Effects -/

/-- What happens to the nodes of a file: they are moved by an edit, if there is one, and the file may
be read anew after that. -/
structure Effect where
  edit? : Option Edit
  readsAnew : Bool
deriving DecidableEq, Repr

namespace Effect

/-- Nothing happens. -/
def kept : Effect := ⟨none, false⟩

/-- The nodes are moved. -/
def moved (e : Edit) : Effect := ⟨some e, false⟩

/-- The nodes are moved and the file is read anew. -/
def reread (e : Edit) : Effect := ⟨some e, true⟩

/-- The whole content goes, and another one is read or none. -/
def reset : Effect := ⟨none, true⟩

end Effect

/-- Where a range lies after the edits of some effects. -/
def follow (effects : List Effect) (range : Range) : Range :=
  (effects.filterMap Effect.edit?).foldl (fun range e => e.mapRange range) range

/-- What a text is after the edits of some effects. -/
def applyEdits (effects : List Effect) (text : List Char) : List Char :=
  (effects.filterMap Effect.edit?).foldl (fun text e => e.applyTo text) text

/-- What it does to the nodes of a document to put a text in the place of a node's source. -/
def Document.effect (d : Document) (id : NodeId) (text : List Char) : Effect :=
  match d.arena.get? id, (d.replaceNode id text).2 with
  | some node, .ok outcome =>
    if id = Arena.root then .reset
    else if outcome = .reparsed then .reread ⟨node.range, text⟩
    else .moved ⟨node.range, text⟩
  | some node, .error (.parse _) => if id = Arena.root then .kept else .moved ⟨node.range, text⟩
  | _, _ => .kept

/-- What it does to the nodes of a file to put a text in the place of the source of a node of another
file, or of this one. -/
def Workspace.replaceEffect (w : Workspace) (target : Path) (id : NodeId) (text : List Char)
    (file : Path) : Effect :=
  match w.document? target with
  | some d => if target.same file then d.effect id text else .kept
  | none => .kept

/-- What an operation does to the nodes of a file. -/
def Operation.effect (op : Operation) (w : Workspace) (file : Path) : Effect :=
  match op with
  | .setFile target text => if target.same file ∧ (w.setFile target text).2.isOk then .reset else .kept
  | .removeFile target => if target.same file then .reset else .kept
  | .applyEdit target e =>
    if target.same file ∧ (w.applyEdit target e).2.isOk then .moved e else .kept
  | .replaceNode target id text => w.replaceEffect target id text file
  | .applyModelEdit uid text =>
    match w.model? uid with
    | some m => w.replaceEffect m.sourceFile m.node text file
    | none => .kept
  | _ => .kept

namespace Workspace

/-- The workspace after some operations. -/
def after (w : Workspace) (ops : List Operation) : Workspace :=
  ops.foldl (fun v op => (v.perform op).1) w

/-- What some operations do to the nodes of a file, one after the other. -/
def effects (w : Workspace) (file : Path) : List Operation → List Effect
  | [] => []
  | op :: ops => op.effect w file :: (w.perform op).1.effects file ops

/-- None of the operations reads the file anew. -/
def Keeps (w : Workspace) (file : Path) (ops : List Operation) : Prop :=
  ∀ effect ∈ w.effects file ops, effect.readsAnew = false

end Workspace

/-! ### Documents that are not read anew -/

namespace Document

/-- The document `d'` has come from `d` by effects that did not read it anew. -/
structure Descends (d : Document) (effects : List Effect) (d' : Document) : Prop where
  path_eq : d'.path = d.path
  text_eq : d'.text = applyEdits effects d.text
  moves : d.arena.Moves (follow effects) d'.arena

variable {d d' d'' : Document} {id : NodeId} {text : List Char} {effects later : List Effect}

theorem Descends.refl (d : Document) : d.Descends [] d :=
  ⟨rfl, rfl, Arena.moves_of_referent?_eq fun _ => rfl⟩

theorem descends_kept (d : Document) : d.Descends [.kept] d :=
  ⟨rfl, rfl, Arena.moves_of_referent?_eq fun _ => rfl⟩

theorem Descends.append (h : d.Descends effects d') (h' : d'.Descends later d'') :
    d.Descends (effects ++ later) d'' where
  path_eq := h'.path_eq.trans h.path_eq
  text_eq := by
    rw [h'.text_eq, h.text_eq]
    simp [applyEdits]
  moves := by
    have hfollow : follow (effects ++ later) = follow later ∘ follow effects := by
      funext range
      simp [follow]
    rw [hfollow]
    exact h.moves.trans h'.moves

theorem descends_applyEdit {e : Edit} (h : d.applyEdit e = .ok d') : d.Descends [.moved e] d' := by
  rw [applyEdit_eq_ok h]
  exact ⟨rfl, rfl, d.arena.moves_applyEdit e⟩

theorem Descends.congr {arena : Arena} (h : d.Descends effects d')
    (hmoves : d'.arena.Moves (fun range => range) arena) :
    d.Descends effects { d' with arena := arena } :=
  ⟨h.path_eq, h.text_eq, h.moves.trans hmoves⟩

theorem Reachable.exists_root (h : d.Reachable) :
    ∃ node, d.arena.isAttached Arena.root = true ∧ d.arena.get? Arena.root = some node := by
  obtain ⟨p, hp⟩ := h.exists_carries
  obtain ⟨children, hnode⟩ := hp.holds.get?
  rw [hp.root_eq] at hnode
  exact ⟨_, hp.isAttached_iff.mpr (hp.root_eq ▸ p.id_mem_ids), hnode⟩

/-- A replacement that does not read the document anew moves its nodes, and keeps those that it takes
out of the tree. -/
theorem Reachable.descends_replaceNode (h : d.Reachable) (hkept : (d.effect id text).readsAnew = false) :
    d.Descends [d.effect id text] (d.replaceNode id text).1 := by
  rcases hreplaced : d.replaceNode id text with ⟨d', outcome⟩
  obtain ⟨p, hp⟩ := h.exists_carries
  cases replaces_of_replaceNode hreplaced with
  | unreadRoot hroot =>
    obtain ⟨node, -, hnode⟩ := h.exists_root
    subst hroot
    simpa [effect, hnode, hreplaced] using d.descends_kept
  | readRoot hroot =>
    obtain ⟨node, -, hnode⟩ := h.exists_root
    subst hroot
    simp [effect, hnode, hreplaced, Effect.reset] at hkept
  | unknown =>
    have heffect : d.effect id text = .kept := by
      unfold effect
      rw [hreplaced]
      split <;> simp_all
    rw [heffect]
    exact d.descends_kept
  | outside _ _ hnode hrefused =>
    have hfailed := applyEdit_eq_error hrefused
    subst hfailed
    simpa [effect, hnode, hreplaced] using d.descends_kept
  | exchanged hroot _ hnode _ hedited _ _ _ _ hexchanged =>
    obtain ⟨q, -, hgrows, -⟩ := Arena.addTree_spec _ (carries_applyEdit hp hedited).sound
    have hdescends := (descends_applyEdit hedited).congr
      (hgrows.moves.trans (Arena.moves_replaceChild? hexchanged))
    simpa [effect, hnode, hreplaced, hroot] using hdescends
  | reread hroot _ hnode => simp [effect, hnode, hreplaced, hroot, Effect.reread] at hkept
  | unread hroot _ hnode hedited =>
    obtain ⟨ps, hgrows⟩ := exists_grows_addFragment (carries_applyEdit hp hedited).sound _ text
    have hdescends := (descends_applyEdit hedited).congr hgrows.moves
    simpa [effect, hnode, hreplaced, hroot] using hdescends

/-- A replacement that succeeds puts the text in the place of the source of a node of the tree. -/
theorem Reachable.text_of_replaceNode (h : d.Reachable) {outcome : Replacement}
    (hdone : (d.replaceNode id text).2 = .ok outcome) :
    ∃ node, d.arena.isAttached id = true ∧ d.arena.get? id = some node ∧
      (d.replaceNode id text).1.text =
        if id = Arena.root then text else Edit.applyTo ⟨node.range, text⟩ d.text := by
  split
  · next hroot =>
    obtain ⟨node, hattached, hnode⟩ := h.exists_root
    subst hroot
    refine ⟨node, hattached, hnode, ?_⟩
    rcases hreplaced : d.replaceNode Arena.root text with ⟨d', _⟩
    rw [hreplaced] at hdone
    cases replaces_of_replaceNode hreplaced with
    | readRoot _ hfresh => exact text_of_parse hfresh
    | unreadRoot => cases hdone
    | _ hne => exact absurd rfl hne
  · next hroot => exact text_replaceNode_eq_applyTo hroot hdone

theorem parse_of_reparsed (h : d.replaceNode id text = (d', .ok .reparsed)) :
    parse d'.path d'.text = .ok d' := by
  cases replaces_of_replaceNode h with
  | readRoot _ hfresh | reread _ _ _ _ hfresh => exact parse_self hfresh

theorem parse_of_readsAnew (hanew : (d.effect id text).readsAnew = true) :
    parse (d.replaceNode id text).1.path (d.replaceNode id text).1.text =
      .ok (d.replaceNode id text).1 := by
  refine parse_of_reparsed (Prod.ext rfl ?_)
  unfold effect at hanew
  split at hanew
  · next outcome _ houtcome =>
    rw [houtcome]
    split at hanew
    · next hroot =>
      have hreplaces := d.replaces_replaceNode id text
      rw [houtcome] at hreplaces
      generalize (d.replaceNode id text).1 = fresh at hreplaces
      cases hreplaces with
      | readRoot => rfl
      | _ hne => exact absurd hroot hne
    · split at hanew
      · next hreparsed => rw [hreparsed]
      · cases hanew
  · split at hanew <;> cases hanew
  · cases hanew

end Document

/-- What an effect says about a file's document before and after it: if the file is not read anew the
document is still there and its nodes have moved, and if it is read anew what is there was read. -/
def Effect.Takes (effect : Effect) (before after : Option Document) : Prop :=
  if effect.readsAnew then ∀ d, after = some d → Document.parse d.path d.text = .ok d
  else (before = none → after = none) ∧
    ∀ d, before = some d → ∃ d', after = some d' ∧ d.Descends [effect] d'

namespace Effect

variable {d : Document}

theorem takes_kept (before : Option Document) : kept.Takes before before :=
  ⟨fun hnone => hnone, fun d hd => ⟨d, hd, d.descends_kept⟩⟩

theorem takes_replaceNode (h : d.Reachable) (id : NodeId) (text : List Char) :
    (d.effect id text).Takes (some d) (some (d.replaceNode id text).1) := by
  unfold Takes
  split
  · next hanew =>
    rintro _ ⟨⟩
    exact Document.parse_of_readsAnew hanew
  · next hkept =>
    refine ⟨fun hnone => absurd hnone (Option.some_ne_none d), ?_⟩
    rintro _ ⟨⟩
    exact ⟨_, rfl, h.descends_replaceNode (Bool.eq_false_iff.mpr hkept)⟩

end Effect

/-! ### Workspaces -/

namespace Workspace

variable {w w' : Workspace} {d d' : Document} {file target : Path} {id : NodeId} {text : List Char}
  {op : Operation} {ops later : List Operation}

theorem document?_put (hd : w.document? target = some d) (hpath : d'.path = d.path) (file : Path) :
    (w.putDocument d').document? file =
      if target.same file then some d' else w.document? file := by
  split
  · next hsame =>
    rw [← document?_congr _ (Path.same_iff.mp hsame)]
    exact document?_putDocument_same hd hpath
  · next hother =>
    refine document?_putDocument_of_ne ?_
    rw [Bool.eq_false_iff]
    intro hsame
    have htarget := Path.same_iff.mp (mem_of_document? hd).2
    exact hother (Path.same_iff.mpr
      (((Path.same_iff.mp hsame).trans (congrArg _ hpath)).trans htarget).symm)

theorem document?_removeFile (w : Workspace) (target file : Path) :
    (w.removeFile target).document? file =
      if target.same file then none else w.document? file := by
  simp only [document?, removeFile, List.find?_filter]
  split
  · next hsame =>
    rw [List.find?_eq_none]
    intro d _
    simp [Path.same, Path.same_iff.mp hsame]
  · next hother =>
    congr 1
    funext d
    have : d.path.same file = true → d.path.same target = false := by
      simp only [Path.same, beq_iff_eq, beq_eq_false_iff_ne] at hother ⊢
      exact fun hd htarget => hother (htarget.symm.trans hd)
    cases hd : d.path.same file <;> simp_all

theorem exists_fresh_setFile (h : w.setFile target text = (w', .ok ())) :
    ∃ fresh, Document.parse fresh.path fresh.text = .ok fresh ∧ ∀ file, w'.document? file =
      if target.same file then some fresh else w.document? file := by
  unfold setFile at h
  split at h
  · next d hd =>
    split at h
    · next fresh hfresh =>
      obtain ⟨rfl, -⟩ := Prod.mk.inj h
      exact ⟨fresh, Document.parse_self hfresh, document?_put hd (Document.path_of_parse hfresh)⟩
    · cases h
  · next hnone =>
    split at h
    · next fresh hfresh =>
      obtain ⟨rfl, -⟩ := Prod.mk.inj h
      refine ⟨fresh, Document.parse_self hfresh, fun file => ?_⟩
      rw [document?, List.find?_append, ← document?, List.find?_singleton,
        Document.path_of_parse hfresh]
      split
      · next hsame => rw [← document?_congr w (Path.same_iff.mp hsame), hnone]; rfl
      · rw [Option.or_none]
    · cases h

theorem Tidy.takes_replaceNode (h : w.Tidy) (target : Path) (id : NodeId) (text : List Char)
    (file : Path) : (w.replaceEffect target id text file).Takes (w.document? file)
      ((w.replaceNode target id text).1.document? file) := by
  unfold replaceEffect Workspace.replaceNode
  cases hd : w.document? target with
  | none => exact Effect.takes_kept _
  | some d =>
    simp only [document?_put hd (d.path_replaceNode id text)]
    split
    · next hsame =>
      rw [← document?_congr w (Path.same_iff.mp hsame), hd]
      exact Effect.takes_replaceNode (h.reachable d (mem_of_document? hd).1) id text
    · exact Effect.takes_kept _

theorem takes_setFile (w : Workspace) (target : Path) (text : List Char) (file : Path) :
    (Operation.effect (.setFile target text) w file).Takes (w.document? file)
      ((w.setFile target text).1.document? file) := by
  rcases hset : w.setFile target text with ⟨w', error | _⟩
  · obtain rfl := setFile_eq_error hset
    simpa [Operation.effect, hset, Except.isOk, Except.toBool] using Effect.takes_kept _
  · obtain ⟨fresh, hfresh, hfound⟩ := exists_fresh_setFile hset
    simp only [Operation.effect, hset, hfound]
    by_cases hsame : target.same file = true
    · simp [hsame, Except.isOk, Except.toBool, Effect.Takes, Effect.reset, hfresh]
    · simpa [hsame] using Effect.takes_kept _

theorem applyEdit_eq_ok {e : Edit} (h : w.applyEdit target e = (w', .ok ())) :
    ∃ d edited, w.document? target = some d ∧ d.applyEdit e = .ok edited ∧
      w' = w.putDocument edited ∧ edited.path = d.path := by
  unfold Workspace.applyEdit at h
  split at h
  · cases h
  · next d hd =>
    split at h
    · next edited hedited =>
      refine ⟨d, edited, hd, hedited, (Prod.mk.inj h).1.symm, ?_⟩
      rw [Document.applyEdit_eq_ok hedited]
    · cases h

theorem takes_applyEdit (w : Workspace) (target : Path) (e : Edit) (file : Path) :
    (Operation.effect (.applyEdit target e) w file).Takes (w.document? file)
      ((w.applyEdit target e).1.document? file) := by
  rcases hedit : w.applyEdit target e with ⟨w', error | _⟩
  · obtain rfl := applyEdit_eq_error hedit
    simpa [Operation.effect, hedit, Except.isOk, Except.toBool] using Effect.takes_kept _
  · obtain ⟨d, edited, hd, hedited, rfl, hpath⟩ := applyEdit_eq_ok hedit
    simp only [Operation.effect, hedit, document?_put hd hpath]
    by_cases hsame : target.same file = true
    · rw [← document?_congr w (Path.same_iff.mp hsame), hd]
      simpa [hsame, Except.isOk, Except.toBool, Effect.Takes, Effect.moved] using
        Document.descends_applyEdit hedited
    · simpa [hsame] using Effect.takes_kept _

/-- What an operation other than an extraction does to the document of a file. -/
theorem Tidy.takes_perform (h : w.Tidy) (hop : op ≠ .extract) (file : Path) :
    (op.effect w file).Takes (w.document? file) ((w.perform op).1.document? file) := by
  cases op with
  | register p => exact Effect.takes_kept _
  | setFile target text =>
    rw [Workspace.perform, fst_reported]
    exact w.takes_setFile target text file
  | removeFile target =>
    simp only [Operation.effect, Workspace.perform, document?_removeFile]
    split
    · simp [Effect.Takes, Effect.reset]
    · exact Effect.takes_kept _
  | applyEdit target e =>
    rw [Workspace.perform, fst_reported]
    exact w.takes_applyEdit target e file
  | replaceNode target id text =>
    rw [Workspace.perform, fst_reported]
    exact h.takes_replaceNode target id text file
  | setMappings target batch => exact Effect.takes_kept _
  | load batch =>
    obtain ⟨mappings, heq⟩ := w.exists_mappings_load batch
    rw [Workspace.perform, fst_reported, heq]
    exact Effect.takes_kept _
  | loadFrom directory =>
    obtain ⟨mappings, heq⟩ := w.exists_mappings_loadFrom directory
    rw [Workspace.perform, fst_reported, heq]
    exact Effect.takes_kept _
  | extract => exact absurd rfl hop
  | applyModelEdit uid text =>
    rw [Workspace.perform, fst_reported, Operation.effect, Workspace.applyModelEdit]
    split
    · next m hm =>
      rw [hm]
      exact h.takes_replaceNode m.sourceFile m.node text file
    · next hnone =>
      rw [hnone]
      exact Effect.takes_kept _

/-! ### Runs between extractions -/

/-- An operation that does not extract changes no more than documents, mappings and providers. -/
theorem exists_perform_eq (w : Workspace) (hop : op ≠ .extract) :
    ∃ documents mappings providers, (w.perform op).1 =
      { w with documents := documents, mappings := mappings, providers := providers } := by
  have hreplace (target : Path) (id : NodeId) (text : List Char) :
      ∃ documents, (w.replaceNode target id text).1 = { w with documents := documents } := by
    unfold replaceNode
    split <;> exact ⟨_, rfl⟩
  cases op with
  | register p => exact ⟨_, _, _, rfl⟩
  | setFile target text =>
    rw [perform, fst_reported, setFile]
    split <;> split <;> exact ⟨_, _, _, rfl⟩
  | removeFile target => exact ⟨_, _, _, rfl⟩
  | applyEdit target e =>
    rw [perform, fst_reported, applyEdit]
    split
    · exact ⟨_, _, _, rfl⟩
    · split <;> exact ⟨_, _, _, rfl⟩
  | replaceNode target id text =>
    obtain ⟨documents, heq⟩ := hreplace target id text
    exact ⟨documents, _, _, (fst_reported _).trans heq⟩
  | setMappings target batch => exact ⟨_, _, _, rfl⟩
  | load batch =>
    obtain ⟨mappings, heq⟩ := w.exists_mappings_load batch
    exact ⟨_, mappings, _, (fst_reported _).trans heq⟩
  | loadFrom directory =>
    obtain ⟨mappings, heq⟩ := w.exists_mappings_loadFrom directory
    exact ⟨_, mappings, _, (fst_reported _).trans heq⟩
  | extract => exact absurd rfl hop
  | applyModelEdit uid text =>
    rw [perform, fst_reported, applyModelEdit]
    split
    · exact ⟨_, _, _, rfl⟩
    · next m _ =>
      obtain ⟨documents, heq⟩ := hreplace m.sourceFile m.node text
      exact ⟨documents, _, _, heq⟩

theorem models_perform (w : Workspace) (hop : op ≠ .extract) : (w.perform op).1.models = w.models := by
  obtain ⟨documents, mappings, providers, heq⟩ := w.exists_perform_eq hop
  rw [heq]

theorem models_after (w : Workspace) (hops : .extract ∉ ops) : (w.after ops).models = w.models := by
  induction ops generalizing w with
  | nil => rfl
  | cons op ops ih =>
    exact (ih _ (List.not_mem_of_not_mem_cons hops)).trans
      (w.models_perform (List.ne_of_not_mem_cons hops).symm)

theorem Tidy.after (h : w.Tidy) (ops : List Operation) : (w.after ops).Tidy := by
  induction ops generalizing w with
  | nil => exact h
  | cons op ops ih => exact ih (h.perform op)

theorem after_append (w : Workspace) (ops later : List Operation) :
    w.after (ops ++ later) = (w.after ops).after later :=
  List.foldl_append

/-- While a file is not read anew its document stays there, and the nodes keep their numbers. -/
theorem Tidy.exists_descends (h : w.Tidy) (hops : .extract ∉ ops) (hkeeps : w.Keeps file ops) :
    (w.document? file = none → (w.after ops).document? file = none) ∧
      ∀ d, w.document? file = some d → ∃ d', (w.after ops).document? file = some d' ∧
        d.Descends (w.effects file ops) d' := by
  induction ops generalizing w with
  | nil => exact ⟨fun hnone => hnone, fun d hd => ⟨d, hd, .refl d⟩⟩
  | cons op ops ih =>
    obtain ⟨hfirst, hkeeps⟩ := List.forall_mem_cons.mp hkeeps
    have htakes := h.takes_perform (List.ne_of_not_mem_cons hops).symm file
    rw [Effect.Takes, hfirst] at htakes
    obtain ⟨hnone, hsome⟩ := htakes
    obtain ⟨hnone', hsome'⟩ := ih (h.perform op) (List.not_mem_of_not_mem_cons hops) hkeeps
    refine ⟨fun hfile => hnone' (hnone hfile), fun d hd => ?_⟩
    obtain ⟨d', hd', hdescends⟩ := hsome d hd
    obtain ⟨d'', hd'', hdescends'⟩ := hsome' d' hd'
    exact ⟨d'', hd'', hdescends.append hdescends'⟩

end Workspace

end TexAnchor
