import TexAnchor.Proofs.Workspaces

/-! # Operations that fail

`Workspace.perform` is what an operation leaves of a workspace, and its error.  An operation that
fails leaves the workspace as it was, with one exception: a text that was put in the place of a node's
source stays there if the whole file can then not be read any more (`Operation.Unreads`).

By that time the text has been read alone, and its nodes are in the arena.  They stay outside the
tree until they are freed (`Arena.AddsDetached`), so apart from them the workspace is the one that an
edit of the node's range makes (`Workspace.LeftUnread`).  This is
`Workspace.Attained.eq_and_leftUnread`. -/

namespace TexAnchor

open Text (Coord)

/-! ### Detached nodes -/

namespace Arena

/-- The arena `b` is `a` with more nodes, which are outside the tree until they are freed. -/
structure AddsDetached (a b : Arena) : Prop where
  get?_eq : ∀ id, (a.get? id).isSome = true → b.get? id = a.get? id
  descendants_eq : b.descendants root = a.descendants root
  isAttached_eq : ∀ id, b.isAttached id = a.isAttached id
  mem_detached_iff : ∀ id,
    id ∈ b.detached ↔ id ∈ a.detached ∨ a.get? id = none ∧ (b.get? id).isSome = true
  get?_freeDetached : ∀ id, b.freeDetached.get? id = a.freeDetached.get? id

theorem Carries.addsDetached {a b : Arena} {p : Planted} {ps : List Planted} (h : a.Carries p)
    (hgrows : a.Grows b ps) : a.AddsDetached b := by
  have hb := h.grow hgrows
  have hkept (id : NodeId) (hid : (a.get? id).isSome = true) : b.get? id = a.get? id :=
    hgrows.frame id (hgrows.not_mem hid)
  refine ⟨hkept, ?_, fun id => ?_, fun id => ?_, fun id => ?_⟩
  · rw [hb.descendants_root, h.descendants_root]
  · rw [Bool.eq_iff_iff, hb.isAttached_iff, h.isAttached_iff]
  · rw [hb.mem_detached, h.mem_detached]
    cases hid : a.get? id with
    | none =>
      have hnot : id ∉ p.ids := fun hmem => by simpa [hid] using h.holds.isSome hmem
      simp [hnot]
    | some node => simp [hkept id (by simp [hid]), hid]
  · simp only [Arena.get?_freeDetached, hb.mem_detached, h.mem_detached]
    by_cases hid : id ∈ p.ids
    · simp [hid, hkept id (h.holds.isSome hid)]
    · cases a.get? id <;> cases b.get? id <;> simp [hid]

end Arena

namespace Document

variable {d d' edited : Document} {p : Planted} {id : NodeId} {text : List Char} {e : Edit}

theorem applyEdit_eq_error {error : EditError} (h : d.applyEdit e = .error error) :
    error = .outOfBounds e.range.stop.line (Text.lineCount d.text) := by
  unfold applyEdit at h
  simp only at h
  split at h
  · exact (Except.error.inj h).symm
  · cases h

/-- A replacement that fails has changed nothing, or it has written over a node below the root, added
detached nodes, and found the whole text not to be markup. -/
theorem replaceNode_eq_error (h : d.arena.Carries p) {error : EditError}
    (hfail : d.replaceNode id text = (d', .error error)) :
    (d' = d ∧ (id ≠ Arena.root → ∀ failure, error ≠ .parse failure)) ∨
      ∃ node edited failure, id ≠ Arena.root ∧ error = .parse failure ∧
        d.arena.isAttached id = true ∧ d.arena.get? id = some node ∧
        d.applyEdit ⟨node.range, text⟩ = .ok edited ∧
        parse edited.path edited.text = .error failure ∧ d'.path = edited.path ∧
        d'.text = edited.text ∧ edited.arena.AddsDetached d'.arena := by
  cases replaces_of_replaceNode hfail with
  | unreadRoot hroot => exact .inl ⟨rfl, fun hne => absurd hroot hne⟩
  | unknown => exact .inl ⟨rfl, fun _ _ => EditError.noConfusion⟩
  | outside _ _ _ hrefused =>
    refine .inl ⟨rfl, fun _ failure => ?_⟩
    rw [applyEdit_eq_error hrefused]
    exact EditError.noConfusion
  | @unread node edited failure hroot hattached hnode hedited hunread =>
    have hcarries := carries_applyEdit h hedited
    obtain ⟨ps, hgrows⟩ := exists_grows_addFragment hcarries.sound node.range.start.coord text
    exact .inr ⟨node, edited, failure, hroot, rfl, hattached, hnode, hedited, hunread, rfl, rfl,
      hcarries.addsDetached hgrows⟩

end Document

/-! ### Operations -/

/-- An operation on a workspace. -/
inductive Operation
  | register (p : Provider)
  | setFile (file : Path) (text : List Char)
  | removeFile (file : Path)
  | applyEdit (file : Path) (edit : Edit)
  | replaceNode (file : Path) (id : NodeId) (text : List Char)
  | setMappings (file : Path) (batch : List Mapping)
  | load (file : Option ByteArray)
  | loadFrom (directory : List (Path × ByteArray))
  | extract
  | applyModelEdit (uid : Uid) (text : List Char)

namespace Workspace

/-- What an operation that can fail leaves of the workspace, and its error. -/
def reported {α : Type} : Workspace × Except WorkspaceError α → Workspace × Option WorkspaceError
  | (changed, .ok _) => (changed, none)
  | (changed, .error error) => (changed, some error)

/-- What an operation leaves of the workspace, and its error. -/
def perform (w : Workspace) : Operation → Workspace × Option WorkspaceError
  | .register p => (w.register p, none)
  | .setFile file text => reported (w.setFile file text)
  | .removeFile file => (w.removeFile file, none)
  | .applyEdit file edit => reported (w.applyEdit file edit)
  | .replaceNode file id text => reported (w.replaceNode file id text)
  | .setMappings file batch => (w.setMappings file batch, none)
  | .load file => reported (w.load file)
  | .loadFrom directory => reported (w.loadFrom directory)
  | .extract => (w.extract, none)
  | .applyModelEdit uid text => reported (w.applyModelEdit uid text)

/-- The workspaces that operations make, with any providers. -/
inductive Attained : Workspace → Prop
  | start (settings : Settings) (providers : Providers) : Attained (withProviders settings providers)
  | perform {w : Workspace} (op : Operation) : Attained w → Attained (w.perform op).1

end Workspace

/-- The file, the node and the text of an operation that writes over a node's source. -/
def Operation.target? (w : Workspace) : Operation → Option (Path × NodeId × List Char)
  | .replaceNode file id text => some (file, id, text)
  | .applyModelEdit uid text => (w.model? uid).map fun m => (m.sourceFile, m.node, text)
  | _ => none

/-- The operation failed as the file cannot be read any more with `text` in the place of the source of
a node that is not the root. -/
def Operation.Unreads (op : Operation) (w : Workspace) (error : WorkspaceError) (file : Path)
    (id : NodeId) (text : List Char) : Prop :=
  op.target? w = some (file, id, text) ∧ id ≠ Arena.root ∧ ∃ failure, error = .edit (.parse failure)

namespace Workspace

variable {w w' : Workspace} {d d' : Document} {file : Path} {id : NodeId} {text : List Char}
  {error : WorkspaceError}

theorem fst_reported {α : Type} (r : Workspace × Except WorkspaceError α) : (reported r).1 = r.1 := by
  obtain ⟨changed, _ | _⟩ := r <;> rfl

theorem Tidy.perform (h : w.Tidy) (op : Operation) : (w.perform op).1.Tidy := by
  cases op with
  | register p => exact ⟨h.distinct, h.reachable⟩
  | setFile file text =>
    rw [Workspace.perform, fst_reported]
    exact h.setFile file text
  | removeFile file => exact h.removeFile file
  | applyEdit file edit =>
    rw [Workspace.perform, fst_reported]
    exact h.applyEdit file edit
  | replaceNode file id text =>
    rw [Workspace.perform, fst_reported]
    exact h.replaceNode file id text
  | setMappings file batch => exact ⟨h.distinct, h.reachable⟩
  | load batch =>
    obtain ⟨mappings, heq⟩ := w.exists_mappings_load batch
    rw [Workspace.perform, fst_reported, heq]
    exact ⟨h.distinct, h.reachable⟩
  | loadFrom directory =>
    obtain ⟨mappings, heq⟩ := w.exists_mappings_loadFrom directory
    rw [Workspace.perform, fst_reported, heq]
    exact ⟨h.distinct, h.reachable⟩
  | extract => exact h.extract
  | applyModelEdit uid text =>
    rw [Workspace.perform, fst_reported, Workspace.applyModelEdit]
    split
    · exact h
    · exact h.replaceNode _ _ _

theorem Attained.tidy (h : w.Attained) : w.Tidy := by
  induction h with
  | start settings providers => exact ⟨by simp [withProviders], by simp [withProviders]⟩
  | perform op _ ih => exact ih.perform op

theorem attained_new (settings : Settings) : (Workspace.new settings).Attained :=
  .start settings _

theorem Attained.setFile (h : w.Attained) (file : Path) (text : List Char) :
    (w.setFile file text).1.Attained := by
  have hperform := h.perform (.setFile file text)
  rwa [Workspace.perform, fst_reported] at hperform

/-! ### What a failure leaves -/

/-- Apart from detached nodes in one file, `w'` is `w` with `text` in the place of a node's source
there, as an edit alone leaves it. -/
structure LeftUnread (w w' : Workspace) (file : Path) (id : NodeId) (text : List Char) : Prop where
  /-- Settings, mappings, providers, models, report and handles are as they were. -/
  rest : w' = { w with documents := w'.documents }
  paths : w'.documents.map Document.path = w.documents.map Document.path
  others : ∀ other, other.same file = false → w'.document? other = w.document? other
  edited : ∃ d node alone edited d', w.document? file = some d ∧ d.arena.isAttached id = true ∧
    d.arena.get? id = some node ∧ w.applyEdit file ⟨node.range, text⟩ = (alone, .ok ()) ∧
    alone.document? file = some edited ∧ w'.document? file = some d' ∧ d'.path = edited.path ∧
    d'.text = edited.text ∧ edited.arena.AddsDetached d'.arena

theorem Tidy.map_putDocument (h : w.Tidy) (hd : d ∈ w.documents) (hpath : d'.path = d.path) :
    (w.putDocument d').documents.map Document.path = w.documents.map Document.path := by
  rw [Workspace.putDocument, List.map_map]
  refine List.map_congr_left fun old hold => ?_
  rw [Function.comp_apply]
  split
  · next hsame => rw [hpath, h.eq_of_same hold hd (hpath ▸ hsame)]
  · rfl

theorem Tidy.putDocument_self (h : w.Tidy) (hd : d ∈ w.documents) : w.putDocument d = w := by
  have hdocuments : w.documents.map (fun old => if old.path.same d.path then d else old) =
      w.documents.map id := by
    refine List.map_congr_left fun old hold => ?_
    split
    · next hsame => exact (h.eq_of_same hold hd hsame).symm
    · rfl
  rw [Workspace.putDocument, hdocuments, List.map_id]

theorem document?_putDocument_same (hd : w.document? file = some d) (hpath : d'.path = d.path) :
    (w.putDocument d').document? file = some d' := by
  rw [document?_putDocument, hd, Option.map_some, if_pos]
  rw [hpath]
  exact Path.same_iff.mpr rfl

/-- A replacement that fails has changed nothing, or it has left a file that cannot be read. -/
theorem Tidy.replaceNode_eq_error (h : w.Tidy)
    (hfail : w.replaceNode file id text = (w', .error error)) :
    (w' = w ∧ (id ≠ Arena.root → ∀ failure, error ≠ .edit (.parse failure))) ∨
      w.LeftUnread w' file id text ∧ id ≠ Arena.root ∧ ∃ failure, error = .edit (.parse failure) := by
  unfold Workspace.replaceNode at hfail
  split at hfail
  · cases hfail
    exact .inl ⟨rfl, fun _ _ => WorkspaceError.noConfusion⟩
  · next d hd =>
    obtain ⟨hmem, hsame⟩ := mem_of_document? hd
    obtain ⟨p, hp⟩ := (h.reachable d hmem).exists_carries
    cases hresult : d.replaceNode id text with
    | mk d' outcome =>
      rw [hresult] at hfail
      cases outcome with
      | ok outcome => simp [Except.mapError] at hfail
      | error failure =>
        cases hfail
        rcases Document.replaceNode_eq_error hp hresult with ⟨rfl, hother⟩ |
          ⟨node, edited, unread, hroot, rfl, hattached, hnode, hedited, -, hpath, htext, hadds⟩
        · refine .inl ⟨h.putDocument_self hmem, fun hroot unread heq => ?_⟩
          exact hother hroot unread (WorkspaceError.edit.inj heq)
        · have hpath' : edited.path = d.path := by rw [Document.applyEdit_eq_ok hedited]
          refine .inr ⟨⟨rfl, ?_, ?_, ?_⟩, hroot, unread, rfl⟩
          · exact h.map_putDocument hmem (hpath.trans hpath')
          · intro other hother
            refine document?_putDocument_of_ne ?_
            rw [hpath, hpath', Path.same, Path.same_iff.mp hsame]
            exact hother
          · refine ⟨d, node, w.putDocument edited, edited, d', hd, hattached, hnode, ?_,
              document?_putDocument_same hd hpath', document?_putDocument_same hd
                (hpath.trans hpath'), hpath, htext, hadds⟩
            rw [Workspace.applyEdit, hd]
            simp only [hedited]

theorem setFile_eq_error (hfail : w.setFile file text = (w', .error error)) : w' = w := by
  unfold setFile at hfail
  split at hfail <;> split at hfail <;> cases hfail <;> rfl

theorem applyEdit_eq_error {edit : Edit} (hfail : w.applyEdit file edit = (w', .error error)) :
    w' = w := by
  unfold applyEdit at hfail
  split at hfail
  · cases hfail
    rfl
  · split at hfail <;> cases hfail
    rfl

theorem load_eq_error {batch : Option ByteArray} (hfail : w.load batch = (w', .error error)) :
    w' = w := by
  unfold load at hfail
  split at hfail <;> cases hfail
  rfl

theorem loadFrom_eq_error {directory : List (Path × ByteArray)}
    (hfail : w.loadFrom directory = (w', .error error)) : w' = w := by
  unfold loadFrom at hfail
  split at hfail
  · exact load_eq_error hfail
  · cases hfail

theorem reported_eq_error {α : Type} {r : Workspace × Except WorkspaceError α}
    (hfail : reported r = (w', some error)) : r = (w', .error error) := by
  obtain ⟨changed, _ | _⟩ := r <;> cases hfail
  rfl

theorem Tidy.perform_eq_error (h : w.Tidy) {op : Operation}
    (hfail : w.perform op = (w', some error)) :
    (w' = w ∧ ∀ file id text, ¬ op.Unreads w error file id text) ∨
      ∃ file id text, op.Unreads w error file id text ∧ w.LeftUnread w' file id text := by
  have hplain (htarget : op.target? w = none) (heq : w' = w) :
      w' = w ∧ ∀ file id text, ¬ op.Unreads w error file id text := by
    refine ⟨heq, fun file id text hunread => ?_⟩
    rw [Operation.Unreads, htarget] at hunread
    cases hunread.1
  have hover {file : Path} {id : NodeId} {text : List Char}
      (htarget : op.target? w = some (file, id, text))
      (hreplace : w.replaceNode file id text = (w', .error error)) :
      (w' = w ∧ ∀ file id text, ¬ op.Unreads w error file id text) ∨
        ∃ file id text, op.Unreads w error file id text ∧ w.LeftUnread w' file id text := by
    rcases h.replaceNode_eq_error hreplace with ⟨heq, hread⟩ | ⟨hleft, hunread⟩
    · refine .inl ⟨heq, ?_⟩
      rintro file' id' text' ⟨htarget', hroot, failure, hunread⟩
      cases htarget.symm.trans htarget'
      exact hread hroot failure hunread
    · exact .inr ⟨file, id, text, ⟨htarget, hunread⟩, hleft⟩
  cases op with
  | register p => cases hfail
  | setFile file text => exact .inl (hplain rfl (setFile_eq_error (reported_eq_error hfail)))
  | removeFile file => cases hfail
  | applyEdit file edit => exact .inl (hplain rfl (applyEdit_eq_error (reported_eq_error hfail)))
  | replaceNode file id text => exact hover rfl (reported_eq_error hfail)
  | setMappings file batch => cases hfail
  | load file => exact .inl (hplain rfl (load_eq_error (reported_eq_error hfail)))
  | loadFrom directory => exact .inl (hplain rfl (loadFrom_eq_error (reported_eq_error hfail)))
  | extract => cases hfail
  | applyModelEdit uid text =>
    have hreplace := reported_eq_error hfail
    unfold Workspace.applyModelEdit at hreplace
    split at hreplace
    · next hnone =>
      cases hreplace
      exact .inl (hplain (by simp [Operation.target?, hnone]) rfl)
    · next m hm => exact hover (by simp [Operation.target?, hm]) hreplace

/-- An operation that fails leaves the workspace as it was, unless it has written over the source of a
node below the root and the file cannot be read any more.  Then the workspace is as an edit of the
node's range leaves it, apart from detached nodes of the file. -/
theorem Attained.eq_and_leftUnread (h : w.Attained) {op : Operation}
    (hfail : w.perform op = (w', some error)) :
    ((∀ file id text, ¬ op.Unreads w error file id text) → w' = w) ∧
      ∀ file id text, op.Unreads w error file id text → w.LeftUnread w' file id text := by
  rcases h.tidy.perform_eq_error hfail with ⟨heq, hread⟩ | ⟨file, id, text, hunread, hleft⟩
  · exact ⟨fun _ => heq, fun file id text hunread => absurd hunread (hread file id text)⟩
  · refine ⟨fun hread => absurd hunread (hread file id text), ?_⟩
    rintro file' id' text' ⟨htarget, -⟩
    cases hunread.1.symm.trans htarget
    exact hleft

/-- A workspace on three letters. -/
def lettersWorkspace : Workspace :=
  { withProviders .default .empty with documents := [Document.spacedLetters] }

theorem eq_and_leftUnread_openBrace :
    ∃ w', lettersWorkspace.perform (.replaceNode ⟨"a.tex"⟩ ⟨3⟩ ['y', ' ', '\x7b']) =
        (w', some (.edit (.parse (.unclosed .group ⟨0, 4⟩)))) ∧
      (w'.document? ⟨"a.tex"⟩).map Document.text = some ['a', ' ', 'y', ' ', '\x7b', ' ', 'b'] ∧
      lettersWorkspace.LeftUnread w' ⟨"a.tex"⟩ ⟨3⟩ ['y', ' ', '\x7b'] := by
  have hset : (withProviders .default .empty).perform
      (.setFile ⟨"a.tex"⟩ Document.spacedLetters.text) = (lettersWorkspace, none) := by rfl
  have hw : lettersWorkspace.Attained := by
    have hperform := (Attained.start .default .empty).perform
      (.setFile ⟨"a.tex"⟩ Document.spacedLetters.text)
    rwa [hset] at hperform
  have hfail : lettersWorkspace.perform (.replaceNode ⟨"a.tex"⟩ ⟨3⟩ ['y', ' ', '\x7b']) =
      (_, some (.edit (.parse (.unclosed .group ⟨0, 4⟩)))) := Prod.ext rfl (by decide +kernel)
  exact ⟨_, hfail, rfl, (hw.eq_and_leftUnread hfail).2 _ _ _ ⟨rfl, by decide, _, rfl⟩⟩

end Workspace

end TexAnchor
