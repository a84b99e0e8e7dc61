import Mathlib.Data.List.Nodup
import TexAnchor.Proofs.Separation

/-! # Batches delivered to files

A registry is a map from files to lists of mappings, whatever way their paths are spelled.  What a
change says about a file is its word (`Registry.word`): a batch is delivered to the file, or the file
is removed.  The last word on a file is all that counts (`Registry.lookup_after`), and of a batch that
is delivered only the mappings of the file count, one for each number (`Registry.OneEach`).

So a mixed batch does to a file what the mappings of that file do alone, and the order in which
mappings of different files come in it does not matter.  All of this together is
`Registry.oneEach_and_perm_after`. -/

namespace TexAnchor

namespace Registry

/-- What is done to a registry. -/
inductive Change
  | setFile (file : Path) (batch : List Mapping)
  | setMixed (batch : List Mapping)
  | remove (file : Path)

/-- The registry after a change. -/
def perform (r : Registry) : Change → Registry
  | .setFile file batch => r.setFile file batch
  | .setMixed batch => r.setMixed batch
  | .remove file => r.remove file

/-- The registry that changes lead to, the first of them first. -/
def after (changes : List Change) : Registry :=
  changes.foldl perform empty

/-- The mappings of a batch that name the file. -/
def naming (file : Path) (batch : List Mapping) : List Mapping :=
  batch.filter fun m => m.sourceFile.same file

/-- What a change says about a file, if it touches it: the batch that is delivered to the file, or
that there is none any more. -/
def word (file : Path) : Change → Option (Option (List Mapping))
  | .setFile target batch => if target.same file then some (some batch) else none
  | .setMixed batch => if (naming file batch).isEmpty then none else some (some batch)
  | .remove target => if target.same file then some none else none

/-- The batch that was delivered to a file last, unless the file was removed after that. -/
def lastBatch? (file : Path) (changes : List Change) : Option (List Mapping) :=
  (changes.reverse.findSome? (word file)).join

/-- The files that a registry has, as they are spelled. -/
def fileNames (r : Registry) : List Path :=
  r.files.map Prod.fst

/-- The list has one mapping for each number of the batch: numbers in the order in which they occur
first, and for each the mapping with which it occurs last. -/
structure OneEach (batch list : List Mapping) : Prop where
  numbers_eq : list.map Mapping.id = (batch.map Mapping.id).eraseDups
  last : ∀ m ∈ list, ∃ earlier later, batch = earlier ++ m :: later ∧ ∀ k ∈ later, k.id ≠ m.id

variable {r : Registry} {file target : Path} {batch other : List Mapping}
  {files groups : List (Path × List Mapping)}

/-! ### One mapping for each number -/

theorem map_id_putByNumber (kept : List Mapping) (m : Mapping) :
    (putByNumber kept m).map Mapping.id =
      kept.map Mapping.id ++ if m.id ∈ kept.map Mapping.id then [] else [m.id] := by
  have hany : (kept.any fun k => k.id == m.id) = true ↔ m.id ∈ kept.map Mapping.id := by
    simp
  unfold putByNumber
  split
  · next hold =>
    rw [if_pos (hany.mp hold), List.append_nil, List.map_map]
    refine List.map_congr_left fun k _ => ?_
    simp only [Function.comp_apply]
    split
    · next heq => exact heq.symm
    · rfl
  · next hnew =>
    rw [if_neg (hany.not.mp hnew), List.map_append, List.map_singleton]

theorem mem_putByNumber {kept : List Mapping} {m k : Mapping} (hk : k ∈ putByNumber kept m) :
    k = m ∨ k ∈ kept ∧ k.id ≠ m.id := by
  unfold putByNumber at hk
  split at hk
  · obtain ⟨old, hold, rfl⟩ := List.mem_map.mp hk
    split
    · exact .inl rfl
    · next hne => exact .inr ⟨hold, hne⟩
  · next hnew =>
    rw [List.any_eq_true] at hnew
    rcases List.mem_append.mp hk with hk | hk
    · exact .inr ⟨hk, fun heq => hnew ⟨k, hk, by simpa using heq⟩⟩
    · exact .inl (List.mem_singleton.mp hk)

theorem oneEach_onePerNumber (batch : List Mapping) : OneEach batch (onePerNumber batch) := by
  induction batch using List.reverseRecOn with
  | nil => exact ⟨rfl, by simp [onePerNumber]⟩
  | append_singleton batch m ih =>
    have hput : onePerNumber (batch ++ [m]) = putByNumber (onePerNumber batch) m := by
      rw [onePerNumber, List.foldl_append]
      rfl
    rw [hput]
    refine ⟨?_, fun k hk => ?_⟩
    · rw [map_id_putByNumber, ih.numbers_eq, List.map_append, List.eraseDups_append,
        List.map_singleton]
      congr 1
      rw [List.removeAll, List.filter_singleton, List.elem_eq_mem]
      by_cases hm : m.id ∈ batch.map Mapping.id
      · rw [if_pos (List.mem_eraseDups.mpr hm), decide_eq_true hm]
        rfl
      · rw [if_neg (mt List.mem_eraseDups.mp hm), decide_eq_false hm]
        rfl
    · rcases mem_putByNumber hk with rfl | ⟨hk, hne⟩
      · exact ⟨batch, [], rfl, by simp⟩
      · obtain ⟨earlier, later, rfl, hlater⟩ := ih.last k hk
        refine ⟨earlier, later ++ [m], by simp, fun l hl => ?_⟩
        rcases List.mem_append.mp hl with hl | hl
        · exact hlater l hl
        · rw [List.mem_singleton.mp hl]
          exact hne.symm

/-! ### Entries -/

/-- The entry of a file. -/
def stored? (file : Path) (files : List (Path × List Mapping)) : Option (Path × List Mapping) :=
  files.find? fun entry => entry.1.same file

/-- No file has two entries. -/
def Distinct (files : List (Path × List Mapping)) : Prop :=
  (files.map Prod.fst).Pairwise fun a b => a.same b = false

theorem stored?_cons (file : Path) (entry : Path × List Mapping) (files : List (Path × List Mapping)) :
    stored? file (entry :: files) = if entry.1.same file then some entry else stored? file files := by
  rw [stored?, List.find?_cons]
  cases entry.1.same file <;> rfl

theorem lookup_eq (file : Path) (files : List (Path × List Mapping)) :
    lookup file files = (stored? file files).map Prod.snd := rfl

theorem same_eq_of_same {p q : Path} (h : p.same q = true) (file : Path) :
    p.same file = q.same file := by
  rw [Path.same, Path.same, Path.same_iff.mp h]

theorem Distinct.stored?_eq_some_iff (h : Distinct files) {entry : Path × List Mapping} :
    stored? entry.1 files = some entry ↔ entry ∈ files := by
  refine ⟨List.mem_of_find?_eq_some, fun hmem => ?_⟩
  obtain ⟨before, after, rfl⟩ := List.append_of_mem hmem
  have hbefore := (List.pairwise_append.mp (List.pairwise_map.mp h)).2.2
  refine List.find?_eq_some_iff_append.mpr ⟨by simp [Path.same], before, after, rfl, fun e he => ?_⟩
  rw [hbefore e he entry (by simp)]
  rfl

/-- Where no file has two entries, the entries are told by those of each file. -/
theorem Distinct.perm_of_stored?_eq {files' : List (Path × List Mapping)} (h : Distinct files)
    (h' : Distinct files') (heq : ∀ file, stored? file files = stored? file files') :
    files.Perm files' := by
  have hnodup {l : List (Path × List Mapping)} (hl : Distinct l) : l.Nodup :=
    (List.pairwise_map.mp hl).imp fun hne heq => by simp [heq, Path.same] at hne
  refine (List.perm_ext_iff_of_nodup (hnodup h) (hnodup h')).mpr fun entry => ?_
  rw [← h.stored?_eq_some_iff, ← h'.stored?_eq_some_iff, heq]

/-- A list of mappings under a path that is made of the old one, if there is one. -/
def upsert (file : Path) (change : Option (List Mapping) → List Mapping) :
    List (Path × List Mapping) → List (Path × List Mapping)
  | [] => [(file, change none)]
  | (key, old) :: files =>
    if key.same file then (key, change (some old)) :: files
    else (key, old) :: upsert file change files

theorem store_eq (file : Path) (batch : List Mapping) (files : List (Path × List Mapping)) :
    store file batch files = upsert file (fun _ => batch) files := by
  induction files with
  | nil => rfl
  | cons entry files ih => rw [store, upsert, ih]

theorem addToGroup_eq (m : Mapping) (groups : List (Path × List Mapping)) :
    addToGroup m groups = upsert m.sourceFile (fun old => old.getD [] ++ [m]) groups := by
  induction groups with
  | nil => rfl
  | cons group groups ih =>
    rw [addToGroup, upsert, ih]
    rfl

theorem stored?_upsert (file target : Path) (change : Option (List Mapping) → List Mapping)
    (files : List (Path × List Mapping)) : stored? file (upsert target change files) =
      if target.same file then
        some (((stored? file files).map Prod.fst).getD target, change (lookup file files))
      else stored? file files := by
  induction files with
  | nil => cases hsame : target.same file <;> simp [upsert, stored?, lookup, hsame]
  | cons entry files ih =>
    rw [upsert, lookup_eq, stored?_cons]
    split
    · next hkey =>
      rw [stored?_cons, ← same_eq_of_same hkey]
      cases hsame : entry.1.same file with
      | false => rfl
      | true => rfl
    · next hkey =>
      rw [stored?_cons, ih, lookup_eq]
      cases hsame : entry.1.same file with
      | false => rfl
      | true =>
        have hother : target.same file = false := Bool.eq_false_iff.mpr fun htarget =>
          hkey (Path.same_iff.mpr ((Path.same_iff.mp hsame).trans (Path.same_iff.mp htarget).symm))
        rw [hother]
        rfl

theorem map_fst_upsert (target : Path) (change : Option (List Mapping) → List Mapping)
    (files : List (Path × List Mapping)) : (upsert target change files).map Prod.fst =
      files.map Prod.fst ++
        if (files.map Prod.fst).any (Path.same · target) then [] else [target] := by
  induction files with
  | nil => rfl
  | cons entry files ih =>
    rw [upsert]
    split
    · next hkey => simp [hkey]
    · next hkey =>
      rw [List.map_cons, ih, List.map_cons, List.any_cons, Bool.eq_false_iff.mpr hkey,
        Bool.false_or, List.cons_append]

theorem Distinct.upsert (h : Distinct files) (target : Path)
    (change : Option (List Mapping) → List Mapping) : Distinct (upsert target change files) := by
  rw [Distinct, map_fst_upsert]
  split
  · rwa [List.append_nil]
  · next hnew =>
    refine List.pairwise_append.mpr ⟨h, List.pairwise_singleton _ _, fun key hkey name hname => ?_⟩
    obtain rfl := List.mem_singleton.mp hname
    exact Bool.eq_false_iff.mpr fun hsame => hnew (List.any_eq_true.mpr ⟨key, hkey, hsame⟩)

/-! ### What changes do to the entries -/

theorem naming_eq_of_same (h : target.same file = true) (batch : List Mapping) :
    naming target batch = naming file batch :=
  List.filter_congr fun m _ => by rw [Path.same, Path.same, Path.same_iff.mp h]

theorem naming_naming (file : Path) (batch : List Mapping) :
    naming file (naming file batch) = naming file batch := by
  simp [naming]

/-- The entry that a file gets by a delivery: its path keeps the spelling that it has, if it has
one. -/
def delivered (old : Option (Path × List Mapping)) (name file : Path) (batch : List Mapping) :
    Path × List Mapping :=
  ((old.map Prod.fst).getD name, onePerNumber (naming file batch))

theorem stored?_setFile (r : Registry) (target file : Path) (batch : List Mapping) :
    stored? file (r.setFile target batch).files =
      if target.same file then some (delivered (stored? file r.files) target file batch)
      else stored? file r.files := by
  rw [setFile, store_eq, stored?_upsert]
  split
  · next hsame =>
    rw [delivered, ← naming_eq_of_same hsame]
    rfl
  · rfl

theorem distinct_setFile (h : Distinct r.files) (target : Path) (batch : List Mapping) :
    Distinct (r.setFile target batch).files := by
  rw [setFile, store_eq]
  exact h.upsert target _

theorem stored?_remove (r : Registry) (target file : Path) :
    stored? file (r.remove target).files =
      if target.same file then none else stored? file r.files := by
  simp only [stored?, remove, List.find?_filter]
  split
  · next hsame =>
    refine List.find?_eq_none.mpr fun entry _ => ?_
    rw [Path.same, Path.same, Path.same_iff.mp hsame]
    simp
  · next hother =>
    congr 1
    funext entry
    have hkept : entry.1.same file = true → entry.1.same target = false := fun hentry =>
      Bool.eq_false_iff.mpr fun htarget => hother (Path.same_iff.mpr
        ((Path.same_iff.mp htarget).symm.trans (Path.same_iff.mp hentry)))
    cases hentry : entry.1.same file <;> simp_all

theorem distinct_remove (h : Distinct r.files) (target : Path) :
    Distinct (r.remove target).files :=
  h.sublist (List.filter_sublist.map Prod.fst)

theorem distinct_groupByFile (batch : List Mapping) : Distinct (groupByFile batch) := by
  induction batch using List.reverseRecOn with
  | nil => exact List.Pairwise.nil
  | append_singleton batch m ih =>
    rw [groupByFile, List.foldl_append, List.foldl_cons, List.foldl_nil, addToGroup_eq]
    exact ih.upsert _ _

/-- The group of a file is what the batch has of it, under the spelling that comes first. -/
theorem stored?_groupByFile (file : Path) (batch : List Mapping) :
    stored? file (groupByFile batch) =
      (naming file batch).head?.map fun m => (m.sourceFile, naming file batch) := by
  induction batch using List.reverseRecOn with
  | nil => rfl
  | append_singleton batch m ih =>
    have hgroup : groupByFile (batch ++ [m]) = addToGroup m (groupByFile batch) := by
      rw [groupByFile, List.foldl_append]
      rfl
    have hnaming : naming file (batch ++ [m]) =
        naming file batch ++ if m.sourceFile.same file then [m] else [] := by
      rw [naming, List.filter_append, List.filter_singleton]
      cases m.sourceFile.same file <;> rfl
    rw [hgroup, addToGroup_eq, stored?_upsert, lookup_eq, ih, hnaming]
    split
    · cases hbatch : naming file batch <;> simp
    · rw [List.append_nil]

theorem stored?_foldl_setFile (h : Distinct groups) (r : Registry) (file : Path) :
    stored? file (groups.foldl (fun r group => r.setFile group.1 group.2) r).files =
      match stored? file groups with
      | some group => some (delivered (stored? file r.files) group.1 file group.2)
      | none => stored? file r.files := by
  induction groups generalizing r with
  | nil => rfl
  | cons group groups ih =>
    obtain ⟨hfirst, hlater⟩ := List.pairwise_cons.mp h
    rw [List.foldl_cons, ih hlater, stored?_setFile, stored?_cons]
    cases hsame : group.1.same file with
    | false => rfl
    | true =>
      have hnone : stored? file groups = none := by
        refine List.find?_eq_none.mpr fun e he hfile => ?_
        have hapart := hfirst e.1 (List.mem_map_of_mem he)
        rw [Path.same, Path.same_iff.mp hsame, ← Path.same_iff.mp hfile] at hapart
        simp at hapart
      rw [hnone]
      rfl

theorem distinct_setMixed (h : Distinct r.files) (batch : List Mapping) :
    Distinct (r.setMixed batch).files := by
  unfold setMixed
  induction groupByFile batch generalizing r with
  | nil => exact h
  | cons group groups ih => exact ih (distinct_setFile h group.1 group.2)

theorem stored?_setMixed (r : Registry) (file : Path) (batch : List Mapping) :
    stored? file (r.setMixed batch).files =
      match (naming file batch).head? with
      | some first => some (delivered (stored? file r.files) first.sourceFile file batch)
      | none => stored? file r.files := by
  rw [setMixed, stored?_foldl_setFile (distinct_groupByFile batch), stored?_groupByFile]
  cases (naming file batch).head? with
  | none => rfl
  | some first => simp [delivered, naming_naming]

/-! ### Sequences of changes -/

theorem after_append (changes : List Change) (change : Change) :
    after (changes ++ [change]) = (after changes).perform change := by
  rw [after, List.foldl_append]
  rfl

theorem lastBatch?_append (file : Path) (changes : List Change) (change : Change) :
    lastBatch? file (changes ++ [change]) =
      (word file change).getD (lastBatch? file changes) := by
  rw [lastBatch?, List.reverse_append, List.reverse_singleton, List.singleton_append,
    List.findSome?_cons]
  cases word file change <;> rfl

theorem distinct_perform (h : Distinct r.files) (change : Change) :
    Distinct (r.perform change).files := by
  cases change with
  | setFile target batch => exact distinct_setFile h target batch
  | setMixed batch => exact distinct_setMixed h batch
  | remove target => exact distinct_remove h target

theorem distinct_after (changes : List Change) : Distinct (after changes).files := by
  induction changes using List.reverseRecOn with
  | nil => exact List.Pairwise.nil
  | append_singleton changes change ih => exact after_append changes change ▸ distinct_perform ih _

theorem stored?_perform_of_word_eq_none {change : Change} (h : word file change = none)
    (r : Registry) : stored? file (r.perform change).files = stored? file r.files := by
  cases change with
  | setFile target batch =>
    rw [perform, stored?_setFile, if_neg (by simpa [word] using h)]
  | setMixed batch =>
    have hempty : naming file batch = [] := by simpa [word] using h
    rw [perform, stored?_setMixed, hempty]
    rfl
  | remove target =>
    rw [perform, stored?_remove, if_neg (by simpa [word] using h)]

theorem lookup_perform_of_word_eq_some {change : Change} {said : Option (List Mapping)}
    (h : word file change = some said) (r : Registry) :
    lookup file (r.perform change).files =
      said.map fun batch => onePerNumber (naming file batch) := by
  rw [lookup_eq]
  cases change with
  | setFile target batch =>
    obtain ⟨hsame, rfl⟩ : target.same file = true ∧ some batch = said := by simpa [word] using h
    rw [perform, stored?_setFile, if_pos hsame]
    rfl
  | setMixed batch =>
    obtain ⟨hmentioned, rfl⟩ : naming file batch ≠ [] ∧ some batch = said := by
      simpa [word] using h
    obtain ⟨first, later, hbatch⟩ := List.exists_cons_of_ne_nil hmentioned
    rw [perform, stored?_setMixed, hbatch]
    simp [delivered, hbatch]
  | remove target =>
    obtain ⟨hsame, rfl⟩ : target.same file = true ∧ none = said := by simpa [word] using h
    rw [perform, stored?_remove, if_pos hsame]
    rfl

/-- What a registry has of a file comes from the batch that was delivered to it last. -/
theorem lookup_after (file : Path) (changes : List Change) :
    lookup file (after changes).files =
      (lastBatch? file changes).map fun batch => onePerNumber (naming file batch) := by
  induction changes using List.reverseRecOn with
  | nil => rfl
  | append_singleton changes change ih =>
    rw [after_append, lastBatch?_append]
    cases hword : word file change with
    | none => rw [lookup_eq, stored?_perform_of_word_eq_none hword, ← lookup_eq, ih]; rfl
    | some said => rw [lookup_perform_of_word_eq_some hword]; rfl

theorem oneEach_get_after (file : Path) (changes : List Change) :
    OneEach (naming file ((lastBatch? file changes).getD [])) ((after changes).get file) := by
  rw [get, lookup_after]
  cases lastBatch? file changes with
  | none => exact ⟨rfl, by simp⟩
  | some batch => exact oneEach_onePerNumber _

/-- Mappings of different files can come in any order. -/
theorem perm_setMixed (h : Distinct r.files) (hnaming : ∀ file, naming file batch = naming file other) :
    (r.setMixed batch).files.Perm (r.setMixed other).files := by
  refine (distinct_setMixed h batch).perm_of_stored?_eq (distinct_setMixed h other) fun file => ?_
  rw [stored?_setMixed, stored?_setMixed, hnaming]
  simp only [delivered, hnaming]

theorem isSome_stored?_iff (file : Path) (files : List (Path × List Mapping)) :
    (stored? file files).isSome = true ↔ ∃ name ∈ files.map Prod.fst, name.same file = true := by
  simp [stored?]

theorem count_eq (h : Distinct r.files) :
    r.count = (r.fileNames.map fun file => (r.get file).length).sum := by
  have hlength : ∀ entry ∈ r.files, (r.get entry.1).length = entry.2.length := fun entry hentry => by
    rw [get, lookup_eq, h.stored?_eq_some_iff.mpr hentry]
    rfl
  rw [fileNames, List.map_map, Function.comp_def, List.map_congr_left hlength, count,
    List.sum_eq_foldl, List.foldl_map]

/-- After any sequence of changes a file has the mappings of the batch that was delivered to it last
unless it was removed since, one for each number, and the registry has just the files to which one
was.  A change leaves the files that it says nothing about, and a mixed batch does to the files it
names what the mappings of each do, in whatever order those of different files come. -/
theorem oneEach_and_perm_after (changes : List Change) :
    (∀ file, OneEach (naming file ((lastBatch? file changes).getD [])) ((after changes).get file)) ∧
      (∀ file, (∃ name ∈ (after changes).fileNames, name.same file = true) ↔
        (lastBatch? file changes).isSome = true) ∧
      (after changes).fileNames.Pairwise (fun a b => a.same b = false) ∧
      (after changes).count =
        ((after changes).fileNames.map fun file => ((after changes).get file).length).sum ∧
      (∀ change file, word file change = none →
        ((after changes).perform change).get file = (after changes).get file) ∧
      (∀ batch file, naming file batch ≠ [] →
        OneEach (naming file batch) (((after changes).setMixed batch).get file)) ∧
      ∀ batch other, (∀ file, naming file batch = naming file other) →
        ((after changes).setMixed batch).files.Perm ((after changes).setMixed other).files := by
  have hdistinct := distinct_after changes
  refine ⟨fun file => oneEach_get_after file changes, fun file => ?_, hdistinct,
    count_eq hdistinct, fun change file hword => ?_, fun batch file hbatch => ?_,
    fun batch other => perm_setMixed hdistinct⟩
  · have hlookup := congrArg Option.isSome (lookup_after file changes)
    rw [lookup_eq, Option.isSome_map, Option.isSome_map] at hlookup
    rw [← hlookup, isSome_stored?_iff, fileNames]
  · rw [get, get, lookup_eq, lookup_eq, stored?_perform_of_word_eq_none hword]
  · have hget := oneEach_get_after file (changes ++ [.setMixed batch])
    rw [after_append, lastBatch?_append] at hget
    simpa [word, hbatch, perform] using hget

/-- A mapping of a file. -/
def one : Mapping := ⟨"math", 1, ⟨"d/a.tex"⟩, 4⟩

/-- A mapping of the same file, spelled in another way. -/
def two : Mapping := ⟨"math", 2, ⟨"d//a.tex"⟩, 2⟩

/-- A later mapping with the number of the first. -/
def oneAgain : Mapping := ⟨"math", 1, ⟨"d/a.tex"⟩, 7⟩

/-- A mapping of another file. -/
def elsewhere : Mapping := ⟨"math", 1, ⟨"b.tex"⟩, 4⟩

theorem naming_swap {m k : Mapping} (h : m.sourceFile.same k.sourceFile = false) (file : Path)
    (batch : List Mapping) : naming file (m :: k :: batch) = naming file (k :: m :: batch) := by
  simp only [naming, List.filter_cons]
  cases hm : m.sourceFile.same file with
  | false => rfl
  | true =>
    have hk : k.sourceFile.same file = false := Bool.eq_false_iff.mpr fun hk =>
      Bool.eq_false_iff.mp h
        (Path.same_iff.mpr ((Path.same_iff.mp hm).trans (Path.same_iff.mp hk).symm))
    rw [hk]
    rfl

/-- Of the mappings with number one the later one is kept, in the place of the first, and the mapping
of the other file can stand anywhere in the batch. -/
theorem oneEach_and_perm_after_mixed :
    OneEach [one, two, oneAgain]
        ((after [.setMixed [one, elsewhere, two, oneAgain]]).get ⟨"d/./a.tex"⟩) ∧
      (after [.setMixed [one, elsewhere, two, oneAgain]]).get ⟨"d/./a.tex"⟩ = [oneAgain, two] ∧
      (after [.setMixed [one, elsewhere, two, oneAgain]]).files.Perm
        (after [.setMixed [elsewhere, one, two, oneAgain]]).files := by
  have hnaming : naming ⟨"d/./a.tex"⟩ [one, elsewhere, two, oneAgain] = [one, two, oneAgain] := by
    decide +kernel
  have hapart : one.sourceFile.same elsewhere.sourceFile = false := by decide +kernel
  obtain ⟨-, -, -, -, -, hmixed, hperm⟩ := oneEach_and_perm_after []
  refine ⟨hnaming ▸ hmixed _ _ (by simp [hnaming]), by decide +kernel, ?_⟩
  exact hperm _ _ fun file => naming_swap hapart file _

end Registry

end TexAnchor
