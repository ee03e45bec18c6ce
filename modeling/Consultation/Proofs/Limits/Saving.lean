import Consultation.Proofs.Files.Tree
import Consultation.Proofs.Limits.Text

namespace Consultation

namespace Limits

/-- The files once limits have been saved: the way to the path has been made, and the text of
    the limits lies at its end. -/
def savedTree (limits : Limits) (tree : FileTree) (path : String) : FileTree :=
  (tree.made path).withFile ((tree.made path).placeOf path) limits.text.toUTF8

variable {limits : Limits} {tree saved : FileTree} {path : String}

/-- Limits are saved in two steps: the directory that the path lies in is made, then the text
    is put at the path. -/
theorem save_eq_of_parent {parent : String} (hwritable : limits.isWritable = true)
    (hparent : Path.parent? path = some parent) :
    limits.save tree path =
      match tree.makeDirectories? parent with
      | some made =>
        match made.write? path limits.text.toUTF8 with
        | some written => .ok written
        | none => .error (.unwritable path)
      | none => .error (.unwritable parent) := by
  rw [save, hwritable, hparent]
  dsimp only
  cases tree.makeDirectories? parent <;> rfl

theorem save_of_writable (hwritable : limits.isWritable = true) (h : tree.Writable path) :
    limits.save tree path = .ok (limits.savedTree tree path) := by
  obtain ⟨parent, hparent, -, hmake⟩ :=
    FileTree.exists_parent h.admitted (FileTree.leadsOn_of_named h.named)
  have hmade : tree.makeDirectories? parent = some (tree.made path) := by
    rw [(hmake tree).2, if_pos h.passable]
  have hwritten : (tree.made path).write? path limits.text.toUTF8 =
      some (limits.savedTree tree path) :=
    FileTree.write?_eq_some_iff.mpr
      ⟨⟨⟨h.admitted, FileTree.isDirectory_approach_made tree path⟩, h.vacant_made⟩, rfl⟩
  rw [save_eq_of_parent hwritable hparent, hmade]
  simp only [hwritten]

theorem isWritable_of_save (h : limits.save tree path = .ok saved) : limits.isWritable = true := by
  by_contra hwritable
  rw [save, Bool.eq_false_iff.mpr hwritable] at h
  cases h

private theorem eq_some_of_ok {found : Option FileTree} {reason : LimitsError}
    (h : (match found with
      | some tree => Except.ok tree
      | none => Except.error reason) = .ok saved) : found = some saved := by
  cases found with
  | none => cases h
  | some tree => rw [Except.ok.inj h]

/-- What has been saved was put at the path, in the tree in which the directory that the path
    lies in has been made. -/
theorem exists_made_of_save (h : limits.save tree path = .ok saved) :
    ∃ made, made.write? path limits.text.toUTF8 = some saved ∧
      ∀ parent, Path.parent? path = some parent → tree.makeDirectories? parent = some made := by
  have hwritable := isWritable_of_save h
  cases hparent : Path.parent? path with
  | none =>
    rw [save, hwritable, hparent] at h
    exact ⟨tree, eq_some_of_ok h, nofun⟩
  | some parent =>
    rw [save_eq_of_parent hwritable hparent] at h
    cases hmade : tree.makeDirectories? parent with
    | none =>
      rw [hmade] at h
      cases h
    | some made =>
      rw [hmade] at h
      refine ⟨made, eq_some_of_ok h, fun other hother => ?_⟩
      rw [← Option.some.inj hother, hmade]

theorem writable_of_save (h : limits.save tree path = .ok saved) : tree.Writable path := by
  obtain ⟨made, hwritten, hmade⟩ := exists_made_of_save h
  obtain ⟨⟨⟨hadmitted, hway⟩, hvacant⟩, -⟩ := FileTree.write?_eq_some_iff.mp hwritten
  have hnamed := FileTree.named_of_vacant hway hvacant
  obtain ⟨parent, hparent, -, hmake⟩ :=
    FileTree.exists_parent hadmitted (FileTree.leadsOn_of_named hnamed)
  have hpassable := hmade parent hparent
  rw [(hmake tree).2, Option.ite_none_right_eq_some, Option.some.injEq] at hpassable
  obtain ⟨hpassable, rfl⟩ := hpassable
  rw [Bool.eq_false_iff, ne_eq, FileTree.isDirectory_made, FileTree.placeOf_made, not_or]
    at hvacant
  exact ⟨hadmitted, hnamed, hpassable, Bool.eq_false_iff.mpr hvacant.1, hvacant.2⟩

/-- Limits are saved where they can be written and the path can. -/
theorem save_eq_ok_iff :
    limits.save tree path = .ok saved ↔
      limits.isWritable = true ∧ tree.Writable path ∧ saved = limits.savedTree tree path := by
  constructor
  · intro h
    have hwritable := isWritable_of_save h
    have hpath := writable_of_save h
    refine ⟨hwritable, hpath, ?_⟩
    rw [save_of_writable hwritable hpath] at h
    exact (Except.ok.inj h).symm
  · rintro ⟨hwritable, hpath, rfl⟩
    exact save_of_writable hwritable hpath

theorem placeOf_savedTree : (limits.savedTree tree path).placeOf path = tree.placeOf path := by
  rw [savedTree, FileTree.placeOf_withFile, FileTree.placeOf_made]

theorem isDirectory_savedTree (place : List String) :
    (limits.savedTree tree path).isDirectory place = true ↔
      tree.isDirectory place = true ∨ place ∈ tree.approach path :=
  FileTree.isDirectory_made tree path place

theorem isDirectory_approach_savedTree :
    ∀ passed ∈ (limits.savedTree tree path).approach path,
      (limits.savedTree tree path).isDirectory passed = true :=
  FileTree.isDirectory_approach_made tree path

theorem lookup_savedTree {place : List String} (h : place ≠ tree.placeOf path) :
    (limits.savedTree tree path).files.lookup place = tree.files.lookup place := by
  rw [savedTree, FileTree.lookup_withFile, FileTree.placeOf_made, if_neg h, FileTree.made,
    FileTree.files_withDirectories]

section

variable (h : tree.Writable path)

include h

theorem read_savedTree : (limits.savedTree tree path).read path = .ofText limits.text :=
  FileTree.read_withFile h.admitted (FileTree.isDirectory_approach_made tree path) h.vacant_made
    limits.text.toUTF8

/-- The file can be exchanged once the way to it has been made. -/
theorem read_withFile_savedTree (bytes : ByteArray) :
    ((limits.savedTree tree path).withFile (tree.placeOf path) bytes).read path =
      .file bytes := by
  have hplace : (limits.savedTree tree path).placeOf path = tree.placeOf path := placeOf_savedTree
  rw [← hplace]
  exact FileTree.read_withFile h.admitted isDirectory_approach_savedTree h.vacant_made bytes

theorem read_parent_savedTree :
    ∃ parent, Path.parent? path = some parent ∧
      (limits.savedTree tree path).read parent = .directory := by
  obtain ⟨parent, hparent, hadmitted, hway⟩ :=
    FileTree.exists_parent h.admitted (FileTree.leadsOn_of_named h.named)
  refine ⟨parent, hparent, FileTree.read_eq_directory hadmitted fun passed hpassed => ?_⟩
  exact isDirectory_approach_savedTree passed (((hway _).1 passed).mp hpassed)

end

end Limits

/-- A way to change files, one step after the other. What was changed before a failure stays
    changed. -/
abbrev FileProcedure : Type → Type := EStateM LimitsError FileTree

namespace FileProcedure

/-- Makes the directories along parts of a path, one after the other. -/
def makeEach (path : String) : (place : List String) → (parts : List String) → FileProcedure Unit
  | _, [] => return
  | place, part :: rest => do
    match FileTree.makeStep? (← get, place) part with
    | some (tree, next) =>
      set tree
      makeEach path next rest
    | none => throw (.unwritable path)

def makeDirectories (path : String) : FileProcedure Unit := do
  if Path.isAdmissible path then makeEach path ((← get).start path) (Path.parts path)
  else throw (.unwritable path)

def writeText (path text : String) : FileProcedure Unit := do
  match (← get).write? path text.toUTF8 with
  | some written => set written
  | none => throw (.unwritable path)

/-- The limits are turned into a text before anything is made. -/
def save (limits : Limits) (path : String) : FileProcedure Unit := do
  if !limits.isWritable then throw (.malformed path)
  match Path.parent? path with
  | some parent => makeDirectories parent
  | none => pure ()
  writeText path limits.text

/-- What a procedure comes to: the files that it leaves, or why it failed. -/
def outcome : EStateM.Result LimitsError FileTree Unit → Except LimitsError FileTree
  | .ok _ tree => .ok tree
  | .error reason _ => .error reason

theorem outcome_bind (first second : FileProcedure Unit) (tree : FileTree) :
    outcome ((do first; second : FileProcedure Unit).run tree) =
      outcome (first.run tree) >>= fun made => outcome (second.run made) := by
  rw [EStateM.run_bind]
  cases first.run tree <;> rfl

theorem outcome_writeText (path text : String) (tree : FileTree) :
    outcome ((writeText path text).run tree) =
      match tree.write? path text.toUTF8 with
      | some written => .ok written
      | none => .error (.unwritable path) := by
  have hget : (writeText path text).run tree =
      (match tree.write? path text.toUTF8 with
      | some written => set written
      | none => throw (.unwritable path) : FileProcedure Unit).run tree := rfl
  rw [hget]
  cases tree.write? path text.toUTF8 <;> rfl

theorem run_makeEach_cons (path : String) (tree : FileTree) (place : List String) (part : String)
    (rest : List String) :
    (makeEach path place (part :: rest)).run tree =
      match FileTree.makeStep? (tree, place) part with
      | some (made, next) => (makeEach path next rest).run made
      | none => .error (.unwritable path) tree := by
  have hget : (makeEach path place (part :: rest)).run tree =
      (match FileTree.makeStep? (tree, place) part with
      | some (made, next) => do
        set made
        makeEach path next rest
      | none => throw (.unwritable path) : FileProcedure Unit).run tree := rfl
  rw [hget]
  cases FileTree.makeStep? (tree, place) part <;> rfl

theorem outcome_makeEach (path : String) (tree : FileTree) (place : List String)
    (parts : List String) :
    outcome ((makeEach path place parts).run tree) =
      match parts.foldlM FileTree.makeStep? (tree, place) with
      | some (made, _) => .ok made
      | none => .error (.unwritable path) := by
  induction parts generalizing tree place with
  | nil => rfl
  | cons part rest ih =>
    rw [List.foldlM_cons, run_makeEach_cons]
    cases FileTree.makeStep? (tree, place) part with
    | none => rfl
    | some next => exact ih next.1 next.2

theorem outcome_makeDirectories (path : String) (tree : FileTree) :
    outcome ((makeDirectories path).run tree) =
      match tree.makeDirectories? path with
      | some made => .ok made
      | none => .error (.unwritable path) := by
  have hget : (makeDirectories path).run tree =
      (if Path.isAdmissible path then makeEach path (tree.start path) (Path.parts path)
      else throw (.unwritable path) : FileProcedure Unit).run tree := by
    unfold makeDirectories
    split <;> rfl
  rw [hget, FileTree.makeDirectories?]
  split
  · rw [outcome_makeEach]
    cases (Path.parts path).foldlM FileTree.makeStep? (tree, tree.start path) <;> rfl
  · rfl

/-- Limits that cannot be written leave the files alone. -/
theorem run_save_of_not_writable {limits : Limits} (h : limits.isWritable = false)
    (path : String) (tree : FileTree) :
    (save limits path).run tree = .error (.malformed path) tree := by
  unfold save
  rw [h]
  rfl

/-- Saving step by step comes to what saving gives as a result. -/
theorem outcome_save (limits : Limits) (path : String) (tree : FileTree) :
    outcome ((save limits path).run tree) = limits.save tree path := by
  cases hwritable : limits.isWritable with
  | false =>
    rw [run_save_of_not_writable hwritable, Limits.save, hwritable]
    rfl
  | true =>
    cases hparent : Path.parent? path with
    | none =>
      rw [save, Limits.save, hwritable, hparent]
      exact outcome_writeText path limits.text tree
    | some parent =>
      have hsteps : (save limits path).run tree =
          (do makeDirectories parent; writeText path limits.text : FileProcedure Unit).run tree := by
        rw [save, hwritable, hparent]
        rfl
      rw [Limits.save_eq_of_parent hwritable hparent, hsteps, outcome_bind, outcome_makeDirectories]
      cases tree.makeDirectories? parent with
      | none => rfl
      | some made => exact outcome_writeText path limits.text made

end FileProcedure

namespace Limits

theorem load_text {limits : Limits} (h : limits.isWritable = true) (path : String) :
    load path (.ofText limits.text) = .ok limits := by
  rw [← textKeeping_all, load_textKeeping h, keeping_all]

/-- Limits that are saved are loaded again, and a file that has lost some of its lines gives
    the defaults for these. Saving succeeds when no limit is beyond the integers of 64 bits
    with a sign and a file can be put at the path; the missing directories are made, and no
    other file changes. Limits beyond these integers are refused before anything is made. -/
theorem save_restores (limits : Limits) (tree : FileTree) (path : String) :
    ((∃ saved, limits.save tree path = .ok saved) ↔
      (∀ field ∈ limits.fields, field.2 ≤ 2 ^ 63 - 1) ∧ tree.Writable path) ∧
    (∀ saved, limits.save tree path = .ok saved →
      saved.read path = .ofText limits.text ∧ load path (saved.read path) = .ok limits ∧
      (∃ parent, Path.parent? path = some parent ∧ saved.read parent = .directory) ∧
      (∀ place, saved.isDirectory place = true ↔
        tree.isDirectory place = true ∨ place ∈ tree.approach path) ∧
      (∀ place, place ≠ tree.placeOf path →
        saved.files.lookup place = tree.files.lookup place) ∧
      ∀ kept : String → Bool,
        let shortened := saved.withFile (tree.placeOf path) (limits.textKeeping kept).toUTF8
        load path (shortened.read path) = .ok (limits.keeping kept)) ∧
    ((∃ field ∈ limits.fields, 2 ^ 63 - 1 < field.2) →
      (FileProcedure.save limits path).run tree = .error (.malformed path) tree) ∧
    FileProcedure.outcome ((FileProcedure.save limits path).run tree) =
      limits.save tree path := by
  refine ⟨?_, fun saved h => ?_, fun hlarge => ?_, FileProcedure.outcome_save limits path tree⟩
  · rw [← isWritable_iff]
    constructor
    · rintro ⟨saved, h⟩
      exact ⟨isWritable_of_save h, writable_of_save h⟩
    · rintro ⟨hwritable, hpath⟩
      exact ⟨_, save_of_writable hwritable hpath⟩
  · obtain ⟨hwritable, hpath, rfl⟩ := save_eq_ok_iff.mp h
    refine ⟨read_savedTree hpath, ?_, read_parent_savedTree hpath, isDirectory_savedTree,
      fun place => lookup_savedTree, fun kept => ?_⟩
    · rw [read_savedTree hpath]
      exact load_text hwritable path
    · dsimp only
      rw [read_withFile_savedTree hpath]
      exact load_textKeeping hwritable kept path
  · have hwritable : limits.isWritable = false := by
      rw [Bool.eq_false_iff, ne_eq, isWritable_iff]
      obtain ⟨field, hfield, hlarge⟩ := hlarge
      exact fun hall => Nat.not_le_of_gt hlarge (hall field hfield)
    exact FileProcedure.run_save_of_not_writable hwritable path tree

/-- Work goes on in one directory, the limits are kept in another. -/
def nested : FileTree := ⟨["home"], [["etc"]], [(["etc", "visa.toml"], "rules = []".toUTF8)]⟩

/-- A directory is missing on the way, and the way leads back and forth. -/
theorem nested_writable : nested.Writable "/etc/./new/../visa/limits.toml" where
  admitted := by decide +kernel
  named := by decide +kernel
  passable := by decide +kernel
  vacant := by decide +kernel
  apart := by decide +kernel

theorem nested_writable_relative : nested.Writable "new/../../etc/limits.toml" where
  admitted := by decide +kernel
  named := by decide +kernel
  passable := by decide +kernel
  vacant := by decide +kernel
  apart := by decide +kernel

theorem nested_save_restores :
    let path := "/etc/./new/../visa/limits.toml"
    let limits : Limits := { maxEvaluationPasses := 3, maxQuestionDepth := 2 ^ 63 - 1 }
    (∃ saved, limits.save nested path = .ok saved ∧ load path (saved.read path) = .ok limits ∧
      saved.isDirectory ["etc", "visa"] = true ∧
      let shortened := saved.withFile (nested.placeOf path)
        (limits.textKeeping (· = "max_evaluation_passes")).toUTF8
      load path (shortened.read path) = .ok { maxEvaluationPasses := 3 }) ∧
    (∃ saved, limits.save nested "new/../../etc/limits.toml" = .ok saved ∧
      load "new/../../etc/limits.toml" (saved.read "new/../../etc/limits.toml") = .ok limits ∧
      saved.isDirectory ["home", "new"] = true) ∧
    (FileProcedure.save { limits with maxPropagationIterations := 2 ^ 63 } path).run nested =
      .error (.malformed path) nested := by
  intro path limits
  obtain ⟨hsaves, hsaved, -, -⟩ := save_restores limits nested path
  obtain ⟨saved, h⟩ := hsaves.mpr ⟨by decide, nested_writable⟩
  obtain ⟨-, hload, -, hdirectory, -, hshortened⟩ := hsaved saved h
  obtain ⟨hsaves, hsaved, -, -⟩ := save_restores limits nested "new/../../etc/limits.toml"
  obtain ⟨relative, hrelative⟩ := hsaves.mpr ⟨by decide, nested_writable_relative⟩
  obtain ⟨-, hrelativeLoad, -, hmade, -, -⟩ := hsaved relative hrelative
  refine ⟨⟨saved, h, hload, (hdirectory _).mpr (.inr (by decide +kernel)), ?_⟩,
    ⟨relative, hrelative, hrelativeLoad, (hmade _).mpr (.inr (by decide +kernel))⟩, ?_⟩
  · exact (hshortened _).trans (by decide)
  · exact (save_restores _ nested path).2.2.1 ⟨("max_propagation_iterations", 2 ^ 63), by decide⟩

end Limits

end Consultation
