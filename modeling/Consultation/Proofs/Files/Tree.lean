import Consultation.Proofs.Files.Path
import Consultation.Proofs.Lookup

namespace Consultation.FileTree

/-- The places that parts of a path lead through, from where they start to where they end. -/
def trail (place : List String) : List String → List (List String)
  | [] => [place]
  | part :: rest => place :: trail (follow place part) rest

/-- The place that a path names. -/
def placeOf (tree : FileTree) (path : String) : List String :=
  (Path.parts path).foldl follow (tree.start path)

/-- The places on the way to the one that a path names. -/
def approach (tree : FileTree) (path : String) : List (List String) :=
  trail (tree.start path) (Path.leading path)

theorem isDirectory_of_isPrefix {tree : FileTree} {place : List String}
    (h : place <+: tree.working) : tree.isDirectory place = true := by
  rw [isDirectory, List.isPrefixOf_iff_prefix.mpr h, Bool.true_or]

theorem start_isPrefix (tree : FileTree) (path : String) : tree.start path <+: tree.working := by
  unfold start
  split
  · exact List.nil_prefix
  · exact List.prefix_rfl

theorem self_mem_trail (place : List String) (parts : List String) : place ∈ trail place parts := by
  cases parts <;> simp [trail]

theorem foldl_follow_mem_trail (place : List String) (parts : List String) :
    parts.foldl follow place ∈ trail place parts := by
  induction parts generalizing place with
  | nil => simp [trail]
  | cons part rest ih => exact List.mem_cons_of_mem _ (ih _)

/-- A way can be gone when it leads through directories. What it ends at does not matter. -/
theorem foldlM_enter?_append_singleton (tree : FileTree) (place : List String)
    (parts : List String) (last : String) :
    (parts ++ [last]).foldlM tree.enter? place =
      if ∀ passed ∈ trail place parts, tree.isDirectory passed = true then
        some (follow (parts.foldl follow place) last)
      else none := by
  induction parts generalizing place with
  | nil => simp [trail, enter?]
  | cons part rest ih =>
    rw [List.cons_append, List.foldlM_cons, enter?, trail]
    simp only [List.forall_mem_cons]
    by_cases hplace : tree.isDirectory place = true
    · simp [hplace, ih]
    · simp [hplace]

/-- The tree with a directory at a place. -/
def withDirectory (tree : FileTree) (place : List String) : FileTree :=
  if tree.isDirectory place then tree else { tree with directories := place :: tree.directories }

theorem isDirectory_withDirectory (tree : FileTree) (place other : List String) :
    (tree.withDirectory place).isDirectory other = true ↔
      tree.isDirectory other = true ∨ other = place := by
  unfold withDirectory
  split
  · next hplace =>
    exact (or_iff_left_of_imp fun heq => heq ▸ hplace).symm
  · simp [isDirectory, or_left_comm, or_comm]

@[simp]
theorem working_withDirectory (tree : FileTree) (place : List String) :
    (tree.withDirectory place).working = tree.working := by
  unfold withDirectory
  split <;> rfl

@[simp]
theorem files_withDirectory (tree : FileTree) (place : List String) :
    (tree.withDirectory place).files = tree.files := by
  unfold withDirectory
  split <;> rfl

/-- The tree with directories at places. -/
def withDirectories (tree : FileTree) (places : List (List String)) : FileTree :=
  places.foldl withDirectory tree

theorem isDirectory_withDirectories (tree : FileTree) (places : List (List String))
    (other : List String) :
    (tree.withDirectories places).isDirectory other = true ↔
      tree.isDirectory other = true ∨ other ∈ places := by
  induction places generalizing tree with
  | nil => simp [withDirectories]
  | cons place rest ih =>
    rw [withDirectories, List.foldl_cons, ← withDirectories, ih, isDirectory_withDirectory,
      List.mem_cons, or_assoc]

@[simp]
theorem working_withDirectories (tree : FileTree) (places : List (List String)) :
    (tree.withDirectories places).working = tree.working := by
  induction places generalizing tree with
  | nil => rfl
  | cons place rest ih =>
    rw [withDirectories, List.foldl_cons, ← withDirectories, ih, working_withDirectory]

@[simp]
theorem files_withDirectories (tree : FileTree) (places : List (List String)) :
    (tree.withDirectories places).files = tree.files := by
  induction places generalizing tree with
  | nil => rfl
  | cons place rest ih =>
    rw [withDirectories, List.foldl_cons, ← withDirectories, ih, files_withDirectory]

theorem withDirectory_of_isDirectory {tree : FileTree} {place : List String}
    (h : tree.isDirectory place = true) : tree.withDirectory place = tree := if_pos h

/-- A way starts at a place, so that a directory there is made in any case. -/
theorem withDirectories_trail (tree : FileTree) (place : List String) (parts : List String) :
    (tree.withDirectory place).withDirectories (trail place parts) =
      tree.withDirectories (trail place parts) := by
  have hmade : (tree.withDirectory place).isDirectory place = true :=
    (isDirectory_withDirectory ..).mpr (.inr rfl)
  cases parts <;> simp [trail, withDirectories, withDirectory_of_isDirectory hmade]

/-- No file is in the way at a place: it is a directory, or can be made one. -/
def IsPassable (tree : FileTree) (place : List String) : Prop :=
  tree.isDirectory place = true ∨ tree.isFile place = false

instance (tree : FileTree) (place : List String) : Decidable (tree.IsPassable place) :=
  inferInstanceAs (Decidable (_ ∨ _))

theorem makeStep?_eq {tree : FileTree} {place : List String} (part : String)
    (hplace : tree.isDirectory place = true) :
    makeStep? (tree, place) part =
      if tree.IsPassable (follow place part) then
        some (tree.withDirectory (follow place part), follow place part)
      else none := by
  simp only [makeStep?, enter?, hplace, if_true, Option.bind_eq_bind, Option.bind_some,
    IsPassable, withDirectory]
  split
  · next hdirectory => simp [hdirectory]
  · next hdirectory =>
    split
    · next hfile => simp [hdirectory, hfile]
    · next hfile => simp [hdirectory, hfile]

theorem isPassable_withDirectory {tree : FileTree} {place : List String}
    (h : tree.IsPassable place) (other : List String) :
    (tree.withDirectory place).IsPassable other ↔ tree.IsPassable other := by
  unfold IsPassable at h ⊢
  rw [isDirectory_withDirectory, isFile, files_withDirectory, ← isFile]
  constructor
  · rintro ((hother | rfl) | hother)
    · exact .inl hother
    · exact h
    · exact .inr hother
  · rintro (hother | hother)
    · exact .inl (.inl hother)
    · exact .inr hother

/-- Directories are made all along a way on which no file lies. -/
theorem foldlM_makeStep? {tree : FileTree} {place : List String}
    (hplace : tree.isDirectory place = true) (parts : List String) :
    parts.foldlM makeStep? (tree, place) =
      if ∀ passed ∈ trail place parts, tree.IsPassable passed then
        some (tree.withDirectories (trail place parts), parts.foldl follow place)
      else none := by
  induction parts generalizing tree place with
  | nil => simp [trail, withDirectories, withDirectory, IsPassable, hplace]
  | cons part rest ih =>
    have hpassable : tree.IsPassable place := .inl hplace
    rw [List.foldlM_cons, makeStep?_eq part hplace, trail, withDirectories, List.foldl_cons,
      withDirectory_of_isDirectory hplace, ← withDirectories]
    simp only [List.forall_mem_cons, hpassable, true_and]
    by_cases hnext : tree.IsPassable (follow place part)
    · have hmade : (tree.withDirectory (follow place part)).isDirectory (follow place part) = true :=
        (isDirectory_withDirectory ..).mpr (.inr rfl)
      have hrest := ih hmade
      simp only [isPassable_withDirectory hnext, withDirectories_trail] at hrest
      rw [if_pos hnext, Option.bind_eq_bind, Option.bind_some, hrest]
      rfl
    · have hblocked : ¬ ∀ passed ∈ trail (follow place part) rest, tree.IsPassable passed :=
        fun hall => hnext (hall _ (self_mem_trail _ _))
      simp [hnext, hblocked]

theorem placeOf_eq (tree : FileTree) (path : String) :
    tree.placeOf path =
      follow ((Path.leading path).foldl follow (tree.start path)) (Path.lastPart path) := by
  rw [placeOf, (Path.parts_front path).2, List.foldl_append]
  rfl

theorem resolve?_eq (tree : FileTree) (path : String) :
    tree.resolve? path =
      if Path.isAdmissible path = true ∧
          ∀ passed ∈ tree.approach path, tree.isDirectory passed = true then
        some (tree.placeOf path)
      else none := by
  rw [resolve?, (Path.parts_front path).2, foldlM_enter?_append_singleton, ← placeOf_eq,
    ← approach]
  by_cases hadmitted : Path.isAdmissible path = true <;> simp [hadmitted]

theorem makeDirectories?_eq (tree : FileTree) (path : String) :
    tree.makeDirectories? path =
      if Path.isAdmissible path = true ∧
          ∀ passed ∈ trail (tree.start path) (Path.parts path), tree.IsPassable passed then
        some (tree.withDirectories (trail (tree.start path) (Path.parts path)))
      else none := by
  rw [makeDirectories?,
    foldlM_makeStep? (isDirectory_of_isPrefix (start_isPrefix tree path))]
  by_cases hadmitted : Path.isAdmissible path = true
  · simp only [hadmitted, if_true, true_and]
    split <;> rfl
  · simp [hadmitted]

/-- The tree with a file at a place. -/
def withFile (tree : FileTree) (place : List String) (bytes : ByteArray) : FileTree :=
  { tree with files := (place, bytes) :: tree.files.filter (·.1 ≠ place) }

@[simp]
theorem isDirectory_withFile (tree : FileTree) (place other : List String) (bytes : ByteArray) :
    (tree.withFile place bytes).isDirectory other = tree.isDirectory other := rfl

@[simp]
theorem placeOf_withFile (tree : FileTree) (place : List String) (bytes : ByteArray)
    (path : String) : (tree.withFile place bytes).placeOf path = tree.placeOf path := rfl

@[simp]
theorem approach_withFile (tree : FileTree) (place : List String) (bytes : ByteArray)
    (path : String) : (tree.withFile place bytes).approach path = tree.approach path := rfl

theorem lookup_withFile (tree : FileTree) (place other : List String) (bytes : ByteArray) :
    (tree.withFile place bytes).files.lookup other =
      if other = place then some bytes else tree.files.lookup other := by
  rw [withFile, List.lookup_cons, lookup_filter fun key => decide (key ≠ place)]
  by_cases heq : other = place
  · simp [heq]
  · rw [beq_eq_false_iff_ne.mpr heq, if_neg heq, if_pos (decide_eq_true heq)]

theorem write?_eq (tree : FileTree) (path : String) (bytes : ByteArray) :
    tree.write? path bytes =
      if (Path.isAdmissible path = true ∧
            ∀ passed ∈ tree.approach path, tree.isDirectory passed = true) ∧
          tree.isDirectory (tree.placeOf path) = false then
        some (tree.withFile (tree.placeOf path) bytes)
      else none := by
  rw [write?, resolve?_eq]
  by_cases hway : Path.isAdmissible path = true ∧
      ∀ passed ∈ tree.approach path, tree.isDirectory passed = true
  · simp only [if_pos hway, Option.bind_eq_bind, Option.bind_some]
    cases hplace : tree.isDirectory (tree.placeOf path)
    · exact (if_pos ⟨hway, rfl⟩).symm
    · exact (if_neg fun hvacant => nomatch hvacant.2).symm
  · simp [hway]

theorem write?_eq_some_iff {tree written : FileTree} {path : String} {bytes : ByteArray} :
    tree.write? path bytes = some written ↔
      ((Path.isAdmissible path = true ∧
            ∀ passed ∈ tree.approach path, tree.isDirectory passed = true) ∧
          tree.isDirectory (tree.placeOf path) = false) ∧
        tree.withFile (tree.placeOf path) bytes = written := by
  rw [write?_eq, Option.ite_none_right_eq_some, Option.some.injEq]

theorem read_withFile {tree : FileTree} {path : String}
    (hadmitted : Path.isAdmissible path = true)
    (hway : ∀ passed ∈ tree.approach path, tree.isDirectory passed = true)
    (hvacant : tree.isDirectory (tree.placeOf path) = false) (bytes : ByteArray) :
    (tree.withFile (tree.placeOf path) bytes).read path = .file bytes := by
  rw [read, resolve?_eq, approach_withFile, placeOf_withFile, if_pos ⟨hadmitted, hway⟩]
  simp [hvacant, lookup_withFile]

theorem follow_of_not_leadsOn {part : String} (h : Path.leadsOn part = false)
    (place : List String) : follow place part = place := by
  rw [follow, h]
  rfl

theorem trail_append_singleton (place : List String) (parts : List String) (part : String) :
    trail place (parts ++ [part]) =
      trail place parts ++ [follow (parts.foldl follow place) part] := by
  induction parts generalizing place with
  | nil => rfl
  | cons first rest ih =>
    rw [List.cons_append, trail, ih]
    rfl

/-- A way leads through the places that its steps lead through. -/
theorem mem_trail_filter_leadsOn {place passed : List String} {parts : List String} :
    passed ∈ trail place (parts.filter Path.leadsOn) ↔ passed ∈ trail place parts := by
  induction parts generalizing place with
  | nil => rfl
  | cons part rest ih =>
    cases hleads : Path.leadsOn part with
    | true =>
      rw [List.filter_cons_of_pos hleads, trail, trail, List.mem_cons, List.mem_cons, ih]
    | false =>
      have hself : passed = place → passed ∈ trail place rest := fun heq =>
        heq ▸ self_mem_trail passed rest
      rw [List.filter_cons_of_neg (by simp [hleads]), ih, trail, List.mem_cons,
        follow_of_not_leadsOn hleads, or_iff_right_of_imp hself]

/-- Directories are made all along a way by making them along its steps. -/
theorem withDirectories_trail_filter_leadsOn (tree : FileTree) (place : List String)
    (parts : List String) :
    tree.withDirectories (trail place (parts.filter Path.leadsOn)) =
      tree.withDirectories (trail place parts) := by
  induction parts generalizing tree place with
  | nil => rfl
  | cons part rest ih =>
    cases hleads : Path.leadsOn part with
    | true =>
      rw [List.filter_cons_of_pos hleads, trail, trail]
      exact ih _ _
    | false =>
      rw [List.filter_cons_of_neg (by simp [hleads]), ih, trail, follow_of_not_leadsOn hleads]
      exact (withDirectories_trail tree place rest).symm

theorem prefix_follow {place above : List String} {part : String}
    (h : above <+: follow place part) : above = follow place part ∨ above <+: place := by
  have hfollow : follow place part <+: place ∨ follow place part = place ++ [part] := by
    unfold follow
    split
    · exact .inl List.prefix_rfl
    · split
      · exact .inl <| List.dropLast_prefix _
      · exact .inr rfl
  rcases hfollow with hup | hdown
  · exact .inr (h.trans hup)
  · rw [hdown] at h ⊢
    exact List.prefix_concat_iff.mp h

/-- A place above one that a way leads through is on the way too, or above where it starts. -/
theorem prefix_mem_trail {place passed above : List String} {parts : List String}
    (hpassed : passed ∈ trail place parts) (habove : above <+: passed) :
    above ∈ trail place parts ∨ above <+: place := by
  induction parts generalizing place with
  | nil =>
    rw [trail, List.mem_singleton] at hpassed
    exact .inr (hpassed ▸ habove)
  | cons part rest ih =>
    rcases List.mem_cons.mp hpassed with rfl | hpassed
    · exact .inr habove
    · rcases ih hpassed with hmem | hbegins
      · exact .inl (List.mem_cons_of_mem _ hmem)
      · rcases prefix_follow hbegins with rfl | hbegins
        · exact .inl (List.mem_cons_of_mem _ (self_mem_trail _ _))
        · exact .inr hbegins

theorem read_eq_directory {tree : FileTree} {path : String}
    (hadmitted : Path.isAdmissible path = true)
    (hway : ∀ passed ∈ trail (tree.start path) (Path.parts path),
      tree.isDirectory passed = true) :
    tree.read path = .directory := by
  have happroach : ∀ passed ∈ tree.approach path, tree.isDirectory passed = true := by
    intro passed hpassed
    refine hway passed ?_
    rw [(Path.parts_front path).2, trail_append_singleton]
    exact List.mem_append_left _ hpassed
  have hplace : tree.isDirectory (tree.placeOf path) = true :=
    hway _ (foldl_follow_mem_trail _ _)
  rw [read, resolve?_eq, if_pos ⟨hadmitted, happroach⟩]
  exact if_pos hplace

/-- The tree once the directories on the way to a path have been made. -/
def made (tree : FileTree) (path : String) : FileTree := tree.withDirectories (tree.approach path)

@[simp]
theorem approach_made (tree : FileTree) (path : String) :
    (tree.made path).approach path = tree.approach path := by
  rw [approach, start, made, working_withDirectories]
  rfl

@[simp]
theorem placeOf_made (tree : FileTree) (path : String) :
    (tree.made path).placeOf path = tree.placeOf path := by
  rw [placeOf, start, made, working_withDirectories]
  rfl

/-- The directory that a path lies in is made by going the way to the place that the path
    names. -/
theorem exists_parent {path : String} (hadmitted : Path.isAdmissible path = true)
    (hname : Path.leadsOn (Path.lastPart path) = true) :
    ∃ parent, Path.parent? path = some parent ∧ Path.isAdmissible parent = true ∧
      ∀ tree : FileTree,
        (∀ passed, passed ∈ trail (tree.start parent) (Path.parts parent) ↔
          passed ∈ tree.approach path) ∧
        tree.makeDirectories? parent =
          if ∀ passed ∈ tree.approach path, tree.IsPassable passed then
            some (tree.made path)
          else none := by
  obtain ⟨parent, hparent, habsolute, hsteps, hadmits⟩ := Path.exists_parent hname
  rw [Path.steps] at hsteps
  refine ⟨parent, hparent, hadmits hadmitted, fun tree => ?_⟩
  have hstart : tree.start parent = tree.start path := by rw [start, start, habsolute]
  have hway (passed : List String) :
      passed ∈ trail (tree.start parent) (Path.parts parent) ↔ passed ∈ tree.approach path := by
    rw [approach, hstart, ← mem_trail_filter_leadsOn, hsteps, mem_trail_filter_leadsOn]
  have hmade : tree.withDirectories (trail (tree.start parent) (Path.parts parent)) =
      tree.made path := by
    rw [made, approach, hstart, ← withDirectories_trail_filter_leadsOn, hsteps,
      withDirectories_trail_filter_leadsOn]
  refine ⟨hway, ?_⟩
  rw [makeDirectories?_eq, hmade]
  simp only [hadmits hadmitted, hway, true_and]

/-- A file can be put at a path, together with the directories it lies in: the path can be
    followed, its last part is a name, no file lies on the way, and the place that it names is
    no directory, nor would be one after the way has been made. -/
structure Writable (tree : FileTree) (path : String) : Prop where
  admitted : Path.isAdmissible path = true
  named : Path.lastPart path ∉ ["", ".", ".."]
  passable : ∀ passed ∈ tree.approach path, tree.IsPassable passed
  vacant : tree.isDirectory (tree.placeOf path) = false
  apart : tree.placeOf path ∉ tree.approach path

theorem leadsOn_of_named {path : String} (h : Path.lastPart path ∉ ["", ".", ".."]) :
    Path.leadsOn (Path.lastPart path) = true := by
  simp only [List.mem_cons, not_or] at h
  simp [Path.leadsOn, h.1, h.2.1]

theorem isDirectory_made (tree : FileTree) (path : String) (place : List String) :
    (tree.made path).isDirectory place = true ↔
      tree.isDirectory place = true ∨ place ∈ tree.approach path :=
  isDirectory_withDirectories ..

theorem isDirectory_approach_made (tree : FileTree) (path : String) :
    ∀ passed ∈ (tree.made path).approach path, (tree.made path).isDirectory passed = true := by
  intro passed hpassed
  rw [approach_made] at hpassed
  exact (isDirectory_made ..).mpr (.inr hpassed)

/-- Making the way leaves the place at its end free. -/
theorem Writable.vacant_made {tree : FileTree} {path : String} (h : tree.Writable path) :
    (tree.made path).isDirectory ((tree.made path).placeOf path) = false := by
  rw [placeOf_made, Bool.eq_false_iff, ne_eq, isDirectory_made, h.vacant]
  exact fun hplace => hplace.elim Bool.false_ne_true h.apart

/-- Only a name leads from directories to a place that is none. -/
theorem named_of_vacant {tree : FileTree} {path : String}
    (hway : ∀ passed ∈ tree.approach path, tree.isDirectory passed = true)
    (hvacant : tree.isDirectory (tree.placeOf path) = false) :
    Path.lastPart path ∉ ["", ".", ".."] := by
  intro hlast
  have hend := foldl_follow_mem_trail (tree.start path) (Path.leading path)
  suffices hplace : tree.isDirectory (tree.placeOf path) = true by
    rw [hplace] at hvacant
    cases hvacant
  rw [placeOf_eq]
  generalize (Path.leading path).foldl follow (tree.start path) = place at hend
  have hidle : Path.leadsOn (Path.lastPart path) = false →
      tree.isDirectory (follow place (Path.lastPart path)) = true := by
    intro hleads
    rw [follow_of_not_leadsOn hleads]
    exact hway _ hend
  rcases List.mem_cons.mp hlast with hempty | hlast
  · exact hidle (by rw [hempty]; rfl)
  rcases List.mem_cons.mp hlast with hdot | hlast
  · exact hidle (by rw [hdot]; rfl)
  rw [List.mem_singleton.mp hlast]
  rcases prefix_mem_trail hend (List.dropLast_prefix place) with hmem | hstart
  · exact hway _ hmem
  · exact isDirectory_of_isPrefix (hstart.trans (start_isPrefix tree path))

end Consultation.FileTree
