import Consultation.Files.Tree
import Mathlib.Data.List.TakeWhile

namespace Consultation.Path

/-- The part of a path after its last slash. -/
def lastPart (path : String) : String :=
  String.ofList (path.toList.reverse.takeWhile (· != '/')).reverse

/-- A path up to its last slash. -/
def front (path : String) : String :=
  String.ofList (path.toList.reverse.dropWhile (· != '/')).reverse

/-- The parts of a path but the last. They lead to the directory that the path lies in. -/
def leading (path : String) : List String := (parts path).dropLast

variable {path parent : String}

theorem slash_notMem_lastPart (path : String) : '/' ∉ (lastPart path).toList := by
  rw [lastPart, String.toList_ofList, List.mem_reverse]
  intro hmem
  simpa using List.mem_takeWhile_imp hmem

theorem front_append_lastPart (path : String) :
    (front path).toList ++ (lastPart path).toList = path.toList := by
  rw [front, lastPart, String.toList_ofList, String.toList_ofList, ← List.reverse_append,
    List.takeWhile_append_dropWhile, List.reverse_reverse]

theorem parts_of_slash_notMem (h : '/' ∉ path.toList) : parts path = [path] := by
  rw [parts, List.splitOn_eq_singleton h, List.map_singleton, String.ofList_toList]

theorem parts_append_slash (chars : List Char) {rest : List Char} (h : '/' ∉ rest) :
    parts (String.ofList (chars ++ '/' :: rest)) =
      parts (String.ofList chars) ++ [String.ofList rest] := by
  rw [parts, parts, String.toList_ofList, String.toList_ofList, List.splitOn_append_cons_self,
    List.splitOn_eq_singleton h, List.map_append, List.map_singleton]

/-- Up to its last slash a path has all its parts but the last, and nothing after them. -/
theorem parts_front (path : String) :
    parts (front path) = leading path ++ [""] ∧ parts path = leading path ++ [lastPart path] := by
  have hpath := front_append_lastPart path
  have hlast := slash_notMem_lastPart path
  cases hfront : path.toList.reverse.dropWhile (· != '/') with
  | nil =>
    have hempty : front path = "" := by rw [front, hfront]; rfl
    rw [hempty, String.toList_empty, List.nil_append] at hpath
    have hparts : parts path = [lastPart path] := by
      rw [parts_of_slash_notMem (hpath ▸ hlast), String.toList_inj.mp hpath]
    rw [hempty, leading, hparts]
    exact ⟨rfl, rfl⟩
  | cons slash chars =>
    have hslash := List.head?_dropWhile_not (· != '/') path.toList.reverse
    have heq : slash = '/' := by simpa [hfront] using hslash
    have hends : front path = String.ofList (chars.reverse ++ ['/']) := by
      rw [front, hfront, heq, List.reverse_cons]
    have hparts : parts path = parts (String.ofList chars.reverse) ++ [lastPart path] := by
      rw [hends, String.toList_ofList, List.append_assoc, List.singleton_append] at hpath
      have hparts := parts_append_slash chars.reverse hlast
      rwa [hpath, String.ofList_toList, String.ofList_toList] at hparts
    rw [leading, hparts, List.dropLast_concat, hends]
    exact ⟨parts_append_slash _ List.not_mem_nil, rfl⟩

theorem steps_front (path : String) : steps (front path) = (leading path).filter leadsOn := by
  rw [steps, (parts_front path).1, List.filter_append]
  exact List.append_nil _

/-- What is dropped as a tail does not lead on. -/
theorem steps_dropTail (chars : List Char) :
    steps (String.ofList (dropTail chars).reverse) = steps (String.ofList chars.reverse) := by
  have hidle (rest part : List Char) (hslash : '/' ∉ part)
      (hpart : leadsOn (String.ofList part) = false) :
      steps (String.ofList (rest ++ '/' :: part)) = steps (String.ofList rest) := by
    rw [steps, parts_append_slash _ hslash, List.filter_append, ← steps]
    simp [hpart]
  fun_induction dropTail with
  | case1 rest ih =>
    rw [ih, List.reverse_cons]
    exact (hidle _ [] List.not_mem_nil rfl).symm
  | case2 rest ih =>
    rw [ih, List.reverse_cons, List.reverse_cons, List.append_assoc]
    exact (hidle _ ['.'] (by decide) rfl).symm
  | case3 chars => rfl

theorem dropTail_suffix (chars : List Char) : dropTail chars <:+ chars := by
  fun_induction dropTail with
  | case1 rest ih => exact ih.trans (List.suffix_cons _ _)
  | case2 rest ih => exact ih.trans ((List.suffix_cons _ _).trans (List.suffix_cons _ _))
  | case3 chars => exact List.suffix_rfl

/-- The end of a path stays when its last part leads on. -/
theorem dropTail_of_leadsOn (h : leadsOn (lastPart path) = true) :
    dropTail path.toList.reverse = path.toList.reverse := by
  unfold dropTail
  split
  · next heq => simp [lastPart, heq, leadsOn] at h
  · next heq => simp [lastPart, heq, leadsOn] at h
  · rfl

theorem isAbsolute_of_isPrefix (hbegins : parent.toList <+: path.toList)
    (hparent : parent.toList ≠ []) : isAbsolute parent = isAbsolute path := by
  obtain ⟨rest, hrest⟩ := hbegins
  rw [isAbsolute, isAbsolute, ← hrest]
  cases hchars : parent.toList with
  | nil => exact absurd hchars hparent
  | cons first chars => rfl

/-- A path can be followed as far as another that can be. -/
theorem isAdmissible_of_isPrefix (h : isAdmissible path = true)
    (hbegins : parent.toList <+: path.toList) (hsteps : ∀ step ∈ steps parent, step ∈ steps path) :
    isAdmissible parent = true := by
  obtain ⟨rest, hrest⟩ := hbegins
  have hpath : path = parent ++ String.ofList rest := by
    rw [← String.toList_inj, String.toList_append, String.toList_ofList, hrest]
  simp only [isAdmissible, Bool.and_eq_true, Bool.not_eq_true', List.contains_eq_mem,
    decide_eq_false_iff_not, decide_eq_true_eq, List.all_eq_true] at h ⊢
  obtain ⟨⟨hnull, hsize⟩, hlong⟩ := h
  refine ⟨⟨fun hmem => hnull ?_, ?_⟩, fun part hpart => ?_⟩
  · exact hrest ▸ List.mem_append_left _ hmem
  · rw [hpath, String.utf8ByteSize_append] at hsize
    exact Nat.le_trans (Nat.le_add_right _ _) hsize
  · by_cases hleads : leadsOn part = true
    · have hstep : part ∈ steps path := hsteps part (List.mem_filter.mpr ⟨hpart, hleads⟩)
      exact hlong part (List.mem_filter.mp hstep).1
    · have hidle : part = "" ∨ part = "." := by simpa [leadsOn, or_iff_not_imp_left] using hleads
      rcases hidle with rfl | rfl <;> decide

/-- The path of the directory that a path lies in starts where the path does, and has the steps
    of the path but the last. -/
theorem exists_parent (h : leadsOn (lastPart path) = true) :
    ∃ parent, parent? path = some parent ∧ isAbsolute parent = isAbsolute path ∧
      steps parent = (leading path).filter leadsOn ∧
      (isAdmissible path = true → isAdmissible parent = true) := by
  have hnonempty : path.toList.reverse.isEmpty = false := by
    by_contra hempty
    rw [Bool.not_eq_false, List.isEmpty_iff] at hempty
    simp [lastPart, hempty, leadsOn] at h
  have hparent : parent? path =
      if (dropTail (path.toList.reverse.dropWhile (· != '/'))).isEmpty then
        some (if isAbsolute path then "/" else "")
      else some (String.ofList (dropTail (path.toList.reverse.dropWhile (· != '/'))).reverse) := by
    simp only [parent?, dropTail_of_leadsOn h, hnonempty, Bool.false_eq_true, if_false]
  have hsteps := steps_dropTail (path.toList.reverse.dropWhile (· != '/'))
  rw [← front, steps_front] at hsteps
  have hbegins : (dropTail (path.toList.reverse.dropWhile (· != '/'))).reverse <+: path.toList := by
    rw [← List.reverse_suffix, List.reverse_reverse]
    exact (dropTail_suffix _).trans (List.dropWhile_suffix _)
  generalize dropTail (path.toList.reverse.dropWhile (· != '/')) = directory at *
  have hmem : ∀ step ∈ (leading path).filter leadsOn, step ∈ steps path := by
    intro step hstep
    rw [steps, (parts_front path).2, List.filter_append]
    exact List.mem_append_left _ hstep
  have hadmits (parent : String) (hsteps : steps parent = (leading path).filter leadsOn)
      (hbegins : parent.toList <+: path.toList) (h : isAdmissible path = true) :
      isAdmissible parent = true :=
    isAdmissible_of_isPrefix h hbegins fun step hstep => hmem step (hsteps ▸ hstep)
  cases directory with
  | nil =>
    cases habsolute : isAbsolute path with
    | false =>
      rw [habsolute] at hparent
      exact ⟨"", hparent, rfl, hsteps, hadmits _ hsteps List.nil_prefix⟩
    | true =>
      rw [habsolute] at hparent
      have htop : ['/'] <+: path.toList := by
        rw [List.singleton_prefix_iff_head?_eq_some]
        exact beq_iff_eq.mp habsolute
      exact ⟨"/", hparent, rfl, hsteps, hadmits "/" hsteps htop⟩
  | cons last directory =>
    rw [← String.toList_ofList (l := (last :: directory).reverse)] at hbegins
    refine ⟨_, hparent, isAbsolute_of_isPrefix hbegins ?_, hsteps, hadmits _ hsteps hbegins⟩
    simp

end Consultation.Path
