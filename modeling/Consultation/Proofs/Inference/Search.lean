import Consultation.Proofs.Inference.OpenPath
import Consultation.Proofs.Inference.Question
import Consultation.Proofs.Knowledge.Cycles
import Mathlib.Data.Fintype.Card

namespace Consultation

namespace KnowledgeBase

variable {kb : KnowledgeBase} {memory : Memory} {table : RuleTable kb.size} {levels others : Nat}
  {starts : kb.Id → Prop} {question other : Option Fact} {path : List kb.Turn} {fact : Fact}

theorem OpenPath.mono (h : kb.OpenPath memory table levels starts path fact)
    (hle : levels ≤ others) : kb.OpenPath memory table others starts path fact :=
  { h with length_le := h.length_le.trans hle }

/-- An open path comes to no rule twice, so it never needs more levels than there are rules. -/
theorem OpenPath.of_size_le (h : kb.OpenPath memory table levels starts path fact)
    (hsize : kb.size ≤ others) : kb.OpenPath memory table others starts path fact := by
  have hlength : path.length ≤ kb.size := by simpa using h.distinct.length_le_card
  exact { h with length_le := hlength.trans hsize }

theorem Selects.eq_of_size_le (h : Selects (kb.OpenPath memory table levels starts) question)
    (hother : Selects (kb.OpenPath memory table others starts) other)
    (hlevels : kb.size ≤ levels) (hothers : kb.size ≤ others) : question = other := by
  have hsame (path : List kb.Turn) (fact : Fact) :
      kb.OpenPath memory table levels starts path fact ↔
        kb.OpenPath memory table others starts path fact :=
    ⟨fun hpath => hpath.of_size_le hothers, fun hpath => hpath.of_size_le hlevels⟩
  have hends (path : List kb.Turn) (fact found : Fact)
      (hpath : kb.OpenPath memory table levels starts path fact)
      (hfound : kb.OpenPath memory table levels starts path found) : found = fact :=
    hpath.fact_eq hfound
  have hother := hother.congr hsame
  exact Option.ext fun fact => (h.eq_some_iff hends fact).trans (hother.eq_some_iff hends fact).symm

/-- More levels leave all the open paths there were, though another may be the leftmost then. -/
theorem Selects.isSome_of_le (h : Selects (kb.OpenPath memory table levels starts) question)
    (hother : Selects (kb.OpenPath memory table others starts) other) (hle : levels ≤ others)
    (hfound : question.isSome) : other.isSome := by
  rw [Option.isSome_iff_ne_none, Ne, h.eq_none_iff, not_not] at hfound
  rw [Option.isSome_iff_ne_none, Ne, hother.eq_none_iff, not_not]
  obtain ⟨path, fact, hpath⟩ := hfound
  exact ⟨path, fact, hpath.mono hle⟩

end KnowledgeBase

/-- A search that keeps the rules on its path in one place, where it puts them in and takes them
    out again. It has no outcome if it makes a call whose depth it cannot count. -/
abbrev Search (kb : KnowledgeBase) : Type → Type := StateT (Finset kb.Id) Option

namespace Search

open KnowledgeBase

variable {kb : KnowledgeBase}

/-- Puts a rule on the path, and tells whether it was not there yet. -/
def enter (id : kb.Id) : Search kb Bool :=
  modifyGet fun onPath => (id ∉ onPath, insert id onPath)

def leave (id : kb.Id) : Search kb Unit :=
  modify fun onPath => onPath.erase id

section

variable (memory : Memory) (table : RuleTable kb.size)

def scan (combinator : Combinator) (pursue : kb.Id → Search kb (Option Fact)) :
    List Fact → Search kb (Option Fact)
  | [] => return none
  | condition :: rest =>
    match kb.effectiveValue memory condition with
    | none => return some condition
    | some .unknown => do
      let found ← (kb.concluding condition).findSomeM? fun other =>
        if (table.status other).isTerminal then return none else pursue other
      if found.isSome then return found else scan combinator pursue rest
    | some .fails => if combinator = .all then return none else scan combinator pursue rest
    | some .holds => if combinator = .any then return none else scan combinator pursue rest

variable (maxDepth : Option Nat) (capacity : Nat)

/-- Looks below a rule for a fact to ask. Calls deeper than the greatest depth, if there is one,
    are cut, and a rule that is on the path is refused. The depth is counted up from call to
    call, by numbers less than the capacity. -/
def find (depth : Nat) (id : kb.Id) : Search kb (Option Fact) :=
  if depth < capacity then do
    if maxDepth.any (· < depth) then return none
    if (table.status id).isTerminal then return none
    if !(← enter id) then return none
    let found ← scan memory table (kb.rule id).combinator (fun other => find (depth + 1) other)
      (kb.rule id).conditions
    leave id
    return found
  else failure
termination_by capacity - depth

/-- Sets out from a rule, with nothing on the path. -/
def setOut (id : kb.Id) : Search kb (Option Fact) := do
  set (∅ : Finset kb.Id)
  find memory table maxDepth capacity 0 id

/-- Sets out from one goal after the other, until there is a fact to ask. -/
def setOutFromGoals : Search kb (Option Fact) :=
  kb.goals.findSomeM? fun goal =>
    if (table.status goal).isTerminal then return none
    else setOut memory table maxDepth capacity goal

end

section

variable {onPath : Finset kb.Id} {id : kb.Id}

/-- A rule that is on the path already is refused, and stays there. -/
theorem run_enter_of_mem (h : id ∈ onPath) : (enter id).run onPath = some (false, onPath) := by
  simp [enter, StateT.run, modifyGet, MonadStateOf.modifyGet, StateT.modifyGet, h]

theorem run_enter_of_notMem (h : id ∉ onPath) :
    (enter id).run onPath = some (true, insert id onPath) := by
  simp [enter, StateT.run, modifyGet, MonadStateOf.modifyGet, StateT.modifyGet, h]

/-- A rule that was not on the path before it was put there is all that is taken off. -/
theorem run_leave_of_notMem (h : id ∉ onPath) :
    (leave id).run (insert id onPath) = some ((), onPath) := by
  have hleave : (leave id).run (insert id onPath) = some ((), (insert id onPath).erase id) := rfl
  rwa [Finset.erase_insert h] at hleave

theorem run_findSomeM? {α β : Type} {items : List α} {search : α → Search kb (Option β)}
    {value : α → Option β}
    (h : ∀ item ∈ items, (search item).run onPath = some (value item, onPath)) :
    (items.findSomeM? search).run onPath = some (items.findSome? value, onPath) := by
  induction items with
  | nil => rfl
  | cons first rest ih =>
    obtain ⟨hfirst, hrest⟩ := List.forall_mem_cons.mp h
    rw [List.findSomeM?, List.findSome?_cons, StateT.run_bind, hfirst, Option.bind_eq_bind,
      Option.bind_some]
    cases value first with
    | none => exact ih hrest
    | some found => rfl

end

section

variable {memory : Memory} {table : RuleTable kb.size} {maxDepth : Option Nat}
  {capacity depth levels : Nat} {onPath : Finset kb.Id} {path : List kb.Id} {id : kb.Id}

section

variable {pursue : kb.Id → Search kb (Option Fact)} {value : kb.Id → Option Fact}
  (hpursue : ∀ id, (pursue id).run onPath = some (value id, onPath))
  (hterminal : ∀ id, (table.status id).isTerminal = true → value id = none)

include hpursue hterminal

/-- A terminal rule is passed over without a call, which would have found nothing. -/
theorem run_findSomeM?_pursue (ids : List kb.Id) :
    (ids.findSomeM? fun id =>
      if (table.status id).isTerminal then return none else pursue id).run onPath =
        some (ids.findSome? value, onPath) := by
  refine run_findSomeM? fun id _ => ?_
  split
  · next hstops =>
    rw [hterminal id hstops]
    rfl
  · exact hpursue id

theorem run_scan (combinator : Combinator) (conditions : List Fact) :
    (scan memory table combinator pursue conditions).run onPath =
      some (kb.scanConditions memory combinator value conditions, onPath) := by
  induction conditions with
  | nil => rfl
  | cons condition rest ih =>
    rw [scan, scanConditions]
    cases kb.effectiveValue memory condition with
    | none => rfl
    | some truth =>
      cases truth with
      | unknown =>
        have hpursued := run_findSomeM?_pursue hpursue hterminal (kb.concluding condition)
        simp only [StateT.run_bind, hpursued, Option.bind_eq_bind, Option.bind_some]
        cases (kb.concluding condition).findSome? value with
        | none => exact ih
        | some fact => rfl
      | fails | holds =>
        simp only
        split
        · rfl
        · exact ih

end

/-- One call comes to an end if those do that it makes with its rule on the path. -/
theorem run_find_of_pursue (hcapacity : depth < capacity)
    (hcut : maxDepth.any (· < depth) = true ↔ levels = 0)
    (hpursue : id ∉ path → ∀ lower, levels = lower + 1 → ∀ other,
      (find memory table maxDepth capacity (depth + 1) other).run (insert id path.toFinset) =
        some (kb.searchBelow memory table lower (id :: path) other, insert id path.toFinset)) :
    (find memory table maxDepth capacity depth id).run path.toFinset =
      some (kb.searchBelow memory table levels path id, path.toFinset) := by
  rw [find, if_pos hcapacity]
  cases levels with
  | zero =>
    rw [if_pos (hcut.mpr rfl)]
    rfl
  | succ lower =>
    rw [if_neg (by simp [hcut])]
    split
    · next hstops =>
      rw [searchBelow_of_not_entered (.inl hstops)]
      rfl
    · next hopen =>
      rw [StateT.run_bind]
      by_cases hid : id ∈ path
      · rw [searchBelow_of_not_entered (.inr hid), run_enter_of_mem (List.mem_toFinset.mpr hid)]
        rfl
      · have hnotMem : id ∉ path.toFinset := mt List.mem_toFinset.mp hid
        have hscan : (scan memory table (kb.rule id).combinator
            (fun other => find memory table maxDepth capacity (depth + 1) other)
            (kb.rule id).conditions).run (insert id path.toFinset) = some (_, _) :=
          run_scan (hpursue hid lower rfl)
            (fun _ hstops => searchBelow_of_not_entered (.inl hstops)) _ _
        rw [searchBelow, if_neg (by simp [hopen, hid]), run_enter_of_notMem hnotMem]
        simp only [StateT.run_bind, hscan, run_leave_of_notMem hnotMem, Bool.not_true,
          Bool.false_eq_true, if_false, Option.bind_eq_bind, Option.bind_some, StateT.run_pure]
        rfl

/-- The search ends because it runs out of rules to put on the path. As far down as the `free`
    rules that are not on it can lead, the greatest depth has to leave as many levels as the
    search below a rule is given. -/
theorem run_find {free : Nat} (hfree : path.toFinset.card + free = kb.size)
    (hcapacity : depth + free < capacity)
    (hlevels : ∀ step ≤ free, maxDepth.any (· < depth + step) = true ↔ levels ≤ step) :
    (find memory table maxDepth capacity depth id).run path.toFinset =
      some (kb.searchBelow memory table levels path id, path.toFinset) := by
  -- Only a call that has put its rule on the path makes calls, and they find it there.
  induction free generalizing path depth levels id with
  | zero =>
    refine run_find_of_pursue hcapacity (by simpa using hlevels 0 le_rfl) fun hid => ?_
    have hfull : path.toFinset = Finset.univ :=
      (Finset.card_eq_iff_eq_univ _).mp (by simpa using hfree)
    exact absurd (List.mem_toFinset.mp (hfull ▸ Finset.mem_univ id)) hid
  | succ free ih =>
    refine run_find_of_pursue (by omega) (by simpa using hlevels 0 (Nat.zero_le _)) ?_
    rintro hid lower rfl other
    rw [← List.toFinset_cons]
    refine ih ?_ (by omega) fun step hstep => ?_
    · rw [List.toFinset_cons, Finset.card_insert_of_notMem (mt List.mem_toFinset.mp hid)]
      omega
    · rw [Nat.add_assoc, Nat.add_comm 1 step, hlevels (step + 1) (Nat.succ_le_succ hstep),
        Nat.add_le_add_iff_right]

end

/-- How many levels a greatest depth leaves for a call at some depth. -/
theorem any_lt_iff (maxDepth depth step : Nat) :
    (some maxDepth).any (· < depth + step) = true ↔ maxDepth + 1 - depth ≤ step := by
  rw [Option.any_some, decide_eq_true_eq]
  omega

section

variable (memory : Memory) (table : RuleTable kb.size) {capacity depth : Nat}

/-- A call comes to an end wherever it is made, also where no depth is too great. -/
theorem exists_run_find (maxDepth : Option Nat) (id : kb.Id) {onPath : Finset kb.Id}
    (hcapacity : depth + (kb.size - onPath.card) < capacity) :
    ∃ found, (find memory table maxDepth capacity depth id).run onPath = some (found, onPath) := by
  have hcard : onPath.card ≤ kb.size := by simpa using onPath.card_le_univ
  have hfree : onPath.toList.toFinset.card + (kb.size - onPath.card) = kb.size := by
    rw [Finset.toList_toFinset, Nat.add_sub_cancel' hcard]
  have hlevels : ∃ levels, ∀ step ≤ kb.size - onPath.card,
      maxDepth.any (· < depth + step) = true ↔ levels ≤ step := by
    cases maxDepth with
    | none =>
      refine ⟨kb.size + 1, fun step hstep => iff_of_false Bool.false_ne_true ?_⟩
      omega
    | some maxDepth => exact ⟨maxDepth + 1 - depth, fun step _ => any_lt_iff maxDepth depth step⟩
  obtain ⟨levels, hlevels⟩ := hlevels
  have hrun : (find memory table maxDepth capacity depth id).run onPath.toList.toFinset =
      some (_, onPath.toList.toFinset) := run_find hfree hcapacity hlevels
  rw [Finset.toList_toFinset] at hrun
  exact ⟨_, hrun⟩

variable (maxDepth : Nat) (hcapacity : kb.size < capacity)

include hcapacity

theorem run_setOut (id : kb.Id) (onPath : Finset kb.Id) :
    (setOut memory table (some maxDepth) capacity id).run onPath =
      some (kb.questionForRule memory table maxDepth id, ∅) := by
  have hfree : ([] : List kb.Id).toFinset.card + kb.size = kb.size := by simp
  exact run_find hfree (by omega) fun step _ => any_lt_iff maxDepth 0 step

theorem run_setOutFromGoals :
    (setOutFromGoals memory table (some maxDepth) capacity).run ∅ =
      some (kb.nextQuestion memory table maxDepth, ∅) :=
  run_findSomeM?_pursue (fun id => run_setOut memory table maxDepth hcapacity id ∅)
    (fun _ hstops => searchBelow_of_not_entered (.inl hstops)) kb.goals

end

/-- The search comes to an end by itself. A call leaves the rules on the path that it found
    there, wherever it is made and whether or not there is a greatest depth, and needs to count
    on by no more than there are rules off the path. So no call is further below the rule from
    which the search set out than there are rules, and whatever can count the rules can count the
    depth. What is found is the question, for the sake of one rule and for the goals. From one
    less than the number of rules on, all greatest depths give the same question, and where one
    of any size gives a question, so do all that are greater. Neither cycles nor repeated actions
    matter, and the memory and the statuses may be anything. -/
theorem search_ends (kb : KnowledgeBase) (memory : Memory) (table : RuleTable kb.size) :
    (∀ (maxDepth : Option Nat) capacity depth id (onPath : Finset kb.Id),
      depth + (kb.size - onPath.card) < capacity → ∃ found,
        (find memory table maxDepth capacity depth id).run onPath = some (found, onPath)) ∧
    (∀ maxDepth capacity, kb.size < capacity →
      (∀ id onPath, (setOut memory table (some maxDepth) capacity id).run onPath =
        some (kb.questionForRule memory table maxDepth id, ∅)) ∧
      (setOutFromGoals memory table (some maxDepth) capacity).run ∅ =
        some (kb.nextQuestion memory table maxDepth, ∅)) ∧
    (∀ maxDepth other, kb.size - 1 ≤ maxDepth → kb.size - 1 ≤ other →
      kb.nextQuestion memory table maxDepth = kb.nextQuestion memory table other ∧
      ∀ id, kb.questionForRule memory table maxDepth id =
        kb.questionForRule memory table other id) ∧
    ∀ maxDepth greater, maxDepth ≤ greater →
      ((kb.nextQuestion memory table maxDepth).isSome →
        (kb.nextQuestion memory table greater).isSome) ∧
      ∀ id, (kb.questionForRule memory table maxDepth id).isSome →
        (kb.questionForRule memory table greater id).isSome := by
  refine ⟨fun maxDepth capacity depth id onPath hcapacity => ?_,
    fun maxDepth capacity hcapacity => ⟨?_, ?_⟩, fun maxDepth other hmaxDepth hother => ?_,
    fun maxDepth greater hle => ?_⟩
  · exact exists_run_find memory table maxDepth id hcapacity
  · exact run_setOut memory table maxDepth hcapacity
  · exact run_setOutFromGoals memory table maxDepth hcapacity
  · have hlevels : kb.size ≤ maxDepth + 1 := Nat.sub_le_iff_le_add.mp hmaxDepth
    have hothers : kb.size ≤ other + 1 := Nat.sub_le_iff_le_add.mp hother
    exact ⟨(selects_nextQuestion memory table maxDepth).eq_of_size_le
        (selects_nextQuestion memory table other) hlevels hothers,
      fun id => (selects_questionForRule memory table maxDepth id).eq_of_size_le
        (selects_questionForRule memory table other id) hlevels hothers⟩
  · have hlevels : maxDepth + 1 ≤ greater + 1 := Nat.succ_le_succ hle
    exact ⟨(selects_nextQuestion memory table maxDepth).isSome_of_le
        (selects_nextQuestion memory table greater) hlevels,
      fun id => (selects_questionForRule memory table maxDepth id).isSome_of_le
        (selects_questionForRule memory table greater id) hlevels⟩

theorem entangled_search_ends :
    let memory := ["a", "b", "c", "d"].foldl (·.putFinding · .unknown) Memory.empty
    let table := RuleTable.fresh entangled.size
    let first : entangled.Id := ⟨0, by decide⟩
    let last : entangled.Id := ⟨4, by decide⟩
    (∃ found, (find memory table none (entangled.size + 1) 1 first).run {last} =
      some (found, {last})) ∧
    entangled.questionForRule memory table 2 last = none ∧
    entangled.questionForRule memory table 3 last = some "y" ∧
    entangled.questionForRule memory table (entangled.size - 1) last = some "x" ∧
    (setOut memory table (some (2 ^ 64 - 1)) (2 ^ 64) last).run ∅ = some (some "x", ∅) ∧
    entangled.nextQuestion memory table 2 = some "y" ∧
    (entangled.nextQuestion memory table (2 ^ 64 - 1)).isSome := by
  intro memory table first last
  have hlast : entangled.questionForRule memory table (entangled.size - 1) last = some "x" := by
    decide +kernel
  have hgoals : entangled.nextQuestion memory table 2 = some "y" := by decide +kernel
  obtain ⟨hcall, hrun, hsame, hgreater⟩ := search_ends entangled memory table
  have hdeepest : entangled.questionForRule memory table (2 ^ 64 - 1) last = some "x" :=
    ((hsame (2 ^ 64 - 1) (entangled.size - 1) (by decide) le_rfl).2 last).trans hlast
  refine ⟨hcall none _ 1 first {last} (by decide), by decide +kernel, by decide +kernel, hlast, ?_,
    hgoals, ?_⟩
  · rw [← hdeepest]
    exact (hrun (2 ^ 64 - 1) (2 ^ 64) (by decide)).1 last ∅
  · exact (hgreater 2 (2 ^ 64 - 1) (by decide)).1 (by rw [hgoals]; rfl)

end Search

end Consultation
