import Consultation.Inference.Question
import Mathlib.Data.List.Lex
import Mathlib.Data.Prod.Lex
import Mathlib.Logic.Basic

namespace Consultation

/-- The value of a condition that decides a rule whatever its other conditions are. -/
def Combinator.deciding : Combinator → Truth
  | all => .fails
  | any => .holds

namespace KnowledgeBase

/-- A turn of a path through the rules: a rule, and the position of the condition at which
    the path leaves it. -/
abbrev Turn (kb : KnowledgeBase) : Type := kb.Id × Nat

section

variable (kb : KnowledgeBase) (memory : Memory) (table : RuleTable kb.size)

def conditionAt (turn : kb.Turn) : Option Fact := (kb.rule turn.1).conditions[turn.2]?

/-- No condition before the turn decides the rule. -/
def Undecided (turn : kb.Turn) : Prop :=
  ∀ condition ∈ (kb.rule turn.1).conditions.take turn.2,
    kb.effectiveValue memory condition ≠ some (kb.rule turn.1).combinator.deciding

/-- A path goes on from a condition that is `unknown` to a rule that concludes it. -/
def Pursues (turn next : kb.Turn) : Prop :=
  kb.conditionAt turn = some (kb.rule next.1).action ∧
    kb.effectiveValue memory (kb.rule next.1).action = some .unknown

/-- A path through at most `levels` rules, none of them twice and none of them terminal, that
    ends at a fact without a value. It sets out from one of the rules in `starts`. -/
structure OpenPath (levels : Nat) (starts : kb.Id → Prop) (path : List kb.Turn) (fact : Fact) :
    Prop where
  start : ∃ turn ∈ path.head?, starts turn.1
  length_le : path.length ≤ levels
  distinct : (path.map (·.1)).Nodup
  not_terminal : ∀ turn ∈ path, (table.status turn.1).isTerminal = false
  undecided : ∀ turn ∈ path, kb.Undecided memory turn
  linked : path.IsChain (kb.Pursues memory)
  ends : ∃ turn ∈ path.getLast?, kb.conditionAt turn = some fact
  unvalued : kb.effectiveValue memory fact = none

variable {kb}

/-- Of two paths the earlier one takes, at the first turn where they part, the rule that was
    declared before the other, or an earlier condition of the same rule. -/
def Earlier : List kb.Turn → List kb.Turn → Prop := List.Lex (Prod.Lex (· < ·) (· < ·))

/-- A path that is earlier than all others with the property. -/
def LeftmostPath (paths : List kb.Turn → Fact → Prop) (path : List kb.Turn) (fact : Fact) : Prop :=
  paths path fact ∧ ∀ other found, paths other found → other = path ∨ Earlier path other

/-- A question that is asked for the sake of the leftmost of some paths, where there is any. -/
inductive Selects (paths : List kb.Turn → Fact → Prop) : Option Fact → Prop where
  | absent (h : ∀ path fact, ¬ paths path fact) : Selects paths none
  | found {path : List kb.Turn} {fact : Fact} (h : LeftmostPath paths path fact) :
      Selects paths (some fact)

end

variable {kb : KnowledgeBase} {memory : Memory} {table : RuleTable kb.size}

theorem Earlier.asymm {path other : List kb.Turn} (h : Earlier path other) :
    ¬ Earlier other path := by
  have hasymm : Std.Asymm (@Earlier kb) :=
    inferInstanceAs (Std.Asymm (List.Lex (Prod.Lex (· < ·) (· < ·))))
  exact hasymm.asymm path other h

theorem OpenPath.exists_cons {levels : Nat} {id : kb.Id} {path : List kb.Turn} {fact : Fact}
    (h : kb.OpenPath memory table levels (· = id) path fact) :
    ∃ turn tail, path = turn :: tail ∧ turn.1 = id := by
  obtain ⟨turn, hturn, hid⟩ := h.start
  cases path with
  | nil => cases hturn
  | cons head tail =>
    obtain rfl := Option.some.inj hturn
    exact ⟨head, tail, rfl, hid⟩

theorem OpenPath.fact_eq {levels : Nat} {starts : kb.Id → Prop} {path : List kb.Turn}
    {fact found : Fact} (h : kb.OpenPath memory table levels starts path fact)
    (hfound : kb.OpenPath memory table levels starts path found) : found = fact := by
  obtain ⟨turn, hturn, hfact⟩ := h.ends
  obtain ⟨other, hother, hcondition⟩ := hfound.ends
  obtain rfl : other = turn := Option.mem_unique hother hturn
  rw [hfact] at hcondition
  exact (Option.some.inj hcondition).symm

namespace Selects

variable {paths others : List kb.Turn → Fact → Prop} {question other : Option Fact}

theorem congr (h : Selects paths question)
    (hsame : ∀ path fact, others path fact ↔ paths path fact) : Selects others question := by
  obtain rfl : others = paths := funext fun path => funext fun fact => propext (hsame path fact)
  exact h

theorem eq_none_iff (h : Selects paths question) :
    question = none ↔ ¬ ∃ path fact, paths path fact := by
  cases h with
  | absent hnone => simpa using hnone
  | found hleast => exact iff_of_false nofun fun hnone => hnone ⟨_, _, hleast.1⟩

/-- The leftmost path is unique, so it fixes the question. -/
theorem eq_some_iff (h : Selects paths question)
    (hends : ∀ path fact found, paths path fact → paths path found → found = fact) (fact : Fact) :
    question = some fact ↔ ∃ path, LeftmostPath paths path fact := by
  cases h with
  | absent hnone => exact iff_of_false nofun fun ⟨path, hpath⟩ => hnone path fact hpath.1
  | @found path found hleast =>
    constructor
    · intro heq
      obtain rfl := Option.some.inj heq
      exact ⟨path, hleast⟩
    · rintro ⟨another, hanother⟩
      have hsame : another = path := by
        by_contra hne
        have hfirst := (hleast.2 another fact hanother.1).resolve_left hne
        have hsecond := (hanother.2 path found hleast.1).resolve_left (Ne.symm hne)
        exact hfirst.asymm hsecond
      subst hsame
      rw [hends another fact found hanother.1 hleast.1]

theorem orElse (h : Selects paths question) (hothers : Selects others other)
    (hearlier : ∀ path fact later found, paths path fact → others later found →
      Earlier path later) :
    Selects (fun path fact => paths path fact ∨ others path fact) (question <|> other) := by
  cases h with
  | absent hnone =>
    have hothers' := hothers.congr fun path fact => or_iff_right (hnone path fact)
    simpa using hothers'
  | found hleast =>
    refine .found ⟨.inl hleast.1, fun later found hlater => ?_⟩
    rcases hlater with hpath | hlater
    · exact hleast.2 later found hpath
    · exact .inr (hearlier _ _ _ _ hleast.1 hlater)

/-- All paths may go through the same turn first. -/
theorem cons (h : Selects paths question) (turn : kb.Turn) :
    Selects (fun path fact => ∃ tail, path = turn :: tail ∧ paths tail fact) question := by
  cases h with
  | absent hnone => exact .absent fun _ fact ⟨tail, _, htail⟩ => hnone tail fact htail
  | found hleast =>
    refine .found ⟨⟨_, rfl, hleast.1⟩, ?_⟩
    rintro _ found ⟨tail, rfl, htail⟩
    exact (hleast.2 tail found htail).imp (congrArg _) List.Lex.cons

/-- Rules in declaration order are looked at for the first from which a path sets out. -/
theorem findSome? {ids : List kb.Id} (hsorted : ids.Pairwise (· < ·))
    {pathsFrom : kb.Id → List kb.Turn → Fact → Prop} {search : kb.Id → Option Fact}
    (hhead : ∀ id path fact, pathsFrom id path fact →
      ∃ position tail, path = (id, position) :: tail)
    (hsearch : ∀ id, Selects (pathsFrom id) (search id)) :
    Selects (fun path fact => ∃ id ∈ ids, pathsFrom id path fact) (ids.findSome? search) := by
  induction ids with
  | nil => exact .absent fun _ _ ⟨_, hid, _⟩ => absurd hid List.not_mem_nil
  | cons first rest ih =>
    obtain ⟨hfirst, hrest⟩ := List.pairwise_cons.mp hsorted
    have hchoice : (first :: rest).findSome? search = (search first <|> rest.findSome? search) := by
      rw [List.findSome?_cons]
      cases search first <;> rfl
    rw [hchoice]
    refine ((hsearch first).orElse (ih hrest) ?_).congr fun path fact => by simp
    rintro path fact later found hpath ⟨id, hid, hlater⟩
    obtain ⟨position, tail, rfl⟩ := hhead first path fact hpath
    obtain ⟨position', tail', rfl⟩ := hhead id later found hlater
    exact .rel (.left _ _ (hfirst id hid))

end Selects

/-- The paths that leave a rule at a position, where `condition` stands: there they end, or
    they go on along a path from a rule that concludes the condition. -/
def LeavesAt (kb : KnowledgeBase) (memory : Memory) (id : kb.Id)
    (pathsFrom : kb.Id → List kb.Turn → Fact → Prop) (position : Nat) (condition : Fact)
    (path : List kb.Turn) (fact : Fact) : Prop :=
  ∃ tail, path = (id, position) :: tail ∧
    (tail = [] ∧ condition = fact ∧ kb.effectiveValue memory condition = none ∨
      kb.effectiveValue memory condition = some .unknown ∧
        ∃ next ∈ kb.concluding condition, pathsFrom next tail fact)

/-- The paths that leave a rule at a position from `first` on. -/
def LeavesFrom (kb : KnowledgeBase) (memory : Memory) (id : kb.Id)
    (pathsFrom : kb.Id → List kb.Turn → Fact → Prop) (first : Nat) (path : List kb.Turn)
    (fact : Fact) : Prop :=
  ∃ position ≥ first, kb.Undecided memory (id, position) ∧
    ∃ condition, kb.conditionAt (id, position) = some condition ∧
      kb.LeavesAt memory id pathsFrom position condition path fact

/-- The paths that the search below a rule looks for. -/
def OpenBelow (kb : KnowledgeBase) (memory : Memory) (table : RuleTable kb.size) :
    (levels : Nat) → (above : List kb.Id) → kb.Id → List kb.Turn → Fact → Prop
  | 0, _, _, _, _ => False
  | levels + 1, above, id, path, fact =>
    (table.status id).isTerminal = false ∧ id ∉ above ∧
      kb.LeavesFrom memory id (OpenBelow kb memory table levels (id :: above)) 0 path fact

theorem conditionAt_eq_of_drop {id : kb.Id} {position : Nat} {condition : Fact} {rest : List Fact}
    (h : (kb.rule id).conditions.drop position = condition :: rest) :
    kb.conditionAt (id, position) = some condition := by
  have hhead := congrArg (·[0]?) h
  simpa [conditionAt] using hhead

/-- A scan that has come to a position undecided gets past it, unless the value there
    decides the rule. -/
theorem undecided_succ_iff {id : kb.Id} {position : Nat} {condition : Fact}
    (hcondition : kb.conditionAt (id, position) = some condition) :
    kb.Undecided memory (id, position + 1) ↔ kb.Undecided memory (id, position) ∧
      kb.effectiveValue memory condition ≠ some (kb.rule id).combinator.deciding := by
  have hcondition : (kb.rule id).conditions[position]? = some condition := hcondition
  simp only [Undecided, List.take_add_one, hcondition, Option.toList_some, List.forall_mem_append,
    List.forall_mem_singleton]

theorem Undecided.mono {id : kb.Id} {position later : Nat} (h : kb.Undecided memory (id, later))
    (hle : position ≤ later) : kb.Undecided memory (id, position) :=
  fun condition hcondition => h condition (List.take_subset_take_left _ hle hcondition)

section

variable {id : kb.Id} {pathsFrom : kb.Id → List kb.Turn → Fact → Prop}
  {pursue : kb.Id → Option Fact} {position : Nat} {condition : Fact} {rest : List Fact}

theorem leavesFrom_iff (hcondition : kb.conditionAt (id, position) = some condition)
    (hundecided : kb.Undecided memory (id, position)) (path : List kb.Turn) (fact : Fact) :
    kb.LeavesFrom memory id pathsFrom position path fact ↔
      kb.LeavesAt memory id pathsFrom position condition path fact ∨
        kb.LeavesFrom memory id pathsFrom (position + 1) path fact := by
  constructor
  · rintro ⟨later, hle, hlater, other, hother, hleaves⟩
    rcases Nat.eq_or_lt_of_le hle with rfl | hlt
    · rw [hcondition] at hother
      obtain rfl := Option.some.inj hother
      exact .inl hleaves
    · exact .inr ⟨later, hlt, hlater, other, hother, hleaves⟩
  · rintro (hleaves | ⟨later, hle, hlater⟩)
    · exact ⟨position, le_rfl, hundecided, condition, hcondition, hleaves⟩
    · exact ⟨later, Nat.le_of_succ_le hle, hlater⟩

/-- Where a value decides the rule, no path leaves it from there on. -/
theorem not_leavesFrom_of_deciding (hcondition : kb.conditionAt (id, position) = some condition)
    (hdeciding : kb.effectiveValue memory condition = some (kb.rule id).combinator.deciding)
    (path : List kb.Turn) (fact : Fact) :
    ¬ kb.LeavesFrom memory id pathsFrom position path fact := by
  rintro ⟨later, hle, hlater, other, hother, tail, -, hleaves⟩
  rcases Nat.eq_or_lt_of_le hle with rfl | hlt
  · rw [hcondition] at hother
    obtain rfl := Option.some.inj hother
    rw [hdeciding] at hleaves
    cases hcombinator : (kb.rule id).combinator <;>
      simp [hcombinator, Combinator.deciding] at hleaves
  · exact ((undecided_succ_iff hcondition).mp (hlater.mono hlt)).2 hdeciding

section

variable
  (hhead : ∀ id path fact, pathsFrom id path fact → ∃ position tail, path = (id, position) :: tail)
  (hpursue : ∀ id, Selects (pathsFrom id) (pursue id))

include hhead hpursue

/-- A value that does not decide the rule gives the scan something to ask, or nothing, and
    the scan goes on where it gives nothing. -/
theorem exists_selects_leavesAt (position : Nat) (rest : List Fact)
    (hdeciding : kb.effectiveValue memory condition ≠ some (kb.rule id).combinator.deciding) :
    ∃ question, Selects (kb.LeavesAt memory id pathsFrom position condition) question ∧
      kb.scanConditions memory (kb.rule id).combinator pursue (condition :: rest) =
        (question <|> kb.scanConditions memory (kb.rule id).combinator pursue rest) := by
  rw [scanConditions]
  cases hvalue : kb.effectiveValue memory condition with
  | none =>
    refine ⟨some condition, .found ⟨⟨[], rfl, .inl ⟨rfl, rfl, hvalue⟩⟩, ?_⟩, rfl⟩
    rintro _ found ⟨tail, rfl, ⟨rfl, -, -⟩ | ⟨hunknown, -⟩⟩
    · exact .inl rfl
    · rw [hvalue] at hunknown
      cases hunknown
  | some value =>
    cases value with
    | unknown =>
      have hsorted : (kb.concluding condition).Pairwise (· < ·) :=
        (List.pairwise_lt_finRange kb.size).filter _
      refine ⟨_, ((Selects.findSome? hsorted hhead hpursue).cons (id, position)).congr ?_, rfl⟩
      intro path fact
      simp only [LeavesAt, hvalue, reduceCtorEq, and_false, false_or, true_and]
    | fails | holds =>
      refine ⟨none, .absent ?_, ?_⟩
      · rintro _ fact ⟨tail, -, ⟨-, -, hnone⟩ | ⟨hunknown, -⟩⟩
        · rw [hvalue] at hnone
          cases hnone
        · rw [hvalue] at hunknown
          cases hunknown
      · rw [hvalue] at hdeciding
        cases hcombinator : (kb.rule id).combinator <;>
          simp [hcombinator, Combinator.deciding] at hdeciding ⊢

theorem selects_scanConditions (hrest : (kb.rule id).conditions.drop position = rest)
    (hundecided : kb.Undecided memory (id, position)) :
    Selects (kb.LeavesFrom memory id pathsFrom position)
      (kb.scanConditions memory (kb.rule id).combinator pursue rest) := by
  induction rest generalizing position with
  | nil =>
    refine .absent ?_
    rintro path fact ⟨later, hle, -, condition, hcondition, -⟩
    have hlength : (kb.rule id).conditions.length ≤ later :=
      (List.drop_eq_nil_iff.mp hrest).trans hle
    rw [conditionAt, List.getElem?_eq_none hlength] at hcondition
    cases hcondition
  | cons condition rest ih =>
    have hcondition := conditionAt_eq_of_drop hrest
    by_cases hdeciding : kb.effectiveValue memory condition = some (kb.rule id).combinator.deciding
    · have hstops : kb.scanConditions memory (kb.rule id).combinator pursue (condition :: rest) =
          none := by
        rw [scanConditions, hdeciding]
        cases (kb.rule id).combinator <;> rfl
      rw [hstops]
      exact .absent (not_leavesFrom_of_deciding hcondition hdeciding)
    · have hnext : (kb.rule id).conditions.drop (position + 1) = rest := by
        rw [← List.tail_drop, hrest, List.tail_cons]
      have hlater := ih hnext ((undecided_succ_iff hcondition).mpr ⟨hundecided, hdeciding⟩)
      obtain ⟨question, hhere, hscan⟩ :=
        exists_selects_leavesAt hhead hpursue position rest hdeciding
      rw [hscan]
      refine (hhere.orElse hlater ?_).congr (leavesFrom_iff hcondition hundecided)
      rintro _ fact _ found ⟨tail, rfl, -⟩ ⟨later, hle, -, other, -, tail', rfl, -⟩
      exact .rel (.right _ hle)

end

end

theorem exists_head_of_openBelow (levels : Nat) (above : List kb.Id) (id : kb.Id)
    (path : List kb.Turn) (fact : Fact) (h : kb.OpenBelow memory table levels above id path fact) :
    ∃ position tail, path = (id, position) :: tail := by
  cases levels with
  | zero => exact h.elim
  | succ levels =>
    obtain ⟨-, -, position, -, -, condition, -, tail, rfl, -⟩ := h
    exact ⟨position, tail, rfl⟩

theorem selects_searchBelow (memory : Memory) (table : RuleTable kb.size) (levels : Nat)
    (above : List kb.Id) (id : kb.Id) :
    Selects (kb.OpenBelow memory table levels above id)
      (kb.searchBelow memory table levels above id) := by
  induction levels generalizing above id with
  | zero => exact .absent fun _ _ hopen => hopen
  | succ levels ih =>
    rw [searchBelow]
    split
    · next hstops =>
      refine .absent fun path fact hopen => ?_
      obtain ⟨hterminal, habove, -⟩ := hopen
      simp [hterminal, habove] at hstops
    · next hentered =>
      have hentered : (table.status id).isTerminal = false ∧ id ∉ above := by simpa using hentered
      have hundecided : kb.Undecided memory (id, 0) := by simp [Undecided]
      have hscan := selects_scanConditions (exists_head_of_openBelow levels (id :: above))
        (ih (id :: above)) List.drop_zero hundecided
      refine hscan.congr fun path fact => ?_
      simp only [OpenBelow, hentered, not_false_eq_true, true_and]

/-- An open path of one turn ends there; any other goes on along an open path that does not
    come back to its first rule. -/
theorem openPath_cons_iff {levels : Nat} {id : kb.Id} {turn : kb.Turn} {tail : List kb.Turn}
    {fact : Fact} :
    kb.OpenPath memory table (levels + 1) (· = id) (turn :: tail) fact ↔
      turn.1 = id ∧ (table.status turn.1).isTerminal = false ∧ kb.Undecided memory turn ∧
        ∃ condition, kb.conditionAt turn = some condition ∧
          (tail = [] ∧ condition = fact ∧ kb.effectiveValue memory condition = none ∨
            kb.effectiveValue memory condition = some .unknown ∧
              ∃ next ∈ kb.concluding condition,
                kb.OpenPath memory table levels (· = next) tail fact ∧
                  ∀ other ∈ tail, other.1 ≠ turn.1) := by
  constructor
  · intro h
    obtain ⟨first, hfirst, hstart⟩ := h.start
    obtain rfl := Option.some.inj hfirst
    have hopen := List.forall_mem_cons.mp h.not_terminal
    have hundecided := List.forall_mem_cons.mp h.undecided
    have hdistinct := List.nodup_cons.mp h.distinct
    refine ⟨hstart, hopen.1, hundecided.1, ?_⟩
    cases tail with
    | nil =>
      obtain ⟨last, hlast, hcondition⟩ := h.ends
      obtain rfl := Option.some.inj hlast
      exact ⟨fact, hcondition, .inl ⟨rfl, rfl, h.unvalued⟩⟩
    | cons next rest =>
      obtain ⟨⟨hcondition, hunknown⟩, hlinked⟩ := List.isChain_cons_cons.mp h.linked
      have hends := h.ends
      rw [List.getLast?_cons_cons] at hends
      refine ⟨_, hcondition, .inr ⟨hunknown, next.1, mem_concluding.mpr rfl, ?_, ?_⟩⟩
      · exact ⟨⟨next, rfl, rfl⟩, Nat.le_of_succ_le_succ h.length_le, hdistinct.2, hopen.2,
          hundecided.2, hlinked, hends, h.unvalued⟩
      · intro other hother heq
        have hmem : other.1 ∈ (next :: rest).map (·.1) := List.mem_map_of_mem hother
        rw [heq] at hmem
        exact hdistinct.1 hmem
  · rintro ⟨hstart, hopen, hundecided, condition, hcondition, hleaves⟩
    rcases hleaves with ⟨rfl, rfl, hvalue⟩ | ⟨hunknown, next, hnext, h, hother⟩
    · exact ⟨⟨turn, rfl, hstart⟩, Nat.le_add_left 1 levels, List.pairwise_singleton _ _,
        List.forall_mem_singleton.mpr hopen, List.forall_mem_singleton.mpr hundecided,
        .singleton turn, ⟨turn, rfl, hcondition⟩, hvalue⟩
    · obtain ⟨first, rest, rfl, hrule⟩ := h.exists_cons
      have haction : (kb.rule first.1).action = condition := hrule ▸ mem_concluding.mp hnext
      have hends := h.ends
      rw [← List.getLast?_cons_cons (a := turn)] at hends
      refine ⟨⟨turn, rfl, hstart⟩, Nat.succ_le_succ h.length_le, ?_,
        List.forall_mem_cons.mpr ⟨hopen, h.not_terminal⟩,
        List.forall_mem_cons.mpr ⟨hundecided, h.undecided⟩, ?_, hends, h.unvalued⟩
      · refine List.nodup_cons.mpr ⟨fun hmem => ?_, h.distinct⟩
        obtain ⟨other, hmem, heq⟩ := List.mem_map.mp hmem
        exact hother other hmem heq
      · exact List.isChain_cons_cons.mpr ⟨⟨haction ▸ hcondition, haction ▸ hunknown⟩, h.linked⟩

/-- What the search below a rule looks for are the open paths from there that keep clear of
    the rules above. -/
theorem openBelow_iff {levels : Nat} {above : List kb.Id} {id : kb.Id} {path : List kb.Turn}
    {fact : Fact} :
    kb.OpenBelow memory table levels above id path fact ↔
      kb.OpenPath memory table levels (· = id) path fact ∧ ∀ turn ∈ path, turn.1 ∉ above := by
  induction levels generalizing above id path with
  | zero =>
    refine iff_of_false (fun hopen => hopen) fun ⟨hopen, _⟩ => ?_
    obtain ⟨turn, tail, rfl, -⟩ := hopen.exists_cons
    exact Nat.not_succ_le_zero _ hopen.length_le
  | succ levels ih =>
    have hclear {tail : List kb.Turn} : (∀ turn ∈ tail, turn.1 ∉ id :: above) ↔
        (∀ turn ∈ tail, turn.1 ≠ id) ∧ ∀ turn ∈ tail, turn.1 ∉ above := by
      simp only [List.mem_cons, not_or, forall_and]
    constructor
    · rintro ⟨hopen, habove, position, -, hundecided, condition, hcondition, tail, rfl, hleaves⟩
      rw [openPath_cons_iff, List.forall_mem_cons]
      rcases hleaves with ⟨rfl, hends⟩ | ⟨hunknown, next, hnext, hbelow⟩
      · exact ⟨⟨rfl, hopen, hundecided, condition, hcondition, .inl ⟨rfl, hends⟩⟩, habove, by simp⟩
      · obtain ⟨hpath, htail⟩ := ih.mp hbelow
        obtain ⟨hdistinct, htail⟩ := hclear.mp htail
        exact ⟨⟨rfl, hopen, hundecided, condition, hcondition,
          .inr ⟨hunknown, next, hnext, hpath, hdistinct⟩⟩, habove, htail⟩
    · rintro ⟨hpath, habove⟩
      obtain ⟨⟨first, position⟩, tail, rfl, hfirst⟩ := hpath.exists_cons
      obtain rfl : first = id := hfirst
      obtain ⟨hfirstAbove, htail⟩ := List.forall_mem_cons.mp habove
      obtain ⟨-, hopen, hundecided, condition, hcondition, hleaves⟩ := openPath_cons_iff.mp hpath
      refine ⟨hopen, hfirstAbove, position, Nat.zero_le position, hundecided, condition, hcondition,
        tail, rfl, ?_⟩
      rcases hleaves with hends | ⟨hunknown, next, hnext, hpath, hdistinct⟩
      · exact .inl hends
      · exact .inr ⟨hunknown, next, hnext, ih.mpr ⟨hpath, hclear.mpr ⟨hdistinct, htail⟩⟩⟩

theorem selects_questionForRule (memory : Memory) (table : RuleTable kb.size) (maxDepth : Nat)
    (id : kb.Id) :
    Selects (kb.OpenPath memory table (maxDepth + 1) (· = id))
      (kb.questionForRule memory table maxDepth id) :=
  (selects_searchBelow memory table (maxDepth + 1) [] id).congr fun path fact => by
    simp [openBelow_iff]

theorem openPath_mem_iff {levels : Nat} {starts : List kb.Id} {path : List kb.Turn} {fact : Fact} :
    kb.OpenPath memory table levels (· ∈ starts) path fact ↔
      ∃ id ∈ starts, kb.OpenPath memory table levels (· = id) path fact := by
  constructor
  · rintro h
    obtain ⟨turn, hturn, hstart⟩ := h.start
    exact ⟨turn.1, hstart, { h with start := ⟨turn, hturn, rfl⟩ }⟩
  · rintro ⟨id, hid, h⟩
    obtain ⟨turn, hturn, rfl⟩ := h.start
    exact { h with start := ⟨turn, hturn, hid⟩ }

/-- Goals are looked at in declaration order. -/
theorem selects_nextQuestion (memory : Memory) (table : RuleTable kb.size) (maxDepth : Nat) :
    Selects (kb.OpenPath memory table (maxDepth + 1) (· ∈ kb.goals))
      (kb.nextQuestion memory table maxDepth) := by
  have hsorted : kb.goals.Pairwise (· < ·) := (List.pairwise_lt_finRange kb.size).filter _
  refine (Selects.findSome? hsorted ?_ (selects_questionForRule memory table maxDepth)).congr
    fun path fact => openPath_mem_iff
  rintro id path fact h
  obtain ⟨⟨first, position⟩, tail, rfl, hfirst⟩ := h.exists_cons
  exact ⟨position, tail, by rw [← hfirst]⟩

/-- The question is the fact at the end of the leftmost open path from a goal, and there is none
    only where no open path is. An open path keeps to rules that are not terminal, comes to none
    of them twice and takes in at most one more than the depth allows; it passes no condition
    whose value decides its rule, and goes on from one that is `unknown` to a rule that concludes
    it. Of two such paths the first in declaration order counts, rule by rule and condition by
    condition. Neither cycles nor repeated actions matter, and the memory and the statuses may be
    anything. The question for the sake of one rule is found in the same way. -/
theorem question_leftmost (kb : KnowledgeBase) (memory : Memory) (table : RuleTable kb.size)
    (maxDepth : Nat) :
    let fromGoals := kb.OpenPath memory table (maxDepth + 1) (· ∈ kb.goals)
    let fromRule := fun id => kb.OpenPath memory table (maxDepth + 1) (· = id)
    (kb.nextQuestion memory table maxDepth = none ↔ ¬ ∃ path fact, fromGoals path fact) ∧
    (∀ fact, kb.nextQuestion memory table maxDepth = some fact ↔
      ∃ path, LeftmostPath fromGoals path fact) ∧
    ∀ id,
      (kb.questionForRule memory table maxDepth id = none ↔ ¬ ∃ path fact, fromRule id path fact) ∧
      ∀ fact, kb.questionForRule memory table maxDepth id = some fact ↔
        ∃ path, LeftmostPath (fromRule id) path fact := by
  intro fromGoals fromRule
  have hgoals : Selects fromGoals _ := selects_nextQuestion memory table maxDepth
  have hrule (id : kb.Id) : Selects (fromRule id) _ :=
    selects_questionForRule memory table maxDepth id
  exact ⟨hgoals.eq_none_iff, hgoals.eq_some_iff fun _ _ _ => OpenPath.fact_eq,
    fun id => ⟨(hrule id).eq_none_iff, (hrule id).eq_some_iff fun _ _ _ => OpenPath.fact_eq⟩⟩

end KnowledgeBase

end Consultation
