import Consultation.Memory
import Mathlib.Data.List.TakeWhile

namespace Consultation

private theorem lookup_eq_none_of_not_mem {entries : List (Fact × Truth)} {fact : Fact}
    (h : fact ∉ entries.map (·.1)) : entries.lookup fact = none := by
  rw [List.lookup_eq_none_iff]
  intro entry hentry
  have hne : fact ≠ entry.1 := by
    rintro rfl
    exact h (List.mem_map_of_mem hentry)
  simpa using hne

private theorem fact_ne_of_mem_before {before after : List (Fact × Truth)}
    {entry other : Fact × Truth} (hnodup : ((before ++ entry :: after).map (·.1)).Nodup)
    (hother : other ∈ before) : other.1 ≠ entry.1 := by
  rw [List.map_append, List.nodup_append] at hnodup
  exact hnodup.2.2 other.1 (List.mem_map_of_mem hother) entry.1 (by simp)

private theorem lookup_of_mem {entries : List (Fact × Truth)} (hnodup : (entries.map (·.1)).Nodup)
    {entry : Fact × Truth} (hmem : entry ∈ entries) : entries.lookup entry.1 = some entry.2 := by
  obtain ⟨before, after, rfl⟩ := List.append_of_mem hmem
  refine List.lookup_eq_some_iff.mpr ⟨before, after, rfl, fun other hother => ?_⟩
  simpa using (fact_ne_of_mem_before hnodup hother).symm

private theorem takeWhile_of_split {before after : List (Fact × Truth)} {entry : Fact × Truth}
    (hnodup : ((before ++ entry :: after).map (·.1)).Nodup) :
    (before ++ entry :: after).takeWhile (·.1 ≠ entry.1) = before := by
  have hbefore : ∀ other ∈ before, decide (other.1 ≠ entry.1) = true :=
    fun other hother => decide_eq_true (fact_ne_of_mem_before hnodup hother)
  rw [List.takeWhile_append_of_pos hbefore, List.takeWhile_cons_of_neg (by simp), List.append_nil]

namespace FactMap

private theorem get?_foldl_set (entries : List (Fact × Truth)) (map : FactMap)
    (hnodup : (entries.map (·.1)).Nodup) (fact : Fact) :
    (entries.foldl (fun map entry => map.set entry.1 entry.2) map).get? fact =
      (entries.lookup fact <|> map.get? fact) := by
  induction entries generalizing map with
  | nil => rfl
  | cons entry rest ih =>
    obtain ⟨key, value⟩ := entry
    rw [List.map_cons, List.nodup_cons] at hnodup
    obtain ⟨hkey, hrest⟩ := hnodup
    rw [List.foldl_cons, ih _ hrest, FactMap.get?_set, List.lookup_cons]
    by_cases heq : fact = key
    · subst heq
      have hnone : rest.lookup fact = none := lookup_eq_none_of_not_mem hkey
      simp [hnone]
    · simp [heq, beq_eq_false_iff_ne.mpr heq]

theorem get?_ofList {entries : List (Fact × Truth)} (hnodup : (entries.map (·.1)).Nodup)
    (fact : Fact) : (ofList entries).get? fact = entries.lookup fact := by
  rw [ofList, get?_foldl_set entries _ hnodup, get?_empty]
  simp

end FactMap

namespace Memory

/-- A fact was answered yes. -/
def AnsweredYes (memory : Memory) (fact : Fact) : Prop := memory.finding fact = some .holds

/-- A memory without what was derived. -/
def answers (memory : Memory) : Memory := { memory with hypotheses := .empty }

@[simp]
theorem finding_answers (memory : Memory) (fact : Fact) :
    memory.answers.finding fact = memory.finding fact := rfl

@[simp]
theorem history_answers (memory : Memory) : memory.answers.history = memory.history := rfl

theorem finding_eq_of_answers_eq {left right : Memory} (h : left.answers = right.answers)
    (fact : Fact) : left.finding fact = right.finding fact :=
  congrArg (fun memory => memory.finding fact) h

/-- A value was recorded for a fact, as its answer or as what was derived. -/
def Records (memory : Memory) (fact : Fact) (value : Truth) : Prop :=
  memory.finding fact = some value ∨ memory.hypothesis fact = some value

theorem records_of_rawValue {memory : Memory} {fact : Fact} {value : Truth}
    (h : memory.rawValue fact = some value) : memory.Records fact value := by
  unfold rawValue at h
  cases hfinding : memory.finding fact with
  | none => exact .inr (by simpa [hfinding] using h)
  | some answered => exact .inl (by simpa [hfinding] using h)

/-- Only what was recorded is seen by the rules. -/
theorem records_of_effectiveValue {memory : Memory} {fact : Fact} {derived : Bool}
    {value : Truth} (h : memory.effectiveValue fact derived = some value) :
    memory.Records fact value := by
  unfold effectiveValue at h
  split at h
  · cases hfilter : (memory.hypothesis fact).filter Truth.isDefinite with
    | none => exact records_of_rawValue (by simpa [hfilter] using h)
    | some settled =>
      have hsettled := (Option.filter_eq_some_iff.mp hfilter).1
      rw [hfilter] at h
      exact .inr (hsettled.trans h)
  · exact records_of_rawValue h

/-- The two values that inference looks at before it writes cover all that was
    recorded. -/
theorem not_records_iff {memory : Memory} {fact : Fact} {value : Truth} :
    ¬ memory.Records fact value ↔
      memory.rawValue fact ≠ some value ∧ memory.hypothesis fact ≠ some value := by
  constructor
  · intro h
    exact ⟨fun hraw => h (records_of_rawValue hraw), fun hhypothesis => h (.inr hhypothesis)⟩
  · rintro ⟨hraw, hhypothesis⟩ (hfinding | hrecorded)
    · exact hraw (by rw [rawValue, hfinding]; rfl)
    · exact hhypothesis hrecorded

/-- An answer to another fact stays as it was. -/
theorem finding_putFinding_of_some {memory : Memory} {fact query : Fact} {old : Truth}
    (h : memory.finding query = some old) (value : Truth) (hnew : memory.finding fact = none) :
    (memory.putFinding fact value).finding query = some old := by
  rw [finding_putFinding, if_neg, h]
  rintro rfl
  rw [hnew] at h
  cases h

/-- A new answer takes nothing away. -/
theorem Records.putFinding {memory : Memory} {fact query : Fact} {old : Truth}
    (h : memory.Records query old) (value : Truth) (hnew : memory.finding fact = none) :
    (memory.putFinding fact value).Records query old := by
  rcases h with hfinding | hhypothesis
  · exact .inl (finding_putFinding_of_some hfinding value hnew)
  · exact .inr hhypothesis

private theorem get?_foldl_erase (entries : List (Fact × Truth)) (map : FactMap) (fact : Fact) :
    (entries.foldl (fun map entry => map.erase entry.1) map).get? fact =
      if fact ∈ entries.map (·.1) then none else map.get? fact := by
  induction entries generalizing map with
  | nil => simp
  | cons entry rest ih =>
    rw [List.foldl_cons, ih, FactMap.get?_erase]
    by_cases hrest : fact ∈ rest.map (·.1)
    · simp [hrest]
    · by_cases hhead : fact = entry.1 <;> simp [hrest, hhead]

private theorem historyFrom_isEmpty {memory : Memory} {fact : Fact}
    (h : fact ∈ memory.history.map (·.1)) : (memory.historyFrom fact).isEmpty = false := by
  obtain ⟨entry, hentry, rfl⟩ := List.mem_map.mp h
  rw [List.isEmpty_eq_false_iff]
  intro hempty
  have hall := List.dropWhile_eq_nil_iff.mp hempty entry hentry
  simp at hall

/-- Going back to a fact that was answered takes back its answer and all later
    ones, and everything that was derived. -/
theorem clearAfter_of_mem {memory : Memory} {fact : Fact}
    (h : fact ∈ memory.history.map (·.1)) :
    (memory.clearAfter fact).hypotheses = .empty ∧
    (memory.clearAfter fact).history = memory.history.takeWhile (·.1 ≠ fact) ∧
    ∀ query, (memory.clearAfter fact).finding query =
      if query ∈ (memory.historyFrom fact).map (·.1) then none else memory.finding query := by
  have hnot : (memory.historyFrom fact).isEmpty = false := historyFrom_isEmpty h
  rw [clearAfter, hnot]
  exact ⟨rfl, rfl, fun query => get?_foldl_erase _ _ query⟩

/-- The findings are what the history tells, and no fact was answered twice. -/
structure Faithful (memory : Memory) : Prop where
  nodup : (memory.history.map (·.1)).Nodup
  finding_eq : ∀ fact, memory.finding fact = memory.history.lookup fact

theorem Faithful.not_mem_history {memory : Memory} (h : memory.Faithful) {fact : Fact}
    (hnew : memory.finding fact = none) : fact ∉ memory.history.map (·.1) := by
  intro hmem
  obtain ⟨entry, hentry, rfl⟩ := List.mem_map.mp hmem
  rw [h.finding_eq, List.lookup_eq_none_iff] at hnew
  have hne := hnew entry hentry
  simp at hne

theorem Faithful.mem_history {memory : Memory} (h : memory.Faithful) {fact : Fact} {value : Truth}
    (hfinding : memory.finding fact = some value) : fact ∈ memory.history.map (·.1) := by
  by_contra hnot
  rw [h.finding_eq, lookup_eq_none_of_not_mem hnot] at hfinding
  cases hfinding

theorem faithful_answers {memory : Memory} : memory.answers.Faithful ↔ memory.Faithful :=
  ⟨fun h => ⟨h.nodup, h.finding_eq⟩, fun h => ⟨h.nodup, h.finding_eq⟩⟩

theorem Faithful.putFinding {memory : Memory} (h : memory.Faithful) {fact : Fact} (value : Truth)
    (hnew : memory.finding fact = none) : (memory.putFinding fact value).Faithful := by
  have hnot := h.not_mem_history hnew
  constructor
  · change ((memory.history ++ [(fact, value)]).map (·.1)).Nodup
    rw [List.map_append, List.nodup_append]
    refine ⟨h.nodup, List.pairwise_singleton _ _, fun first hfirst second hsecond => ?_⟩
    rw [List.map_singleton, List.mem_singleton] at hsecond
    subst hsecond
    rintro rfl
    exact hnot hfirst
  · intro query
    change _ = (memory.history ++ [(fact, value)]).lookup query
    rw [finding_putFinding, List.lookup_append, ← h.finding_eq]
    split
    · next heq =>
      subst heq
      simp [hnew]
    · next hne =>
      have hother : (query == fact) = false := by simpa using hne
      simp [List.lookup_cons, hother]

/-- What remains after going back is faithful again. -/
theorem Faithful.clearAfter {memory : Memory} (h : memory.Faithful) {fact : Fact}
    (hmem : fact ∈ memory.history.map (·.1)) : (memory.clearAfter fact).Faithful := by
  obtain ⟨-, hhistory, hfinding⟩ := clearAfter_of_mem hmem
  have hsplit := memory.takeWhile_append_historyFrom fact
  have hnodup := h.nodup
  rw [← hsplit, List.map_append] at hnodup
  obtain ⟨hkept, -, hdisjoint⟩ := List.nodup_append.mp hnodup
  constructor
  · rw [hhistory]
    exact hkept
  · intro query
    rw [hhistory, hfinding]
    split
    · next hlost =>
      refine (lookup_eq_none_of_not_mem fun hquery => ?_).symm
      exact hdisjoint query hquery query hlost rfl
    · next hlost =>
      have hlookup := congrArg (List.lookup query) hsplit
      rw [List.lookup_append, lookup_eq_none_of_not_mem hlost, Option.or_none] at hlookup
      rw [h.finding_eq, hlookup]

/-- The fact that was gone back to can be answered again. -/
theorem Faithful.finding_clearAfter_self {memory : Memory} (h : memory.Faithful) {fact : Fact}
    (hmem : fact ∈ memory.history.map (·.1)) : (memory.clearAfter fact).finding fact = none := by
  by_contra hsome
  obtain ⟨value, hvalue⟩ := Option.ne_none_iff_exists'.mp hsome
  have hkept := (h.clearAfter hmem).mem_history hvalue
  rw [(clearAfter_of_mem hmem).2.1] at hkept
  obtain ⟨entry, hentry, heq⟩ := List.mem_map.mp hkept
  have hne := List.mem_takeWhile_imp hentry
  simp [heq] at hne

/-- The findings are the history read as a map. -/
theorem Faithful.findings_eq {memory : Memory} (h : memory.Faithful) :
    memory.findings = .ofList memory.history :=
  FactMap.eq_of_get? fun fact => (h.finding_eq fact).trans (FactMap.get?_ofList h.nodup fact).symm

/-- Faithful memories with the same history have the same answers. -/
theorem Faithful.answers_eq {left right : Memory} (hleft : left.Faithful) (hright : right.Faithful)
    (h : left.history = right.history) : left.answers = right.answers := by
  apply Memory.ext
  · have hfindings : left.findings = right.findings := by
      rw [hleft.findings_eq, hright.findings_eq, h]
    exact hfindings
  · rfl
  · exact h

theorem Faithful.finding_of_mem {memory : Memory} (h : memory.Faithful) {entry : Fact × Truth}
    (hmem : entry ∈ memory.history) : memory.finding entry.1 = some entry.2 := by
  rw [h.finding_eq, lookup_of_mem h.nodup hmem]

/-- The facts answered `unknown` can be read off the history alone. -/
theorem Faithful.unknownAnswers_eq {memory : Memory} (h : memory.Faithful) :
    memory.unknownAnswers = (memory.history.filter (·.2 = .unknown)).map (·.1) := by
  rw [unknownAnswers, List.filter_map]
  congr 1
  refine List.filter_congr fun entry hentry => ?_
  simp [h.finding_of_mem hentry]

theorem Faithful.history_clearAfter {memory : Memory} (h : memory.Faithful)
    {before after : List (Fact × Truth)} {entry : Fact × Truth}
    (hsplit : memory.history = before ++ entry :: after) :
    (memory.clearAfter entry.1).history = before := by
  have hmem : entry.1 ∈ memory.history.map (·.1) := by simp [hsplit]
  have hnodup := h.nodup
  rw [hsplit] at hnodup
  rw [(clearAfter_of_mem hmem).2.1, hsplit, takeWhile_of_split hnodup]

/-- Going back to the answer at a position leaves those before it, as if nothing
    else had ever been known. -/
theorem Faithful.clearAfter_eq {memory : Memory} (h : memory.Faithful) {kept : Nat}
    (hkept : kept < memory.history.length) :
    memory.clearAfter memory.history[kept].1 =
      ⟨.ofList (memory.history.take kept), .empty, memory.history.take kept⟩ := by
  have hmem : memory.history[kept].1 ∈ memory.history.map (·.1) :=
    List.mem_map_of_mem (List.getElem_mem hkept)
  have hsplit : memory.history =
      memory.history.take kept ++ memory.history[kept] :: memory.history.drop (kept + 1) := by
    rw [← List.drop_eq_getElem_cons hkept, List.take_append_drop]
  have hhistory := h.history_clearAfter hsplit
  apply Memory.ext
  · rw [(h.clearAfter hmem).findings_eq, hhistory]
  · exact (clearAfter_of_mem hmem).1
  · exact hhistory

end Memory

end Consultation
