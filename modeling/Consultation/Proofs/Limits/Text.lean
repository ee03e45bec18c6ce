import Consultation.Limits.File
import Consultation.Proofs.Lookup
import Consultation.Proofs.Toml.RoundTrip

namespace Consultation.Limits

/-- Limits with the defaults in place of those whose names are not kept. -/
def keeping (kept : String → Bool) (limits : Limits) : Limits :=
  let defaults : Limits := {}
  { maxEvaluationPasses :=
      if kept "max_evaluation_passes" then limits.maxEvaluationPasses
      else defaults.maxEvaluationPasses
    maxPropagationIterations :=
      if kept "max_propagation_iterations" then limits.maxPropagationIterations
      else defaults.maxPropagationIterations
    maxQuestionDepth :=
      if kept "max_question_depth" then limits.maxQuestionDepth
      else defaults.maxQuestionDepth }

/-- The text of a limits file without the lines whose names are not kept. -/
def textKeeping (kept : String → Bool) (limits : Limits) : String :=
  String.join ((limits.fields.filter fun field => kept field.1).map fieldLine)

theorem textKeeping_all (limits : Limits) : limits.textKeeping (fun _ => true) = limits.text := by
  rw [textKeeping, List.filter_true, text]

theorem keeping_all (limits : Limits) : limits.keeping (fun _ => true) = limits := rfl

/-- Limits can be written when none is beyond the integers of 64 bits with a sign. -/
theorem isWritable_iff {limits : Limits} :
    limits.isWritable = true ↔ ∀ field ∈ limits.fields, field.2 ≤ 2 ^ 63 - 1 := by
  have hbound (n : Nat) : n < Toml.Scalar.integerBound ↔ n ≤ 2 ^ 63 - 1 := Nat.lt_succ_iff
  simp only [isWritable, List.all_eq_true, decide_eq_true_eq, hbound]

theorem toList_fieldLine (field : String × Nat) :
    (fieldLine field).toList = Toml.integerLine field := by
  rw [fieldLine, Toml.integerLine, show toString field.2 = field.2.repr from rfl]
  simp [Nat.toList_repr]

theorem toList_textKeeping (limits : Limits) (kept : String → Bool) :
    (limits.textKeeping kept).toList =
      (limits.fields.filter fun field => kept field.1).flatMap Toml.integerLine := by
  rw [textKeeping, String.toList_join, List.flatMap_map]
  simp only [toList_fieldLine]

theorem isBareName_of_mem_fields {limits : Limits} :
    ∀ field ∈ limits.fields, Toml.IsBareName field.1 := by
  simp only [fields, List.forall_mem_cons, List.not_mem_nil, false_implies, implies_true, and_true]
  refine ⟨⟨?_, ?_⟩, ⟨?_, ?_⟩, ⟨?_, ?_⟩⟩ <;> decide

theorem nodup_fields (limits : Limits) : (limits.fields.map (·.1)).Nodup := by
  have hnodup : (({} : Limits).fields.map (·.1)).Nodup := by decide
  exact hnodup

/-- A name that is kept has the number that was written for it. -/
theorem field?_kept {limits : Limits} {name : String} {n : Nat}
    (h : limits.fields.lookup name = some n) (kept : String → Bool) (absent : Nat) :
    field? ((limits.fields.filter fun field => kept field.1).map
      fun field => (field.1, .integer field.2)) name absent =
      some (if kept name then n else absent) := by
  rw [field?, lookup_map fun n : Nat => Toml.Value.integer n, lookup_filter, h]
  cases kept name <;> simp

/-- What is left of the entries of limits is read as the limits that are kept. -/
theorem ofToml?_kept (limits : Limits) (kept : String → Bool) :
    ofToml? ((limits.fields.filter fun field => kept field.1).map
      fun field => (field.1, .integer field.2)) = some (limits.keeping kept) := by
  have hpasses : limits.fields.lookup "max_evaluation_passes" = some limits.maxEvaluationPasses :=
    rfl
  have hiterations : limits.fields.lookup "max_propagation_iterations" =
      some limits.maxPropagationIterations := rfl
  have hdepth : limits.fields.lookup "max_question_depth" = some limits.maxQuestionDepth := rfl
  simp only [ofToml?, field?_kept hpasses, field?_kept hiterations, field?_kept hdepth]
  rfl

/-- A file of limits that lacks any of its lines is read with the defaults for these. -/
theorem load_textKeeping {limits : Limits} (h : limits.isWritable = true) (kept : String → Bool)
    (path : String) :
    load path (.ofText (limits.textKeeping kept)) = .ok (limits.keeping kept) := by
  have hread := Toml.read?_integerLines (toList_textKeeping limits kept)
    (fun field hfield => ?_) ?_
  · rw [load, Contents.text?_ofText]
    simp [hread, ofToml?_kept]
  · obtain ⟨hmem, -⟩ := List.mem_filter.mp hfield
    exact ⟨isBareName_of_mem_fields field hmem, of_decide_eq_true (List.all_eq_true.mp h field hmem)⟩
  · exact (nodup_fields limits).sublist (List.filter_sublist.map _)

end Consultation.Limits
