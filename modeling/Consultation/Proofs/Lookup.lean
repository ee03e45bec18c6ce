import Mathlib.Data.List.Basic

namespace Consultation

variable {κ α β : Type} [BEq κ]

/-- What is found under a key among the entries whose keys are kept. -/
theorem lookup_filter [LawfulBEq κ] (kept : κ → Bool) (entries : List (κ × α)) (key : κ) :
    (entries.filter fun entry => kept entry.1).lookup key =
      if kept key then entries.lookup key else none := by
  induction entries with
  | nil => simp
  | cons entry rest ih =>
    obtain ⟨other, value⟩ := entry
    cases hkey : key == other with
    | true =>
      obtain rfl := eq_of_beq hkey
      by_cases hkept : kept key <;> simp [hkept, ih]
    | false => by_cases hkept : kept other <;> simp [List.lookup_cons, hkept, hkey, ih]

/-- Changing the values of entries changes what is found under a key. -/
theorem lookup_map (change : α → β) (entries : List (κ × α)) (key : κ) :
    (entries.map fun entry => (entry.1, change entry.2)).lookup key =
      (entries.lookup key).map change := by
  induction entries with
  | nil => rfl
  | cons entry rest ih =>
    rw [List.map_cons, List.lookup_cons, List.lookup_cons, ih]
    cases key == entry.1 <;> rfl

end Consultation
