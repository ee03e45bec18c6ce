import Consultation.Truth

namespace Consultation

/-- A finite map from facts to values, kept in the order of the facts' code
    points. The order fixes the representation: maps with the same values are
    equal. -/
@[ext]
structure FactMap where
  entries : List (Fact × Truth)
  ordered : entries.Pairwise (fun a b => a.1 < b.1)

namespace FactMap

/-- Adds an entry in its place. An entry of the same fact gives way. -/
def insertEntry (fact : Fact) (value : Truth) : List (Fact × Truth) → List (Fact × Truth)
  | [] => [(fact, value)]
  | entry :: rest =>
    if fact < entry.1 then (fact, value) :: entry :: rest
    else if fact = entry.1 then (fact, value) :: rest
    else entry :: insertEntry fact value rest

private theorem fact_lt_of_not {a b : Fact} (hlt : ¬ a < b) (hne : a ≠ b) : b < a := by
  exact Classical.byContradiction fun hnot =>
    hne (String.le_antisymm (String.not_lt.mp hnot) (String.not_lt.mp hlt))

theorem mem_insertEntry {fact : Fact} {value : Truth} {entry : Fact × Truth}
    {entries : List (Fact × Truth)} (h : entry ∈ insertEntry fact value entries) :
    entry = (fact, value) ∨ entry ∈ entries := by
  induction entries with
  | nil => simpa [insertEntry] using h
  | cons head rest ih =>
    rw [insertEntry] at h
    split at h
    · simpa using h
    · split at h
      · rcases List.mem_cons.mp h with h | h
        · exact .inl h
        · exact .inr (List.mem_cons_of_mem _ h)
      · rcases List.mem_cons.mp h with h | h
        · exact .inr (h ▸ List.mem_cons_self)
        · exact (ih h).imp_right (List.mem_cons_of_mem _)

theorem insertEntry_ordered (fact : Fact) (value : Truth) {entries : List (Fact × Truth)}
    (h : entries.Pairwise (fun a b => a.1 < b.1)) :
    (insertEntry fact value entries).Pairwise (fun a b => a.1 < b.1) := by
  induction entries with
  | nil => simp [insertEntry]
  | cons head rest ih =>
    obtain ⟨hhead, hrest⟩ := List.pairwise_cons.mp h
    rw [insertEntry]
    split
    · next hlt =>
      refine List.pairwise_cons.mpr ⟨fun entry hentry => ?_, h⟩
      rcases List.mem_cons.mp hentry with rfl | hentry
      · exact hlt
      · exact String.lt_trans hlt (hhead entry hentry)
    · next hnot =>
      split
      · next heq =>
        exact List.pairwise_cons.mpr ⟨fun entry hentry => heq ▸ hhead entry hentry, hrest⟩
      · next hne =>
        refine List.pairwise_cons.mpr ⟨fun entry hentry => ?_, ih hrest⟩
        rcases mem_insertEntry hentry with rfl | hentry
        · exact fact_lt_of_not hnot hne
        · exact hhead entry hentry

def empty : FactMap := ⟨[], .nil⟩

instance : Inhabited FactMap := ⟨empty⟩

def isEmpty (map : FactMap) : Bool := map.entries.isEmpty

/-- The value recorded for a fact. -/
def get? (map : FactMap) (fact : Fact) : Option Truth := map.entries.lookup fact

/-- Records a value, in place of an earlier one. -/
def set (map : FactMap) (fact : Fact) (value : Truth) : FactMap :=
  ⟨insertEntry fact value map.entries, insertEntry_ordered fact value map.ordered⟩

/-- Forgets a fact. -/
def erase (map : FactMap) (fact : Fact) : FactMap :=
  ⟨map.entries.filter (·.1 ≠ fact), map.ordered.filter _⟩

/-- Records every value of a list, a later one in place of an earlier one. -/
def ofList (entries : List (Fact × Truth)) : FactMap :=
  entries.foldl (fun map entry => map.set entry.1 entry.2) empty

private theorem lookup_entry (query key : Fact) (value : Truth) (rest : List (Fact × Truth)) :
    ((key, value) :: rest).lookup query = if query = key then some value else rest.lookup query := by
  rw [List.lookup_cons]
  by_cases h : query = key
  · simp [h]
  · simp [h, beq_eq_false_iff_ne.mpr h]

@[simp]
theorem get?_empty (fact : Fact) : empty.get? fact = none := rfl

private theorem lookup_insertEntry (fact query : Fact) (value : Truth)
    (entries : List (Fact × Truth)) :
    (insertEntry fact value entries).lookup query =
      if query = fact then some value else entries.lookup query := by
  induction entries with
  | nil => exact lookup_entry query fact value []
  | cons head rest ih =>
    obtain ⟨key, old⟩ := head
    rw [insertEntry]
    split
    · rw [lookup_entry]
    · split
      · next heq =>
        have heq : fact = key := heq
        rw [lookup_entry, lookup_entry, heq]
        split <;> rfl
      · next hne =>
        have hne : fact ≠ key := hne
        rw [lookup_entry, lookup_entry, ih]
        by_cases hkey : query = key
        · simp [hkey, Ne.symm hne]
        · simp [hkey]

/-- Recording one fact leaves what is read of every other fact alone. -/
theorem get?_set (map : FactMap) (fact query : Fact) (value : Truth) :
    (map.set fact value).get? query = if query = fact then some value else map.get? query :=
  lookup_insertEntry fact query value map.entries

private theorem lookup_filter (fact query : Fact) (entries : List (Fact × Truth)) :
    (entries.filter (·.1 ≠ fact)).lookup query =
      if query = fact then none else entries.lookup query := by
  induction entries with
  | nil => simp
  | cons head rest ih =>
    obtain ⟨key, old⟩ := head
    rw [lookup_entry]
    by_cases hkey : key = fact
    · subst hkey
      rw [List.filter_cons_of_neg (by simp), ih]
      split <;> rfl
    · rw [List.filter_cons_of_pos (by simpa using hkey), lookup_entry, ih]
      by_cases hquery : query = key
      · simp [hquery, hkey]
      · simp [hquery]

/-- Forgetting one fact leaves what is read of every other fact alone. -/
theorem get?_erase (map : FactMap) (fact query : Fact) :
    (map.erase fact).get? query = if query = fact then none else map.get? query :=
  lookup_filter fact query map.entries

private theorem lookup_eq_none_of_lt {fact : Fact} {entries : List (Fact × Truth)}
    (h : ∀ entry ∈ entries, fact < entry.1) : entries.lookup fact = none := by
  induction entries with
  | nil => rfl
  | cons head rest ih =>
    have hlt := h head List.mem_cons_self
    have hne : fact ≠ head.1 := fun heq => String.lt_irrefl head.1 (heq ▸ hlt)
    rw [lookup_entry, if_neg hne, ih fun entry hentry => h entry (List.mem_cons_of_mem _ hentry)]

private theorem entries_eq_of_lookup {left right : List (Fact × Truth)}
    (hleft : left.Pairwise (fun a b => a.1 < b.1)) (hright : right.Pairwise (fun a b => a.1 < b.1))
    (h : ∀ fact, left.lookup fact = right.lookup fact) : left = right := by
  induction left generalizing right with
  | nil =>
    cases right with
    | nil => rfl
    | cons head rest =>
      obtain ⟨key, value⟩ := head
      simpa [lookup_entry] using h key
  | cons head rest ih =>
    obtain ⟨key, value⟩ := head
    obtain ⟨hkey, hrest⟩ := List.pairwise_cons.mp hleft
    cases right with
    | nil => simpa [lookup_entry] using h key
    | cons head' rest' =>
      obtain ⟨key', value'⟩ := head'
      obtain ⟨hkey', hrest'⟩ := List.pairwise_cons.mp hright
      have hsame : key = key' := by
        refine Classical.byContradiction fun hne => ?_
        by_cases hlt : key < key'
        · have habsent : ((key', value') :: rest').lookup key = none := by
            apply lookup_eq_none_of_lt
            intro entry hentry
            rcases List.mem_cons.mp hentry with rfl | hentry
            · exact hlt
            · exact String.lt_trans hlt (hkey' entry hentry)
          simpa [habsent] using h key
        · have hgt := fact_lt_of_not hlt hne
          have habsent : ((key, value) :: rest).lookup key' = none := by
            apply lookup_eq_none_of_lt
            intro entry hentry
            rcases List.mem_cons.mp hentry with rfl | hentry
            · exact hgt
            · exact String.lt_trans hgt (hkey entry hentry)
          simpa [habsent] using h key'
      subst hsame
      have hvalue : value = value' := by simpa [lookup_entry] using h key
      subst hvalue
      have htail : ∀ fact, rest.lookup fact = rest'.lookup fact := by
        intro fact
        by_cases hfact : fact = key
        · subst hfact
          rw [lookup_eq_none_of_lt hkey, lookup_eq_none_of_lt hkey']
        · simpa [lookup_entry, hfact] using h fact
      rw [ih hrest hrest' htail]

/-- Maps are equal when they give every fact the same value. No condition on
    how they were built is needed, because the order fixes the entries. -/
theorem eq_of_get? {left right : FactMap} (h : ∀ fact, left.get? fact = right.get? fact) :
    left = right :=
  FactMap.ext (entries_eq_of_lookup left.ordered right.ordered h)

end FactMap

end Consultation
