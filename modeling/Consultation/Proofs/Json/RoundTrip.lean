import Consultation.Json.Printer
import Consultation.Json.Reader
import Mathlib.Data.List.Basic

namespace Consultation.Json

mutual

/-- A value as a reader finds it, where each text is what a literal denotes. -/
def denoted : Json String → Json Literal
  | .null => .null
  | .bool value => .bool value
  | .number literal => .number literal
  | .string text => .string (some text)
  | .array items => .array (denotedItems items)
  | .object members => .object (denotedMembers members)

def denotedItems : List (Json String) → List (Json Literal)
  | [] => []
  | item :: rest => denoted item :: denotedItems rest

def denotedMembers : List (String × Json String) → List (Literal × Json Literal)
  | [] => []
  | (name, value) :: rest => (some name, denoted value) :: denotedMembers rest

end

theorem denotedItems_eq_map (items : List (Json String)) :
    denotedItems items = items.map denoted := by
  induction items with
  | nil => rfl
  | cons item rest ih => rw [denotedItems, ih, List.map_cons]

theorem denotedMembers_eq_map (members : List (String × Json String)) :
    denotedMembers members = members.map fun member => (some member.1, denoted member.2) := by
  induction members with
  | nil => rfl
  | cons member rest ih => rw [denotedMembers, ih, List.map_cons]

namespace Reader

/-- What a reader takes a character for that was written into a literal. -/
def written (c : Char) : Piece :=
  if c.toNat < 0x20 ∧ c ∉ ['\x08', '\x0c', '\n', '\r', '\t'] then .unit c.toNat else .char c

theorem ofDigits?_hexDigit {value : Nat} (h : value < 0x100) :
    Text.ofDigits? 16 ['0', '0', Text.hexDigit (value / 16), Text.hexDigit (value % 16)] =
      some value := by
  have hhigh : value / 16 < 16 := by omega
  have hlow : value % 16 < 16 := Nat.mod_lt _ (by decide)
  have hzero : Text.hexValue? '0' = some 0 := rfl
  simp only [Text.ofDigits?, List.foldlM_cons, List.foldlM_nil, hzero,
    Text.hexValue?_hexDigit _ hhigh, Text.hexValue?_hexDigit _ hlow, Option.bind_eq_bind,
    Option.bind_some, if_pos hhigh, if_pos hlow, Option.pure_def]
  simp
  omega

/-- Every escape is read as one piece. -/
theorem pieces_escapeChar (c : Char) (rest : List Char) :
    pieces (escapeChar c ++ rest) =
      (pieces rest).map fun read => (written c :: read.1, read.2) := by
  unfold escapeChar
  split
  -- No escape of its own: the number of a control character, or the character itself.
  case h_8 hquote hbackslash hb hf hn hr ht =>
    split
    · next hcontrol =>
      have hwritten : written c = .unit c.toNat :=
        if_pos ⟨hcontrol, by simpa using ⟨hb, hf, hn, hr, ht⟩⟩
      have hcode : Text.ofDigits? 16 ['0', '0', Text.hexDigit (c.toNat / 16),
          Text.hexDigit (c.toNat % 16)] = some c.toNat := ofDigits?_hexDigit (by omega)
      simp only [List.cons_append, List.nil_append, pieces, hcode, hwritten]
      cases pieces rest <;> rfl
    · next hplain =>
      have hwritten : written c = .char c := if_neg fun h => hplain h.1
      rw [List.singleton_append, pieces, if_neg hplain, hwritten]
      · cases pieces rest <;> rfl
      · exact hquote
      · exact fun _ _ _ _ _ h _ => hbackslash h
      · exact fun _ _ h _ => hbackslash h
  all_goals
    simp only [List.cons_append, List.nil_append]
    rw [pieces]
    · cases pieces rest <;> rfl
    · simp

/-- A number below the surrogates denotes its character, whatever follows it. -/
theorem denote_unit {code : Nat} (h : code < 0xD800) (rest : List Piece) :
    denote (.unit code :: rest) = (Char.ofNat code :: ·) <$> denote rest := by
  have hhigh : ¬ (0xD800 ≤ code) := Nat.not_le.mpr h
  have hlow : ¬ (0xDC00 ≤ code) := by omega
  rcases rest with _ | ⟨c | low, rest⟩ <;> simp [denote, hhigh, hlow]

theorem denote_map_written (chars : List Char) : denote (chars.map written) = some chars := by
  induction chars with
  | nil => rfl
  | cons c rest ih =>
    rw [List.map_cons, written]
    split
    · next hcontrol =>
      rw [denote_unit (Nat.lt_trans hcontrol.1 (by decide)), ih, Char.ofNat_toNat]
      rfl
    · rw [denote, ih]
      rfl

/-- A literal ends at its closing quotation mark, since those of the text are escaped. -/
theorem literal_escape (text : String) (following : List Char) :
    literal (text.toList.flatMap escapeChar ++ '"' :: following) =
      some (some text, following) := by
  have hpieces (chars : List Char) : pieces (chars.flatMap escapeChar ++ '"' :: following) =
      some (chars.map written, following) := by
    induction chars with
    | nil => rfl
    | cons c rest ih =>
      rw [List.flatMap_cons, List.append_assoc, pieces_escapeChar, ih]
      rfl
  rw [literal, hpieces]
  simp [denote_map_written]

end Reader

open Reader

theorem toList_quote (text : String) (following : List Char) :
    (quote text).toList ++ following =
      '"' :: (text.toList.flatMap escapeChar ++ '"' :: following) := by
  simp [quote]

theorem skipSpace_cons {c : Char} (h : isSpace c = false) (rest : List Char) :
    skipSpace (c :: rest) = c :: rest := by
  simp [skipSpace, h]

/-- A value without numbers in it. A number may be made from any literal. -/
inductive NumberFree : Json String → Prop where
  | null : NumberFree .null
  | bool (value : Bool) : NumberFree (.bool value)
  | string (text : String) : NumberFree (.string text)
  | array {items : List (Json String)} (h : ∀ item ∈ items, NumberFree item) :
      NumberFree (.array items)
  | object {members : List (String × Json String)}
      (h : ∀ member ∈ members, NumberFree member.2) : NumberFree (.object members)

/-- The text of a value is read as the value, whatever follows it. A reader has two steps for
    each of its characters, and does not take it for the end of an array. -/
structure ReadsBack (json : Json String) : Prop where
  opens : ∃ c rest, json.compact.toList = c :: rest ∧ isSpace c = false ∧ c ≠ ']'
  value_eq (fuel : Nat) (following : List Char) (h : 2 * json.compact.toList.length ≤ fuel + 1) :
    value (fuel + 1) (json.compact.toList ++ following) = some (json.denoted, following)

theorem ReadsBack.skipSpace_eq {json : Json String} (h : ReadsBack json) (following : List Char) :
    skipSpace (json.compact.toList ++ following) = json.compact.toList ++ following := by
  obtain ⟨c, rest, hopens, hspace, -⟩ := h.opens
  rw [hopens, List.cons_append, skipSpace_cons hspace]

theorem toList_compactItems_cons (item : Json String) (rest : List (Json String)) :
    (compactItems (item :: rest)).toList = ',' :: (item.compact ++ compactItems rest).toList := by
  simp [compactItems]

theorem toList_compactMembers_cons (name : String) (item : Json String)
    (rest : List (String × Json String)) :
    (compactMembers ((name, item) :: rest)).toList =
      ',' :: (quote name ++ ":" ++ item.compact ++ compactMembers rest).toList := by
  simp [compactMembers]

/-- The steps for an item are paid by its characters, and by the comma or bracket after it. -/
theorem items_eq {item : Json String} {rest : List (Json String)}
    (h : ∀ other ∈ item :: rest, ReadsBack other) (fuel : Nat) (following : List Char)
    (hfuel : 2 * (item.compact ++ compactItems rest).toList.length ≤ fuel + 1) :
    items (fuel + 2) ((item.compact ++ compactItems rest).toList ++ ']' :: following) =
      some (denotedItems (item :: rest), following) := by
  induction rest generalizing item fuel with
  | nil =>
    rw [compactItems, String.append_empty] at hfuel ⊢
    rw [items, (h item List.mem_cons_self).value_eq fuel _ hfuel]
    rfl
  | cons next rest ih =>
    rw [String.toList_append, toList_compactItems_cons] at hfuel ⊢
    rw [List.length_append, List.length_cons] at hfuel
    obtain ⟨fuel, rfl⟩ : ∃ less, fuel = less + 1 := ⟨fuel - 1, by omega⟩
    rw [items, List.append_assoc, (h item List.mem_cons_self).value_eq _ _ (by omega)]
    have hnext := ih (fun other hother => h other (List.mem_cons_of_mem _ hother)) fuel (by omega)
    rw [String.toList_append, List.append_assoc] at hnext
    simp only [Option.bind_eq_bind, Option.bind_some, List.cons_append, String.toList_append,
      List.append_assoc, skipSpace_cons (show isSpace ',' = false from rfl),
      (h next (by simp)).skipSpace_eq, hnext]
    rfl

/-- A reader takes a member from the front, and goes on with what follows it. -/
theorem members_eq_match {item : Json String} (h : ReadsBack item) (name : String) (fuel : Nat)
    (following : List Char) (hfuel : 2 * item.compact.toList.length ≤ fuel + 1) :
    members (fuel + 2) ((quote name ++ ":" ++ item.compact).toList ++ following) =
      match skipSpace following with
      | '\x7d' :: rest => some ([(some name, item.denoted)], rest)
      | ',' :: rest => do
        let (later, rest) ← members (fuel + 1) (skipSpace rest)
        return ((some name, item.denoted) :: later, rest)
      | _ => none := by
  rw [String.toList_append, String.toList_append, List.append_assoc, List.append_assoc,
    toList_quote, members, literal_escape]
  simp only [Option.bind_eq_bind, Option.bind_some, String.reduceToList, List.cons_append,
    List.nil_append, skipSpace_cons (show isSpace ':' = false from rfl), h.skipSpace_eq,
    h.value_eq fuel following hfuel]
  rfl

theorem members_eq {name : String} {item : Json String} {rest : List (String × Json String)}
    (h : ∀ member ∈ (name, item) :: rest, ReadsBack member.2) (fuel : Nat) (following : List Char)
    (hfuel : 2 * (quote name ++ ":" ++ item.compact ++ compactMembers rest).toList.length ≤
      fuel + 1) :
    members (fuel + 2) ((quote name ++ ":" ++ item.compact ++ compactMembers rest).toList ++
        '\x7d' :: following) =
      some (denotedMembers ((name, item) :: rest), following) := by
  induction rest generalizing name item fuel with
  | nil =>
    have hitem : ReadsBack item := h _ List.mem_cons_self
    rw [compactMembers, String.append_empty] at hfuel ⊢
    rw [String.toList_append, List.length_append] at hfuel
    rw [members_eq_match hitem name fuel _ (by omega)]
    rfl
  | cons next rest ih =>
    obtain ⟨other, next⟩ := next
    have hitem : ReadsBack item := h _ List.mem_cons_self
    rw [String.toList_append, toList_compactMembers_cons] at hfuel ⊢
    rw [List.length_append, String.toList_append, List.length_append, List.length_cons] at hfuel
    obtain ⟨fuel, rfl⟩ : ∃ less, fuel = less + 1 := ⟨fuel - 1, by omega⟩
    rw [List.append_assoc, members_eq_match hitem name _ _ (by omega)]
    have hrest := fun member hmember => h member (List.mem_cons_of_mem _ hmember)
    have hnext := ih hrest fuel (by omega)
    have hskip (text : String) (following : List Char) :
        skipSpace ((quote other ++ text).toList ++ following) =
          (quote other ++ text).toList ++ following := by
      rw [String.toList_append, List.append_assoc, toList_quote, skipSpace_cons rfl]
    rw [String.append_assoc, String.append_assoc] at hnext ⊢
    simp only [List.cons_append, skipSpace_cons (show isSpace ',' = false from rfl), hskip, hnext]
    rfl

theorem ReadsBack.array {items : List (Json String)} (h : ∀ item ∈ items, ReadsBack item) :
    ReadsBack (.array items) := by
  cases items with
  | nil => exact ⟨⟨_, _, rfl, rfl, by decide⟩, fun fuel following _ => rfl⟩
  | cons item rest =>
    have htext : (compact (.array (item :: rest))).toList =
        '[' :: ((item.compact ++ compactItems rest).toList ++ [']']) := by
      simp [compact]
    refine ⟨⟨_, _, htext, rfl, by decide⟩, fun fuel following hfuel => ?_⟩
    rw [htext] at hfuel ⊢
    rw [List.length_cons, List.length_append, List.length_singleton] at hfuel
    obtain ⟨fuel, rfl⟩ : ∃ less, fuel = less + 2 := ⟨fuel - 2, by omega⟩
    obtain ⟨c, more, hopens, hspace, hclose⟩ := (h item List.mem_cons_self).opens
    have hitems := items_eq h fuel following (by omega)
    rw [String.toList_append, hopens, List.cons_append, List.cons_append] at hitems ⊢
    rw [List.cons_append, List.cons_append, List.append_assoc, value, skipSpace_cons hspace]
    split
    · next heq => exact absurd (List.cons.inj heq).1 hclose
    · rw [List.singleton_append, hitems]
      rfl

theorem ReadsBack.object {members : List (String × Json String)}
    (h : ∀ member ∈ members, ReadsBack member.2) : ReadsBack (.object members) := by
  cases members with
  | nil => exact ⟨⟨_, _, rfl, rfl, by decide⟩, fun fuel following _ => rfl⟩
  | cons member rest =>
    obtain ⟨name, item⟩ := member
    have htext : (compact (.object ((name, item) :: rest))).toList =
        '\x7b' ::
          ((quote name ++ ":" ++ item.compact ++ compactMembers rest).toList ++ ['\x7d']) := by
      simp [compact]
    refine ⟨⟨_, _, htext, rfl, by decide⟩, fun fuel following hfuel => ?_⟩
    rw [htext] at hfuel ⊢
    rw [List.length_cons, List.length_append, List.length_singleton] at hfuel
    obtain ⟨fuel, rfl⟩ : ∃ less, fuel = less + 2 := ⟨fuel - 2, by omega⟩
    have hmembers := members_eq h fuel following (by omega)
    rw [String.append_assoc, String.append_assoc, String.toList_append, List.append_assoc,
      toList_quote] at hmembers
    rw [List.cons_append, List.append_assoc, String.append_assoc, String.append_assoc,
      String.toList_append, List.append_assoc, toList_quote, List.singleton_append, value,
      skipSpace_cons rfl]
    -- A name opens with a quotation mark, not with the brace of an empty object.
    split
    · next heq => exact absurd (List.cons.inj heq).1 (by decide)
    · rw [hmembers]
      rfl

theorem NumberFree.readsBack {json : Json String} (h : NumberFree json) : ReadsBack json := by
  induction h with
  | null => exact ⟨⟨'n', _, rfl, rfl, by decide⟩, fun fuel following _ => rfl⟩
  | bool value => cases value <;> exact ⟨⟨_, _, rfl, rfl, by decide⟩, fun fuel following _ => rfl⟩
  | string text =>
    have hquote := toList_quote text []
    rw [List.append_nil] at hquote
    refine ⟨⟨'"', _, hquote, rfl, by decide⟩, fun fuel following _ => ?_⟩
    rw [compact, toList_quote, value, literal_escape]
    rfl
  | array _ ih => exact .array ih
  | object _ ih => exact .object ih

/-- A value without numbers is read from its text as it was written. -/
theorem read?_compact {json : Json String} (h : NumberFree json) :
    read? json.compact = some json.denoted := by
  have hskip := h.readsBack.skipSpace_eq []
  have hread := h.readsBack.value_eq (2 * json.compact.toList.length + 1) [] (by omega)
  rw [List.append_nil] at hskip hread
  rw [read?, hskip, hread]
  rfl

end Consultation.Json
