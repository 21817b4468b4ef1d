import RuleGrounding.Proofs.Json.Numbers
import RuleGrounding.Proofs.Json.Strings

/-!
# JSON text reads back

A value that is written over several lines is read back from its text, whatever stands behind it as
long as that ends a number. Every call of the reader consumes a part of the text, so that the length
of the text is fuel enough.
-/

namespace RuleGrounding

namespace Json

variable {fuel : Nat} {rest : List Char}

mutual

/-- Every number with a fraction or an exponent is a decimal in normal form. -/
def IsNormal : Json → Prop
  | array items => ItemsNormal items
  | object fields => FieldsNormal fields
  | real d => d.IsNormal
  | _ => True

/-- The same of several values. -/
def ItemsNormal : List Json → Prop
  | [] => True
  | j :: js => j.IsNormal ∧ ItemsNormal js

/-- The same of several fields. -/
def FieldsNormal : List (String × Json) → Prop
  | [] => True
  | f :: fs => f.2.IsNormal ∧ FieldsNormal fs

end

section Levels

variable {js : List Json} {fields : List (String × Json)}

end Levels

section Blanks

theorem skipBlank_skipBlank (s : List Char) : skipBlank (skipBlank s) = skipBlank s :=
  List.dropWhile_idempotent _ s

theorem skipBlank_cons {c : Char} (h : (c = ' ' || c = '\n' || c = '\t' || c = '\r') = false)
    (s : List Char) : skipBlank (c :: s) = c :: s :=
  List.dropWhile_cons_of_neg (by rw [h]; decide)

/-- A line starts with blanks only. -/
theorem skipBlank_lineStart (level : Nat) (s : List Char) :
    skipBlank ((lineStart level).toList ++ s) = skipBlank s := by
  refine List.dropWhile_append_of_pos fun c hc => ?_
  rw [lineStart, String.toList_append, toList_pushn] at hc
  rcases List.mem_append.mp hc with hc | hc
  · rw [List.mem_singleton.mp hc]
    rfl
  · rw [List.eq_of_mem_replicate hc]
    rfl

theorem endsNumber_lineStart (level : Nat) (s : List Char) :
    EndsNumber ((lineStart level).toList ++ s) := by
  intro c hc
  rw [lineStart, String.toList_append] at hc
  rw [← Option.some.inj hc]
  decide

theorem endsNumber_comma (s : List Char) : EndsNumber (',' :: s) := by
  intro c hc
  rw [← Option.some.inj hc]
  decide

theorem skipBlank_space (s : List Char) : skipBlank (' ' :: s) = skipBlank s := rfl

end Blanks

section Steps

variable {j : Json} {s v : List Char}

/-- What is read as a number starts with a digit or a minus sign. -/
theorem exists_cons_of_readNumber {r : Json × List Char} (h : readNumber s = some r) :
    ∃ c s', s = c :: s' ∧ (c.isDigit = true ∨ c = '-') := by
  cases s with
  | nil => simp [readNumber, readMagnitude] at h
  | cons c s =>
    refine ⟨c, s, rfl, ?_⟩
    by_contra hc
    rw [not_or, Bool.not_eq_true] at hc
    have hminus : readNumber (c :: s) = readMagnitude false (c :: s) := by
      unfold readNumber
      split
      · exact absurd (List.cons.inj ‹_›).1 hc.2
      · rfl
    rw [hminus, readMagnitude, List.takeWhile_cons_of_neg (by rw [hc.1]; decide)] at h
    cases h

/-- No other kind of value starts like a number. -/
theorem readValue_of_readNumber {r : Json × List Char} (h : readNumber s = some r) :
    readValue (fuel + 1) s = some r := by
  obtain ⟨c, s, rfl, hc⟩ := exists_cons_of_readNumber h
  have hne : ∀ x : Char, (x.isDigit || decide (x = '-')) = false → c ≠ x := by
    rintro x hx rfl
    simp_all
  have hblank : (c = ' ' || c = '\n' || c = '\t' || c = '\r') = false := by
    simp [hne ' ' rfl, hne '\n' rfl, hne '\t' rfl, hne '\r' rfl]
  rw [readValue, skipBlank_cons hblank]
  split
  all_goals try exact absurd (List.cons.inj ‹c :: s = _›).1 (hne _ rfl)
  exact h

theorem readValue_string (name : String) (rest : List Char) :
    readValue (fuel + 1) ((quote name).toList ++ rest) = some (.string name, rest) := by
  rw [toList_quote, List.cons_append, readValue_quote]
  simp only [List.append_assoc, List.singleton_append, readString_flatMap, Option.map_some,
    String.ofList_toList]

theorem readValue_closing (fuel : Nat) (s : List Char) : readValue fuel (']' :: s) = none := by
  cases fuel with
  | zero => rw [readValue]
  | succ fuel => rfl

theorem readItems_closing (fuel : Nat) (s : List Char) : readItems fuel (']' :: s) = none := by
  cases fuel with
  | zero => rw [readItems]
  | succ fuel => rw [readItems, readValue_closing]

theorem readFields_closing (fuel : Nat) (s : List Char) :
    readFields fuel ('\x7d' :: s) = none := by
  cases fuel with
  | zero => rw [readFields]
  | succ fuel =>
    rw [readFields, skipBlank_cons rfl]
    rfl

/-- What is read as items does not start with the bracket that closes an empty array. -/
theorem readValue_array {r : List Json × List Char} (h : readItems fuel s = some r) :
    readValue (fuel + 1) ('[' :: s) = some (.array r.1, r.2) := by
  rw [← readItems_congr (skipBlank_skipBlank s)] at h
  rw [readValue_bracket]
  split
  · rename_i heq
    rw [heq, readItems_closing] at h
    cases h
  · rw [h, Option.map_some]

theorem readValue_object {r : List (String × Json) × List Char}
    (h : readFields fuel s = some r) :
    readValue (fuel + 1) ('\x7b' :: s) = some (.object r.1, r.2) := by
  rw [← readFields_congr (skipBlank_skipBlank s)] at h
  rw [readValue_brace]
  split
  · rename_i heq
    rw [heq, readFields_closing] at h
    cases h
  · rw [h, Option.map_some]

theorem readItems_singleton (h : readValue fuel s = some (j, v))
    (hv : skipBlank v = ']' :: rest) : readItems (fuel + 1) s = some ([j], rest) := by
  rw [readItems, h]
  simp only [hv]

theorem readItems_cons {r : List Json × List Char} (h : readValue fuel s = some (j, ',' :: v))
    (hr : readItems fuel v = some r) : readItems (fuel + 1) s = some (j :: r.1, r.2) := by
  have hcomma : skipBlank (',' :: v) = ',' :: v := skipBlank_cons rfl v
  rw [readItems, h]
  simp only [hcomma, hr, Option.map_some]

theorem readFields_singleton {name : String} (h : readValue fuel s = some (j, v))
    (hv : skipBlank v = '\x7d' :: rest) :
    readFields (fuel + 1) ((quote name).toList ++ ':' :: s) = some ([(name, j)], rest) := by
  have hcolon : skipBlank (':' :: s) = ':' :: s := skipBlank_cons rfl s
  rw [toList_quote, List.cons_append, readFields, skipBlank_cons rfl]
  simp only [List.append_assoc, List.singleton_append, readString_flatMap, hcolon, h, hv,
    String.ofList_toList]

theorem readFields_cons {name : String} {r : List (String × Json) × List Char}
    (h : readValue fuel s = some (j, ',' :: v)) (hr : readFields fuel v = some r) :
    readFields (fuel + 1) ((quote name).toList ++ ':' :: s) =
      some ((name, j) :: r.1, r.2) := by
  have hcolon : skipBlank (':' :: s) = ':' :: s := skipBlank_cons rfl s
  have hcomma : skipBlank (',' :: v) = ',' :: v := skipBlank_cons rfl v
  rw [toList_quote, List.cons_append, readFields, skipBlank_cons rfl]
  simp only [List.append_assoc, List.singleton_append, readString_flatMap, hcolon, hcomma, h, hr,
    Option.map_some, String.ofList_toList]

end Steps

section Lines

/-- Several values, each on a line of its own. -/
def itemsChars (level : Nat) (js : List Json) : List Char :=
  (String.intercalate ("," ++ lineStart level) (prettyItems level js)).toList

/-- Several fields, each on a line of its own. -/
def fieldsChars (level : Nat) (fs : List (String × Json)) : List Char :=
  (String.intercalate ("," ++ lineStart level) (prettyFields level fs)).toList

theorem itemsChars_singleton (level : Nat) (j : Json) :
    itemsChars level [j] = (prettyAt level j).toList := by
  rw [itemsChars, prettyItems_eq_map, List.map_singleton, String.intercalate_singleton]

theorem itemsChars_cons_cons (level : Nat) (j j' : Json) (js : List Json) :
    itemsChars level (j :: j' :: js) = (prettyAt level j).toList ++
      ',' :: ((lineStart level).toList ++ itemsChars level (j' :: js)) := by
  simp [itemsChars, prettyItems_eq_map, String.intercalate_cons_cons]

theorem fieldsChars_singleton (level : Nat) (name : String) (j : Json) :
    fieldsChars level [(name, j)] =
      (quote name).toList ++ ':' :: ' ' :: (prettyAt level j).toList := by
  simp [fieldsChars, prettyFields_eq_map]

theorem fieldsChars_cons_cons (level : Nat) (name : String) (j : Json) (f : String × Json)
    (fs : List (String × Json)) :
    fieldsChars level ((name, j) :: f :: fs) =
      (quote name).toList ++ ':' :: ' ' :: ((prettyAt level j).toList ++
        ',' :: ((lineStart level).toList ++ fieldsChars level (f :: fs))) := by
  simp [fieldsChars, prettyFields_eq_map, String.intercalate_cons_cons]

/-- Parts in brackets, each on a line of its own. -/
theorem toList_bracketed (level : Nat) (opening closing : String) {parts : List String}
    (h : parts ≠ []) :
    (bracketed level opening closing parts).toList = opening.toList ++
      ((lineStart (level + 1)).toList ++
        ((String.intercalate ("," ++ lineStart (level + 1)) parts).toList ++
          ((lineStart level).toList ++ closing.toList))) := by
  rw [bracketed, List.isEmpty_eq_false_iff.mpr h]
  simp

theorem prettyAt_array_nil (level : Nat) : (prettyAt level (.array [])).toList = ['[', ']'] := by
  simp [prettyAt_array, bracketed]

theorem prettyAt_object_nil (level : Nat) :
    (prettyAt level (.object [])).toList = ['\x7b', '\x7d'] := by
  simp [prettyAt_object, bracketed]

theorem prettyAt_array_cons (level : Nat) (j : Json) (js : List Json) :
    (prettyAt level (.array (j :: js))).toList =
      '[' :: ((lineStart (level + 1)).toList ++
        (itemsChars (level + 1) (j :: js) ++ ((lineStart level).toList ++ [']']))) := by
  rw [prettyAt_array, List.map_cons, toList_bracketed _ _ _ (List.cons_ne_nil _ _), itemsChars,
    prettyItems_eq_map]
  rfl

theorem prettyAt_object_cons (level : Nat) (f : String × Json) (fs : List (String × Json)) :
    (prettyAt level (.object (f :: fs))).toList =
      '\x7b' :: ((lineStart (level + 1)).toList ++
        (fieldsChars (level + 1) (f :: fs) ++ ((lineStart level).toList ++ ['\x7d']))) := by
  rw [prettyAt_object, List.map_cons, toList_bracketed _ _ _ (List.cons_ne_nil _ _), fieldsChars,
    prettyFields_eq_map]
  rfl

end Lines

section Values

mutual

/-- A value is read back from its text. -/
theorem readValue_prettyAt (j : Json) (fuel level : Nat) (rest : List Char) (h : j.IsNormal)
    (hrest : EndsNumber rest) (hfuel : (prettyAt level j).toList.length < fuel) :
    readValue fuel ((prettyAt level j).toList ++ rest) = some (j, rest) := by
  obtain ⟨fuel, rfl⟩ : ∃ f, fuel = f + 1 := ⟨fuel - 1, by omega⟩
  cases j with
  | null =>
    rw [prettyAt, readValue]
    rfl
  | bool value =>
    cases value <;>
    · rw [prettyAt, readValue]
      rfl
  | integer n =>
    rw [prettyAt]
    exact readValue_of_readNumber (readNumber_repr n hrest)
  | real d =>
    rw [prettyAt]
    exact readValue_of_readNumber (readNumber_decimalText h hrest)
  | string s =>
    rw [prettyAt, readValue_string]
  | array items =>
    cases items with
    | nil =>
      rw [prettyAt_array_nil, readValue]
      rfl
    | cons j js =>
      rw [prettyAt_array_cons] at hfuel ⊢
      simp only [List.length_cons, List.length_append] at hfuel
      have hread := readItems_itemsChars (j :: js) fuel (level + 1) level rest
        (List.cons_ne_nil _ _) h (by omega)
      rw [← readItems_congr (skipBlank_lineStart (level + 1) _)] at hread
      simpa using readValue_array hread
  | object fields =>
    cases fields with
    | nil =>
      rw [prettyAt_object_nil, readValue]
      rfl
    | cons f fs =>
      rw [prettyAt_object_cons] at hfuel ⊢
      simp only [List.length_cons, List.length_append] at hfuel
      have hread := readFields_fieldsChars (f :: fs) fuel (level + 1) level rest
        (List.cons_ne_nil _ _) h (by omega)
      rw [← readFields_congr (skipBlank_lineStart (level + 1) _)] at hread
      simpa using readValue_object hread

theorem readItems_itemsChars (js : List Json) (fuel level level' : Nat) (rest : List Char)
    (hne : js ≠ []) (h : ItemsNormal js) (hfuel : (itemsChars level js).length + 1 < fuel) :
    readItems fuel (itemsChars level js ++ ((lineStart level').toList ++ ']' :: rest)) =
      some (js, rest) := by
  obtain ⟨fuel, rfl⟩ : ∃ f, fuel = f + 1 := ⟨fuel - 1, by omega⟩
  cases js with
  | nil => exact absurd rfl hne
  | cons j js =>
    cases js with
    | nil =>
      rw [itemsChars_singleton] at hfuel ⊢
      exact readItems_singleton
        (readValue_prettyAt j fuel level _ h.1 (endsNumber_lineStart _ _) (by omega))
        (skipBlank_lineStart level' _)
    | cons j' js =>
      rw [itemsChars_cons_cons] at hfuel ⊢
      simp only [List.length_cons, List.length_append] at hfuel
      have hread := readItems_itemsChars (j' :: js) fuel level level' rest
        (List.cons_ne_nil _ _) h.2 (by omega)
      rw [← readItems_congr (skipBlank_lineStart level _)] at hread
      have hvalue := readValue_prettyAt j fuel level (',' :: ((lineStart level).toList ++
        (itemsChars level (j' :: js) ++ ((lineStart level').toList ++ ']' :: rest)))) h.1
        (endsNumber_comma _) (by omega)
      simpa using readItems_cons hvalue hread

theorem readFields_fieldsChars (fs : List (String × Json)) (fuel level level' : Nat)
    (rest : List Char) (hne : fs ≠ []) (h : FieldsNormal fs)
    (hfuel : (fieldsChars level fs).length + 1 < fuel) :
    readFields fuel (fieldsChars level fs ++ ((lineStart level').toList ++ '\x7d' :: rest)) =
      some (fs, rest) := by
  obtain ⟨fuel, rfl⟩ : ∃ f, fuel = f + 1 := ⟨fuel - 1, by omega⟩
  cases fs with
  | nil => exact absurd rfl hne
  | cons f fs =>
    obtain ⟨name, j⟩ := f
    cases fs with
    | nil =>
      rw [fieldsChars_singleton] at hfuel ⊢
      simp only [List.length_cons, List.length_append] at hfuel
      have hvalue := readValue_prettyAt j fuel level _ h.1
        (endsNumber_lineStart level' ('\x7d' :: rest)) (by omega)
      rw [← readValue_congr (skipBlank_space _)] at hvalue
      simpa using readFields_singleton hvalue (skipBlank_lineStart level' _)
    | cons f fs =>
      rw [fieldsChars_cons_cons] at hfuel ⊢
      simp only [List.length_cons, List.length_append] at hfuel
      have hread := readFields_fieldsChars (f :: fs) fuel level level' rest
        (List.cons_ne_nil _ _) h.2 (by omega)
      rw [← readFields_congr (skipBlank_lineStart level _)] at hread
      have hvalue := readValue_prettyAt j fuel level (',' :: ((lineStart level).toList ++
        (fieldsChars level (f :: fs) ++ ((lineStart level').toList ++ '\x7d' :: rest)))) h.1
        (endsNumber_comma _) (by omega)
      rw [← readValue_congr (skipBlank_space _)] at hvalue
      simpa using readFields_cons hvalue hread

end

end Values

end Json

end RuleGrounding
