/-!
# Finite maps in insertion order

A finite map is a list of entries with pairwise distinct keys. Replacing the
value of a present key keeps its place, and a new key goes to the end, so the
order of the entries depends only on the order of the insertions. Every
operation is described by its effect on `find?`.
-/

namespace RuleGrounding

/-- A finite map from keys to values, kept as a list of entries with distinct keys. -/
structure FiniteMap (κ α : Type) where
  /-- The entries in the order in which their keys first came. -/
  entries : List (κ × α)
  /-- No key has two entries. -/
  nodup : (entries.map Prod.fst).Nodup

namespace FiniteMap

variable {κ α : Type}

/-- The map without entries. -/
def empty : FiniteMap κ α := ⟨[], List.nodup_nil⟩

instance : EmptyCollection (FiniteMap κ α) := ⟨empty⟩

instance : Inhabited (FiniteMap κ α) := ⟨empty⟩

/-- Drop all entries. -/
def clear (_ : FiniteMap κ α) : FiniteMap κ α := ∅

/-- The keys in insertion order. -/
def keys (m : FiniteMap κ α) : List κ := m.entries.map Prod.fst

/-- The values in insertion order of their keys. -/
def values (m : FiniteMap κ α) : List α := m.entries.map Prod.snd

/-- The number of keys. -/
def size (m : FiniteMap κ α) : Nat := m.entries.length

/-- Whether the map has no entry. -/
def isEmpty (m : FiniteMap κ α) : Bool := m.entries.isEmpty

/-- Apply a function to every value, knowing its key. -/
def mapValues {β : Type} (f : κ → α → β) (m : FiniteMap κ α) : FiniteMap κ β where
  entries := m.entries.map fun e => (e.1, f e.1 e.2)
  nodup := by simpa [List.map_map, Function.comp_def] using m.nodup

/-- A map with rewritten values has the same keys. -/
@[simp] theorem keys_mapValues {β : Type} (f : κ → α → β) (m : FiniteMap κ α) :
    (m.mapValues f).keys = m.keys := by
  simp only [keys, mapValues, List.map_map, Function.comp_def]

/-- Rewriting the values twice is rewriting them once, by one function after the other. -/
theorem mapValues_mapValues {β γ : Type} (f : κ → α → β) (g : κ → β → γ) (m : FiniteMap κ α) :
    (m.mapValues f).mapValues g = m.mapValues fun k v => g k (f k v) := by
  simp only [mapValues, List.map_map, Function.comp_def]

/-- Rewriting that leaves every value leaves the map. -/
theorem mapValues_eq_self {f : κ → α → α} {m : FiniteMap κ α} (h : ∀ k v, f k v = v) :
    m.mapValues f = m := by
  obtain ⟨entries, nodup⟩ := m
  simp only [mapValues, h, Prod.eta, List.map_id_fun', id_eq]

section Lookup

variable [DecidableEq κ]

/-- The value of a key in a list of entries: the first one counts. -/
def lookup (k : κ) : List (κ × α) → Option α
  | [] => none
  | (k', v) :: rest => if k = k' then some v else lookup k rest

@[simp] theorem lookup_nil (k : κ) : lookup k ([] : List (κ × α)) = none := rfl

theorem lookup_cons (k : κ) (e : κ × α) (es : List (κ × α)) :
    lookup k (e :: es) = if k = e.1 then some e.2 else lookup k es := rfl

/-- The value stored under a key. -/
def find? (m : FiniteMap κ α) (k : κ) : Option α := lookup k m.entries

/-- Whether a key is present. -/
def contains (m : FiniteMap κ α) (k : κ) : Bool := (m.find? k).isSome

/-- A key is absent from a list of entries exactly when it heads no entry. -/
theorem lookup_eq_none_iff {k : κ} {es : List (κ × α)} :
    lookup k es = none ↔ k ∉ es.map Prod.fst := by
  induction es with
  | nil => simp
  | cons e es ih =>
    by_cases h : k = e.1 <;> simp [lookup_cons, h, ih]

/-- With distinct keys, a key has a value exactly when the pair is an entry. -/
theorem lookup_eq_some_iff {k : κ} {v : α} {es : List (κ × α)}
    (hes : (es.map Prod.fst).Nodup) : lookup k es = some v ↔ (k, v) ∈ es := by
  induction es with
  | nil => simp
  | cons e es ih =>
    obtain ⟨k', v'⟩ := e
    rw [List.map_cons, List.nodup_cons] at hes
    by_cases h : k = k'
    · subst h
      have hk : (k, v) ∉ es := fun hm => hes.1 (List.mem_map.mpr ⟨_, hm, rfl⟩)
      simp [lookup_cons, hk, eq_comm]
    · simp [lookup_cons, h, ih hes.2]

theorem find?_eq_some_iff {m : FiniteMap κ α} {k : κ} {v : α} :
    m.find? k = some v ↔ (k, v) ∈ m.entries :=
  lookup_eq_some_iff m.nodup

theorem find?_eq_none_iff {m : FiniteMap κ α} {k : κ} : m.find? k = none ↔ k ∉ m.keys :=
  lookup_eq_none_iff

@[simp] theorem find?_empty (k : κ) : (∅ : FiniteMap κ α).find? k = none := rfl

theorem mem_keys_iff {m : FiniteMap κ α} {k : κ} : k ∈ m.keys ↔ ∃ v, m.find? k = some v := by
  rw [← Option.isSome_iff_exists, Option.isSome_iff_ne_none, ne_eq, find?_eq_none_iff,
    Decidable.not_not]

theorem mem_values_iff {m : FiniteMap κ α} {v : α} : v ∈ m.values ↔ ∃ k, m.find? k = some v := by
  simp only [values, List.mem_map, find?_eq_some_iff, Prod.exists, exists_eq_right]

@[simp] theorem contains_iff {m : FiniteMap κ α} {k : κ} : m.contains k = true ↔ k ∈ m.keys := by
  rw [contains, Option.isSome_iff_ne_none, ne_eq, find?_eq_none_iff, Decidable.not_not]

/-- Overwrite the value of a key in a list of entries, or append a new entry. -/
def put (k : κ) (v : α) : List (κ × α) → List (κ × α)
  | [] => [(k, v)]
  | (k', v') :: rest => if k = k' then (k, v) :: rest else (k', v') :: put k v rest

@[simp] theorem put_nil (k : κ) (v : α) : put k v [] = [(k, v)] := rfl

theorem put_cons (k : κ) (v : α) (e : κ × α) (es : List (κ × α)) :
    put k v (e :: es) = if k = e.1 then (k, v) :: es else e :: put k v es := rfl

theorem mem_keys_put {k k' : κ} {v : α} {es : List (κ × α)} :
    k' ∈ (put k v es).map Prod.fst ↔ k' = k ∨ k' ∈ es.map Prod.fst := by
  induction es with
  | nil => simp
  | cons e es ih =>
    by_cases h : k = e.1
    · simp only [put_cons, h, ite_true, List.map_cons, List.mem_cons]
      constructor
      · rintro (h' | h')
        · exact .inl h'
        · exact .inr (.inr h')
      · rintro (h' | h' | h')
        · exact .inl h'
        · exact .inl h'
        · exact .inr h'
    · simp only [put_cons, h, ite_false, List.map_cons, List.mem_cons, ih]
      constructor
      · rintro (h' | h' | h')
        · exact .inr (.inl h')
        · exact .inl h'
        · exact .inr (.inr h')
      · rintro (h' | h' | h')
        · exact .inr (.inl h')
        · exact .inl h'
        · exact .inr (.inr h')

theorem nodup_put {k : κ} {v : α} {es : List (κ × α)} (h : (es.map Prod.fst).Nodup) :
    ((put k v es).map Prod.fst).Nodup := by
  induction es with
  | nil => simp
  | cons e es ih =>
    rw [List.map_cons, List.nodup_cons] at h
    by_cases hk : k = e.1
    · simpa [put_cons, hk] using h
    · simp only [put_cons, hk, ite_false, List.map_cons, List.nodup_cons]
      refine ⟨fun hm => ?_, ih h.2⟩
      rcases mem_keys_put.mp hm with h' | h'
      · exact hk h'.symm
      · exact h.1 h'

theorem lookup_put {k k' : κ} {v : α} {es : List (κ × α)} :
    lookup k' (put k v es) = if k' = k then some v else lookup k' es := by
  induction es with
  | nil => simp [lookup_cons]
  | cons e es ih =>
    obtain ⟨a, b⟩ := e
    by_cases h : k = a
    · subst h
      by_cases hk : k' = k <;> simp [put_cons, lookup_cons, hk]
    · by_cases hk : k' = a
      · subst hk
        have : ¬ k' = k := fun h' => h h'.symm
        simp [put_cons, lookup_cons, h, this]
      · simp [put_cons, lookup_cons, h, hk, ih]

/-- Store a value under a key, replacing what was there. -/
def insert (m : FiniteMap κ α) (k : κ) (v : α) : FiniteMap κ α :=
  ⟨put k v m.entries, nodup_put m.nodup⟩

/-- After an insertion the key has the new value and every other key its old one. -/
theorem find?_insert (m : FiniteMap κ α) (k k' : κ) (v : α) :
    (m.insert k v).find? k' = if k' = k then some v else m.find? k' :=
  lookup_put

/-- An insertion adds one key. -/
@[simp] theorem mem_keys_insert {m : FiniteMap κ α} {k k' : κ} {v : α} :
    k' ∈ (m.insert k v).keys ↔ k' = k ∨ k' ∈ m.keys :=
  mem_keys_put

theorem put_of_not_mem {k : κ} {v : α} {es : List (κ × α)} (h : k ∉ es.map Prod.fst) :
    put k v es = es ++ [(k, v)] := by
  induction es with
  | nil => rfl
  | cons e es ih =>
    rw [List.map_cons, List.mem_cons, not_or] at h
    rw [put_cons, if_neg h.1, ih h.2, List.cons_append]

/-- A new key makes the map longer. -/
theorem size_insert_of_not_mem {m : FiniteMap κ α} {k : κ} {v : α} (h : k ∉ m.keys) :
    (m.insert k v).size = m.size + 1 := by
  change (put k v m.entries).length = m.entries.length + 1
  rw [put_of_not_mem h, List.length_append, List.length_singleton]

/-- Store a value under a key unless the key is present. -/
def insertNew (m : FiniteMap κ α) (k : κ) (v : α) : FiniteMap κ α :=
  if m.contains k then m else m.insert k v

/-- Inserting as new fills an absent key and changes nothing else. -/
theorem find?_insertNew (m : FiniteMap κ α) (k k' : κ) (v : α) :
    (m.insertNew k v).find? k' = if k' = k then some ((m.find? k).getD v) else m.find? k' := by
  unfold insertNew contains
  cases h : m.find? k with
  | some w => by_cases hk : k' = k <;> simp [hk, h]
  | none => by_cases hk : k' = k <;> simp [hk, find?_insert]

/-- Remove a key and its value. -/
def erase (m : FiniteMap κ α) (k : κ) : FiniteMap κ α where
  entries := m.entries.filter fun e => e.1 ≠ k
  nodup := m.nodup.sublist (List.filter_sublist.map _)

theorem lookup_filter_ne {k k' : κ} {es : List (κ × α)} :
    lookup k' (es.filter fun e => e.1 ≠ k) = if k' = k then none else lookup k' es := by
  induction es with
  | nil => simp
  | cons e es ih =>
    obtain ⟨a, b⟩ := e
    by_cases h : a = k
    · subst h
      by_cases hk : k' = a <;> simp_all [lookup_cons]
    · by_cases hk : k' = a
      · subst hk
        simp [lookup_cons, h]
      · simp only [lookup_cons, ne_eq, h, not_false_eq_true, decide_true, List.filter_cons_of_pos, hk,
          ite_false]
        exact ih

/-- Erasing removes exactly one key. -/
theorem find?_erase (m : FiniteMap κ α) (k k' : κ) :
    (m.erase k).find? k' = if k' = k then none else m.find? k' :=
  lookup_filter_ne

theorem lookup_map {β : Type} (f : κ → α → β) (k : κ) (es : List (κ × α)) :
    lookup k (es.map fun e => (e.1, f e.1 e.2)) = (lookup k es).map (f k) := by
  induction es with
  | nil => rfl
  | cons e es ih =>
    by_cases h : k = e.1
    · simp [lookup_cons, h]
    · simp [lookup_cons, h, ih]

/-- Mapping the values maps what is found. -/
theorem find?_mapValues {β : Type} (f : κ → α → β) (m : FiniteMap κ α) (k : κ) :
    (m.mapValues f).find? k = (m.find? k).map (f k) :=
  lookup_map f k m.entries

/-- Insert a list of pairs from left to right, so that the last value of a key counts. -/
def insertAll (m : FiniteMap κ α) (pairs : List (κ × α)) : FiniteMap κ α :=
  pairs.foldl (fun acc e => acc.insert e.1 e.2) m

/-- The map of a list of pairs, in which the last value of a key counts. -/
def ofList (pairs : List (κ × α)) : FiniteMap κ α := empty.insertAll pairs

@[simp] theorem insertAll_nil (m : FiniteMap κ α) : m.insertAll [] = m := rfl

@[simp] theorem insertAll_cons (m : FiniteMap κ α) (e : κ × α) (es : List (κ × α)) :
    m.insertAll (e :: es) = (m.insert e.1 e.2).insertAll es := rfl

end Lookup

end FiniteMap

end RuleGrounding
