import RuleGrounding.Proofs.Query.Satisfaction

/-!
# Staging atoms in a store

A commit into an empty lazy partition adds atoms that were not stored, and moving
them on into the write partition changes no more than where they lie. So what is
stored grows by the committed atoms, and the lazy partition is empty again.
-/

namespace RuleGrounding

namespace Store

/-- An atom is stored in a partition of the layout. -/
def Stores (s : Store) (k : GroundKey) : Prop := ∃ stored, s.get? k = some stored

/-- No atom lies in the lazy partition. -/
def LazyEmpty (s : Store) : Prop :=
  ∀ k stored, s.rows.find? k = some stored → stored.partition ≠ s.layout.lazy

/-- A store that stages some atoms that were not stored before. -/
structure Stages (s s' : Store) (keys : List GroundKey) : Prop where
  /-- The layout stays. -/
  layout : s'.layout = s.layout
  /-- Other atoms stay as they were. -/
  others : ∀ k, k ∉ keys → s'.rows.find? k = s.rows.find? k
  /-- The atoms lie in the lazy partition. -/
  staged : ∀ k ∈ keys, ∃ value, s'.rows.find? k = some ⟨value, s.layout.lazy⟩
  /-- They were not stored. -/
  unstored : ∀ k ∈ keys, s.rows.find? k = none
  /-- They are of standard predicates. -/
  standard : ∀ k ∈ keys, k.predicate.isStandard = true

/-- A store in which the staged atoms of some predicates have been moved on. -/
structure Unstages (s s' : Store) (predicates : List Predicate) : Prop where
  /-- The layout stays. -/
  layout : s'.layout = s.layout
  /-- Staged atoms of the predicates lie in the write partition now. -/
  rows : ∀ k, s'.rows.find? k = (s.rows.find? k).map fun stored =>
    if k.predicate ∈ predicates ∧ stored.partition = s.layout.lazy then
      { stored with partition := s.layout.write }
    else stored

variable {s s' : Store} {k : GroundKey}

theorem stores_iff : s.Stores k ↔
    ∃ stored, s.rows.find? k = some stored ∧ s.layout.contains stored.partition = true := by
  simp only [Stores, get?_eq_some_iff]

theorem lazyEmpty_of_atomsIn (h : s.atomsIn s.layout.lazy = []) : s.LazyEmpty := by
  intro k stored hk hp
  rw [atomsIn, List.map_eq_nil_iff, List.filter_eq_nil_iff] at h
  exact h (k, stored) (FiniteMap.find?_eq_some_iff.mp hk) (decide_eq_true hp)

section Commit

theorem find?_foldl_put (atoms : List (GroundKey × Float)) (p : PartitionId) (k : GroundKey) :
    (k ∉ atoms.map Prod.fst →
      (atoms.foldl (fun s a => s.put a.1 a.2 p) s).rows.find? k = s.rows.find? k) ∧
    (k ∈ atoms.map Prod.fst → ∃ value, (k, value) ∈ atoms ∧
      (atoms.foldl (fun s a => s.put a.1 a.2 p) s).rows.find? k = some ⟨value, p⟩) := by
  induction atoms generalizing s with
  | nil => exact ⟨fun _ => rfl, fun h => absurd h List.not_mem_nil⟩
  | cons a atoms ih =>
    obtain ⟨hother, hput⟩ := ih (s := s.put a.1 a.2 p)
    have hfirst : (s.put a.1 a.2 p).rows.find? k =
        if k = a.1 then some ⟨a.2, p⟩ else s.rows.find? k := FiniteMap.find?_insert ..
    rw [List.map_cons, List.mem_cons, List.foldl_cons]
    refine ⟨fun hk => ?_, fun hk => ?_⟩
    · obtain ⟨hne, hk⟩ := not_or.mp hk
      rw [hother hk, hfirst, if_neg hne]
    · by_cases hlater : k ∈ atoms.map Prod.fst
      · obtain ⟨value, hmem, hvalue⟩ := hput hlater
        exact ⟨value, List.mem_cons_of_mem a hmem, hvalue⟩
      · obtain rfl := hk.resolve_right hlater
        rw [hother hlater, hfirst, if_pos rfl]
        exact ⟨a.2, List.mem_cons_self, rfl⟩

theorem layout_foldl_put (atoms : List (GroundKey × Float)) (p : PartitionId) :
    (atoms.foldl (fun s a => s.put a.1 a.2 p) s).layout = s.layout := by
  induction atoms generalizing s with
  | nil => rfl
  | cons a atoms ih =>
    rw [List.foldl_cons, ih]
    rfl

theorem defaultValue_foldl_put (atoms : List (GroundKey × Float)) (p : PartitionId) :
    (atoms.foldl (fun s a => s.put a.1 a.2 p) s).defaultValue = s.defaultValue := by
  induction atoms generalizing s with
  | nil => rfl
  | cons a atoms ih =>
    rw [List.foldl_cons, ih]
    rfl

/-- A store into which atoms have been put. -/
structure Commits (s s' : Store) (atoms : List (GroundKey × Float)) (p : PartitionId) : Prop where
  /-- The layout stays. -/
  layout : s'.layout = s.layout
  /-- Atoms that are not stored have the same value. -/
  defaultValue : s'.defaultValue = s.defaultValue
  /-- Other atoms stay as they were. -/
  others : ∀ k, k ∉ atoms.map Prod.fst → s'.rows.find? k = s.rows.find? k
  /-- The atoms lie in the partition, each with one of its values. -/
  stored : ∀ k ∈ atoms.map Prod.fst, ∃ value, (k, value) ∈ atoms ∧
    s'.rows.find? k = some ⟨value, p⟩

/-- Storing one atom is a commit of it alone. -/
theorem insert_eq_commit (s : Store) (k : GroundKey) (value : Float) (p : PartitionId) :
    s.insert k value p = s.commit [(k, value)] p := by
  rw [insert, commit, List.findSome?_cons]
  cases s.insertFault? k value p <;> rfl

/-- A commit that is not refused puts all atoms into the store, as each of them may be stored. -/
theorem commits_of_commit {atoms : List (GroundKey × Float)} {p : PartitionId}
    (h : s.commit atoms p = .ok s') :
    (∀ a ∈ atoms, s.insertFault? a.1 a.2 p = none) ∧ s.Commits s' atoms p := by
  rw [commit] at h
  split at h
  · cases h
  · rename_i hnone
    cases h
    exact ⟨List.findSome?_eq_none_iff.mp hnone, layout_foldl_put .., defaultValue_foldl_put ..,
      fun k hk => (find?_foldl_put ..).1 hk, fun k hk => (find?_foldl_put ..).2 hk⟩

theorem writeFault?_eq_none_iff {value : Float} {p : PartitionId} :
    s.writeFault? k value p = none ↔ s.layout.contains p = true ∧
      k.predicate.isStandard = true ∧ SoftValue.inUnit value = true := by
  rw [writeFault?]
  cases s.layout.contains p <;> cases k.predicate.isStandard <;>
    cases SoftValue.inUnit value <;> simp

theorem placeFault?_eq_none_iff {p : PartitionId} : s.placeFault? k p = none ↔
    ∀ stored, s.rows.find? k = some stored → stored.partition = p := by
  rw [placeFault?]
  cases s.rows.find? k with
  | none => simp
  | some stored => simp

/-- Only an atom that lies elsewhere is refused for its place. -/
theorem placeFault?_eq_some_iff {p : PartitionId} {fault : StoreFault} :
    s.placeFault? k p = some fault ↔ ∃ stored, s.rows.find? k = some stored ∧
      stored.partition ≠ p ∧ fault = .duplicateAtom k.toText stored.partition := by
  rw [placeFault?]
  cases s.rows.find? k with
  | none => simp
  | some stored =>
    by_cases hp : stored.partition = p
    · simp [hp]
    · simp only [hp, if_false, Option.some.injEq, exists_eq_left', ne_eq, not_false_eq_true,
        true_and]
      exact eq_comm

/-- What may be stored: an atom of a standard predicate that is stored nowhere else, with a value
between zero and one, in a partition of the layout. -/
theorem insertFault?_eq_none_iff {value : Float} {p : PartitionId} :
    s.insertFault? k value p = none ↔ (s.layout.contains p = true ∧
      k.predicate.isStandard = true ∧ SoftValue.inUnit value = true) ∧
      ∀ stored, s.rows.find? k = some stored → stored.partition = p := by
  rw [← writeFault?_eq_none_iff, ← placeFault?_eq_none_iff, insertFault?]
  cases s.writeFault? k value p <;> simp

/-- An atom that may be stored is of a standard predicate, and stored nowhere else. -/
theorem standard_of_insertFault?_eq_none {value : Float} {p : PartitionId}
    (h : s.insertFault? k value p = none) : k.predicate.isStandard = true ∧
      ∀ stored, s.rows.find? k = some stored → stored.partition = p := by
  obtain ⟨⟨-, hstandard, -⟩, hplace⟩ := insertFault?_eq_none_iff.mp h
  exact ⟨hstandard, hplace⟩

/-- A commit that is refused has an atom that may not be stored. -/
theorem exists_of_commit_eq_error {atoms : List (GroundKey × Float)} {p : PartitionId}
    {fault : StoreFault} (h : s.commit atoms p = .error fault) :
    ∃ a ∈ atoms, s.insertFault? a.1 a.2 p = some fault := by
  rw [commit] at h
  split at h
  · rename_i hfault
    cases h
    exact List.exists_of_findSome?_eq_some hfault
  · cases h

/-- What is stored grows by the atoms of a commit. -/
theorem stores_iff_of_commit {atoms : List (GroundKey × Float)} {p : PartitionId}
    (h : s.commit atoms p = .ok s') : s'.Stores k ↔ s.Stores k ∨ k ∈ atoms.map Prod.fst := by
  obtain ⟨hallowed, hcommits⟩ := commits_of_commit h
  rw [stores_iff, stores_iff, hcommits.layout]
  by_cases hk : k ∈ atoms.map Prod.fst
  · obtain ⟨value, ha, hvalue⟩ := hcommits.stored k hk
    obtain ⟨⟨hp, -⟩, -⟩ := insertFault?_eq_none_iff.mp (hallowed _ ha)
    exact iff_of_true ⟨_, hvalue, hp⟩ (.inr hk)
  · rw [hcommits.others k hk, or_iff_left hk]

/-- Committing into the lazy partition stages the atoms, if that partition is empty. -/
theorem stages_of_commit {atoms : List (GroundKey × Float)} (hempty : s.LazyEmpty)
    (h : s.commit atoms s.layout.lazy = .ok s') : s.Stages s' (atoms.map Prod.fst) := by
  obtain ⟨hnone, hcommits⟩ := commits_of_commit h
  refine ⟨hcommits.layout, hcommits.others, fun k hk => ?_, fun k hk => ?_, fun k hk => ?_⟩
  · obtain ⟨value, -, hvalue⟩ := hcommits.stored k hk
    exact ⟨value, hvalue⟩
  · obtain ⟨a, ha, rfl⟩ := List.mem_map.mp hk
    cases hf : s.rows.find? a.1 with
    | none => rfl
    | some stored =>
      exact absurd ((standard_of_insertFault?_eq_none (hnone a ha)).2 stored hf)
        (hempty a.1 stored hf)
  · obtain ⟨a, ha, rfl⟩ := List.mem_map.mp hk
    exact (standard_of_insertFault?_eq_none (hnone a ha)).1

end Commit

section Move

variable {p : Predicate} {source : PartitionId} {stored : StoredAtom}

theorem moves_iff : s.moves p source k stored = true ↔
    (k.predicate = p ∧ stored.partition = source) ∧ source ≠ s.layout.write := by
  simp only [moves, Bool.and_eq_true, decide_eq_true_eq]

/-- The row of an atom after a move. -/
def relocate (s : Store) (p : Predicate) (source : PartitionId) (k : GroundKey)
    (stored : StoredAtom) : StoredAtom :=
  if s.moves p source k stored then { stored with partition := s.layout.write } else stored

theorem relocate_of_moves (h : s.moves p source k stored = true) :
    s.relocate p source k stored = ⟨stored.value, s.layout.write⟩ :=
  if_pos h

theorem relocate_of_not_moves (h : ¬ s.moves p source k stored = true) :
    s.relocate p source k stored = stored :=
  if_neg h

/-- The store after a move. -/
def relocated (s : Store) (p : Predicate) (source : PartitionId) : Store :=
  { s with rows := s.rows.mapValues (s.relocate p source) }

@[simp] theorem layout_relocated (s : Store) (p : Predicate) (source : PartitionId) :
    (s.relocated p source).layout = s.layout := rfl

theorem find?_relocated (s : Store) (p : Predicate) (source : PartitionId) (k : GroundKey) :
    (s.relocated p source).rows.find? k = (s.rows.find? k).map (s.relocate p source k) :=
  FiniteMap.find?_mapValues ..

/-- The number of atoms that a move takes. -/
def moveCount (s : Store) (p : Predicate) (source : PartitionId) : Nat :=
  (s.rows.entries.filter fun e => s.moves p source e.1 e.2).length

/-- A move out of a partition of the layout is not refused. -/
theorem moveToWrite_of_contains (h : s.layout.contains source = true) (p : Predicate) :
    s.moveToWrite p source = .ok (s.moveCount p source, s.relocated p source) := by
  rw [moveToWrite, h]
  rfl

/-- A move out of any other partition is. -/
theorem moveToWrite_of_not_contains (h : s.layout.contains source = false) (p : Predicate) :
    s.moveToWrite p source = .error (.unknownPartition source) := by
  rw [moveToWrite, h]
  rfl

/-- A move that is not refused leaves the store with the rows that it has moved. -/
theorem moveToWrite_eq_ok {n : Nat} (h : s.moveToWrite p source = .ok (n, s')) :
    s.layout.contains source = true ∧ n = s.moveCount p source ∧ s' = s.relocated p source := by
  cases hsource : s.layout.contains source with
  | true =>
    rw [moveToWrite_of_contains hsource] at h
    obtain ⟨rfl, rfl⟩ := Prod.mk.inj (Except.ok.inj h)
    exact ⟨rfl, rfl, rfl⟩
  | false =>
    rw [moveToWrite_of_not_contains hsource] at h
    cases h

end Move

section Stages

variable {keys : List GroundKey} {predicates : List Predicate}

/-- What is stored grows by the staged atoms. -/
theorem Stages.stores_iff (h : s.Stages s' keys) (k : GroundKey) :
    s'.Stores k ↔ s.Stores k ∨ k ∈ keys := by
  rw [Store.stores_iff, Store.stores_iff, h.layout]
  by_cases hk : k ∈ keys
  · obtain ⟨value, hvalue⟩ := h.staged k hk
    exact iff_of_true ⟨_, hvalue, s.layout.contains_lazy⟩ (.inr hk)
  · rw [h.others k hk]
    exact ⟨.inl, fun hs => hs.resolve_right hk⟩

/-- None of the staged atoms was stored. -/
theorem Stages.not_stores (h : s.Stages s' keys) (hk : k ∈ keys) : ¬ s.Stores k := by
  rw [Store.stores_iff, h.unstored k hk]
  rintro ⟨_, he, _⟩
  cases he

/-- The atoms in the lazy partition are the staged ones. -/
theorem Stages.lazy_iff (h : s.Stages s' keys) (hempty : s.LazyEmpty) (k : GroundKey) :
    (∃ stored, s'.get? k = some stored ∧ stored.partition = s'.layout.lazy) ↔ k ∈ keys := by
  simp only [get?_eq_some_iff, h.layout]
  constructor
  · rintro ⟨stored, ⟨hf, -⟩, hp⟩
    by_cases hk : k ∈ keys
    · exact hk
    · rw [h.others k hk] at hf
      exact absurd hp (hempty k stored hf)
  · intro hk
    obtain ⟨value, hvalue⟩ := h.staged k hk
    exact ⟨_, ⟨hvalue, s.layout.contains_lazy⟩, rfl⟩

theorem Unstages.refl (s : Store) : s.Unstages s [] :=
  ⟨rfl, fun k => by simp⟩

/-- Moving one more predicate first. -/
theorem Unstages.cons {s₁ : Store} {p : Predicate} {n : Nat}
    (hne : s.layout.lazy ≠ s.layout.write)
    (hmove : s.moveToWrite p s.layout.lazy = .ok (n, s₁)) (h : s₁.Unstages s' predicates) :
    s.Unstages s' (p :: predicates) := by
  obtain ⟨-, -, rfl⟩ := moveToWrite_eq_ok hmove
  refine ⟨h.layout, fun k => ?_⟩
  rw [h.rows, find?_relocated, Option.map_map, layout_relocated]
  refine congrArg (fun f => (s.rows.find? k).map f) (funext fun stored => ?_)
  rw [Function.comp_apply]
  by_cases hmoves : s.moves p s.layout.lazy k stored = true
  · obtain ⟨⟨rfl, hlazy⟩, -⟩ := moves_iff.mp hmoves
    rw [relocate_of_moves hmoves, if_neg fun h => hne h.2.symm,
      if_pos ⟨List.mem_cons_self, hlazy⟩]
  · rw [relocate_of_not_moves hmoves]
    by_cases hlazy : stored.partition = s.layout.lazy
    · have hother : k.predicate ≠ p := fun hp => hmoves (moves_iff.mpr ⟨⟨hp, hlazy⟩, hne⟩)
      simp only [List.mem_cons, hother, false_or]
    · simp only [hlazy, and_false]

/-- Moving staged atoms on changes nothing about what is stored. -/
theorem Unstages.stores_iff (h : s.Unstages s' predicates) (k : GroundKey) :
    s'.Stores k ↔ s.Stores k := by
  rw [Store.stores_iff, Store.stores_iff, h.layout, h.rows]
  cases s.rows.find? k with
  | none => simp
  | some stored =>
    simp only [Option.map_some, Option.some.injEq, exists_eq_left']
    split
    · rename_i hc
      rw [hc.2]
      exact iff_of_true s.layout.contains_write s.layout.contains_lazy
    · rfl

/-- If all staged atoms are of the predicates, the lazy partition is empty afterwards. -/
theorem Unstages.lazyEmpty (h : s.Unstages s' predicates)
    (hne : s.layout.lazy ≠ s.layout.write)
    (hall : ∀ k stored, s.rows.find? k = some stored → stored.partition = s.layout.lazy →
      k.predicate ∈ predicates) : s'.LazyEmpty := by
  intro k stored hk
  rw [h.rows, Option.map_eq_some_iff] at hk
  obtain ⟨before, hbefore, rfl⟩ := hk
  rw [h.layout]
  split
  · exact fun he => hne he.symm
  · rename_i hc
    exact fun he => hc ⟨hall k before hbefore he, he⟩

end Stages

end Store

end RuleGrounding
