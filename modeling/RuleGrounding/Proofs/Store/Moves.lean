import RuleGrounding.Proofs.Store.Contents

/-!
# Moving stored atoms

A move out of a partition takes the atoms of one predicate with their values into the write
partition, and touches no other atom. Two moves do not get into each other's way: neither takes
an atom that the other one has moved, so that their order does not matter, and the same move
again finds nothing to do.
-/

namespace RuleGrounding

namespace Store

variable {s : Store} {p q : Predicate} {source source' : PartitionId} {k : GroundKey}
  {stored : StoredAtom}

/-- The partition in which an atom is stored. -/
def partition? (s : Store) (k : GroundKey) : Option PartitionId :=
  (s.rows.find? k).map StoredAtom.partition

/-- What a move leaves behind: the atoms of the predicate that lay in the source lie in the write
partition, and the others where they lay. The count is that of the atoms whose partition changed. -/
structure Relocates (s : Store) (p : Predicate) (source : PartitionId) (n : Nat) (t : Store) :
    Prop where
  /-- The layout stays. -/
  layout : t.layout = s.layout
  /-- Atoms that are not stored have the same value. -/
  defaultValue : t.defaultValue = s.defaultValue
  /-- The same atoms are stored. -/
  keys : t.rows.keys = s.rows.keys
  /-- Atoms of the predicate that lay in the source are moved with their values. -/
  moved : ∀ k value, k.predicate = p → s.rows.find? k = some ⟨value, source⟩ →
    t.rows.find? k = some ⟨value, s.layout.write⟩
  /-- Other atoms stay as they were. -/
  others : ∀ k, (∀ value, k.predicate = p → s.rows.find? k ≠ some ⟨value, source⟩) →
    t.rows.find? k = s.rows.find? k
  /-- The count is the number of atoms that lie elsewhere than before. -/
  count : n = (s.rows.keys.filter fun k => decide (t.partition? k ≠ s.partition? k)).length

theorem write_move (s : Store) (p : Predicate) (source : PartitionId) :
    s.write (.move p source) =
      if s.layout.contains source then s.relocated p source else s := by
  rw [write]
  cases h : s.layout.contains source with
  | true => rw [moveToWrite_of_contains h, if_pos rfl]
  | false => rw [moveToWrite_of_not_contains h, if_neg Bool.false_ne_true]

section OneMove

/-- Nothing is moved out of the write partition. -/
theorem not_moves_write (hwrite : source = s.layout.write) : ¬ s.moves p source k stored = true :=
  fun h => (moves_iff.mp h).2 hwrite

/-- An atom of the predicate in the source ends in the write partition, also if that is the source
and so nothing is moved. -/
theorem relocate_eq (hp : k.predicate = p) (hsource : stored.partition = source) :
    s.relocate p source k stored = ⟨stored.value, s.layout.write⟩ := by
  by_cases hwrite : source = s.layout.write
  · rw [relocate_of_not_moves (not_moves_write hwrite), ← hwrite, ← hsource]
  · exact relocate_of_moves (moves_iff.mpr ⟨⟨hp, hsource⟩, hwrite⟩)

/-- A move changes the partition of what it takes, and of nothing else. -/
theorem partition_relocate_ne_iff :
    (s.relocate p source k stored).partition ≠ stored.partition ↔
      s.moves p source k stored = true := by
  constructor
  · intro hne
    by_contra hstays
    exact hne (congrArg StoredAtom.partition (relocate_of_not_moves hstays))
  · intro hmoves
    obtain ⟨⟨-, hsource⟩, hwrite⟩ := moves_iff.mp hmoves
    rw [relocate_of_moves hmoves, hsource]
    exact hwrite.symm

/-- As many atoms lie elsewhere after a move as it has taken. -/
theorem moveCount_eq (s : Store) (p : Predicate) (source : PartitionId) :
    s.moveCount p source = (s.rows.keys.filter fun k =>
      decide ((s.relocated p source).partition? k ≠ s.partition? k)).length := by
  rw [moveCount, FiniteMap.keys, List.filter_map, List.length_map]
  refine congrArg List.length (List.filter_congr fun e he => ?_)
  have hrow : s.rows.find? e.1 = some e.2 := FiniteMap.find?_eq_some_iff.mpr he
  rw [Function.comp_apply, partition?, partition?, find?_relocated, hrow, Option.map_some,
    Option.map_some, Option.map_some, Bool.eq_iff_iff, decide_eq_true_eq, ne_eq,
    Option.some.injEq]
  exact partition_relocate_ne_iff.symm

theorem relocates_relocated (s : Store) (p : Predicate) (source : PartitionId) :
    s.Relocates p source (s.moveCount p source) (s.relocated p source) where
  layout := rfl
  defaultValue := rfl
  keys := FiniteMap.keys_mapValues ..
  moved k value hp hrow := by
    rw [find?_relocated, hrow, Option.map_some]
    exact congrArg some (relocate_eq hp rfl)
  others k hother := by
    rw [find?_relocated]
    cases hrow : s.rows.find? k with
    | none => rfl
    | some stored =>
      have hstays : ¬ s.moves p source k stored = true := by
        intro hmoves
        obtain ⟨⟨hp, rfl⟩, -⟩ := moves_iff.mp hmoves
        exact hother stored.value hp hrow
      rw [Option.map_some, relocate_of_not_moves hstays]
  count := s.moveCount_eq p source

theorem relocated_write (hwrite : source = s.layout.write) : s.relocated p source = s := by
  rw [relocated, FiniteMap.mapValues_eq_self fun k stored =>
    relocate_of_not_moves (not_moves_write hwrite)]

theorem moveCount_write (hwrite : source = s.layout.write) : s.moveCount p source = 0 := by
  rw [moveCount, List.length_eq_zero_iff, List.filter_eq_nil_iff]
  exact fun e _ => not_moves_write hwrite

end OneMove

section TwoMoves

/-- A move leaves nothing behind that the same move would take. -/
theorem not_moves_relocate :
    ¬ s.moves p source k (s.relocate p source k stored) = true := by
  intro hagain
  by_cases hmoves : s.moves p source k stored = true
  · rw [relocate_of_moves hmoves] at hagain
    -- What has been moved lies in the write partition, out of which nothing is moved.
    obtain ⟨⟨-, hpartition⟩, hwrite⟩ := moves_iff.mp hagain
    exact hwrite hpartition.symm
  · rw [relocate_of_not_moves hmoves] at hagain
    exact hmoves hagain

/-- What a move takes, another one neither takes nor brings. -/
theorem moves_relocate (hother : (q, source') ≠ (p, source)) :
    s.moves p source k (s.relocate q source' k stored) = s.moves p source k stored := by
  by_cases hmoves : s.moves q source' k stored = true
  · obtain ⟨⟨rfl, rfl⟩, hwrite⟩ := moves_iff.mp hmoves
    rw [relocate_of_moves hmoves, Bool.eq_iff_iff, moves_iff, moves_iff]
    constructor
    · rintro ⟨⟨-, hpartition⟩, hne⟩
      exact absurd hpartition.symm hne
    · rintro ⟨⟨rfl, rfl⟩, -⟩
      exact absurd rfl hother
  · rw [relocate_of_not_moves hmoves]

theorem relocate_relocate :
    s.relocate p source k (s.relocate p source k stored) = s.relocate p source k stored :=
  relocate_of_not_moves not_moves_relocate

/-- Whichever of two moves comes first, an atom ends in the same row: at most one of them takes
it, or both are the same. -/
theorem relocate_comm (s : Store) (p q : Predicate) (source source' : PartitionId) (k : GroundKey)
    (stored : StoredAtom) :
    s.relocate p source k (s.relocate q source' k stored) =
      s.relocate q source' k (s.relocate p source k stored) := by
  by_cases hsame : (q, source') = (p, source)
  · obtain ⟨rfl, rfl⟩ := Prod.mk.inj hsame
    rfl
  · have hfirst : s.moves p source k (s.relocate q source' k stored) =
        s.moves p source k stored := moves_relocate hsame
    have hsecond : s.moves q source' k (s.relocate p source k stored) =
        s.moves q source' k stored := moves_relocate (Ne.symm hsame)
    by_cases hp : s.moves p source k stored = true
    · -- Both would take the atom only if they were out of the same partition.
      have hq : ¬ s.moves q source' k stored = true := by
        intro hq
        obtain ⟨⟨rfl, rfl⟩, -⟩ := moves_iff.mp hp
        obtain ⟨⟨rfl, rfl⟩, -⟩ := moves_iff.mp hq
        exact hsame rfl
      rw [relocate_of_not_moves hq]
      rw [← hsecond] at hq
      exact (relocate_of_not_moves hq).symm
    · rw [relocate_of_not_moves hp]
      rw [← hfirst] at hp
      exact relocate_of_not_moves hp

theorem relocated_comm (s : Store) (p q : Predicate) (source source' : PartitionId) :
    (s.relocated q source').relocated p source = (s.relocated p source).relocated q source' := by
  have hrows : (s.rows.mapValues (s.relocate q source')).mapValues (s.relocate p source) =
      (s.rows.mapValues (s.relocate p source)).mapValues (s.relocate q source') := by
    rw [FiniteMap.mapValues_mapValues, FiniteMap.mapValues_mapValues]
    exact congrArg s.rows.mapValues
      (funext fun k => funext fun stored => s.relocate_comm p q source source' k stored)
  exact congrArg (fun rows => { s with rows }) hrows

/-- After a move, another one takes as many atoms as before. -/
theorem moveCount_relocated (hother : (q, source') ≠ (p, source)) :
    (s.relocated q source').moveCount p source = s.moveCount p source := by
  change ((s.rows.entries.map fun e => (e.1, s.relocate q source' e.1 e.2)).filter fun e =>
    s.moves p source e.1 e.2).length = _
  rw [moveCount, List.filter_map, List.length_map]
  refine congrArg List.length (List.filter_congr fun e _ => ?_)
  exact moves_relocate hother

/-- The same move again takes nothing and changes nothing. -/
theorem moveToWrite_relocated (h : s.layout.contains source = true) (p : Predicate) :
    (s.relocated p source).moveToWrite p source = .ok (0, s.relocated p source) := by
  have hcount : (s.relocated p source).moveCount p source = 0 := by
    rw [moveCount, List.length_eq_zero_iff, List.filter_eq_nil_iff]
    intro e he
    obtain ⟨e', -, rfl⟩ := List.mem_map.mp he
    exact not_moves_relocate
  have hrows : (s.rows.mapValues (s.relocate p source)).mapValues (s.relocate p source) =
      s.rows.mapValues (s.relocate p source) := by
    rw [FiniteMap.mapValues_mapValues]
    exact congrArg s.rows.mapValues (funext fun k => funext fun stored => relocate_relocate)
  have hstore : (s.relocated p source).relocated p source = s.relocated p source :=
    congrArg (fun rows => { s with rows }) hrows
  have hcontains : (s.relocated p source).layout.contains source = true := h
  rw [moveToWrite_of_contains hcontains, hcount, hstore]

end TwoMoves

/-- Moves come to the same in both orders, also if they are refused. -/
theorem write_move_comm (s : Store) (p q : Predicate) (source source' : PartitionId) :
    (s.write (.move p source)).write (.move q source') =
      (s.write (.move q source')).write (.move p source) := by
  rw [write_move (s.write _), write_move (s.write _), layout_write, layout_write, write_move,
    write_move]
  by_cases hfirst : s.layout.contains source = true
  · by_cases hsecond : s.layout.contains source' = true
    · simp only [if_pos hfirst, if_pos hsecond]
      exact s.relocated_comm q p source' source
    · simp only [if_pos hfirst, if_neg hsecond]
  · simp only [if_neg hfirst]

/-- So do several moves in any order. -/
theorem writeAll_moves_perm {moves moves' : List (Predicate × PartitionId)}
    (h : moves.Perm moves') (s : Store) :
    s.writeAll (moves.map fun m => .move m.1 m.2) =
      s.writeAll (moves'.map fun m => .move m.1 m.2) := by
  rw [writeAll, writeAll, List.foldl_map, List.foldl_map]
  exact h.foldl_eq' (fun m _ m' _ t => t.write_move_comm m.1 m'.1 m.2 m'.2) s

/-- A move out of a partition of the layout takes exactly the atoms of the predicate that are stored
there into the write partition, with their values, and leaves all other atoms with their values
where they are. It counts the atoms that lie elsewhere afterwards, none if it moves out of the
write partition. The same move again counts nothing and changes nothing, and another one counts as
many atoms and leaves the same store whether it comes before or after. So several moves leave the
same store in any order. A move out of any other partition is refused, and the store stays. -/
theorem moves_are_exact_and_commute (s : Store) (p : Predicate) (source : PartitionId) :
    (s.layout.contains source = true → ∃ n t, s.moveToWrite p source = .ok (n, t) ∧
      s.Relocates p source n t ∧ (source = s.layout.write → n = 0 ∧ t = s) ∧
      t.moveToWrite p source = .ok (0, t) ∧
      ∀ q source', s.layout.contains source' = true → (q, source') ≠ (p, source) →
        ∃ n' t' u, s.moveToWrite q source' = .ok (n', t') ∧
          t.moveToWrite q source' = .ok (n', u) ∧ t'.moveToWrite p source = .ok (n, u)) ∧
    (∀ moves moves' : List (Predicate × PartitionId), moves.Perm moves' →
      s.writeAll (moves.map fun m => .move m.1 m.2) =
        s.writeAll (moves'.map fun m => .move m.1 m.2)) ∧
    (s.layout.contains source = false →
      s.moveToWrite p source = .error (.unknownPartition source) ∧
        s.write (.move p source) = s) := by
  refine ⟨?_, ?_, ?_⟩
  · intro hsource
    refine ⟨_, _, moveToWrite_of_contains hsource p, s.relocates_relocated p source, ?_,
      moveToWrite_relocated hsource p, ?_⟩
    · intro hwrite
      exact ⟨moveCount_write hwrite, relocated_write hwrite⟩
    · intro q source' hsource' hother
      have hafter : (s.relocated p source).layout.contains source' = true := hsource'
      have hbefore : (s.relocated q source').layout.contains source = true := hsource
      refine ⟨_, _, (s.relocated q source').relocated p source,
        moveToWrite_of_contains hsource' q, ?_, ?_⟩
      · rw [moveToWrite_of_contains hafter, moveCount_relocated hother.symm, relocated_comm]
      · rw [moveToWrite_of_contains hbefore, moveCount_relocated hother]
  · intro moves moves' hperm
    exact writeAll_moves_perm hperm s
  · intro hsource
    refine ⟨moveToWrite_of_not_contains hsource p, ?_⟩
    rw [write_move, hsource, if_neg Bool.false_ne_true]

/-- A store with an atom of evidence and a staged one. -/
def stagedStore : Store := (empty sampleLayout 0.0).writeAll (sampleWrites.take 4)

/-- Moving staged atoms on takes the staged one and not the evidence, and only once. -/
theorem stagedStore_is_moved_once :
    stagedStore.layout.contains ⟨2⟩ = true ∧
      ∃ t, stagedStore.moveToWrite Query.sampleRelation ⟨2⟩ = .ok (1, t) ∧
        t.rows.find? (sampleKey 2 3) = some ⟨0.25, ⟨1⟩⟩ ∧
        t.rows.find? (sampleKey 1 2) = stagedStore.rows.find? (sampleKey 1 2) ∧
        t.moveToWrite Query.sampleRelation ⟨2⟩ = .ok (0, t) := by
  have hsource : stagedStore.layout.contains ⟨2⟩ = true := rfl
  have hstaged : stagedStore.rows.find? (sampleKey 2 3) = some ⟨0.25, ⟨2⟩⟩ := rfl
  have hevidence : stagedStore.rows.find? (sampleKey 1 2) = some ⟨0.5, ⟨0⟩⟩ := rfl
  obtain ⟨hmove, -, -⟩ := moves_are_exact_and_commute stagedStore Query.sampleRelation ⟨2⟩
  obtain ⟨n, t, hok, hrelocates, -, hagain, -⟩ := hmove hsource
  have hone : stagedStore.moveCount Query.sampleRelation ⟨2⟩ = 1 := by decide +kernel
  have hcount : n = 1 := by
    rw [moveToWrite_of_contains hsource] at hok
    exact (Prod.mk.inj (Except.ok.inj hok)).1.symm.trans hone
  subst hcount
  refine ⟨hsource, t, hok, hrelocates.moved _ _ rfl hstaged, hrelocates.others _ ?_, hagain⟩
  intro value _ he
  rw [hevidence, Option.some.injEq, StoredAtom.mk.injEq, PartitionId.mk.injEq] at he
  exact absurd he.2 (by decide)

end Store

end RuleGrounding
