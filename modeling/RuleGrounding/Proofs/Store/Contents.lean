import Mathlib.Algebra.GroupWithZero.Nat
import Mathlib.Data.List.Nodup
import RuleGrounding.Proofs.Query.Faults
import RuleGrounding.Proofs.Query.Unions
import RuleGrounding.Proofs.Store.Staging
import RuleGrounding.Proofs.Typing

/-!
# What a store contains

However a store is written to, each of its rows is one that its readers can show: an atom of
a standard predicate with a value between zero and one in a partition of the layout. So no
reader leaves a row out, and the partitions of the layout share the rows out among them.
-/

namespace RuleGrounding

namespace Store

/-- What may be written to a store. -/
inductive Write where
  /-- Store an atom. -/
  | insert (k : GroundKey) (value : Float) (p : PartitionId)
  /-- Store several atoms in one partition. -/
  | commit (atoms : List (GroundKey × Float)) (p : PartitionId)
  /-- Move the stored atoms of a predicate into the write partition. -/
  | move (predicate : Predicate) (source : PartitionId)

/-- The store after a write; one that is refused leaves it as it was. -/
def write (s : Store) : Write → Store
  | .insert k value p =>
    match s.insert k value p with
    | .ok t => t
    | .error _ => s
  | .commit atoms p =>
    match s.commit atoms p with
    | .ok t => t
    | .error _ => s
  | .move predicate source =>
    match s.moveToWrite predicate source with
    | .ok (_, t) => t
    | .error _ => s

/-- The store after several writes. -/
def writeAll (s : Store) (writes : List Write) : Store := writes.foldl write s

/-- Every row of the store is one that may be written. -/
structure Sound (s : Store) : Prop where
  /-- Only atoms of standard predicates are stored. -/
  standard : ∀ k stored, s.rows.find? k = some stored → k.predicate.isStandard = true
  /-- Their values lie between zero and one. -/
  inUnit : ∀ k stored, s.rows.find? k = some stored → SoftValue.inUnit stored.value = true
  /-- Their partitions are in the layout. -/
  placed : ∀ k stored, s.rows.find? k = some stored →
    s.layout.contains stored.partition = true

variable {s t : Store}

section Writing

theorem sound_empty (layout : PartitionLayout) (default : Float) : (empty layout default).Sound :=
  ⟨fun _ _ h => (by cases h), fun _ _ h => (by cases h), fun _ _ h => (by cases h)⟩

/-- A commit adds rows that may be written, and keeps the others. -/
theorem Sound.commit (hs : s.Sound) {atoms : List (GroundKey × Float)} {p : PartitionId}
    (h : s.commit atoms p = .ok t) : t.Sound := by
  obtain ⟨hallowed, hcommits⟩ := commits_of_commit h
  have hrow : ∀ k stored, t.rows.find? k = some stored →
      s.rows.find? k = some stored ∨ stored.partition = p ∧ s.layout.contains p = true ∧
        k.predicate.isStandard = true ∧ SoftValue.inUnit stored.value = true := by
    intro k stored hk
    by_cases hmem : k ∈ atoms.map Prod.fst
    · obtain ⟨value, ha, hvalue⟩ := hcommits.stored k hmem
      rw [hvalue] at hk
      cases hk
      exact .inr ⟨rfl, (insertFault?_eq_none_iff.mp (hallowed _ ha)).1⟩
    · exact .inl (hcommits.others k hmem ▸ hk)
  refine ⟨fun k stored hk => ?_, fun k stored hk => ?_, fun k stored hk => ?_⟩
  · exact (hrow k stored hk).elim (hs.standard k stored) fun hnew => hnew.2.2.1
  · exact (hrow k stored hk).elim (hs.inUnit k stored) fun hnew => hnew.2.2.2
  · rw [hcommits.layout]
    rcases hrow k stored hk with hold | ⟨rfl, hp, -⟩
    · exact hs.placed k stored hold
    · exact hp

/-- Moving atoms leaves the layout and every row with its value, in its partition or in the write
partition. -/
theorem find?_of_moveToWrite {predicate : Predicate} {source : PartitionId} {n : Nat}
    (h : s.moveToWrite predicate source = .ok (n, t)) : t.layout = s.layout ∧
      ∀ k, t.rows.find? k = (s.rows.find? k).map fun stored =>
        if s.moves predicate source k stored then { stored with partition := s.layout.write }
        else stored := by
  obtain ⟨-, -, rfl⟩ := moveToWrite_eq_ok h
  exact ⟨rfl, find?_relocated s predicate source⟩

theorem Sound.moveToWrite (hs : s.Sound) {predicate : Predicate} {source : PartitionId} {n : Nat}
    (h : s.moveToWrite predicate source = .ok (n, t)) : t.Sound := by
  obtain ⟨hlayout, hrows⟩ := find?_of_moveToWrite h
  have hrow : ∀ k stored, t.rows.find? k = some stored → ∃ before,
      s.rows.find? k = some before ∧ stored.value = before.value ∧
        (stored.partition = before.partition ∨ stored.partition = s.layout.write) := by
    intro k stored hk
    rw [hrows, Option.map_eq_some_iff] at hk
    obtain ⟨before, hbefore, rfl⟩ := hk
    refine ⟨before, hbefore, ?_⟩
    split
    · exact ⟨rfl, .inr rfl⟩
    · exact ⟨rfl, .inl rfl⟩
  refine ⟨fun k stored hk => ?_, fun k stored hk => ?_, fun k stored hk => ?_⟩ <;>
    obtain ⟨before, hbefore, hvalue, hpartition⟩ := hrow k stored hk
  · exact hs.standard k before hbefore
  · exact hvalue ▸ hs.inUnit k before hbefore
  · rw [hlayout]
    rcases hpartition with hpartition | hpartition <;> rw [hpartition]
    · exact hs.placed k before hbefore
    · exact s.layout.contains_write

/-- What a write leaves behind is the store itself, or the store after a commit or a move. -/
theorem write_cases (s : Store) (w : Write) :
    s.write w = s ∨ (∃ atoms p, s.commit atoms p = .ok (s.write w)) ∨
      ∃ predicate source n, s.moveToWrite predicate source = .ok (n, s.write w) := by
  cases w with
  | insert k value p =>
    rw [write, insert_eq_commit]
    cases h : s.commit [(k, value)] p with
    | error fault => exact .inl rfl
    | ok t => exact .inr (.inl ⟨_, _, h⟩)
  | commit atoms p =>
    rw [write]
    cases h : s.commit atoms p with
    | error fault => exact .inl rfl
    | ok t => exact .inr (.inl ⟨_, _, h⟩)
  | move predicate source =>
    rw [write]
    cases h : s.moveToWrite predicate source with
    | error fault => exact .inl rfl
    | ok r => exact .inr (.inr ⟨_, _, _, h⟩)

theorem layout_write (s : Store) (w : Write) : (s.write w).layout = s.layout := by
  rcases s.write_cases w with h | ⟨atoms, p, h⟩ | ⟨predicate, source, n, h⟩
  · rw [h]
  · exact (commits_of_commit h).2.layout
  · exact (find?_of_moveToWrite h).1

/-- Writing keeps every row one that may be written. -/
theorem Sound.write (hs : s.Sound) (w : Write) : (s.write w).Sound := by
  rcases s.write_cases w with h | ⟨atoms, p, h⟩ | ⟨predicate, source, n, h⟩
  · rwa [h]
  · exact hs.commit h
  · exact hs.moveToWrite h

theorem layout_writeAll (s : Store) (writes : List Write) :
    (s.writeAll writes).layout = s.layout := by
  induction writes generalizing s with
  | nil => rfl
  | cons w writes ih => exact (ih (s.write w)).trans (s.layout_write w)

theorem defaultValue_write (s : Store) (w : Write) :
    (s.write w).defaultValue = s.defaultValue := by
  rcases s.write_cases w with h | ⟨atoms, p, h⟩ | ⟨predicate, source, n, h⟩
  · rw [h]
  · exact (commits_of_commit h).2.defaultValue
  · rw [(moveToWrite_eq_ok h).2.2]
    rfl

theorem defaultValue_writeAll (s : Store) (writes : List Write) :
    (s.writeAll writes).defaultValue = s.defaultValue := by
  induction writes generalizing s with
  | nil => rfl
  | cons w writes ih => exact (ih (s.write w)).trans (s.defaultValue_write w)

theorem Sound.writeAll (hs : s.Sound) (writes : List Write) : (s.writeAll writes).Sound := by
  induction writes generalizing s with
  | nil => exact hs
  | cons w writes ih => exact ih (hs.write w)

end Writing

section Reading

/-- A sound store shows every row. -/
theorem Sound.get?_eq (hs : s.Sound) (k : GroundKey) : s.get? k = s.rows.find? k := by
  rw [get?]
  cases hk : s.rows.find? k with
  | none => rfl
  | some stored => rw [Option.filter_some, if_pos (hs.placed k stored hk)]

/-- Moving atoms on changes nothing about what is stored. -/
theorem Sound.stores_iff_of_moveToWrite (hs : s.Sound) {predicate : Predicate}
    {source : PartitionId} {n : Nat} {k : GroundKey}
    (h : s.moveToWrite predicate source = .ok (n, t)) : t.Stores k ↔ s.Stores k := by
  rw [Stores, Stores, (hs.moveToWrite h).get?_eq, hs.get?_eq, (find?_of_moveToWrite h).2]
  cases s.rows.find? k <;> simp

theorem mem_atomsIn {p : PartitionId} {k : GroundKey} {value : Float} :
    (k, value) ∈ s.atomsIn p ↔ s.rows.find? k = some ⟨value, p⟩ := by
  rw [atomsIn, List.mem_map, FiniteMap.find?_eq_some_iff]
  constructor
  · rintro ⟨⟨k, stored⟩, he, heq⟩
    obtain ⟨he, hp⟩ := List.mem_filter.mp he
    cases heq
    exact (of_decide_eq_true hp : stored.partition = p) ▸ he
  · exact fun he => ⟨_, List.mem_filter.mpr ⟨he, decide_eq_true rfl⟩, rfl⟩

theorem nodup_keys_atomsIn (s : Store) (p : PartitionId) :
    ((s.atomsIn p).map Prod.fst).Nodup := by
  rw [atomsIn, List.map_map]
  exact s.rows.nodup.sublist (List.filter_sublist.map _)

/-- Different partitions have no atom in common. -/
theorem nodup_keys_flatMap_atomsIn (s : Store) {partitions : List PartitionId}
    (h : partitions.Nodup) : ((partitions.flatMap s.atomsIn).map Prod.fst).Nodup := by
  rw [List.map_flatMap, List.nodup_flatMap]
  refine ⟨fun p _ => s.nodup_keys_atomsIn p, h.imp fun {p q} hne k hp hq => hne ?_⟩
  obtain ⟨⟨k, value⟩, hfirst, rfl⟩ := List.mem_map.mp hp
  obtain ⟨⟨_, value'⟩, hsecond, rfl⟩ := List.mem_map.mp hq
  rw [mem_atomsIn] at hfirst hsecond
  rw [hfirst] at hsecond
  exact congrArg StoredAtom.partition (Option.some.inj hsecond)

/-- The partitions of the layout have all rows among them. -/
theorem Sound.atomsIn_perm (hs : s.Sound) (hroles : s.layout.visible.Nodup) :
    (s.layout.visible.flatMap s.atomsIn).Perm (s.rows.entries.map fun e => (e.1, e.2.value)) := by
  have hrows : (s.rows.entries.map fun e => (e.1, e.2.value)).Nodup := by
    refine List.Nodup.of_map Prod.fst ?_
    rw [List.map_map]
    exact s.rows.nodup
  rw [List.perm_ext_iff_of_nodup (s.nodup_keys_flatMap_atomsIn hroles).of_map hrows]
  rintro ⟨k, value⟩
  rw [List.mem_flatMap, List.mem_map]
  constructor
  · rintro ⟨p, -, hk⟩
    exact ⟨(k, ⟨value, p⟩), FiniteMap.find?_eq_some_iff.mp (mem_atomsIn.mp hk), rfl⟩
  · rintro ⟨⟨k, stored⟩, he, heq⟩
    cases heq
    have hk := FiniteMap.find?_eq_some_iff.mpr he
    exact ⟨stored.partition, PartitionLayout.contains_iff.mp (hs.placed k stored hk),
      mem_atomsIn.mpr hk⟩

/-- Their sizes add up to the number of rows. -/
theorem Sound.sum_length_atomsIn (hs : s.Sound) (hroles : s.layout.visible.Nodup) :
    (s.layout.visible.map fun p => (s.atomsIn p).length).sum = s.size := by
  rw [← List.length_flatMap, (hs.atomsIn_perm hroles).length_eq, List.length_map]
  rfl

end Reading

end Store

/-- Distinct variables can be given any constants. -/
theorem Valuation.exists_map_eq {vs : List Variable} (hvs : vs.Nodup) {args : List Constant}
    (hlen : vs.length = args.length) : ∃ σ : Valuation, vs.map σ = args := by
  refine ⟨fun v => args.getD (vs.idxOf v) (.integer 0), List.ext_getElem ?_ fun i hi hi' => ?_⟩
  · rw [List.length_map, hlen]
  · rw [List.getElem_map, hvs.idxOf_getElem, List.getD_eq_getElem?_getD,
      List.getElem?_eq_getElem hi', Option.getD_some]

namespace Query

variable {s : Store} {p : Predicate} {vs : List Variable}

/-- The answers to the query for all atoms of a predicate are the arguments of those that are
stored. -/
theorem evaluate_all (hs : s.Sound) (hp : p.isStandard = true) (hvs : vs.Nodup)
    (harity : vs.length = p.arity) :
    ∃ r, (ofLiterals [.positive ⟨p, vs.map .var⟩]).evaluate s = .ok r ∧ r.vars = vs ∧
      r.rows.Nodup ∧ ∀ row, row ∈ r.rows ↔
        ∃ k stored, k.predicate = p ∧ k.args = row ∧ s.rows.find? k = some stored := by
  set q := ofLiterals [.positive ⟨p, vs.map .var⟩] with hq
  have hnone : q.fault? = none := fault?_ofLiterals_singleton hp
  have hprojection : q.projection = vs := by
    have hvars : Atom.vars ⟨p, vs.map .var⟩ = vs := by
      rw [Atom.vars, List.filterMap_map]
      exact (congrArg distinct List.filterMap_some).trans (distinct_eq_self hvs)
    change distinct (Atom.vars ⟨p, vs.map .var⟩ ++ []) = vs
    rw [hvars, List.append_nil, distinct_eq_self hvs]
  have harities : q.HasArities := by
    intro l hl
    rw [List.mem_singleton.mp hl]
    exact (List.length_map ..).trans harity
  have hargs : ∀ σ : Valuation, Atom.instanceArgs ⟨p, vs.map .var⟩ σ = vs.map σ :=
    fun σ => List.map_map
  refine ⟨q.answers s, evaluate_eq_ok_iff.mpr ⟨hnone, rfl⟩, ?_, nodup_answers q s, fun row => ?_⟩
  · rw [vars_answers, hprojection]
  · rw [mem_rows_answers_iff harities hnone, hprojection]
    have hsat : ∀ σ, q.SatisfiedBy s σ ↔ ∃ stored, s.Holds p (vs.map σ) stored := by
      intro σ
      have hgenerates : (Literal.positive ⟨p, vs.map .var⟩).generates = true := hp
      have hholds := holdsIn_of_generates hgenerates (s := s) (σ := σ)
      rw [satisfiedBy_iff_of_no_target rfl, ← hargs]
      constructor
      · exact fun h => hholds.mp (h.2 _ (List.mem_singleton_self _))
      · exact fun h => ⟨σ.extends_empty, fun l hl => List.mem_singleton.mp hl ▸ hholds.mpr h⟩
    simp only [hsat, Store.Holds, hs.get?_eq]
    constructor
    · rintro ⟨σ, ⟨stored, k, hk, hargs, hstored⟩, rfl⟩
      exact ⟨k, stored, hk, hargs, hstored⟩
    · rintro ⟨k, stored, hk, rfl, hstored⟩
      obtain ⟨σ, hσ⟩ := Valuation.exists_map_eq hvs (harity.trans (hk ▸ k.length_args.symm))
      exact ⟨σ, ⟨stored, k, hk, hσ.symm, hstored⟩, hσ.symm⟩

end Query

namespace Store

variable {s : Store}

/-- Whatever is written to an empty store over a well-formed layout, and whatever of it is refused:
every row is an atom of a standard predicate, with as many constants as declared and of the declared
types, a value between zero and one, and a partition of the layout. Looking it up shows it, and so
does the query for all atoms of its predicate. The partitions of the layout split the rows: each has
those that lie in it, with their values, no atom is listed twice, and the lengths of the lists add
up to the size of the store. -/
theorem rows_are_shown_and_split {read : List PartitionId} {write lazy : PartitionId}
    {layout : PartitionLayout} (hlayout : PartitionLayout.make read write lazy = .ok layout)
    {default : Float} {writes : List Write} (hs : s = (empty layout default).writeAll writes) :
    (∀ k stored, s.rows.find? k = some stored →
      k.predicate.isStandard = true ∧ k.predicate.Accepts k.args ∧
        SoftValue.inUnit stored.value = true ∧ stored.partition ∈ layout.visible) ∧
    (∀ k, s.get? k = s.rows.find? k) ∧
    (∀ p vs, p.isStandard = true → vs.Nodup → vs.length = p.arity →
      ∃ r, (Query.ofLiterals [.positive ⟨p, vs.map .var⟩]).evaluate s = .ok r ∧ r.vars = vs ∧
        r.rows.Nodup ∧ ∀ row, row ∈ r.rows ↔
          ∃ k stored, k.predicate = p ∧ k.args = row ∧ s.rows.find? k = some stored) ∧
    (∀ p k value, (k, value) ∈ s.atomsIn p ↔ s.rows.find? k = some ⟨value, p⟩) ∧
    ((layout.visible.flatMap s.atomsIn).map Prod.fst).Nodup ∧
    (layout.visible.flatMap s.atomsIn).Perm (s.rows.entries.map fun e => (e.1, e.2.value)) ∧
    (layout.visible.map fun p => (s.atomsIn p).length).sum = s.size := by
  have hsound : s.Sound := hs ▸ (sound_empty layout default).writeAll writes
  have hsame : s.layout = layout := hs ▸ layout_writeAll (empty layout default) writes
  have hroles : layout.visible.Nodup := PartitionLayout.nodup_of_make hlayout
  have hperm := hsound.atomsIn_perm (hsame.symm ▸ hroles)
  have hsum := hsound.sum_length_atomsIn (hsame.symm ▸ hroles)
  rw [hsame] at hperm hsum
  refine ⟨fun k stored hk => ?_, hsound.get?_eq, fun p vs hp hvs harity => ?_,
    fun p k value => mem_atomsIn, s.nodup_keys_flatMap_atomsIn hroles, hperm, hsum⟩
  · have hplaced := hsound.placed k stored hk
    rw [hsame] at hplaced
    exact ⟨hsound.standard k stored hk, k.accepts, hsound.inUnit k stored hk,
      PartitionLayout.contains_iff.mp hplaced⟩
  · exact Query.evaluate_all hsound hp hvs harity

/-- A layout of three partitions. -/
def sampleLayout : PartitionLayout := ⟨[⟨0⟩], ⟨1⟩, ⟨2⟩⟩

/-- An atom of the sample relation. -/
def sampleKey (first second : Int) : GroundKey :=
  ⟨Query.sampleRelation, [.integer first, .integer second], rfl⟩

/-- One atom is stored, and refused in another partition; two are refused together, as the value of
one is too large; one is staged and moved on. -/
def sampleWrites : List Write := [
  .insert (sampleKey 1 2) 0.5 ⟨0⟩,
  .insert (sampleKey 1 2) 0.75 ⟨1⟩,
  .commit [(sampleKey 2 3, 0.25), (sampleKey 1 3, 2.0)] ⟨2⟩,
  .commit [(sampleKey 2 3, 0.25)] ⟨2⟩,
  .move Query.sampleRelation ⟨2⟩]

/-- The store after these writes. -/
def writtenStore : Store := (empty sampleLayout 0.0).writeAll sampleWrites

/-- Two atoms are stored, and both partitions that have one of them show it. -/
theorem writtenStore_is_split :
    PartitionLayout.make [⟨0⟩] ⟨1⟩ ⟨2⟩ = .ok sampleLayout ∧
      writtenStore = (empty sampleLayout 0.0).writeAll sampleWrites ∧
      writtenStore.get? (sampleKey 1 3) = none ∧
      (sampleKey 1 2, 0.5) ∈ writtenStore.atomsIn ⟨0⟩ ∧
      (sampleKey 2 3, 0.25) ∈ writtenStore.atomsIn ⟨1⟩ ∧
      (sampleLayout.visible.map fun p => (writtenStore.atomsIn p).length).sum = 2 := by
  have hlayout : PartitionLayout.make [⟨0⟩] ⟨1⟩ ⟨2⟩ = .ok sampleLayout := rfl
  have hwritten : writtenStore = (empty sampleLayout 0.0).writeAll sampleWrites := rfl
  obtain ⟨-, hget, -, hatoms, -, -, hsum⟩ := rows_are_shown_and_split hlayout hwritten
  have hrefused : writtenStore.rows.find? (sampleKey 1 3) = none := by decide +kernel
  have hsize : writtenStore.size = 2 := by decide +kernel
  refine ⟨hlayout, hwritten, ?_, ?_, ?_, ?_⟩
  · rw [hget, hrefused]
  · rw [hatoms]
    rfl
  · rw [hatoms]
    rfl
  · rw [hsum, hsize]

end Store

end RuleGrounding
