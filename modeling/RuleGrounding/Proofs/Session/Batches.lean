import RuleGrounding.Proofs.Session.Histories
import RuleGrounding.Proofs.Store.Staging

/-!
# Storing instances together or one by one

A commit checks all atoms before it writes any of them, while separate insertions check each
atom against what those before it have written. The two come to the same: what an accepted
atom leaves behind is itself, in the partition of the commit, and that is no reason to refuse
a later one, not even one of the same key.
-/

namespace RuleGrounding

namespace Store

variable {s : Store} {k : GroundKey} {value : Float} {p : PartitionId}

/-- An atom that was accepted is no reason to refuse another one from the same partition. -/
theorem insertFault?_put (h : s.insertFault? k value p = none) (k' : GroundKey) (value' : Float) :
    (s.put k value p).insertFault? k' value' p = s.insertFault? k' value' p := by
  have hplace : (s.put k value p).placeFault? k' p = s.placeFault? k' p := by
    have hrow : (s.put k value p).rows.find? k' =
        if k' = k then some ⟨value, p⟩ else s.rows.find? k' := FiniteMap.find?_insert ..
    by_cases hk : k' = k
    · rw [placeFault?, hrow, if_pos hk, hk,
        placeFault?_eq_none_iff.mpr (insertFault?_eq_none_iff.mp h).2]
      exact if_pos rfl
    · rw [placeFault?, hrow, if_neg hk]
      rfl
  rw [insertFault?, insertFault?, hplace]
  rfl

/-- A commit stores its first atom and then commits the others, if neither is refused. -/
theorem commit_cons (s : Store) (a : GroundKey × Float) (atoms : List (GroundKey × Float))
    (p : PartitionId) : s.commit (a :: atoms) p =
      match s.insert a.1 a.2 p with
      | .error fault => .error fault
      | .ok t => t.commit atoms p := by
  rw [commit, insert, List.findSome?_cons]
  cases hfirst : s.insertFault? a.1 a.2 p with
  | some fault => rfl
  | none =>
    have hothers : (fun b : GroundKey × Float => (s.put a.1 a.2 p).insertFault? b.1 b.2 p) =
        fun b => s.insertFault? b.1 b.2 p := funext fun b => insertFault?_put hfirst b.1 b.2
    dsimp only
    rw [commit, hothers, List.foldl_cons]

end Store

namespace Session

/-- Store instances with their present values one after the other, stopping at the first that is
refused; those before it stay stored. -/
def insertEach (x : Session) (p : PartitionId) : List Handle → Except StoreFault Unit × Session
  | [] => (.ok (), x)
  | h :: hs =>
    match x.insert h.key (x.pool.value h) p with
    | .error fault => (.error fault, x)
    | .ok y => y.insertEach p hs

/-- An instance that is refused ends the insertions. -/
theorem insertEach_cons_error {x : Session} {p : PartitionId} {h : Handle} {fault : StoreFault}
    (hinsert : x.insert h.key (x.pool.value h) p = .error fault) (hs : List Handle) :
    x.insertEach p (h :: hs) = (.error fault, x) := by
  rw [insertEach, hinsert]

/-- Behind an instance that is stored, the insertions go on from the session it leaves. -/
theorem insertEach_cons_ok {x y : Session} {p : PartitionId} {h : Handle}
    (hinsert : x.insert h.key (x.pool.value h) p = .ok y) (hs : List Handle) :
    x.insertEach p (h :: hs) = y.insertEach p hs := by
  rw [insertEach, hinsert]

/-- Storing more instances goes on where storing the first ones ends, unless that is refused. -/
theorem insertEach_append (x : Session) (p : PartitionId) (hs hs' : List Handle) :
    x.insertEach p (hs ++ hs') =
      match x.insertEach p hs with
      | (.error fault, y) => (.error fault, y)
      | (.ok _, y) => y.insertEach p hs' := by
  induction hs generalizing x with
  | nil => rfl
  | cons h hs ih =>
    rw [List.cons_append]
    cases hinsert : x.insert h.key (x.pool.value h) p with
    | error fault => rw [insertEach_cons_error hinsert, insertEach_cons_error hinsert]
    | ok y => rw [insertEach_cons_ok hinsert, insertEach_cons_ok hinsert, ih]

/-- A commit of instances stores the first one and then commits the others, which have the values
that they had. -/
theorem commit_cons (x : Session) (h : Handle) (hs : List Handle) (p : PartitionId) :
    x.commit (h :: hs) p =
      match x.insert h.key (x.pool.value h) p with
      | .error fault => .error fault
      | .ok y => y.commit hs p := by
  rw [commit, insert, List.map_cons, Store.commit_cons]
  cases x.store.insert h.key (x.pool.value h) p <;> rfl

/-- A commit ends as storing the instances one after the other does. -/
theorem commit_eq_insertEach (x : Session) (hs : List Handle) (p : PartitionId) :
    x.commit hs p = (x.insertEach p hs).1.map fun _ => (x.insertEach p hs).2 := by
  induction hs generalizing x with
  | nil => rfl
  | cons h hs ih =>
    rw [commit_cons]
    cases hinsert : x.insert h.key (x.pool.value h) p with
    | error fault =>
      rw [insertEach_cons_error hinsert]
      rfl
    | ok y =>
      rw [insertEach_cons_ok hinsert]
      exact ih y

/-- If storing instances one after the other is refused, there is a first one that is refused. -/
theorem exists_of_insertEach_eq_error {x y : Session} {p : PartitionId} {hs : List Handle}
    {fault : StoreFault} (h : x.insertEach p hs = (.error fault, y)) :
    ∃ before a after, hs = before ++ a :: after ∧ x.insertEach p before = (.ok (), y) ∧
      y.insert a.key (y.pool.value a) p = .error fault := by
  induction hs generalizing x with
  | nil => cases h
  | cons a hs ih =>
    cases hinsert : x.insert a.key (x.pool.value a) p with
    | error refusal =>
      rw [insertEach_cons_error hinsert] at h
      cases h
      exact ⟨[], a, hs, rfl, rfl, hinsert⟩
    | ok z =>
      rw [insertEach_cons_ok hinsert] at h
      obtain ⟨before, b, after, rfl, hbefore, hrefused⟩ := ih h
      refine ⟨a :: before, b, after, rfl, ?_, hrefused⟩
      rw [insertEach_cons_ok hinsert, hbefore]

/-- Instances are committed exactly if storing them one after the other succeeds at every step, and
then both lead to the same session. A commit that is refused changes nothing, and its fault is that
of the first insertion that is refused, those before it having been accepted. -/
theorem commit_is_insertions_or_nothing (x : Session) (hs : List Handle) (p : PartitionId) :
    (∀ y, x.commit hs p = .ok y ↔ x.insertEach p hs = (.ok (), y)) ∧
    (∀ fault, x.commit hs p = .error fault ↔ ∃ before a after y, hs = before ++ a :: after ∧
      x.insertEach p before = (.ok (), y) ∧ y.insert a.key (y.pool.value a) p = .error fault) ∧
    ∀ fault, x.commit hs p = .error fault →
      x.perform (.commit (hs.map fun h => (h.key, x.pool.value h)) p) = x := by
  have hcommit := x.commit_eq_insertEach hs p
  refine ⟨fun y => ?_, fun fault => ⟨fun herror => ?_, ?_⟩, fun fault herror => ?_⟩
  · rw [hcommit, map_eq_ok_iff, Prod.ext_iff]
    constructor
    · rintro ⟨⟨⟩, hok, hy⟩
      exact ⟨hok, hy⟩
    · rintro ⟨hok, hy⟩
      exact ⟨(), hok, hy⟩
  · rw [hcommit, map_eq_error_iff] at herror
    obtain ⟨before, a, after, hs', hbefore, hrefused⟩ :=
      exists_of_insertEach_eq_error (Prod.ext herror rfl)
    exact ⟨before, a, after, _, hs', hbefore, hrefused⟩
  · rintro ⟨before, a, after, y, rfl, hbefore, hrefused⟩
    rw [hcommit, insertEach_append, hbefore]
    dsimp only
    rw [insertEach_cons_error hrefused]
    rfl
  · rw [commit] at herror
    rw [perform]
    cases hstore : x.store.commit (hs.map fun h => (h.key, x.pool.value h)) p with
    | error refusal => rfl
    | ok store =>
      rw [hstore] at herror
      cases herror

end Session

end RuleGrounding
