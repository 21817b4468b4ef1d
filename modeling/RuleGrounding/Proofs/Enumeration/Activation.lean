import RuleGrounding.Proofs.Activation.Outcomes
import RuleGrounding.Proofs.Enumeration.Sessions

/-!
# Activation up to enumeration

An activation lists the lazy atoms in the order of their texts, which may be the same for
different atoms, and goes through their predicates and through the known atoms. None of
this leaves a trace of the order: the atoms are different ones, so storing and adopting
them in another order comes to the same, and so does saying where instances live.
-/

namespace RuleGrounding

namespace AtomPool

/-- Changes of two instances may be exchanged if they may where both are of one cell. -/
theorem modify_comm (pool : AtomPool) {a b : Handle} {f g : AtomCell → AtomCell}
    (h : a.serial = b.serial → ∀ c, g (f c) = f (g c)) :
    (pool.modify a f).modify b g = (pool.modify b g).modify a f := by
  refine congrArg AtomPool.mk (Array.ext_getElem? fun i => ?_)
  simp only [modify, Array.getElem?_modify]
  by_cases ha : a.serial = i
  · by_cases hb : b.serial = i
    · cases pool.cells[i]? with
      | none => simp [ha, hb]
      | some c => simp [ha, hb, h (ha.trans hb.symm) c]
    · simp [ha, hb]
  · simp [ha]

/-- Saying of several instances that they live in one place. -/
theorem foldl_setState_perm (pool : AtomPool) {hs hs' : List Handle} (h : hs.Perm hs')
    (state : AtomState) :
    hs.foldl (fun pool h => pool.setState h state) pool =
      hs'.foldl (fun pool h => pool.setState h state) pool :=
  h.foldl_eq' (fun _ _ _ _ pool => pool.modify_comm fun _ _ => rfl) pool

end AtomPool

namespace Manager

/-- Promoting an instance changes its cell by what is in that cell. -/
theorem promoteOne_eq_modify (p : Predicate) (source goal : PartitionId) (pool : AtomPool)
    (h : Handle) : promoteOne p source goal pool h = pool.modify h fun c =>
      if h.key.predicate = p ∧ c.state = .unobserved source then
        { c with state := .unobserved goal }
      else c := by
  obtain ⟨cells⟩ := pool
  -- The cell that is changed is the one whose state is asked for.
  have hstate : ∀ c, cells[h.serial]? = some c → AtomPool.state ⟨cells⟩ h = c.state := by
    intro c hc
    rw [AtomPool.state, AtomPool.cell, hc]
    rfl
  rw [promoteOne]
  split
  · rename_i hcond
    refine congrArg AtomPool.mk (Array.ext_getElem? fun i => ?_)
    rw [Array.getElem?_modify, Array.getElem?_modify]
    split
    · rename_i hi
      subst hi
      refine Option.map_congr fun c hc => ?_
      rw [if_pos ⟨hcond.1, hstate c hc ▸ hcond.2⟩]
    · rfl
  · rename_i hcond
    refine congrArg AtomPool.mk (Array.ext_getElem? fun i => ?_)
    rw [Array.getElem?_modify]
    split
    · rename_i hi
      subst hi
      refine Option.map_id'.symm.trans (Option.map_congr fun c hc => ?_)
      exact (if_neg fun hc' => hcond ⟨hc'.1, (hstate c hc).trans hc'.2⟩).symm
    · rfl

/-- Promotions may be exchanged. -/
theorem promoteOne_comm (p q : Predicate) (source goal : PartitionId) (pool : AtomPool)
    (a b : Handle) :
    promoteOne q source goal (promoteOne p source goal pool a) b =
      promoteOne p source goal (promoteOne q source goal pool b) a := by
  simp only [promoteOne_eq_modify]
  refine pool.modify_comm fun _ c => ?_
  by_cases hstate : c.state = .unobserved source
  · by_cases hp : a.key.predicate = p <;> by_cases hq : b.key.predicate = q <;>
      simp [hstate, hp, hq]
  · simp [hstate]

section Adopting

variable {m m' : Manager} {hs hs' : List Handle}

theorem pool_adopt (m : Manager) (hs : List Handle) (state : AtomState) :
    (m.adopt hs state).pool = hs.foldl (fun pool h => pool.setState h state) m.pool := by
  rw [adopt_eq_foldl]
  induction hs generalizing m with
  | nil => rfl
  | cons h hs ih => exact ih _

theorem Reorders.instance?_eq (h : m.Reorders m') (k : GroundKey) :
    m'.instance? k = m.instance? k := by
  rw [instance?, instance?, h.lazy.find?_eq, h.known.find?_eq]

theorem Reorders.sound (h : m.Reorders m') (hm : m.Sound) : m'.Sound := by
  refine hm.of_instance?_eq h.instance?_eq (congrArg (·.cells.size) h.pool.symm) fun k hk hk' => ?_
  exact hm.disjoint k (h.lazy.keys_perm.mem_iff.mpr hk) (h.known.keys_perm.mem_iff.mpr hk')

/-- Taking over the same instances in another order. -/
theorem Reorders.adopt (h : m.Reorders m') (hm : m.Sound) (hhs : hs.Perm hs')
    (hgives : ∀ a ∈ hs, m.Gives a) (state : AtomState) :
    (m.adopt hs state).Reorders (m'.adopt hs' state) := by
  have hgives' : ∀ a ∈ hs', m'.Gives a :=
    fun a ha => (gives_congr h.instance?_eq a).mpr (hgives a (hhs.mem_iff.mpr ha))
  have hadopts := adopts_adopt hm hgives state
  have hadopts' := adopts_adopt (h.sound hm) hgives' state
  have hkeys : ∀ k, k ∈ hs.map Handle.key ↔ k ∈ hs'.map Handle.key :=
    fun k => (hhs.map _).mem_iff
  refine ⟨?_, ?_, FiniteMap.reorders_iff.mpr fun k => ?_, FiniteMap.reorders_iff.mpr fun k => ?_⟩
  · rw [hadopts.policy, hadopts'.policy, h.policy]
  · rw [pool_adopt, pool_adopt, h.pool, m'.pool.foldl_setState_perm hhs]
  · by_cases hk : k ∈ hs.map Handle.key
    · obtain ⟨a, ha, rfl⟩ := List.mem_map.mp hk
      rw [hadopts.known a ha, hadopts'.known a (hhs.mem_iff.mp ha)]
    · rw [hadopts.otherKnown k hk, hadopts'.otherKnown k (mt (hkeys k).mpr hk), h.known.find?_eq]
  · by_cases hk : k ∈ hs.map Handle.key
    · obtain ⟨a, ha, rfl⟩ := List.mem_map.mp hk
      rw [hadopts.lazy a ha, hadopts'.lazy a (hhs.mem_iff.mp ha)]
    · rw [hadopts.otherLazy k hk, hadopts'.otherLazy k (mt (hkeys k).mpr hk), h.lazy.find?_eq]

end Adopting

end Manager

namespace Store

variable {s s' : Store} {p : PartitionId}

theorem Reorders.insertFault?_eq (h : s.Reorders s') (k : GroundKey) (value : Float)
    (p : PartitionId) : s.insertFault? k value p = s'.insertFault? k value p := by
  simp only [insertFault?, writeFault?, placeFault?, h.layout, h.rows.find?_eq]

/-- Storing the same atoms in another order, if none of them is refused. -/
theorem Reorders.commit (h : s.Reorders s') {atoms atoms' : List (GroundKey × Float)}
    (hatoms : atoms.Perm atoms') (hkeys : (atoms.map Prod.fst).Nodup)
    (hfree : ∀ a ∈ atoms, s.insertFault? a.1 a.2 p = none) :
    ∃ t t', s.commit atoms p = .ok t ∧ s'.commit atoms' p = .ok t' ∧ t.Reorders t' := by
  have hnone : (atoms.findSome? fun a => s.insertFault? a.1 a.2 p) = none :=
    List.findSome?_eq_none_iff.mpr hfree
  have hnone' : (atoms'.findSome? fun a => s'.insertFault? a.1 a.2 p) = none := by
    refine List.findSome?_eq_none_iff.mpr fun a ha => ?_
    rw [← h.insertFault?_eq, hfree a (hatoms.mem_iff.mpr ha)]
  refine ⟨_, _, by rw [Store.commit, hnone], by rw [Store.commit, hnone'], ?_, ?_, ?_⟩
  · rw [layout_foldl_put, layout_foldl_put, h.layout]
  · rw [defaultValue_foldl_put, defaultValue_foldl_put, h.defaultValue]
  · refine FiniteMap.reorders_iff.mpr fun k => ?_
    by_cases hk : k ∈ atoms.map Prod.fst
    · have hk' : k ∈ atoms'.map Prod.fst := (hatoms.map _).mem_iff.mp hk
      obtain ⟨value, hvalue, hfind⟩ := (find?_foldl_put atoms p k).2 hk
      obtain ⟨value', hvalue', hfind'⟩ := (find?_foldl_put atoms' p k).2 hk'
      have hsame : value = value' := by
        have hmem := hatoms.mem_iff.mpr hvalue'
        exact congrArg Prod.snd (List.inj_on_of_nodup_map hkeys hvalue hmem rfl)
      rw [hfind, hfind', hsame]
    · have hk' : k ∉ atoms'.map Prod.fst := mt (hatoms.map _).mem_iff.mpr hk
      rw [(find?_foldl_put atoms p k).1 hk, (find?_foldl_put atoms' p k).1 hk', h.rows.find?_eq]

end Store

section Grounding

variable {s s' : Store} {w w' : Workspace} {predicates predicates' : List Predicate}

/-- In which order the predicates are listed does not matter for the queries. -/
theorem LogicalRule.stagedQueries_congr (r : LogicalRule)
    (h : ∀ p, p ∈ predicates ↔ p ∈ predicates') :
    r.stagedQueries predicates = r.stagedQueries predicates' := by
  simp only [stagedQueries, h]

theorem LogicalRule.reorders_groundStaged (r : LogicalRule) (hs : s.Reorders s')
    (hw : w.Reorders w') (hpredicates : ∀ p, p ∈ predicates ↔ p ∈ predicates') :
    (r.groundStaged s predicates w).1 = (r.groundStaged s' predicates' w').1 ∧
      (r.groundStaged s predicates w).2.Reorders (r.groundStaged s' predicates' w').2 := by
  rw [groundStaged, groundStaged, ← r.stagedQueries_congr hpredicates, ← hs.evaluateUnion_eq]
  dsimp only
  split
  · exact ⟨rfl, hw⟩
  · cases Query.evaluateUnion s (r.stagedQueries predicates) with
    | error fault => exact ⟨rfl, hw⟩
    | ok results =>
      obtain ⟨hresult, hwork⟩ :=
        (r.parallel_groundRows s s' results.assignments).reorders hs hw
      exact ⟨congrArg (Except.mapError _) hresult, hwork⟩

theorem RuleBase.reorders_groundStaged (b : RuleBase) (hs : s.Reorders s') (hw : w.Reorders w')
    (hpredicates : ∀ p, p ∈ predicates ↔ p ∈ predicates') (indices : List Nat) :
    (b.groundStaged s predicates indices w).1 = (b.groundStaged s' predicates' indices w').1 ∧
      (b.groundStaged s predicates indices w).2.Reorders
        (b.groundStaged s' predicates' indices w').2 := by
  induction indices generalizing w w' with
  | nil => exact ⟨rfl, hw⟩
  | cons index indices ih =>
    rw [groundStaged, groundStaged]
    split
    · rename_i r _
      have hfirst := r.reorders_groundStaged hs hw hpredicates
      revert hfirst
      obtain ⟨result, w₁⟩ := r.groundStaged s predicates w
      obtain ⟨result', w₁'⟩ := r.groundStaged s' predicates' w'
      rintro ⟨hresult, hwork⟩
      obtain rfl : result = result' := hresult
      cases result with
      | error fault => exact ⟨rfl, hwork⟩
      | ok n =>
        have hrest := ih hwork
        dsimp only
        revert hrest
        obtain ⟨later, w₂⟩ := b.groundStaged s predicates indices w₁
        obtain ⟨later', w₂'⟩ := b.groundStaged s' predicates' indices w₁'
        rintro ⟨hlater, hwork'⟩
        obtain rfl : later = later' := hlater
        cases later <;> exact ⟨rfl, hwork'⟩
    · exact ih hw

end Grounding

namespace Session

variable {x y : Session} {hs hs' : List Handle}

/-- What the store has taken up is staged. -/
theorem stage_of_commit {store : Store}
    (h : x.store.commit (hs.map fun a => (a.key, x.pool.value a)) x.store.layout.lazy =
      .ok store) :
    x.stage hs = .ok ⟨store, { x.work with
      manager := x.manager.adopt hs (.unobserved x.store.layout.lazy) }⟩ := by
  rw [Session.stage, Session.commit, h]
  rfl

/-- Staging the same lazy atoms in another order, if none of them is refused. -/
theorem Reorders.stage (h : x.Reorders y) (hx : x.manager.Sound) (hhs : hs.Perm hs')
    (hnodup : hs.Nodup) (hgives : ∀ a ∈ hs, x.manager.Gives a)
    (hfree : ∀ a ∈ hs,
      x.store.insertFault? a.key (x.pool.value a) x.store.layout.lazy = none) :
    ∃ z z', x.stage hs = .ok z ∧ y.stage hs' = .ok z' ∧ z.Reorders z' := by
  have hkeys : ((hs.map fun a => (a.key, x.pool.value a)).map Prod.fst).Nodup := by
    rw [List.map_map]
    exact hnodup.map_on fun a ha b hb he => (hgives a ha).eq_of_key_eq (hgives b hb) he
  have hatoms : (hs.map fun a => (a.key, x.pool.value a)).Perm
      (hs'.map fun a => (a.key, y.pool.value a)) := by
    rw [h.pool_eq]
    exact hhs.map _
  obtain ⟨t, t', hcommit, hcommit', ht⟩ :=
    h.store.commit (p := x.store.layout.lazy) hatoms hkeys fun e he => by
      obtain ⟨a, ha, rfl⟩ := List.mem_map.mp he
      exact hfree a ha
  rw [h.store.layout] at hcommit'
  refine ⟨_, _, stage_of_commit hcommit, stage_of_commit hcommit', ht, ?_, h.work.rules⟩
  rw [← h.store.layout]
  exact h.manager.adopt hx hhs hgives _

/-- Unstaging goes through the known atoms once for each predicate. -/
theorem pool_unstage (x : Session) (ps : List Predicate) :
    (x.unstage ps).2.pool = (ps.flatMap fun p => x.manager.known.values.map (p, ·)).foldl
      (fun pool e => Manager.promoteOne e.1 x.store.layout.lazy x.store.layout.write pool e.2)
      x.pool := by
  induction ps generalizing x with
  | nil => rfl
  | cons p ps ih =>
    obtain ⟨n, t, -, hlayout, -, hunstage⟩ := x.exists_unstage_cons p ps
    rw [hunstage, ih, List.flatMap_cons, List.foldl_append, List.foldl_map, hlayout]
    rfl

/-- Unstaging the atoms of the same predicates in another order. -/
theorem Reorders.unstage (h : x.Reorders y)
    (hapart : x.store.layout.lazy ≠ x.store.layout.write) {ps ps' : List Predicate}
    (hps : ps.Perm ps') : (x.unstage ps).2.Reorders (y.unstage ps').2 := by
  obtain ⟨hlayout, hdefault, hrules, hpromotes⟩ := x.promotes_unstage ps
  obtain ⟨hlayout', hdefault', hrules', hpromotes'⟩ := y.promotes_unstage ps'
  have hunstages := x.unstages_unstage hapart ps
  have hunstages' := y.unstages_unstage (h.store.layout ▸ hapart) ps'
  have hmanager : (x.unstage ps).2.manager.Reorders (y.unstage ps').2.manager := by
    refine ⟨?_, ?_, ?_, ?_⟩
    · rw [hpromotes.policy, hpromotes'.policy, h.manager.policy]
    · have hpairs : (ps.flatMap fun p => x.manager.known.values.map (p, ·)).Perm
          (ps'.flatMap fun p => y.manager.known.values.map (p, ·)) :=
        hps.flatMap fun p _ => h.manager.known.values_perm.map _
      change (x.unstage ps).2.pool = (y.unstage ps').2.pool
      rw [pool_unstage, pool_unstage, h.store.layout, h.pool_eq]
      exact hpairs.foldl_eq' (fun _ _ _ _ pool => Manager.promoteOne_comm ..) y.pool
    · rw [hpromotes.known, hpromotes'.known]
      exact h.manager.known
    · rw [hpromotes.lazy, hpromotes'.lazy]
      exact h.manager.lazy
  refine ⟨⟨?_, ?_, FiniteMap.reorders_iff.mpr fun k => ?_⟩, hmanager, ?_⟩
  · rw [hlayout, hlayout', h.store.layout]
  · rw [hdefault, hdefault', h.store.defaultValue]
  · simp only [hunstages.rows, hunstages'.rows, h.store.rows.find?_eq, h.store.layout,
      hps.mem_iff]
  · rw [hrules, hrules', h.work.rules]

theorem standardPredicates_perm (h : hs.Perm hs') :
    (standardPredicates hs).Perm (standardPredicates hs') := by
  refine (List.perm_ext_iff_of_nodup (nodup_distinct _) (nodup_distinct _)).mpr fun p => ?_
  rw [mem_distinct, mem_distinct]
  exact ((h.map _).filter _).mem_iff

/-- After staging, the rules are grounded, and then the atoms are unstaged. -/
theorem activateAtoms_of_stage (b : RuleBase) {z : Session} (h : x.stage hs = .ok z) :
    x.activateAtoms b hs =
      match b.groundStaged z.store (standardPredicates hs)
        ((Subscriptions.ofRules b).rulesFor (standardPredicates hs)) z.work with
      | (.error fault, w) => (.error fault, { z with work := w })
      | (.ok _, w) => unstage { z with work := w } (standardPredicates hs) := by
  rw [Session.activateAtoms, h]
  rfl

/-- Activating the same lazy atoms in another order, if none of them is refused. -/
theorem Reorders.activateAtoms (h : x.Reorders y) (hx : x.manager.Sound)
    (hapart : x.store.layout.lazy ≠ x.store.layout.write) (hhs : hs.Perm hs') (hnodup : hs.Nodup)
    (hgives : ∀ a ∈ hs, x.manager.Gives a)
    (hfree : ∀ a ∈ hs,
      x.store.insertFault? a.key (x.pool.value a) x.store.layout.lazy = none) (b : RuleBase) :
    (x.activateAtoms b hs).1 = (y.activateAtoms b hs').1 ∧
      (x.activateAtoms b hs).2.Reorders (y.activateAtoms b hs').2 := by
  obtain ⟨z, z', hz, hz', hstaged⟩ := h.stage hx hhs hnodup hgives hfree
  have hps := standardPredicates_perm hhs
  have hpredicates : ∀ p, p ∈ standardPredicates hs ↔ p ∈ standardPredicates hs' :=
    fun p => hps.mem_iff
  have hground := b.reorders_groundStaged hstaged.store hstaged.work hpredicates
    ((Subscriptions.ofRules b).rulesFor (standardPredicates hs))
  have hlayout : z.store.layout = x.store.layout := by
    obtain ⟨store, hcommit, rfl⟩ := stage_eq_ok hz
    exact (Store.commits_of_commit hcommit).2.layout
  rw [activateAtoms_of_stage b hz, activateAtoms_of_stage b hz',
    ← Subscriptions.rulesFor_congr _ hpredicates]
  revert hground
  obtain ⟨result, w⟩ := b.groundStaged z.store (standardPredicates hs)
    ((Subscriptions.ofRules b).rulesFor (standardPredicates hs)) z.work
  obtain ⟨result', w'⟩ := b.groundStaged z'.store (standardPredicates hs')
    ((Subscriptions.ofRules b).rulesFor (standardPredicates hs)) z'.work
  rintro ⟨hresult, hwork⟩
  obtain rfl : result = result' := hresult
  have hgrounded : ({ z with work := w } : Session).Reorders { z' with work := w' } :=
    ⟨hstaged.store, hwork⟩
  cases result with
  | error fault => exact ⟨rfl, hgrounded⟩
  | ok n =>
    refine ⟨?_, hgrounded.unstage (hlayout ▸ hapart) hps⟩
    rw [unstage_fst, unstage_fst]

/-- The same lazy atoms are eligible, those of equal texts perhaps in another order. -/
theorem Reorders.eligible_perm (h : x.Reorders y) (threshold : Float) :
    (x.eligible threshold).Perm (y.eligible threshold) := by
  rw [eligible, eligible, h.pool_eq]
  refine (ascending_perm _ _).trans (.trans ?_ (ascending_perm _ _).symm)
  exact h.manager.lazy.values_perm.filter _

/-- The store refuses none of the atoms that may be activated. -/
def AdmitsEligible (x : Session) : Prop :=
  ∀ threshold, x.manager.policy = .deferring threshold → ∀ a ∈ x.eligible threshold,
    x.store.insertFault? a.key (x.pool.value a) x.store.layout.lazy = none

/-- An activation that the store does not refuse has the same result, however stored, known and
lazy atoms are enumerated. -/
theorem Reorders.activate (h : x.Reorders y) (hx : x.manager.Sound)
    (hapart : x.store.layout.lazy ≠ x.store.layout.write)
    (hfree : x.AdmitsEligible) (b : RuleBase) :
    (x.activate b).1 = (y.activate b).1 ∧ (x.activate b).2.Reorders (y.activate b).2 := by
  rw [Session.activate, Session.activate, ← h.manager.policy]
  cases hpolicy : x.manager.policy with
  | strict => exact ⟨rfl, h⟩
  | deferring threshold =>
    have hperm := h.eligible_perm threshold
    have hatoms := h.activateAtoms hx hapart hperm (nodup_eligible hx)
      (fun a ha => gives_of_mem_eligible hx ha) (hfree threshold hpolicy) b
    dsimp only [Policy.threshold?]
    rw [← hperm.isEmpty_eq, ← hperm.length_eq]
    split
    · exact ⟨rfl, h⟩
    · exact ⟨congrArg (Except.map _) hatoms.1, hatoms.2⟩

end Session

end RuleGrounding
