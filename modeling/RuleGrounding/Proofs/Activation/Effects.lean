import RuleGrounding.Proofs.Grounding.Extensions
import RuleGrounding.Proofs.Session.Lifecycle
import RuleGrounding.Proofs.Store.Staging

/-!
# What an activation does and leaves alone

Each stage of an activation is followed through the store, the manager and the ground
rules. Staging stores the atoms and takes them over, grounding adds instances and
ground rules, and unstaging moves the atoms on.
-/

namespace RuleGrounding

/-- A ground clause of a logical rule of the base. -/
def RuleBase.Clauses (b : RuleBase) (g : GroundRule) : Prop :=
  ∃ r, Rule.logical r ∈ b.rules ∧ g.IsClauseOf r

theorem RuleBase.isClause_of_clauses {b : RuleBase} {g : GroundRule} (h : b.Clauses g) :
    g.IsClause := by
  obtain ⟨r, -, positive, negative, rfl⟩ := h
  exact ⟨_, rfl⟩

/-- Grounding a rule for staged atoms adds ground clauses of that rule, wherever it ends. -/
theorem LogicalRule.extends_groundStaged {r : LogicalRule} {s : Store}
    {predicates : List Predicate} {w w' : Workspace} {result : Except ActivationFault Nat}
    (h : r.groundStaged s predicates w = (result, w')) :
    w.Extends s (GroundRule.IsClauseOf r) w' := by
  rcases groundStaged_cases h with ⟨rfl, -⟩ | ⟨results, ground, -, hrun, -⟩
  · exact .refl ..
  · have hextends := r.extending_groundRows s results.assignments w
    rw [groundResults] at hrun
    rwa [hrun] at hextends

/-- Grounding several rules adds ground clauses of these. -/
theorem RuleBase.extends_groundStaged {b : RuleBase} {s : Store} {predicates : List Predicate}
    {indices : List Nat} {w w' : Workspace} {result : Except ActivationFault Nat}
    (h : b.groundStaged s predicates indices w = (result, w')) :
    w.Extends s b.Clauses w' := by
  induction indices generalizing w result with
  | nil =>
    obtain ⟨-, rfl⟩ := Prod.mk.inj h
    exact .refl ..
  | cons index rest ih =>
    rcases groundStaged_cons_cases h with ⟨-, hrest⟩ |
      ⟨r, hindex, hrule⟩
    · exact ih hrest
    · have hclauses : ∀ g : GroundRule, g.IsClauseOf r → b.Clauses g := fun g hg =>
        ⟨r, List.mem_of_getElem? hindex, hg⟩
      rcases hrule with ⟨fault, hr, -⟩ | ⟨n, w₁, later, hr, hlater, -⟩
      · exact (LogicalRule.extends_groundStaged hr).mono hclauses
      · exact ((LogicalRule.extends_groundStaged hr).mono hclauses).trans (ih hlater)

namespace Session

/-- A session in which atoms have been taken over from the lazy atoms into the known ones, rules
have been grounded besides, and all else about instances and ground rules is as it was. -/
structure TakesOver (x : Session) (atoms : List Handle) (y : Session) : Prop where
  /-- What is not stored is dealt with in the same way. -/
  policy : y.manager.policy = x.manager.policy
  /-- Partitions have the same roles. -/
  layout : y.store.layout = x.store.layout
  /-- Atoms that are not stored have the same value. -/
  defaultValue : y.store.defaultValue = x.store.defaultValue
  /-- Instances keep their values. -/
  values : ∀ h, x.manager.Gives h → y.pool.value h = x.pool.value h
  /-- The atoms are known, as the instances that they were. -/
  adopted : ∀ h ∈ atoms, y.manager.known.find? h.key = some h
  /-- The atoms are not lazy any more. -/
  taken : ∀ h ∈ atoms, y.manager.lazy.find? h.key = none
  /-- Known atoms stay known. -/
  known : ∀ k h, x.manager.known.find? k = some h → y.manager.known.find? k = some h
  /-- Other lazy atoms stay lazy. -/
  lazy : ∀ k h, x.manager.lazy.find? k = some h → h ∉ atoms → y.manager.lazy.find? k = some h
  /-- New lazy atoms were not stored, and have the default value. -/
  deferred : ∀ k h, y.manager.lazy.find? k = some h →
    (x.manager.lazy.find? k = some h ∧ h ∉ atoms) ∨
      x.manager.instance? k = none ∧ x.store.get? k = none ∧
        y.view h = ⟨k, x.store.defaultValue, .lazy⟩
  /-- New known atoms were stored, or are computed. -/
  learnt : ∀ k h, y.manager.known.find? k = some h →
    x.manager.known.find? k = some h ∨ h ∈ atoms ∨
      x.manager.instance? k = none ∧ ∃ atom, x.store.look k = .present atom
  /-- The old ground rules come first, and only ground clauses are new. -/
  rules : ∃ produced, y.work.rules = x.work.rules ++ produced ∧ ∀ g ∈ produced, g.IsClause

/-- A session in which, moreover, the atoms have come to lie in a partition, and all other stored
atoms are as they were. -/
structure Activates (x : Session) (atoms : List Handle) (p : PartitionId) (y : Session) : Prop
    extends x.TakesOver atoms y where
  /-- The atoms are stored in the partition, with the values of their instances. -/
  stored : ∀ h ∈ atoms, y.store.rows.find? h.key = some ⟨y.pool.value h, p⟩
  /-- Nothing else is stored, and other stored atoms stay where they are, with their values. -/
  others : ∀ k, k ∉ atoms.map Handle.key → y.store.rows.find? k = x.store.rows.find? k
  /-- The instances of the atoms live in the partition. -/
  states : ∀ h ∈ atoms, y.pool.state h = .unobserved p
  /-- Others live where they did; the partition is also said of those that the lazy partition was
  said of. -/
  otherStates : ∀ h, x.manager.Gives h → h ∉ atoms →
    (x.pool.state h).MovesOn x.store.layout.lazy p (y.pool.state h)

variable {x y : Session} {atoms : List Handle} {p : PartitionId}

/-- Activating no atoms is doing nothing. -/
theorem Activates.refl (x : Session) (p : PartitionId) : x.Activates [] p x where
  policy := rfl
  layout := rfl
  defaultValue := rfl
  values _ _ := rfl
  adopted _ h := absurd h List.not_mem_nil
  taken _ h := absurd h List.not_mem_nil
  known _ _ h := h
  lazy _ _ h _ := h
  deferred _ _ h := .inl ⟨h, List.not_mem_nil⟩
  learnt _ _ h := .inl h
  rules := ⟨[], (List.append_nil _).symm, fun _ h => absurd h List.not_mem_nil⟩
  stored _ h := absurd h List.not_mem_nil
  others _ _ := rfl
  states _ h := absurd h List.not_mem_nil
  otherStates _ _ _ := .inl rfl

/-- What has no instance afterwards had none before, and is none of the atoms. -/
theorem TakesOver.instance?_eq_none (h : x.TakesOver atoms y) (hx : x.manager.Sound)
    {k : GroundKey} (hk : y.manager.instance? k = none) :
    x.manager.instance? k = none ∧ k ∉ atoms.map Handle.key := by
  obtain ⟨hlazy, hknown⟩ := Manager.instance?_eq_none_iff.mp hk
  have hnot : ∀ a ∈ atoms, a.key ≠ k := by
    rintro a ha rfl
    rw [h.adopted a ha] at hknown
    cases hknown
  refine ⟨Manager.instance?_eq_none_iff.mpr ⟨?_, ?_⟩, fun hmem => ?_⟩
  · cases hl : x.manager.lazy.find? k with
    | none => rfl
    | some a =>
      have ha : a ∉ atoms := fun ha =>
        hnot a ha (hx.filed k a (Manager.instance?_of_lazy hl))
      rw [h.lazy k a hl ha] at hlazy
      cases hlazy
  · cases hl : x.manager.known.find? k with
    | none => rfl
    | some a =>
      rw [h.known k a hl] at hknown
      cases hknown
  · obtain ⟨a, ha, he⟩ := List.mem_map.mp hmem
    exact hnot a ha he

section Staging

/-- Staging takes the atoms over. -/
theorem takesOver_of_stage (hx : x.manager.Sound)
    (hatoms : ∀ h ∈ atoms, x.manager.lazy.find? h.key = some h) (h : x.stage atoms = .ok y) :
    x.TakesOver atoms y := by
  obtain ⟨store, hcommit, rfl⟩ := stage_eq_ok h
  have hcommits := (Store.commits_of_commit hcommit).2
  have hgives : ∀ h ∈ atoms, x.manager.Gives h := fun h hh => hx.gives_of_lazy (hatoms h hh)
  have hadopts := Manager.adopts_adopt hx hgives (.unobserved x.store.layout.lazy)
  have hlazy := fun k h => hadopts.find?_lazy_iff hx hatoms (k := k) (a := h)
  have hknown := fun k h => hadopts.find?_known_iff hx hatoms (k := k) (a := h)
  exact {
    policy := hadopts.policy
    layout := hcommits.layout
    defaultValue := hcommits.defaultValue
    values := fun h _ => hadopts.values h
    adopted := hadopts.known
    taken := hadopts.lazy
    known := fun k h hk => (hknown k h).mpr (.inl hk)
    lazy := fun k h hk hnot => (hlazy k h).mpr ⟨hk, hnot⟩
    deferred := fun k h hk => .inl ((hlazy k h).mp hk)
    learnt := fun k h hk => ((hknown k h).mp hk).imp_right fun hh => .inl hh.1
    rules := ⟨[], (List.append_nil _).symm, fun _ h => absurd h List.not_mem_nil⟩ }

/-- Staging activates the atoms as far as the lazy partition. -/
theorem activates_of_stage (hx : x.manager.Sound)
    (hatoms : ∀ h ∈ atoms, x.manager.lazy.find? h.key = some h) (h : x.stage atoms = .ok y) :
    x.Activates atoms x.store.layout.lazy y := by
  have htakes := takesOver_of_stage hx hatoms h
  obtain ⟨store, hcommit, rfl⟩ := stage_eq_ok h
  obtain ⟨-, -, -, hothers, hstored⟩ := Store.commits_of_commit hcommit
  have hgives : ∀ h ∈ atoms, x.manager.Gives h := fun h hh => hx.gives_of_lazy (hatoms h hh)
  have hadopts := Manager.adopts_adopt hx hgives (.unobserved x.store.layout.lazy)
  have hkeys : (atoms.map fun h => (h.key, x.pool.value h)).map Prod.fst = atoms.map Handle.key :=
    List.map_map
  rw [hkeys] at hothers hstored
  refine { htakes with
    stored := fun h hh => ?_
    others := hothers
    states := hadopts.states
    otherStates := fun h hh hnot => .inl (hadopts.otherStates h hh hnot) }
  obtain ⟨value, hmem, hvalue⟩ := hstored h.key (List.mem_map.mpr ⟨h, hh, rfl⟩)
  obtain ⟨a, ha, he⟩ := List.mem_map.mp hmem
  obtain ⟨hkey, rfl⟩ := Prod.mk.inj he
  obtain rfl := (hgives a ha).eq_of_key_eq (hgives h hh) hkey
  exact hvalue.trans (congrArg (fun v => some (StoredAtom.mk v _)) (hadopts.values a).symm)

end Staging

section Grounding

/-- Instances stay instances. -/
theorem TakesOver.gives (h : x.TakesOver atoms y) (hy : y.manager.Sound) {a : Handle}
    (ha : x.manager.Gives a) : y.manager.Gives a := by
  rw [Manager.Gives, Manager.instance?] at ha
  cases hlazy : x.manager.lazy.find? a.key with
  | none =>
    rw [hlazy, Option.none_or] at ha
    exact hy.gives_of_known (h.known a.key a ha)
  | some b =>
    rw [hlazy, Option.some_or] at ha
    rw [ha] at hlazy
    by_cases hmem : a ∈ atoms
    · exact hy.gives_of_known (h.adopted a hmem)
    · exact hy.gives_of_lazy (h.lazy a.key a hlazy hmem)

/-- Of a key that is none of the atoms the store knows the same as before. -/
theorem Activates.look_eq (h : x.Activates atoms p y) {k : GroundKey}
    (hk : k ∉ atoms.map Handle.key) : y.store.look k = x.store.look k :=
  Store.look_congr h.layout h.defaultValue (h.others k hk)

section

variable (h : x.Activates atoms p y) (hx : x.manager.Sound) (hy : y.manager.Sound)
  {w : Workspace} (hw : y.work.Extends y.store GroundRule.IsClause w)

include h hx hy hw

/-- Grounding over the store afterwards leaves what has been taken over, and adds what was not
resolved. -/
theorem Activates.takesOver_ground : x.TakesOver atoms { y with work := w } := by
  have hm : y.manager.Extends y.store w.manager := hw.manager
  refine {
    policy := hm.policy.trans h.policy
    layout := h.layout
    defaultValue := h.defaultValue
    values := ?_
    adopted := fun a ha => hm.known a.key a (h.adopted a ha)
    taken := ?_
    known := fun k a ha => hm.known k a (h.known k a ha)
    lazy := fun k a ha hnot => hm.lazy k a (h.lazy k a ha hnot)
    deferred := ?_
    learnt := ?_
    rules := ?_ }
  · intro a ha
    have hvalue := hm.value (hy.allocated a (h.gives hy ha))
    exact hvalue.trans (h.values a ha)
  · intro a ha
    cases hl : w.manager.lazy.find? a.key with
    | none => exact hl
    | some b =>
      rcases hm.deferred a.key b hl with hold | ⟨hnone, -⟩
      · rw [h.taken a ha] at hold
        cases hold
      · exact absurd (List.mem_map.mpr ⟨a, ha, rfl⟩) (h.instance?_eq_none hx hnone).2
  · intro k a ha
    rcases hm.deferred k a ha with hold | ⟨hnone, -, hlook⟩
    · have hview := hm.view (hy.allocated a (hy.gives_of_lazy hold))
      rcases h.deferred k a hold with hlazy | ⟨hnone, hget, hseen⟩
      · exact .inl hlazy
      · exact .inr ⟨hnone, hget, hview.trans hseen⟩
    · obtain ⟨hnone, hnot⟩ := h.instance?_eq_none hx hnone
      rw [h.look_eq hnot] at hlook
      exact .inr ⟨hnone, Store.eq_of_look_eq_absent hlook⟩
  · intro k a ha
    rcases hm.learnt k a ha with hold | ⟨hnone, -, hlook⟩
    · exact h.learnt k a hold
    · obtain ⟨hnone, hnot⟩ := h.instance?_eq_none hx hnone
      rw [h.look_eq hnot] at hlook
      exact .inr (.inr ⟨hnone, _, hlook⟩)
  · obtain ⟨first, hfirst, hclauses⟩ := h.rules
    obtain ⟨second, hsecond, hclauses'⟩ := hw.rules
    refine ⟨first ++ second, ?_, fun g hg => ?_⟩
    · rw [← List.append_assoc, ← hfirst, ← hsecond]
    · exact (List.mem_append.mp hg).elim (hclauses g) (hclauses' g)

/-- It leaves the atoms where they lie. -/
theorem Activates.ground : x.Activates atoms p { y with work := w } := by
  have hm : y.manager.Extends y.store w.manager := hw.manager
  have hatoms : ∀ a ∈ atoms, a.serial < y.pool.cells.size :=
    fun a ha => hy.allocated a (hy.gives_of_known (h.adopted a ha))
  refine { h.takesOver_ground hx hy hw with
    stored := ?_
    others := h.others
    states := ?_
    otherStates := ?_ }
  · intro a ha
    have hvalue : w.manager.pool.value a = y.pool.value a := hm.value (hatoms a ha)
    exact (h.stored a ha).trans (congrArg (fun v => some (StoredAtom.mk v p)) hvalue.symm)
  · intro a ha
    have hstate : w.manager.pool.state a = y.pool.state a := hm.state (hatoms a ha)
    exact hstate.trans (h.states a ha)
  · intro a ha hnot
    have hstate : w.manager.pool.state a = y.pool.state a :=
      hm.state (hy.allocated a (h.gives hy ha))
    exact (h.otherStates a ha hnot).trans (.inl hstate)

end

end Grounding

section Unstaging

/-- Unstaging begins with the first predicate, which is never refused. -/
theorem exists_unstage_cons (x : Session) (p : Predicate) (ps : List Predicate) :
    ∃ n t, x.store.moveToWrite p x.store.layout.lazy = .ok (n, t) ∧
      t.layout = x.store.layout ∧ t.defaultValue = x.store.defaultValue ∧
      x.unstage (p :: ps) = unstage ⟨t, { x.work with
        manager := x.manager.promote p x.store.layout.lazy x.store.layout.write }⟩ ps := by
  have hmove := Store.moveToWrite_of_contains x.store.layout.contains_lazy p
  refine ⟨_, _, hmove, rfl, rfl, ?_⟩
  rw [unstage, moveToWrite, hmove]
  rfl

/-- Unstaging leaves the ground rules and the roles of partitions, and promotes the atoms of the
predicates. -/
theorem promotes_unstage (x : Session) (ps : List Predicate) :
    (x.unstage ps).2.store.layout = x.store.layout ∧
      (x.unstage ps).2.store.defaultValue = x.store.defaultValue ∧
      (x.unstage ps).2.work.rules = x.work.rules ∧
      x.manager.Promotes ps x.store.layout.lazy x.store.layout.write
        (x.unstage ps).2.manager := by
  induction ps generalizing x with
  | nil => exact ⟨rfl, rfl, rfl, .refl _⟩
  | cons p ps ih =>
    obtain ⟨n, t, -, hlayout, hdefault, hunstage⟩ := x.exists_unstage_cons p ps
    obtain ⟨hlayout', hdefault', hrules, hpromotes⟩ := ih ⟨t, { x.work with
      manager := x.manager.promote p x.store.layout.lazy x.store.layout.write }⟩
    rw [hunstage]
    dsimp only at hlayout' hdefault' hpromotes
    rw [hlayout] at hlayout' hpromotes
    exact ⟨hlayout', hdefault'.trans hdefault, hrules, .cons p hpromotes⟩

/-- Unstaging moves the staged atoms of the predicates into the write partition. -/
theorem unstages_unstage (x : Session) (hapart : x.store.layout.lazy ≠ x.store.layout.write)
    (ps : List Predicate) : x.store.Unstages (x.unstage ps).2.store ps := by
  induction ps generalizing x with
  | nil => exact .refl _
  | cons p ps ih =>
    obtain ⟨n, t, hmove, hlayout, -, hunstage⟩ := x.exists_unstage_cons p ps
    rw [hunstage]
    exact .cons hapart hmove (ih ⟨t, _⟩ (hlayout.symm ▸ hapart))

/-- Unstaging leaves what has been taken over. -/
theorem TakesOver.unstage (h : x.TakesOver atoms y) (ps : List Predicate) :
    x.TakesOver atoms (y.unstage ps).2 := by
  obtain ⟨hlayout, hdefault, hrules, hpromotes⟩ := y.promotes_unstage ps
  refine {
    policy := hpromotes.policy.trans h.policy
    layout := hlayout.trans h.layout
    defaultValue := hdefault.trans h.defaultValue
    values := fun a ha => (hpromotes.values a).trans (h.values a ha)
    adopted := hpromotes.known ▸ h.adopted
    taken := hpromotes.lazy ▸ h.taken
    known := hpromotes.known ▸ h.known
    lazy := hpromotes.lazy ▸ h.lazy
    deferred := ?_
    learnt := hpromotes.known ▸ h.learnt
    rules := hrules ▸ h.rules }
  intro k a ha
  rw [hpromotes.lazy] at ha
  rcases h.deferred k a ha with hlazy | ⟨hnone, hget, hseen⟩
  · exact .inl hlazy
  · -- Only atoms that live in the lazy partition are promoted.
    have hstate : y.pool.state a = .lazy := congrArg GroundAtom.state hseen
    have hsame : (y.unstage ps).2.pool.state a = y.pool.state a := by
      refine (hpromotes.states a).resolve_right fun hmoved => ?_
      exact absurd (hstate.symm.trans hmoved.1) (by simp)
    exact .inr ⟨hnone, hget, (AtomPool.view_congr (hpromotes.values a) hsame).trans hseen⟩

/-- Unstaging completes an activation, if no atom was staged before. -/
theorem Activates.unstage (h : x.Activates atoms x.store.layout.lazy y)
    (hapart : x.store.layout.lazy ≠ x.store.layout.write) (hempty : x.store.LazyEmpty)
    {ps : List Predicate} (hps : ∀ a ∈ atoms, a.key.predicate ∈ ps) :
    x.Activates atoms x.store.layout.write (y.unstage ps).2 ∧
      (y.unstage ps).2.store.LazyEmpty := by
  obtain ⟨-, -, -, hpromotes⟩ := y.promotes_unstage ps
  have hunstages := y.unstages_unstage (h.layout ▸ hapart) ps
  have hrows := hunstages.rows
  rw [h.layout] at hpromotes hrows
  refine ⟨{ h.toTakesOver.unstage ps with
    stored := ?_
    others := ?_
    states := ?_
    otherStates := ?_ }, hunstages.lazyEmpty (h.layout ▸ hapart) ?_⟩
  · intro a ha
    rw [hrows, h.stored a ha, Option.map_some, if_pos ⟨hps a ha, rfl⟩]
    exact congrArg (fun v => some (StoredAtom.mk v _)) (hpromotes.values a).symm
  · intro k hk
    rw [hrows, h.others k hk]
    cases hrow : x.store.rows.find? k with
    | none => rfl
    | some stored => rw [Option.map_some, if_neg fun hc => hempty k stored hrow hc.2]
  · intro a ha
    exact hpromotes.moved a.key a (h.adopted a ha) (hps a ha) (h.states a ha)
  · intro a ha hnot
    have hbefore : y.pool.state a = x.pool.state a := (h.otherStates a ha hnot).eq
    exact hbefore ▸ hpromotes.states a
  · intro k stored hk hlazy
    rw [h.layout] at hlazy
    by_cases hmem : k ∈ atoms.map Handle.key
    · obtain ⟨a, ha, rfl⟩ := List.mem_map.mp hmem
      exact hps a ha
    · rw [h.others k hmem] at hk
      exact absurd hlazy (hempty k stored hk)

end Unstaging

/-- The atoms that the store accepts are of standard predicates. -/
theorem mem_standardPredicates_of_stage (h : x.stage atoms = .ok y) {a : Handle} (ha : a ∈ atoms) :
    a.key.predicate ∈ standardPredicates atoms := by
  obtain ⟨store, hcommit, -⟩ := stage_eq_ok h
  have hallowed := (Store.commits_of_commit hcommit).1 _ (List.mem_map.mpr ⟨a, ha, rfl⟩)
  rw [standardPredicates, mem_distinct, List.mem_filter]
  exact ⟨List.mem_map.mpr ⟨a, ha, rfl⟩, (Store.standard_of_insertFault?_eq_none hallowed).1⟩

/-- Activating atoms is refused by the store and does nothing, or stops when it has got as far as
the lazy partition, or goes on from there by unstaging. -/
theorem activates_of_activateAtoms {b : RuleBase} (hx : x.manager.Sound)
    (hatoms : ∀ a ∈ atoms, x.manager.lazy.find? a.key = some a)
    {result : Except ActivationFault Unit} (h : x.activateAtoms b atoms = (result, y)) :
    (∃ refusal, result = .error (.store refusal) ∧ y = x) ∨
      (∃ fault, result = .error fault ∧ (∀ refusal, fault ≠ .store refusal) ∧
        x.Activates atoms x.store.layout.lazy y) ∨
      (result = .ok () ∧ (∀ a ∈ atoms, a.key.predicate ∈ standardPredicates atoms) ∧
        ∃ grounded, x.Activates atoms x.store.layout.lazy grounded ∧
          y = (grounded.unstage (standardPredicates atoms)).2) := by
  rcases activateAtoms_cases h with ⟨fault, hstage, rfl, rfl⟩ |
    ⟨staged, ground, w, hstage, hground, hend⟩
  · obtain ⟨refusal, -, rfl⟩ := stage_eq_error_iff.mp hstage
    exact .inl ⟨refusal, rfl, rfl⟩
  · have hstaged : staged.manager.Sound := by
      obtain ⟨store, -, rfl⟩ := stage_eq_ok hstage
      exact (Manager.adopt_sound_grows hx (fun a ha => hx.gives_of_lazy (hatoms a ha)) _).1
    have hactivates := (activates_of_stage hx hatoms hstage).ground hx hstaged
      ((RuleBase.extends_groundStaged hground).mono fun _ => RuleBase.isClause_of_clauses)
    rcases hend with ⟨fault, rfl, rfl, rfl⟩ | ⟨n, -, hunstage⟩
    · refine .inr (.inl ⟨fault, rfl, fun refusal hfault => ?_, hactivates⟩)
      rw [hfault] at hground
      exact RuleBase.groundStaged_ne_store hground
    · have hok := unstage_fst { staged with work := w } (standardPredicates atoms)
      rw [hunstage] at hok
      refine .inr (.inr ⟨hok, fun a ha => mem_standardPredicates_of_stage hstage ha, _,
        hactivates, ?_⟩)
      rw [hunstage]

end Session

end RuleGrounding
