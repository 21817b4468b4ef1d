import RuleGrounding.Proofs.Activation.NewAnswers

/-!
# Regrounding for staged atoms

Grounding the rules that subscribe to staged predicates, for the answers that
involve a staged atom, brings ground rules of a smaller store up to date: it adds
what a full grounding over the larger store would produce besides.
-/

namespace RuleGrounding

/-- The rules are logical, and their atoms have the declared number of arguments, as those of rules
made of checked atoms have (`LogicalRule.hasArities_of_make`). -/
def RuleBase.IsLogical (b : RuleBase) : Prop :=
  ∀ rule ∈ b.rules, ∃ r, rule = .logical r ∧ r.HasArities

/-- Ground rules are, by their outlines and up to order, those of a full grounding over a store. -/
structure RuleBase.GroundedOver (b : RuleBase) (s : Store) (rules : List GroundRule) : Prop where
  /-- The full grounding does not fail. -/
  groundable : ∀ rule ∈ b.rules, rule.Groundable s
  /-- It has the same outlines. -/
  outlines : (rules.map GroundRule.outline).Perm (b.rules.flatMap (Rule.outlinesOver s))

/-- The outlines of a rule for the answers over a later store only. -/
def Rule.newOutlines (s s' : Store) : Rule → List RuleOutline
  | logical r => (r.newRows s s').flatMap r.outlines
  | arithmetic _ => []

theorem RuleBase.IsLogical.logical {b : RuleBase} (hb : b.IsLogical) :
    ∀ rule ∈ b.rules, ∃ r, rule = .logical r := by
  intro rule hrule
  obtain ⟨r, hr, -⟩ := hb rule hrule
  exact ⟨r, hr⟩

/-- A rule of such a base that can be grounded is a logical one with these properties. -/
theorem RuleBase.IsLogical.of_mem {b : RuleBase} {s : Store} (hb : b.IsLogical)
    (hgroundable : ∀ rule ∈ b.rules, rule.Groundable s) {rule : Rule} (hrule : rule ∈ b.rules) :
    ∃ r, rule = .logical r ∧ r.HasArities ∧ r.Groundable s := by
  have hr := hgroundable rule hrule
  obtain ⟨r, rfl, ha⟩ := hb rule hrule
  exact ⟨r, rfl, ha, hr⟩

section SameAtoms

variable {s s' : Store}

/-- Stores that store the same atoms give a rule the same rows. -/
theorem LogicalRule.rows_perm_of_stores {r : LogicalRule} (ha : r.HasArities)
    (hquery : r.groundingQuery.fault? = none) (h : ∀ k, s'.Stores k ↔ s.Stores k) :
    (r.groundingQuery.answers s').rows.Perm (r.groundingQuery.answers s).rows := by
  rw [List.perm_ext_iff_of_nodup (Query.nodup_answers _ _) (Query.nodup_answers _ _)]
  intro row
  rw [mem_rows_groundingQuery ha hquery, mem_rows_groundingQuery ha hquery]
  exact exists_congr fun σ => and_congr_left fun _ => satisfiedBy_congr h

/-- What is grounded over a store is grounded over every store with the same atoms. -/
theorem RuleBase.GroundedOver.of_stores {b : RuleBase} {rules : List GroundRule}
    (hb : b.IsLogical) (hg : b.GroundedOver s rules) (h : ∀ k, s'.Stores k ↔ s.Stores k) :
    b.GroundedOver s' rules := by
  refine ⟨fun rule hrule => ?_, hg.outlines.trans (List.Perm.flatMap_left _ fun rule hrule => ?_)⟩
  · obtain ⟨r, rfl, ha, hr⟩ := hb.of_mem hg.groundable hrule
    have hperm := LogicalRule.rows_perm_of_stores ha hr.query h
    exact ⟨hr.query, fun row hrow => hr.rows row (hperm.mem_iff.mp hrow)⟩
  · obtain ⟨r, rfl, ha, hr⟩ := hb.of_mem hg.groundable hrule
    exact ((LogicalRule.rows_perm_of_stores ha hr.query h).flatMap_right _).symm

end SameAtoms

/-- If the elements at other positions give nothing, the elements at some positions give, up to
order, what the whole list gives. -/
theorem perm_flatMap_filterMap_getElem? {α β : Type} {xs : List α} {f : α → List β}
    {indices : List Nat} (hnodup : indices.Nodup) (hlt : ∀ i ∈ indices, i < xs.length)
    (hrest : ∀ i x, xs[i]? = some x → i ∉ indices → f x = []) :
    ((indices.filterMap (xs[·]?)).flatMap f).Perm (xs.flatMap f) := by
  let range := List.range xs.length
  have hindices : (range.filter fun i => decide (i ∈ indices)).Perm indices := by
    rw [List.perm_ext_iff_of_nodup (List.nodup_range.filter _) hnodup]
    intro i
    rw [List.mem_filter, decide_eq_true_eq]
    exact ⟨fun hi => hi.2, fun hi => ⟨List.mem_range.mpr (hlt i hi), hi⟩⟩
  have hothers : ((range.filter fun i => !decide (i ∈ indices)).filterMap (xs[·]?)).flatMap f =
      [] := by
    rw [List.flatMap_eq_nil_iff]
    intro x hx
    obtain ⟨i, hi, hx⟩ := List.mem_filterMap.mp hx
    have hnot : i ∉ indices := by simpa using (List.mem_filter.mp hi).2
    exact hrest i x hx hnot
  have hsplit : (range.filterMap (xs[·]?)).Perm (indices.filterMap (xs[·]?) ++
      (range.filter fun i => !decide (i ∈ indices)).filterMap (xs[·]?)) := by
    rw [← List.filterMap_append]
    exact ((List.filter_append_perm _ range).symm.trans (hindices.append_right _)).filterMap _
  rw [filterMap_getElem?_range] at hsplit
  have hflat := hsplit.flatMap_right f
  rw [List.flatMap_append, hothers, List.append_nil] at hflat
  exact hflat.symm

namespace RuleBase

variable {b : RuleBase} {s s' : Store} {keys : List GroundKey} {predicates : List Predicate}
  (hb : b.IsLogical) (hgroundable : ∀ rule ∈ b.rules, rule.Groundable s)
  (h : s.Stages s' keys) (hpredicates : ∀ p, p ∈ predicates ↔ p ∈ keys.map GroundKey.predicate)

include hb hgroundable h hpredicates

/-- Grounding rules for staged atoms that succeeds accepts their new rows and produces the
outlines of these. -/
theorem emits_of_groundStaged (hempty : s.LazyEmpty) {indices : List Nat} {w w' : Workspace}
    (hw : w.manager.Computes) {n : Nat}
    (hrun : b.groundStaged s' predicates indices w = (.ok n, w')) :
    (∀ i ∈ indices, ∀ r, b.rules[i]? = some (.logical r) →
      ∀ row ∈ r.newRows s s', r.Accepts row) ∧
    ∃ outlines, w.Emits w' outlines ∧ outlines.Perm
      ((indices.filterMap (b.rules[·]?)).flatMap (Rule.newOutlines s s')) := by
  induction indices generalizing w n with
  | nil =>
    obtain ⟨-, rfl⟩ := Prod.mk.inj hrun
    exact ⟨fun i hi => absurd hi List.not_mem_nil, [], .refl hw, .refl _⟩
  | cons index rest ih =>
    rcases groundStaged_cons_cases hrun with ⟨hnone, hrest⟩ |
      ⟨r, hr, ⟨fault, -, hfault⟩ | ⟨k, w₁, later, hfirst, hrest, hlater⟩⟩
    · have hskip : b.rules[index]? = none := by
        cases hrule : b.rules[index]? with
        | none => rfl
        | some rule =>
          obtain ⟨r, rfl, -⟩ := hb rule (List.mem_of_getElem? hrule)
          exact absurd hrule (hnone r)
      obtain ⟨haccepts, hemits⟩ := ih hw hrest
      rw [List.filterMap_cons_none hskip]
      refine ⟨fun i hi r hr => ?_, hemits⟩
      rcases List.mem_cons.mp hi with rfl | hi
      · exact absurd hr (hnone r)
      · exact haccepts i hi r hr
    · cases hfault
    · obtain ⟨m, rfl, -⟩ := map_eq_ok_iff.mp hlater.symm
      obtain ⟨_, he, ha, hgr⟩ := hb.of_mem hgroundable (List.mem_of_getElem? hr)
      cases he
      obtain ⟨hrows, first, hemits, hperm⟩ :=
        r.emits_of_groundStaged ha hgr.query h hempty hpredicates hw hfirst
      obtain ⟨haccepts, outlines, hemits', hperm'⟩ := ih hemits.1 hrest
      rw [List.filterMap_cons_some hr, List.flatMap_cons]
      refine ⟨fun i hi r' hr' => ?_, first ++ outlines, hemits.trans hemits',
        hperm.append hperm'⟩
      rcases List.mem_cons.mp hi with rfl | hi
      · rw [hr] at hr'
        cases hr'
        exact hrows
      · exact haccepts i hi r' hr'

/-- The rules that are not subscribed to the staged predicates have no new rows. -/
theorem newRows_eq_nil_of_not_mem {i : Nat} {r : LogicalRule}
    (hr : b.rules[i]? = some (.logical r))
    (hi : i ∉ (Subscriptions.ofRules b).rulesFor predicates) : r.newRows s s' = [] := by
  obtain ⟨_, he, ha, hgr⟩ := hb.of_mem hgroundable (List.mem_of_getElem? hr)
  cases he
  refine LogicalRule.newRows_eq_nil ha hgr.query h fun p hp hstaged => ?_
  exact hi (Subscriptions.mem_rulesFor_ofRules.mpr ⟨r, hr, p, (hpredicates p).mpr hstaged, hp⟩)

/-- The affected rules have, up to order, all new outlines of the base. -/
theorem newOutlines_perm :
    ((((Subscriptions.ofRules b).rulesFor predicates).filterMap (b.rules[·]?)).flatMap
      (Rule.newOutlines s s')).Perm (b.rules.flatMap (Rule.newOutlines s s')) := by
  refine perm_flatMap_filterMap_getElem? (Subscriptions.nodup_rulesFor _ _) (fun i hi => ?_)
    fun i rule hrule hi => ?_
  · obtain ⟨r, hr, -⟩ := Subscriptions.mem_rulesFor_ofRules.mp hi
    exact (List.getElem?_eq_some_iff.mp hr).1
  · obtain ⟨r, rfl, -⟩ := hb rule (List.mem_of_getElem? hrule)
    rw [Rule.newOutlines, newRows_eq_nil_of_not_mem hb hgroundable h hpredicates hrule hi]
    rfl

omit hpredicates in
/-- Over the larger store a full grounding has the new outlines besides those that it has over the
smaller one. -/
theorem outlinesOver_perm : (b.rules.flatMap (Rule.outlinesOver s')).Perm
    (b.rules.flatMap (Rule.outlinesOver s) ++ b.rules.flatMap (Rule.newOutlines s s')) := by
  refine (List.Perm.flatMap_left _ fun rule hrule => ?_).trans
    (List.flatMap_append_perm _ _ _).symm
  obtain ⟨r, rfl, ha, hr⟩ := hb.of_mem hgroundable hrule
  have hrows := (LogicalRule.answers_perm ha hr.query h).flatMap_right r.outlines
  rwa [List.flatMap_append] at hrows

omit hgroundable in
/-- Grounding the affected rules for staged atoms brings the ground rules up to date. -/
theorem GroundedOver.of_groundStaged (hempty : s.LazyEmpty) {w w' : Workspace}
    (hg : b.GroundedOver s w.rules) (hw : w.manager.Computes) {n : Nat}
    (hrun : b.groundStaged s' predicates ((Subscriptions.ofRules b).rulesFor predicates) w =
      (.ok n, w')) : w'.manager.Computes ∧ b.GroundedOver s' w'.rules := by
  obtain ⟨haccepts, outlines, ⟨hw', hemits⟩, hperm⟩ :=
    emits_of_groundStaged hb hg.groundable h hpredicates hempty hw hrun
  refine ⟨hw', fun rule hrule => ?_, ?_⟩
  · obtain ⟨r, rfl, ha, hr⟩ := hb.of_mem hg.groundable hrule
    refine ⟨hr.query, fun row hrow => ?_⟩
    rcases List.mem_append.mp ((LogicalRule.answers_perm ha hr.query h).mem_iff.mp hrow) with
      hold | hnew
    · exact hr.rows row hold
    · obtain ⟨i, hi⟩ := List.mem_iff_getElem?.mp hrule
      by_cases haffected : i ∈ (Subscriptions.ofRules b).rulesFor predicates
      · exact haccepts i haffected r hi row hnew
      · rw [newRows_eq_nil_of_not_mem hb hg.groundable h hpredicates hi haffected] at hnew
        exact absurd hnew List.not_mem_nil
  · have hnew := hperm.trans (newOutlines_perm hb hg.groundable h hpredicates)
    have hall := outlinesOver_perm hb hg.groundable h
    rw [hemits]
    exact (hg.outlines.append hnew).trans hall.symm

end RuleBase

end RuleGrounding
