import RuleGrounding.Proofs.OrderedSet
import RuleGrounding.Subscriptions

/-!
# Who subscribes to a predicate

The rules found for some predicates are the logical rules that query one of them,
each once.
-/

namespace RuleGrounding

/-- A rule subscribes to the predicates of the literals that bind its variables. -/
theorem LogicalRule.mem_queryPredicates {r : LogicalRule} {p : Predicate} :
    p ∈ r.queryPredicates ↔ ∃ l ∈ r.query, l.generates = true ∧ l.atom.predicate = p := by
  rw [queryPredicates, mem_distinct, List.mem_map]
  constructor
  · rintro ⟨l, hl, hp⟩
    obtain ⟨hl, hgenerates⟩ := List.mem_filter.mp hl
    refine ⟨l, List.mem_filter.mpr ⟨hl, ?_⟩, hgenerates, hp⟩
    exact (Bool.and_eq_true_iff.mp hgenerates).1
  · rintro ⟨l, hl, hgenerates, hp⟩
    exact ⟨l, List.mem_filter.mpr ⟨(List.mem_filter.mp hl).1, hgenerates⟩, hp⟩

namespace Subscriptions

/-- The subscribers of a predicate. -/
def subscribers (s : Subscriptions) (p : Predicate) : List Nat := (s.byPredicate.find? p).getD []

theorem mem_subscribers_subscribe {s : Subscriptions} {p q : Predicate} {i j : Nat} :
    j ∈ (s.subscribe q i).subscribers p ↔ j ∈ s.subscribers p ∨ p = q ∧ j = i := by
  rw [subscribers, subscribe, FiniteMap.find?_insert]
  split
  · rename_i he
    rw [he, Option.getD_some, OrderedSet.mem_insert, or_comm]
    simp [subscribers]
  · rename_i hne
    simp [subscribers, hne]

/-- Registering a logical rule adds it to the subscribers of the predicates that it queries. -/
theorem mem_subscribers_register {s : Subscriptions} {r : LogicalRule} {p : Predicate}
    {i j : Nat} : j ∈ (s.register i (.logical r)).subscribers p ↔
      j ∈ s.subscribers p ∨ p ∈ r.queryPredicates ∧ j = i := by
  rw [register]
  induction r.queryPredicates generalizing s with
  | nil => simp
  | cons q qs ih =>
    rw [List.foldl_cons, ih, mem_subscribers_subscribe, List.mem_cons, or_and_right, or_assoc]

/-- Registering rules from an index on adds each of them under its index. -/
theorem mem_subscribers_registerFrom {s : Subscriptions} {rules : List Rule} {p : Predicate}
    {index j : Nat} : j ∈ (s.registerFrom index rules).subscribers p ↔
      j ∈ s.subscribers p ∨ ∃ i r, rules[i]? = some (.logical r) ∧ j = index + i ∧
        p ∈ r.queryPredicates := by
  induction rules generalizing s index with
  | nil => simp [registerFrom]
  | cons rule rules ih =>
    have hfirst : j ∈ (s.register index rule).subscribers p ↔ j ∈ s.subscribers p ∨
        ∃ r, rule = .logical r ∧ j = index ∧ p ∈ r.queryPredicates := by
      cases rule with
      | logical r =>
        rw [mem_subscribers_register]
        simp [and_comm]
      | arithmetic r => simp [register]
    rw [registerFrom, ih, hfirst, or_assoc]
    refine or_congr_right ⟨?_, ?_⟩
    · rintro (⟨r, rfl, rfl, hp⟩ | ⟨i, r, hi, rfl, hp⟩)
      · exact ⟨0, r, rfl, rfl, hp⟩
      · exact ⟨i + 1, r, hi, by omega, hp⟩
    · rintro ⟨i, r, hi, rfl, hp⟩
      cases i with
      | zero => exact .inl ⟨r, Option.some.inj hi, rfl, hp⟩
      | succ i => exact .inr ⟨i, r, hi, by omega, hp⟩

theorem mem_rulesFor {s : Subscriptions} {ps : List Predicate} {j : Nat} :
    j ∈ s.rulesFor ps ↔ ∃ p ∈ ps, j ∈ s.subscribers p := by
  have hfold : ∀ acc : List Nat,
      j ∈ ps.foldl (fun acc p => OrderedSet.insertAll Nat.ble (s.subscribers p) acc) acc ↔
        j ∈ acc ∨ ∃ p ∈ ps, j ∈ s.subscribers p := by
    induction ps with
    | nil => simp
    | cons p ps ih =>
      intro acc
      rw [List.foldl_cons, ih, OrderedSet.mem_insertAll, or_comm (a := j ∈ s.subscribers p),
        or_assoc]
      simp only [List.mem_cons, exists_eq_or_imp]
  refine (hfold []).trans ?_
  simp only [List.not_mem_nil, false_or]

/-- The rules are found in ascending order. -/
theorem ascending_rulesFor (s : Subscriptions) (ps : List Predicate) :
    OrderedSet.Ascending Nat.ble (s.rulesFor ps) := by
  have hfold : ∀ acc : List Nat, OrderedSet.Ascending Nat.ble acc → OrderedSet.Ascending Nat.ble
      (ps.foldl (fun acc p => OrderedSet.insertAll Nat.ble (s.subscribers p) acc) acc) := by
    induction ps with
    | nil => exact fun acc h => h
    | cons p ps ih =>
      intro acc h
      refine ih _ (OrderedSet.ascending_insertAll (fun a b => ?_) (fun a b c => ?_)
        (fun a b => ?_) h)
      · rw [Nat.ble_eq, Nat.ble_eq]
        exact Nat.le_total a b
      · rw [Nat.ble_eq, Nat.ble_eq, Nat.ble_eq]
        exact Nat.le_trans
      · rw [Nat.ble_eq, Nat.ble_eq]
        exact Nat.le_antisymm
  exact hfold [] OrderedSet.ascending_nil

/-- No rule is found twice. -/
theorem nodup_rulesFor (s : Subscriptions) (ps : List Predicate) : (s.rulesFor ps).Nodup :=
  (s.ascending_rulesFor ps).nodup

/-- In which order the predicates are listed does not matter. -/
theorem rulesFor_congr (s : Subscriptions) {ps ps' : List Predicate}
    (h : ∀ p, p ∈ ps ↔ p ∈ ps') : s.rulesFor ps = s.rulesFor ps' := by
  refine (s.ascending_rulesFor ps).eq_of_mem_iff (fun a b => ?_) (s.ascending_rulesFor ps') ?_
  · rw [Nat.ble_eq, Nat.ble_eq]
    exact Nat.le_antisymm
  · intro j
    simp only [mem_rulesFor, h]

/-- The rules found for some predicates are the logical rules that query one of them. -/
theorem mem_rulesFor_ofRules {b : RuleBase} {ps : List Predicate} {j : Nat} :
    j ∈ (ofRules b).rulesFor ps ↔
      ∃ r, b.rules[j]? = some (.logical r) ∧ ∃ p ∈ ps, p ∈ r.queryPredicates := by
  have hempty : ∀ p, empty.subscribers p = [] := fun _ => rfl
  rw [mem_rulesFor]
  simp only [ofRules, mem_subscribers_registerFrom, hempty, List.not_mem_nil, false_or,
    Nat.zero_add]
  constructor
  · rintro ⟨p, hp, i, r, hi, rfl, hr⟩
    exact ⟨r, hi, p, hp, hr⟩
  · rintro ⟨r, hj, p, hp, hr⟩
    exact ⟨p, hp, j, r, hj, rfl, hr⟩

end Subscriptions

end RuleGrounding
