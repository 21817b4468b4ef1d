import Mathlib.Algebra.BigOperators.Group.Finset.Basic
import RuleGrounding.Proofs.Grounding.Constraints

/-!
# Expanding positions

A term is expanded position by position: each argument that is a summation variable
ranges over the set of that variable on its own. For an atom in which no summation
variable stands twice this gives the instances, one for each choice of constants for
the variables. Where one stands twice there are more tuples than choices.
-/

namespace RuleGrounding

namespace TermAtom

/-- How many arguments are a summation variable. -/
def occurrences (a : TermAtom) (v : SummationVariable) : Nat :=
  (a.args.filterMap SummationTerm.summation?).count v

theorem summationVariables_eq (a : TermAtom) :
    a.summationVariables = distinct (a.args.filterMap SummationTerm.summation?) := by
  cases a with
  | plain a =>
    have hnone : (a.args.map SummationTerm.plain).filterMap SummationTerm.summation? = [] := by
      rw [List.filterMap_eq_nil_iff]
      intro t ht
      obtain ⟨u, -, rfl⟩ := List.mem_map.mp ht
      rfl
    rw [summationVariables, args, hnone]
    rfl
  | sum a => rfl

theorem mem_filterMap_summation? {a : TermAtom} {v : SummationVariable} :
    v ∈ a.args.filterMap SummationTerm.summation? ↔ v ∈ a.summationVariables := by
  rw [summationVariables_eq, mem_distinct]

end TermAtom

/-- A product over a list, by the distinct elements and how often each of them stands there. -/
theorem prod_map_eq_prod_distinct {α : Type} [DecidableEq α] (l : List α) (f : α → Nat) :
    (l.map f).prod = ((distinct l).map fun a => f a ^ l.count a).prod := by
  have hsame : (distinct l).toFinset = l.toFinset := by
    ext a
    rw [List.mem_toFinset, List.mem_toFinset, mem_distinct]
  rw [Finset.prod_list_map_count, ← hsame]
  exact List.prod_toFinset _ (nodup_distinct l)

namespace SelectionSets

variable {sets : SelectionSets} {τ : Valuation}

theorem length_product_domains (args : List SummationTerm) :
    (CrossProduct.product (args.map (SummationTerm.domain τ sets))).length =
      ((args.filterMap SummationTerm.summation?).map sets.size).prod := by
  induction args with
  | nil => rfl
  | cons a args ih =>
    rw [List.map_cons, CrossProduct.length_product_cons, ih]
    cases a with
    | plain t =>
      rw [List.filterMap_cons]
      exact Nat.one_mul _
    | sum v =>
      rw [List.filterMap_cons]
      dsimp only [SummationTerm.summation?]
      rw [List.map_cons, List.prod_cons]
      rfl

end SelectionSets

namespace ExpressionTerm

variable {t : ExpressionTerm} {τ : Valuation} {sets : SelectionSets} {m : Manager}
  {entries : List (Float × Handle)}

/-- Some constants are those of an instance of the atom, by a choice of one constant for each of its
summation variables. -/
def IsChoice (t : ExpressionTerm) (τ : Valuation) (sets : SelectionSets) (args : List Constant) :
    Prop :=
  ∃ choice : SummationVariable → Constant,
    (∀ v ∈ t.atom.summationVariables, choice v ∈ sets.elements v) ∧
      args = t.atom.args.map (SummationTerm.eval τ choice)

/-- Some entry is for the atom with these constants. -/
def Reaches (t : ExpressionTerm) (m : Manager) (entries : List (Float × Handle))
    (args : List Constant) : Prop :=
  ∃ entry ∈ entries, m.GivesInstance t.atom.predicate args entry.2

/-- What a term is expanded to. -/
structure ExpandsByPosition (t : ExpressionTerm) (τ : Valuation) (sets : SelectionSets)
    (m : Manager) (entries : List (Float × Handle)) : Prop where
  /-- There is one entry for each tuple of constants from the sets of the positions. -/
  tuples : ∃ tuples : List (List Constant), tuples.Nodup ∧
    (∀ args, args ∈ tuples ↔ List.Forall₂ (fun c a => c ∈ SummationTerm.domain τ sets a) args
      t.atom.args) ∧
    List.Forall₂ (fun args entry => entry.1 = t.coefficient.value sets.size ∧
      m.GivesInstance t.atom.predicate args entry.2) tuples entries
  /-- The size of the set of a summation variable counts as often as the variable stands in the
  atom. -/
  count : entries.length =
    (t.atom.summationVariables.map fun v => sets.size v ^ t.atom.occurrences v).prod
  /-- If one of the sets is empty there are no entries. -/
  empty : (∃ v ∈ t.atom.summationVariables, sets.elements v = []) → entries = []
  /-- Every choice for the summation variables has its entry. -/
  choices : ∀ args, t.IsChoice τ sets args → t.Reaches m entries args
  /-- If no summation variable stands twice there are no other entries, and as many as choices. -/
  single : (∀ v ∈ t.atom.summationVariables, t.atom.occurrences v = 1) →
    (∀ args, t.Reaches m entries args ↔ t.IsChoice τ sets args) ∧
      entries.length = (t.atom.summationVariables.map sets.size).prod

/-- The entries reach the atoms of the tuples of the domains. -/
theorem Enumerates.reaches_iff (h : t.Enumerates τ sets m entries) {args : List Constant} :
    t.Reaches m entries args ↔
      args ∈ CrossProduct.product (t.atom.args.map (SummationTerm.domain τ sets)) := by
  rw [Enumerates] at h
  constructor
  · rintro ⟨entry, hentry, hinstance⟩
    obtain ⟨i, hi, rfl⟩ := List.getElem_of_mem hentry
    have hi' : i < (CrossProduct.product
        (t.atom.args.map (SummationTerm.domain τ sets))).length := by
      rw [h.length_eq]
      exact hi
    have hsame := (h.get hi' hi).2.args
    rw [List.get_eq_getElem, List.get_eq_getElem, hinstance.args] at hsame
    rw [hsame]
    exact List.getElem_mem hi'
  · intro hargs
    obtain ⟨i, hi, rfl⟩ := List.getElem_of_mem hargs
    have hi' : i < entries.length := by
      rw [← h.length_eq]
      exact hi
    exact ⟨entries[i], List.getElem_mem hi', (h.get hi hi').2⟩

/-- A choice for the summation variables gives a tuple of the domains. -/
theorem IsChoice.mem_product {args : List Constant} (h : t.IsChoice τ sets args) :
    args ∈ CrossProduct.product (t.atom.args.map (SummationTerm.domain τ sets)) := by
  obtain ⟨choice, hchoice, rfl⟩ := h
  rw [CrossProduct.mem_product, List.forall₂_map_left_iff, List.forall₂_map_right_iff,
    List.forall₂_same]
  intro a ha
  cases a with
  | plain u => exact List.mem_singleton_self _
  | sum v => exact hchoice v (TermAtom.mem_summationVariables.mpr ha)

/-- Listing the tuples of the domains is expanding position by position. -/
theorem Enumerates.expandsByPosition (hsets : ∀ v, (sets.elements v).Nodup)
    (h : t.Enumerates τ sets m entries) : t.ExpandsByPosition τ sets m entries := by
  have hcount : entries.length =
      (t.atom.summationVariables.map fun v => sets.size v ^ t.atom.occurrences v).prod := by
    rw [← h.length_eq, SelectionSets.length_product_domains, prod_map_eq_prod_distinct,
      TermAtom.summationVariables_eq]
    rfl
  refine ⟨⟨_, SelectionSets.nodup_product_domains hsets _, fun args => ?_, h⟩, hcount, ?_, ?_, ?_⟩
  · rw [CrossProduct.mem_product, List.forall₂_map_right_iff]
  · rintro ⟨v, hv, hempty⟩
    have hdomain : [] ∈ t.atom.args.map (SummationTerm.domain τ sets) := by
      rw [← hempty]
      exact List.mem_map.mpr ⟨.sum v, TermAtom.mem_summationVariables.mp hv, rfl⟩
    rw [Enumerates, CrossProduct.product_eq_nil hdomain] at h
    exact List.forall₂_nil_left_iff.mp h
  · intro args hargs
    exact h.reaches_iff.mpr hargs.mem_product
  · intro honce
    have hnodup : (t.atom.args.filterMap SummationTerm.summation?).Nodup := by
      rw [List.nodup_iff_count_eq_one]
      exact fun v hv => honce v (TermAtom.mem_filterMap_summation?.mp hv)
    constructor
    · intro args
      rw [h.reaches_iff, SelectionSets.mem_product_domains hnodup, IsChoice]
      simp only [TermAtom.mem_summationVariables]
    · rw [hcount]
      congr 1
      apply List.map_congr_left
      intro v hv
      rw [honce v hv, Nat.pow_one]

end ExpressionTerm

namespace ArithmeticRule

/-- A coefficient counts against a row only if its term has entries. -/
theorem exists_not_finite {ts : List ExpressionTerm} {τ : Valuation} {sets : SelectionSets}
    (h : ((ts.filterMap fun t => t.expansion? τ sets).all fun e => e.coefficient.isFinite) =
      false) :
    ∃ t ∈ ts, (∀ v ∈ t.atom.summationVariables, sets.elements v ≠ []) ∧
      (t.coefficient.value sets.size).isFinite = false := by
  obtain ⟨e, he, hinfinite⟩ := List.all_eq_false.mp h
  obtain ⟨t, ht, hexpansion⟩ := List.mem_filterMap.mp he
  rw [ExpressionTerm.expansion?] at hexpansion
  split at hexpansion
  · cases hexpansion
  · rename_i hnonempty
    cases hexpansion
    refine ⟨t, ht, ?_, Bool.eq_false_iff.mpr hinfinite⟩
    intro v hv hempty
    apply hnonempty
    rw [List.any_eq_true]
    refine ⟨[], ?_, rfl⟩
    rw [← hempty]
    exact List.mem_map.mpr ⟨.sum v, TermAtom.mem_summationVariables.mp hv, rfl⟩

/-- Grounding one row with given selection sets produces nothing, if the right side is not finite or
the coefficient of a term with entries. Otherwise it produces one ground constraint for each
inequality, all over the same entries: those of all terms, each expanded position by position. -/
theorem groundRow_expands_by_position {r : ArithmeticRule} {s : Store} {vs : List Variable}
    {τ : Valuation} {sets : SelectionSets} {w w' : Workspace}
    (hsets : ∀ v, (sets.elements v).Nodup) (hw : w.manager.Sound) {n : Nat}
    (hrun : (r.groundRow s (ResultList.assign vs (vs.map τ)) sets).runOn w = (.ok n, w')) :
    (((r.expression.constant.value sets.size).isFinite = false ∨
        ∃ t ∈ r.expression.terms, (∀ v ∈ t.atom.summationVariables, sets.elements v ≠ []) ∧
          (t.coefficient.value sets.size).isFinite = false) ∧ n = 0 ∧ w' = w) ∨
      ∃ parts, List.Forall₂ (fun t part => t.ExpandsByPosition τ sets w'.manager part)
          r.expression.terms parts ∧
        w'.rules = w.rules ++ r.expression.comparator.inequalities.map
          (r.constraintOf parts.flatten (r.expression.constant.value sets.size)) ∧
        n = r.expression.comparator.inequalities.length := by
  rcases groundRow_cases hw hrun with ⟨hskip, rfl, rfl⟩ | ⟨-, -, -, -, parts, hparts, hrules, hn⟩
  · exact .inl ⟨hskip.imp_right exists_not_finite, rfl, rfl⟩
  · refine .inr ⟨parts, ?_, hrules, hn⟩
    exact hparts.imp fun _ _ h => h.expandsByPosition hsets

/-- That a group links constants, with the same summation variable for both of them. -/
def linksAtom : SummationAtom :=
  ⟨.standard "Links" [.integer, .integer, .integer],
    [.plain (.var ⟨"A"⟩), .sum ⟨⟨"B"⟩⟩, .sum ⟨⟨"B"⟩⟩]⟩

/-- A rule about this atom. -/
def linksRule : ArithmeticRule where
  name := "links"
  expression := ⟨[⟨.number 1.0, .sum linksAtom⟩], .lessOrEqual, .number 1.0⟩
  selects := ∅
  weight := none

/-- Two constants for the summation variable. -/
def linksSets : SelectionSets := .ofList [(⟨⟨"B"⟩⟩, [.integer 1, .integer 2])]

/-- The group of the row. -/
def linksRow : Valuation := fun _ => .integer 7

/-- What the row is grounded to with these constants. -/
def linksRun : Except GroundingFault Nat × Workspace :=
  (linksRule.groundRow (.empty ⟨[⟨0⟩], ⟨1⟩, ⟨2⟩⟩ 0.0)
    (ResultList.assign linksRule.expression.vars (linksRule.expression.vars.map linksRow))
    linksSets).runOn ⟨.fresh (.deferring 0.5), []⟩

/-- The atom is expanded to four ground atoms, although there are two choices for its summation
variable. -/
theorem linksAtom_expands_to_all_pairs :
    linksRun.1 = .ok 1 ∧ linksAtom.summationVariables = [⟨⟨"B"⟩⟩] ∧ linksSets.size ⟨⟨"B"⟩⟩ = 2 ∧
      ∃ entries, linksRun.2.rules = [linksRule.constraintOf entries 1.0 .lessOrEqual] ∧
        entries.length = 4 ∧
        ExpressionTerm.Reaches ⟨.number 1.0, .sum linksAtom⟩ linksRun.2.manager entries
          [.integer 7, .integer 2, .integer 2] := by
  have hrun : linksRun = (.ok 1, linksRun.2) := rfl
  have hsets : ∀ v, (linksSets.elements v).Nodup := by
    intro v
    by_cases hv : v = ⟨⟨"B"⟩⟩
    · subst hv
      decide
    · have hnone : linksSets.find? v = none := by
        rw [FiniteMap.find?_eq_none_iff]
        exact fun hmem => hv (List.mem_singleton.mp hmem)
      rw [SelectionSets.elements, hnone]
      exact List.nodup_nil
  rcases groundRow_expands_by_position hsets (Manager.sound_fresh (.deferring 0.5)) hrun with
    ⟨-, hn, -⟩ | ⟨parts, hparts, hrules, -⟩
  · cases hn
  · obtain ⟨part, rest, hpart, hrest, rfl⟩ := List.forall₂_cons_left_iff.mp hparts
    obtain rfl := List.forall₂_nil_left_iff.mp hrest
    refine ⟨rfl, rfl, rfl, _, hrules, ?_, ?_⟩
    · rw [List.flatten_singleton, hpart.count]
      rfl
    · rw [List.flatten_singleton]
      apply hpart.choices
      refine ⟨fun _ => .integer 2, ?_, rfl⟩
      intro v hv
      rw [List.mem_singleton.mp hv]
      decide

end ArithmeticRule

end RuleGrounding
