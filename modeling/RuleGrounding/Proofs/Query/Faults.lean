import Mathlib.Data.Option.Basic
import RuleGrounding.Proofs.Query.Answers

/-!
# When queries are refused

Whether a query is refused depends on its variables alone: those that it returns have to
occur in it or to be pinned, and those of its filters to be bound by a generator or pinned.
-/

namespace RuleGrounding

namespace Query

variable {q : Query}

theorem mem_formulaVariables {v : Variable} :
    v ∈ q.formulaVariables ↔ ∃ l ∈ q.literals, v ∈ l.atom.vars := by
  rw [formulaVariables, mem_distinct, List.mem_flatMap]

/-- The bound variables are the pinned ones and those of the generators. -/
theorem mem_boundVariables {v : Variable} : v ∈ q.boundVariables ↔
    v ∈ q.pinned.keys ∨ ∃ l ∈ q.literals, l.generates = true ∧ v ∈ l.atom.vars := by
  rw [boundVariables, List.mem_append, List.mem_flatMap]
  refine or_congr_right ⟨?_, ?_⟩
  · rintro ⟨⟨i, l⟩, hl, hv⟩
    obtain ⟨hi, hgenerates⟩ := mem_generators.mp hl
    exact ⟨l, List.mem_of_getElem? hi, hgenerates, hv⟩
  · rintro ⟨l, hl, hgenerates, hv⟩
    obtain ⟨i, hi⟩ := List.mem_iff_getElem?.mp hl
    exact ⟨(i, l), mem_generators.mpr ⟨hi, hgenerates⟩, hv⟩

section Untargeted

variable (htarget : q.lazyTarget? = none)
  (hprojection : ∀ v ∈ q.projection, v ∈ q.formulaVariables ∨ v ∈ q.pinned.keys)

include htarget hprojection

/-- A query without lazy target that returns what it knows is refused for a filter only. -/
theorem fault?_eq_filterFault? : q.fault? = q.filterFault? := by
  have hnone : q.projectionFault? = none := by
    rw [projectionFault?, Option.map_eq_none_iff, List.find?_eq_none]
    intro v hv
    rcases hprojection v hv with hv | hv
    · simp [hv]
    · simp [FiniteMap.contains_iff.mpr hv]
  rw [fault?, targetFault?, htarget, hnone]
  rfl

/-- Then the refusal names a variable of a filter that nothing binds. -/
theorem exists_unbound_of_fault? {fault : QueryFault} (h : q.fault? = some fault) :
    ∃ l ∈ q.literals, l.generates = false ∧ ∃ v ∈ l.atom.vars, v ∉ q.boundVariables ∧
      fault = .unboundVariable v.name l.toText := by
  rw [fault?_eq_filterFault? htarget hprojection, filterFault?] at h
  obtain ⟨l, hl, h⟩ := List.exists_of_findSome?_eq_some h
  obtain ⟨v, hv, rfl⟩ := Option.map_eq_some_iff.mp h
  obtain ⟨hmem, hgenerates⟩ := mem_filters.mp hl
  have hunbound := List.find?_some hv
  exact ⟨l, hmem, hgenerates, v, List.mem_of_find?_eq_some hv, of_decide_eq_true hunbound, rfl⟩

/-- So it is not refused if every variable of a filter is bound. -/
theorem fault?_eq_none (hfilters : ∀ l ∈ q.literals, l.generates = false →
    ∀ v ∈ l.atom.vars, v ∈ q.boundVariables) : q.fault? = none := by
  cases hfault : q.fault? with
  | none => rfl
  | some fault =>
    obtain ⟨l, hl, hgenerates, v, hv, hunbound, -⟩ :=
      exists_unbound_of_fault? htarget hprojection hfault
    exact absurd (hfilters l hl hgenerates v hv) hunbound

end Untargeted

/-- Making a generator the lazy target is no reason to refuse a query. -/
theorem fault?_target (h : q.fault? = none) {i : Nat} {l : Literal} (hi : q.literals[i]? = some l)
    (hl : l.generates = true) : (q.target i).fault? = none := by
  have htarget : (q.target i).targetFault? = none := by
    change (if (q.literals[i]?).any Literal.generates then none else _) = none
    rw [hi, Option.any_some, if_pos hl]
  rw [fault?, Option.orElse_eq_none] at h
  rw [fault?, htarget]
  exact h.2

/-- A query of the positive literal of one stored predicate is not refused. -/
theorem fault?_ofLiterals_singleton {a : Atom} (ha : a.predicate.isStandard = true) :
    (ofLiterals [.positive a]).fault? = none := by
  apply fault?_eq_none
  · rfl
  · exact fun v hv => .inl hv
  · intro l hl hgenerates
    rw [List.mem_singleton.mp hl, Literal.generates, Literal.positive, ha] at hgenerates
    cases hgenerates

end Query

end RuleGrounding
