import RuleGrounding.Proofs.Grounding.Substitutions
import RuleGrounding.Proofs.Manager.Extensions
import RuleGrounding.Proofs.Query.Faults
import RuleGrounding.Proofs.Typing

/-!
# Grounding under a deferring manager

A deferring manager resolves every atom whose constants fit its predicate, and an accepted
rule binds the variables of its filters and of its head in its body. So all that can go
wrong when a logical rule is grounded is that an instance has a constant of the wrong type.
-/

namespace RuleGrounding

/-- The manager keeps atoms that are not stored as lazy ones. -/
def Manager.Defers (m : Manager) : Prop := ∃ threshold, m.policy = .deferring threshold

namespace Manager

variable {m m' : Manager} {s : Store} {p : Predicate} {args : List Constant}

/-- A deferring manager has an instance for every key, and goes on deferring. -/
theorem Defers.resolveKey (hm : m.Defers) (s : Store) (k : GroundKey) :
    ∃ h m', m.resolveKey s k = .ok (h, m') ∧ m'.Defers := by
  obtain ⟨threshold, hpolicy⟩ := hm
  obtain ⟨h, m', hr⟩ := exists_resolveKey (s := s) (k := k) (not_refuses_of_deferring hpolicy)
  exact ⟨h, m', hr, threshold, (extends_of_resolveKey hr).policy.trans hpolicy⟩

/-- It resolves constants that make a key, and refuses others. -/
theorem Defers.resolve_cases (hm : m.Defers) (s : Store) (p : Predicate) (args : List Constant) :
    (∃ h m', m.resolve s p args = .ok (h, m') ∧ m'.Defers) ∨
      ∃ refusal, GroundKey.make p args = .error refusal ∧
        m.resolve s p args = .error (.invalidKey refusal) := by
  rw [resolve]
  cases hkey : GroundKey.make p args with
  | error refusal => exact .inr ⟨refusal, rfl, rfl⟩
  | ok k => exact .inl (hm.resolveKey s k)

end Manager

namespace Grounding

variable {α β : Type} {E E' : GroundingFault → Prop} {s : Store}

/-- Under a deferring manager, which stays one, a step fails with no other faults. -/
def FailsOnly (step : Grounding α) (E : GroundingFault → Prop) : Prop :=
  Ensures (fun w => w.manager.Defers) step (fun _ w => w.manager.Defers) fun fault _ => E fault

theorem FailsOnly.cases {step : Grounding α} (h : FailsOnly step E) {w : Workspace}
    (hw : w.manager.Defers) : (∃ a, (step.runOn w).1 = .ok a) ∨
      ∃ fault, E fault ∧ (step.runOn w).1 = .error fault := by
  have hrun := h w hw
  revert hrun
  split
  · rename_i a w' heq
    rw [heq]
    exact fun _ => .inl ⟨a, rfl⟩
  · rename_i fault w' heq
    rw [heq]
    exact fun hfault => .inr ⟨fault, hfault, rfl⟩

/-- A step that has no fault to fail with succeeds. -/
theorem FailsOnly.exists_ok {step : Grounding α} (h : FailsOnly step fun _ => False)
    {w : Workspace} (hw : w.manager.Defers) : ∃ a, (step.runOn w).1 = .ok a :=
  (h.cases hw).resolve_right fun ⟨_, hfault, _⟩ => hfault

theorem failsOnly_pure (a : α) : FailsOnly (pure a) E := ensures_pure fun _ hw => hw

theorem FailsOnly.bind {x : Grounding α} {f : α → Grounding β} (hx : FailsOnly x E)
    (hf : ∀ a, FailsOnly (f a) E) : FailsOnly (x >>= f) E :=
  Ensures.bind hx hf

theorem FailsOnly.imp {x : Grounding α} (h : FailsOnly x E) (hE : ∀ fault, E fault → E' fault) :
    FailsOnly x E' :=
  Ensures.imp h (fun _ hw => hw) (fun _ _ hw => hw) fun fault _ => hE fault

/-- A first part whose result is known may be skipped. -/
theorem Yields.failsOnly_bind {x : Grounding α} {f : α → Grounding β} {a : α} (hx : Yields x a)
    (hf : FailsOnly (f a) E) : FailsOnly (x >>= f) E := by
  intro w hw
  rw [runOn_bind, hx w]
  exact hf w hw

/-- A query that is not refused gives its answers. -/
theorem yields_query {q : Query} (h : q.fault? = none) : Yields (query s q) (q.answers s) :=
  fun _ => runOn_query_eq_ok_iff.mpr ⟨Query.evaluate_eq_ok_iff.mpr ⟨h, rfl⟩, rfl⟩

/-- Resolving fails for constants that make no key, and only for these. -/
theorem failsOnly_resolve (s : Store) (p : Predicate) (args : List Constant) :
    FailsOnly (resolve s p args) fun fault =>
      ∃ refusal, GroundKey.make p args = .error refusal ∧
        fault = .lookup (.invalidKey refusal) := by
  refine ensures_resolve (fun w h m hw hr => ?_) fun w fault hw hr => ?_
  · rcases hw.resolve_cases s p args with ⟨h', m', hok, hm'⟩ | ⟨refusal, -, herror⟩
    · rw [hr] at hok
      cases hok
      exact hm'
    · rw [hr] at herror
      cases herror
  · rcases hw.resolve_cases s p args with ⟨h', m', hok, -⟩ | ⟨refusal, hkey, herror⟩
    · rw [hr] at hok
      cases hok
    · rw [hr] at herror
      cases herror
      exact ⟨refusal, hkey, rfl⟩

end Grounding

/-- A positive standard literal that holds gives each of its variables a constant of a type that the
variable stands for: the constants come from a stored atom. -/
theorem Literal.exists_puts_of_holdsIn {l : Literal} {s : Store} {σ : Valuation}
    (hl : l.HoldsIn s σ) (hgenerates : l.generates = true) (ha : l.atom.HasArity) {v : Variable}
    (hv : v ∈ l.atom.vars) : ∃ t, l.atom.Puts v t ∧ t.accepts (σ v) = true := by
  obtain ⟨stored, k, hp, hargs, -⟩ := (Query.holdsIn_of_generates hgenerates).mp hl
  obtain ⟨t, ht⟩ := Atom.exists_puts ha hv
  have haccepts : l.atom.predicate.Accepts (l.atom.instanceArgs σ) := hp ▸ hargs ▸ k.accepts
  exact ⟨t, ht, Atom.accepts_of_puts haccepts ht⟩

namespace LogicalRule

open Grounding

section Acceptance

variable {name : String} {f : Formula} {weight : Option Float} {r : LogicalRule}

/-- Every variable of an accepted rule stands in a positive standard literal of its clause. -/
theorem exists_generates_of_make (hr : make name f weight = .ok r) {l : Literal}
    (hl : l ∈ r.clause) {v : Variable} (hv : v ∈ l.atom.vars) :
    ∃ g ∈ r.clause, g.generates = true ∧ v ∈ g.atom.vars := by
  obtain ⟨clause, -, hfault, rfl⟩ := eq_of_make hr
  rw [clauseFault?] at hfault
  split at hfault
  · cases hfault
  · rw [Option.map_eq_none_iff, firstUnbound?, List.find?_eq_none] at hfault
    have hbound := hfault v (List.mem_flatMap.mpr ⟨l, hl, hv⟩)
    rw [decide_eq_true_eq, not_not, boundVariables, List.mem_flatMap] at hbound
    obtain ⟨g, hg, hvg⟩ := hbound
    obtain ⟨hg, hgenerates⟩ := List.mem_filter.mp hg
    exact ⟨g, hg, hgenerates, hvg⟩

theorem mem_query_of_generates {l : Literal} (hl : l ∈ r.clause) (hgenerates : l.generates = true) :
    l ∈ r.query := by
  rw [Literal.generates, Bool.and_eq_true] at hgenerates
  exact List.mem_filter.mpr ⟨hl, hgenerates.1⟩

/-- The query of an accepted rule is not refused. -/
theorem fault?_groundingQuery (hr : make name f weight = .ok r) :
    r.groundingQuery.fault? = none := by
  have hbinds : ∀ l ∈ r.clause, ∀ v ∈ l.atom.vars,
      ∃ g ∈ r.groundingQuery.literals, g.generates = true ∧ v ∈ g.atom.vars := by
    intro l hl v hv
    obtain ⟨g, hg, hgenerates, hvg⟩ := exists_generates_of_make hr hl hv
    exact ⟨g, mem_query_of_generates hg hgenerates, hgenerates, hvg⟩
  apply Query.fault?_eq_none
  · rfl
  · intro v hv
    obtain ⟨l, hl, hvl⟩ := List.mem_flatMap.mp (mem_distinct.mp hv)
    obtain ⟨g, hg, -, hvg⟩ := hbinds l hl v hvl
    exact .inl (Query.mem_formulaVariables.mpr ⟨g, hg, hvg⟩)
  · intro l hl _ v hv
    exact Query.mem_boundVariables.mpr (.inr (hbinds l (mem_clause_of_mem_query hl) v hv))

end Acceptance

section Failure

variable {s : Store} {σ : Valuation} {θ : Assignment}

/-- The literals of a conjunction have an instance that is no key. -/
def NoKey (c : Conjunction) (σ : Valuation) (fault : GroundingFault) : Prop :=
  ∃ l ∈ c, ∃ refusal, GroundKey.make l.atom.predicate (l.atom.instanceArgs σ) = .error refusal ∧
    fault = .lookup (.invalidKey refusal)

/-- A literal whose variables are bound is resolved, unless its instance is no key. -/
theorem failsOnly_resolveLiteral (hσ : σ.Extends θ) {l : Literal}
    (hl : ∀ v ∈ l.atom.vars, v ∈ θ.keys) :
    FailsOnly (resolveLiteral s θ l) (NoKey [l] σ) := by
  rw [resolveLiteral, Atom.groundArgs_eq_ok hσ hl]
  refine (failsOnly_resolve s _ _).imp fun fault hfault => ?_
  exact ⟨l, List.mem_singleton_self l, hfault⟩

/-- So are the literals of a clause. -/
theorem failsOnly_groundLiterals (hσ : σ.Extends θ) {c : Conjunction}
    (hc : ∀ l ∈ c, ∀ v ∈ l.atom.vars, v ∈ θ.keys) (sides : ClauseSides) :
    FailsOnly (groundLiterals s θ c sides) (NoKey c σ) := by
  induction c generalizing sides with
  | nil => exact failsOnly_pure _
  | cons l c ih =>
    have hrest : ∀ sides, FailsOnly (groundLiterals s θ c sides) (NoKey (l :: c) σ) :=
      fun sides => (ih (fun l' hl' => hc l' (List.mem_cons_of_mem l hl')) sides).imp
        fun fault ⟨l', hl', hfault⟩ => ⟨l', List.mem_cons_of_mem l hl', hfault⟩
    have hfirst : FailsOnly (resolveLiteral s θ l) (NoKey (l :: c) σ) :=
      (failsOnly_resolveLiteral hσ (hc l List.mem_cons_self)).imp
        fun fault ⟨l', hl', hfault⟩ => ⟨l', List.mem_singleton.mp hl' ▸ List.mem_cons_self, hfault⟩
    rw [groundLiterals]
    refine hfirst.bind fun h => ?_
    split
    · exact hrest _
    · refine FailsOnly.bind (ensures_valueOf fun w hw => hw) fun value => ?_
      split
      · exact failsOnly_pure _
      · exact hrest _

/-- And a row that binds all variables of the rule. -/
theorem failsOnly_groundRow (r : LogicalRule) (σ : Valuation) :
    FailsOnly (r.groundRow s (ResultList.assign r.vars (r.vars.map σ))) (NoKey r.clause σ) := by
  have hσ : σ.Extends (ResultList.assign r.vars (r.vars.map σ)) :=
    ResultList.extends_assign_iff.mpr rfl
  rw [groundRow]
  refine (failsOnly_groundLiterals hσ (fun l hl v hv => ?_) _).bind fun result => ?_
  · exact ResultList.mem_keys_assign σ (mem_vars_of_mem_clause hl hv)
  · split
    · exact failsOnly_pure _
    · exact FailsOnly.bind (ensures_emit fun w hw => hw) fun _ => failsOnly_pure _

theorem failsOnly_groundRows (r : LogicalRule) {rows : List Row} {E : GroundingFault → Prop}
    (hrows : ∀ row ∈ rows, ∃ σ : Valuation, row = r.vars.map σ ∧
      ∀ fault, NoKey r.clause σ fault → E fault) :
    FailsOnly (r.groundRows s (rows.map (ResultList.assign r.vars))) E := by
  induction rows with
  | nil => exact failsOnly_pure _
  | cons row rows ih =>
    obtain ⟨σ, rfl, hσ⟩ := hrows row List.mem_cons_self
    rw [List.map_cons, groundRows]
    refine ((r.failsOnly_groundRow σ).imp hσ).bind fun n => ?_
    exact (ih fun row hrow => hrows row (List.mem_cons_of_mem _ hrow)).bind
      fun rest => failsOnly_pure _

/-- Grounding a rule whose query is not refused fails for an instance that is no key, under a
valuation that satisfies the body, and for nothing else. -/
theorem failsOnly_ground {r : LogicalRule} (ha : r.HasArities)
    (hquery : r.groundingQuery.fault? = none) (s : Store) :
    FailsOnly (r.ground s) fun fault => ∃ σ, r.SatisfiedBy s σ ∧ NoKey r.clause σ fault := by
  rw [ground]
  refine (yields_query hquery).failsOnly_bind ?_
  rw [groundResults, assignments_answers]
  refine r.failsOnly_groundRows fun row hrow => ?_
  obtain ⟨σ, hσ, hrow⟩ := (mem_rows_groundingQuery ha hquery).mp hrow
  exact ⟨σ, hrow, fun fault hfault => ⟨σ, hσ, hfault⟩⟩

/-- If each variable of the clause stands for arguments of one type only, all instances are keys:
each variable has its constant from a stored atom. -/
theorem not_noKey_of_typesAgree {name : String} {f : Formula} {weight : Option Float}
    {r : LogicalRule} (hr : make name f weight = .ok r) (ha : r.HasArities)
    (hchecked : ∀ l ∈ r.clause, Atom.make l.atom.predicate l.atom.args = .ok l.atom)
    (htypes : Atom.TypesAgree (r.clause.map Literal.atom)) (hσ : r.SatisfiedBy s σ)
    {fault : GroundingFault} : ¬ NoKey r.clause σ fault := by
  rintro ⟨l, hl, refusal, hrefused, -⟩
  have haccepts : l.atom.predicate.Accepts (l.atom.instanceArgs σ) := by
    refine Atom.accepts_instanceArgs (hchecked l hl) fun v t hv => ?_
    have hmem : v ∈ l.atom.vars := Atom.mem_vars.mpr (List.of_mem_zip hv).2
    obtain ⟨g, hg, hgenerates, hvg⟩ := exists_generates_of_make hr hl hmem
    obtain ⟨u, hu, hvalue⟩ := Literal.exists_puts_of_holdsIn
      (hσ g (mem_query_of_generates hg hgenerates)) hgenerates (ha g hg) hvg
    rwa [htypes _ (List.mem_map.mpr ⟨l, hl, rfl⟩) _ (List.mem_map.mpr ⟨g, hg, rfl⟩) v t u hv hu]
  obtain ⟨k, hk⟩ := GroundKey.exists_make_eq_ok haccepts
  rw [hk] at hrefused
  cases hrefused

end Failure

/-- Under a deferring manager, whatever it has resolved, and over any store an accepted rule is
grounded; or there is a valuation that satisfies the body under which a literal has a constant where
its predicate declares another type, and grounding fails because this is no key. It does not come to
that if the atoms of the rule are checked ones and each of its variables stands for arguments of one
type only. -/
theorem ground_fails_only_for_ill_typed_instances {name : String} {f : Formula}
    {weight : Option Float} {r : LogicalRule} (hr : make name f weight = .ok r)
    (ha : ∀ a ∈ f.occurrences, a.HasArity) (s : Store) {w : Workspace} {threshold : Float}
    (hw : w.manager.policy = .deferring threshold) :
    ((∃ n, ((r.ground s).runOn w).1 = .ok n) ∨
      ∃ l ∈ r.clause, ∃ σ i t c, r.SatisfiedBy s σ ∧
        l.atom.predicate.argTypes[i]? = some t ∧ (l.atom.instanceArgs σ)[i]? = some c ∧
        t.accepts c = false ∧
        ((r.ground s).runOn w).1 = .error (.lookup (.invalidKey
          (.argumentType l.atom.predicate.name i t.name c.toText)))) ∧
    ((∀ a ∈ f.occurrences, Atom.make a.predicate a.args = .ok a) →
      Atom.TypesAgree (r.clause.map Literal.atom) → ∃ n, ((r.ground s).runOn w).1 = .ok n) := by
  have harities := hasArities_of_make hr ha
  have hfails := (failsOnly_ground harities (fault?_groundingQuery hr) s).cases ⟨threshold, hw⟩
  refine ⟨?_, fun hchecked htypes => ?_⟩
  · refine hfails.imp id ?_
    rintro ⟨fault, ⟨σ, hσ, l, hl, refusal, hrefused, rfl⟩, hrun⟩
    have hlen : (l.atom.instanceArgs σ).length = l.atom.predicate.arity :=
      (List.length_map ..).trans (harities l hl)
    obtain ⟨i, t, c, ht, hc, hill, rfl⟩ := GroundKey.exists_of_make_eq_error hlen hrefused
    exact ⟨l, hl, σ, i, t, c, hσ, ht, hc, hill, hrun⟩
  · refine hfails.resolve_right ?_
    rintro ⟨fault, ⟨σ, hσ, hfault⟩, -⟩
    exact not_noKey_of_typesAgree hr harities
      (fun l hl => hchecked _ (mem_occurrences_of_make hr hl)) htypes hσ hfault

/-- The rule about acquaintances, whose variables stand for integers only, is grounded by a manager
that has resolved nothing. -/
theorem acquaintanceRule_is_grounded :
    make "acquaintance" acquaintance none = .ok acquaintanceRule ∧
      (∀ a ∈ acquaintance.occurrences, a.HasArity) ∧
      (∀ a ∈ acquaintance.occurrences, Atom.make a.predicate a.args = .ok a) ∧
      Atom.TypesAgree (acquaintanceRule.clause.map Literal.atom) ∧
      ∃ n, ((acquaintanceRule.ground acquaintedStore).runOn ⟨.fresh (.deferring 0.5), []⟩).1 =
        .ok n := by
  have hmake : make "acquaintance" acquaintance none = .ok acquaintanceRule := rfl
  have harities : ∀ a ∈ acquaintance.occurrences, a.HasArity := by decide
  have hchecked : ∀ a ∈ acquaintance.occurrences, Atom.make a.predicate a.args = .ok a := by
    have hatoms : ∀ a ∈ acquaintance.occurrences,
        a = knowsAtom ∨ a = differAtom ∨ a = knownAtom := by decide
    intro a ha
    rcases hatoms a ha with rfl | rfl | rfl <;> rfl
  have hintegers : ∀ a ∈ acquaintanceRule.clause.map Literal.atom, ∀ v t, a.Puts v t →
      t = .integer := by
    have hdeclared : ∀ a ∈ acquaintanceRule.clause.map Literal.atom,
        ∀ t ∈ a.predicate.argTypes, t = .integer := by decide
    exact fun a ha v t hv => hdeclared a ha t (List.of_mem_zip hv).1
  have htypes : Atom.TypesAgree (acquaintanceRule.clause.map Literal.atom) :=
    fun a ha b hb v t u hv hu => (hintegers a ha v t hv).trans (hintegers b hb v u hu).symm
  have hground := ground_fails_only_for_ill_typed_instances hmake harities acquaintedStore
    (w := ⟨.fresh (.deferring 0.5), []⟩) rfl
  exact ⟨hmake, harities, hchecked, htypes, hground.2 hchecked htypes⟩

end LogicalRule

end RuleGrounding
