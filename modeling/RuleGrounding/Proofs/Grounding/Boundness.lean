import RuleGrounding.Proofs.Grounding.Constraints
import RuleGrounding.Proofs.Grounding.Deferring

/-!
# When arithmetic rules are grounded

The rows of an arithmetic rule come from the atoms of its terms, of which only those of
standard predicates bind variables. If they bind those of the others too, nothing goes wrong
under a deferring manager, provided that the variables agree on their types. If they do not,
the query for the rows is refused, although the rule has been accepted.
-/

namespace RuleGrounding

/-- A variable stands in a term over a standard predicate. -/
def Expression.Binds (e : Expression) (v : Variable) : Prop :=
  ∃ t ∈ e.terms, t.atom.predicate.isStandard = true ∧ v ∈ t.atom.queryAtom.vars

instance (e : Expression) (v : Variable) : Decidable (e.Binds v) :=
  inferInstanceAs (Decidable (∃ t ∈ e.terms,
    t.atom.predicate.isStandard = true ∧ v ∈ t.atom.queryAtom.vars))

namespace TermAtom

variable {a : TermAtom} {v : Variable}

@[simp] theorem predicate_queryAtom (a : TermAtom) : a.queryAtom.predicate = a.predicate := by
  cases a <;> rfl

/-- Terms over standard predicates bind variables. -/
theorem generates_queryAtom (a : TermAtom) :
    (Literal.positive a.queryAtom).generates = a.predicate.isStandard := by
  cases a <;> rfl

/-- The query atom has the arguments of the term, its summation variables read as ordinary ones. -/
theorem args_queryAtom (a : TermAtom) : a.queryAtom.args = a.args.map SummationTerm.toTerm := by
  cases a with
  | plain a =>
    rw [args, List.map_map]
    exact (List.map_id' a.args).symm
  | sum a => rfl

/-- The ordinary variables stand in the query atom. -/
theorem mem_vars_queryAtom (hv : v ∈ a.vars) : v ∈ a.queryAtom.vars := by
  cases a with
  | plain a => exact hv
  | sum a =>
    rw [vars, SummationAtom.vars, mem_distinct, List.mem_filterMap] at hv
    obtain ⟨arg, harg, hv⟩ := hv
    rcases arg with (u | c) | u
    · cases hv
      exact Atom.mem_vars.mpr (List.mem_map.mpr ⟨_, harg, rfl⟩)
    · cases hv
    · cases hv

end TermAtom

namespace ArithmeticRule

open Grounding

variable {r : ArithmeticRule} {s : Store} {τ : Valuation} {sets : SelectionSets}

section RowQuery

theorem mem_boundVariables_groundingQuery {v : Variable} :
    v ∈ r.groundingQuery.boundVariables ↔ r.expression.Binds v := by
  have hpinned : v ∉ r.groundingQuery.pinned.keys := List.not_mem_nil
  rw [Query.mem_boundVariables, or_iff_right hpinned]
  constructor
  · rintro ⟨l, hl, hgenerates, hv⟩
    obtain ⟨t, ht, rfl⟩ := mem_literals_groundingQuery.mp hl
    exact ⟨t, ht, t.atom.generates_queryAtom ▸ hgenerates, hv⟩
  · rintro ⟨t, ht, hstandard, hv⟩
    exact ⟨_, mem_literals_groundingQuery.mpr ⟨t, ht, rfl⟩,
      t.atom.generates_queryAtom.trans hstandard, hv⟩

/-- The rows are for variables of the terms. -/
theorem mem_formulaVariables_groundingQuery {v : Variable}
    (hv : v ∈ r.groundingQuery.projection) : v ∈ r.groundingQuery.formulaVariables := by
  obtain ⟨t, ht, hv⟩ := List.mem_flatMap.mp (mem_distinct.mp hv)
  exact Query.mem_formulaVariables.mpr
    ⟨_, mem_literals_groundingQuery.mpr ⟨t, ht, rfl⟩, TermAtom.mem_vars_queryAtom hv⟩

/-- The query for the rows is not refused if the standard terms bind the variables of all terms. -/
theorem fault?_groundingQuery_eq_none (h : ∀ t ∈ r.expression.terms, ∀ v ∈ t.atom.queryAtom.vars,
    r.expression.Binds v) : r.groundingQuery.fault? = none := by
  apply Query.fault?_eq_none
  · rfl
  · exact fun v hv => .inl (mem_formulaVariables_groundingQuery hv)
  · intro l hl _ v hv
    obtain ⟨t, ht, rfl⟩ := mem_literals_groundingQuery.mp hl
    exact mem_boundVariables_groundingQuery.mpr (h t ht v hv)

/-- Otherwise it is refused for a variable that they do not bind. -/
theorem exists_fault?_groundingQuery (h : ¬ ∀ t ∈ r.expression.terms,
    ∀ v ∈ t.atom.queryAtom.vars, r.expression.Binds v) :
    ∃ t ∈ r.expression.terms, ∃ v ∈ t.atom.queryAtom.vars, ¬ r.expression.Binds v ∧
      r.groundingQuery.fault? =
        some (.unboundVariable v.name (Literal.positive t.atom.queryAtom).toText) := by
  cases hfault : r.groundingQuery.fault? with
  | none =>
    refine absurd (fun t ht v hv => ?_) h
    have hl := mem_literals_groundingQuery.mpr ⟨t, ht, rfl⟩
    rw [← mem_boundVariables_groundingQuery]
    cases hgenerates : (Literal.positive t.atom.queryAtom).generates with
    | true => exact Query.mem_boundVariables.mpr (.inr ⟨_, hl, hgenerates, hv⟩)
    | false =>
      exact Query.mem_boundVariables_of_filter hfault (Query.mem_filters.mpr ⟨hl, hgenerates⟩) hv
  | some fault =>
    obtain ⟨l, hl, -, v, hv, hunbound, rfl⟩ := Query.exists_unbound_of_fault? rfl
      (fun v hv => .inl (mem_formulaVariables_groundingQuery hv)) hfault
    obtain ⟨t, ht, rfl⟩ := mem_literals_groundingQuery.mp hl
    exact ⟨t, ht, v, hv, mt mem_boundVariables_groundingQuery.mpr hunbound, rfl⟩

end RowQuery

section Selecting

variable {name : String} {e : Expression} {formulas : FiniteMap SummationVariable Formula}
  {weight : Option Float}

/-- An accepted rule has nothing wrong in the conjunctions of its select formulas. -/
theorem conjunctionFault?_of_make (hr : make name e formulas weight = .ok r)
    {v : SummationVariable} {f : Formula} (hf : formulas.find? v = some f) {c : Conjunction}
    (hc : c ∈ f.normalForm) : conjunctionFault? name e.vars v c = none := by
  obtain ⟨-, hkeys, hselects⟩ := eq_of_make hr
  have hselect := hselects v (hkeys v (FiniteMap.mem_keys_iff.mpr ⟨f, hf⟩))
  rw [selectFault?, hf] at hselect
  exact List.findSome?_eq_none_iff.mp hselect c hc

/-- Such a conjunction binds its summation variable. -/
theorem exists_generates_of_conjunctionFault? {outer : List Variable} {v : SummationVariable}
    {c : Conjunction} (h : conjunctionFault? name outer v c = none) :
    ∃ l ∈ c, l.generates = true ∧ v.plain ∈ l.atom.vars := by
  rw [conjunctionFault?] at h
  split at h
  · rename_i hbinds
    obtain ⟨l, hl, hbinds⟩ := List.any_eq_true.mp hbinds
    rw [Bool.and_eq_true, decide_eq_true_eq] at hbinds
    exact ⟨l, hl, hbinds⟩
  · cases h

/-- It is not refused as a query for that variable in a row. -/
theorem fault?_selectQuery {outer : List Variable} {v : SummationVariable} {c : Conjunction}
    (h : conjunctionFault? name outer v c = none) (τ : Valuation) :
    (selectQuery (ResultList.assign outer (outer.map τ)) v c).fault? = none := by
  obtain ⟨l, hl, -, hv⟩ := exists_generates_of_conjunctionFault? h
  apply Query.fault?_eq_none
  · rfl
  · intro u hu
    rw [List.mem_singleton.mp hu]
    exact .inl (Query.mem_formulaVariables.mpr ⟨l, hl, hv⟩)
  · intro l' hl' _ u hu
    rw [conjunctionFault?] at h
    split at h
    · rw [Option.map_eq_none_iff, LogicalRule.firstUnbound?, List.find?_eq_none] at h
      have hbound := h u (List.mem_flatMap.mpr ⟨l', hl', hu⟩)
      rw [decide_eq_true_eq, not_not, List.mem_append] at hbound
      rw [Query.mem_boundVariables]
      rcases hbound with houter | hbound
      · exact .inl (ResultList.mem_keys_assign τ houter)
      · right
        obtain ⟨g, hg, hug⟩ := List.mem_flatMap.mp hbound
        obtain ⟨hg, hgenerates⟩ := List.mem_filter.mp hg
        exact ⟨g, hg, hgenerates, hug⟩
    · cases h

/-- Conjunctions that are not refused are all evaluated. -/
theorem exists_yields_selectAll {θ : Assignment} {v : SummationVariable} {cs : NormalForm}
    (h : ∀ c ∈ cs, (selectQuery θ v c).fault? = none) (set : List Constant) :
    ∃ result, Yields (selectAll s θ v set cs) result := by
  induction cs generalizing set with
  | nil => exact ⟨set, yields_pure set⟩
  | cons c cs ih =>
    exact (yields_query (h c List.mem_cons_self)).exists_bind
      (ih (fun c' hc' => h c' (List.mem_cons_of_mem c hc')) _)

/-- The selection sets of an accepted rule are computed for every row. -/
theorem exists_yields_fillSets (hr : make name e formulas weight = .ok r) (s : Store)
    (τ : Valuation) (before : SelectionSets) (vs : List SummationVariable) :
    ∃ sets, Yields (r.fillSets s (ResultList.assign e.vars (e.vars.map τ)) before vs) sets := by
  induction vs generalizing before with
  | nil => exact ⟨before, yields_pure before⟩
  | cons v vs ih =>
    have hqueries : ∀ c ∈ (r.selects.find? v).getD [],
        (selectQuery (ResultList.assign e.vars (e.vars.map τ)) v c).fault? = none := by
      obtain ⟨hmade, -⟩ := eq_of_make hr
      intro c hc
      rw [hmade, FiniteMap.find?_mapValues] at hc
      cases hf : formulas.find? v with
      | none =>
        rw [hf] at hc
        cases hc
      | some f =>
        rw [hf] at hc
        exact fault?_selectQuery (conjunctionFault?_of_make hr hf hc) τ
    obtain ⟨set, hset⟩ := exists_yields_selectAll (s := s) hqueries ((before.find? v).getD [])
    exact hset.exists_bind (ih (before.insert v set))

end Selecting

section Expanding

variable {vs : List Variable} {E : GroundingFault → Prop}

/-- The domains of arguments whose ordinary variables have constants in the row. -/
theorem yields_domains {args : List SummationTerm}
    (h : ∀ v, .plain (.var v) ∈ args → v ∈ vs) :
    Yields (domains (ResultList.assign vs (vs.map τ)) sets args)
      (args.map (SummationTerm.domain τ sets)) := by
  induction args with
  | nil => exact yields_pure []
  | cons a args ih =>
    have hrest := ih fun v hv => h v (List.mem_cons_of_mem a hv)
    rcases a with (v | c) | v
    · have hv : v ∈ vs := h v List.mem_cons_self
      rw [domains, ResultList.find?_assign, if_pos hv]
      exact hrest.bind (yields_pure _)
    · exact hrest.bind (yields_pure _)
    · exact hrest.bind (yields_pure _)

/-- The terms of a row are settled, be it that the row is given up. -/
theorem exists_yields_settle {ts : List ExpressionTerm}
    (h : ∀ t ∈ ts, ∀ v, .plain (.var v) ∈ t.atom.args → v ∈ vs) :
    ∃ result, Yields (settle (ResultList.assign vs (vs.map τ)) sets ts) result := by
  induction ts with
  | nil => exact ⟨some [], yields_pure _⟩
  | cons t ts ih =>
    obtain ⟨rest, hrest⟩ := ih fun t' ht' => h t' (List.mem_cons_of_mem t ht')
    rw [settle]
    refine (yields_domains (h t List.mem_cons_self)).exists_bind ?_
    split
    · exact ⟨rest, hrest⟩
    · dsimp only
      split
      · exact hrest.exists_bind ⟨_, yields_pure _⟩
      · exact ⟨none, yields_pure none⟩

/-- Constants that fit the predicate are resolved. -/
theorem failsOnly_resolveAll {p : Predicate} {tuples : List (List Constant)}
    (h : ∀ args ∈ tuples, p.Accepts args) : FailsOnly (resolveAll s p tuples) E := by
  induction tuples with
  | nil => exact failsOnly_pure _
  | cons args tuples ih =>
    have hfirst : FailsOnly (resolve s p args) E := by
      refine (failsOnly_resolve s p args).imp ?_
      rintro fault ⟨refusal, hrefused, -⟩
      obtain ⟨k, hk⟩ := GroundKey.exists_make_eq_ok (h args List.mem_cons_self)
      rw [hk] at hrefused
      cases hrefused
    rw [resolveAll]
    exact hfirst.bind fun _ =>
      (ih fun args' h' => h args' (List.mem_cons_of_mem args h')).bind fun _ => failsOnly_pure _

/-- So are settled terms whose tuples fit their predicates. -/
theorem failsOnly_expandAll {expansions : List Expansion}
    (h : ∀ e ∈ expansions, ∀ args ∈ CrossProduct.product e.domains, e.predicate.Accepts args) :
    FailsOnly (expandAll s expansions) E := by
  induction expansions with
  | nil => exact failsOnly_pure _
  | cons e expansions ih =>
    have hrest := ih fun e' h' => h e' (List.mem_cons_of_mem e h')
    rw [expandAll, CrossProduct.tuples_eq_product]
    exact (failsOnly_resolveAll (h e List.mem_cons_self)).bind fun _ =>
      hrest.bind fun _ => failsOnly_pure _

/-- A row is grounded if it binds the ordinary variables of the terms and their tuples fit their
predicates. -/
theorem failsOnly_groundRow
    (hbound : ∀ t ∈ r.expression.terms, ∀ v, .plain (.var v) ∈ t.atom.args → v ∈ vs)
    (haccepts : ∀ t ∈ r.expression.terms,
      ∀ args ∈ CrossProduct.product (t.atom.args.map (SummationTerm.domain τ sets)),
        t.atom.predicate.Accepts args) :
    FailsOnly (r.groundRow s (ResultList.assign vs (vs.map τ)) sets) E := by
  obtain ⟨result, hsettle⟩ : ∃ result, Yields (settle (ResultList.assign vs (vs.map τ)) sets
      r.expression.terms) result := exists_yields_settle hbound
  rw [groundRow]
  refine hsettle.failsOnly_bind ?_
  cases result with
  | none => exact failsOnly_pure 0
  | some expansions =>
    have hexpansions : ∀ e ∈ expansions, ∀ args ∈ CrossProduct.product e.domains,
        e.predicate.Accepts args := by
      intro e he
      have hresult := (runOn_settle (hsettle ⟨.fresh .strict, []⟩)).2
      split at hresult
      · rw [Option.some.inj hresult, List.mem_filterMap] at he
        obtain ⟨t, ht, hexpansion⟩ := he
        rw [ExpressionTerm.expansion?] at hexpansion
        split at hexpansion
        · cases hexpansion
        · cases hexpansion
          exact haccepts t ht
      · cases hresult
    dsimp only
    split
    · refine (failsOnly_expandAll hexpansions).bind fun entries => ?_
      refine FailsOnly.bind (fun w hw => ?_) fun _ => failsOnly_pure _
      rw [runOn_emitAll]
      exact hw
    · exact failsOnly_pure 0

end Expanding

section Typing

variable {types : List ArgumentType} {terms : List SummationTerm} {args : List Constant}

/-- A tuple is well typed if the constants in the domain of each argument are. -/
theorem accepts_of_domains
    (htyped : List.Forall₂ (fun t a => ∀ c ∈ SummationTerm.domain τ sets a, t.accepts c = true)
      types terms)
    (hargs : List.Forall₂ (fun c a => c ∈ SummationTerm.domain τ sets a) args terms) :
    List.Forall₂ (fun t c => t.accepts c = true) types args := by
  induction hargs generalizing types with
  | nil =>
    obtain rfl := List.forall₂_nil_right_iff.mp htyped
    exact .nil
  | cons hc _ ih =>
    obtain ⟨t, rest, ht, hrest, rfl⟩ := List.forall₂_cons_right_iff.mp htyped
    exact .cons (ht _ hc) (ih hrest)

/-- The tuples of a checked term fit its predicate, if its ordinary variables have constants of the
types that they stand for, and only such constants are selected for its summation variables. -/
theorem accepts_of_mem_product {a : TermAtom}
    (ha : Atom.make a.queryAtom.predicate a.queryAtom.args = .ok a.queryAtom)
    (hvars : ∀ v t, .plain (.var v) ∈ a.args → a.queryAtom.Puts v t → t.accepts (τ v) = true)
    (hsums : ∀ v t, .sum v ∈ a.args → a.queryAtom.Puts v.plain t →
      ∀ c ∈ sets.elements v, t.accepts c = true)
    (hargs : args ∈ CrossProduct.product (a.args.map (SummationTerm.domain τ sets))) :
    a.predicate.Accepts args := by
  have hchecked := Atom.forall₂_of_make ha
  rw [a.args_queryAtom, a.predicate_queryAtom, List.forall₂_map_right_iff,
    List.forall₂_iff_zip] at hchecked
  have hputs : ∀ {t arg}, (t, arg) ∈ a.predicate.argTypes.zip a.args →
      (t, arg.toTerm) ∈ a.queryAtom.predicate.argTypes.zip a.queryAtom.args := by
    intro t arg harg
    rw [a.args_queryAtom, a.predicate_queryAtom, List.zip_map_right]
    exact List.mem_map.mpr ⟨(t, arg), harg, rfl⟩
  rw [CrossProduct.mem_product, List.forall₂_map_right_iff] at hargs
  refine accepts_of_domains (List.forall₂_iff_zip.mpr ⟨hchecked.1, ?_⟩) hargs
  intro t arg harg c hc
  have hmem := (List.of_mem_zip harg).2
  rcases arg with (v | d) | v
  · rw [List.mem_singleton.mp hc]
    exact hvars v t hmem (hputs harg)
  · rw [List.mem_singleton.mp hc]
    exact hchecked.2 harg d rfl
  · exact hsums v t hmem (hputs harg) c hc

end Typing

section Grounding

/-- Each variable stands for arguments of one type only: the ordinary and the summation variables in
the terms, and the summation variables in their select formulas too. -/
structure TypesAgree (e : Expression) (formulas : FiniteMap SummationVariable Formula) : Prop where
  /-- The variables of the terms agree. -/
  terms : Atom.TypesAgree (e.terms.map fun t => t.atom.queryAtom)
  /-- A summation variable stands for the same type in its select formula. -/
  selects : ∀ v f, formulas.find? v = some f → ∀ a ∈ f.occurrences, ∀ t ∈ e.terms,
    ∀ type type', a.Puts v.plain type → t.atom.queryAtom.Puts v.plain type' → type = type'

variable {name : String} {e : Expression} {formulas : FiniteMap SummationVariable Formula}
  {weight : Option Float}

section Row

variable (hr : make name e formulas weight = .ok r) (ha : r.HasArities)
  (htypes : TypesAgree e formulas)

include hr ha htypes

/-- In a row a variable that is bound has a constant of the type that it stands for. -/
theorem accepts_of_satisfiedBy (hτ : r.SatisfiedBy s τ) {t : ExpressionTerm} (ht : t ∈ e.terms)
    {v : Variable} (hv : e.Binds v) {type : ArgumentType} (hputs : t.atom.queryAtom.Puts v type) :
    type.accepts (τ v) = true := by
  obtain ⟨rfl, -⟩ := selects_of_make hr
  obtain ⟨u, hu, hstandard, hvu⟩ := hv
  obtain ⟨type', hputs', hvalue⟩ := Literal.exists_puts_of_holdsIn (hτ u hu)
    (u.atom.generates_queryAtom.trans hstandard) (ha.terms u hu) hvu
  rwa [htypes.terms _ (List.mem_map.mpr ⟨t, ht, rfl⟩) _ (List.mem_map.mpr ⟨u, hu, rfl⟩) v type type'
    hputs hputs']

/-- What is selected for a summation variable has the type that the variable stands for. -/
theorem accepts_of_selects {row : Row} {v : SummationVariable} {c : Constant}
    (hc : r.Selects s row v c) {t : ExpressionTerm} (ht : t ∈ e.terms) {type : ArgumentType}
    (hputs : t.atom.queryAtom.Puts v.plain type) : type.accepts c = true := by
  obtain ⟨conjunction, hconjunction, σ, -, hholds, rfl⟩ := hc
  cases hselect : r.selects.find? v with
  | none =>
    rw [hselect] at hconjunction
    cases hconjunction
  | some conjunctions =>
    rw [hselect, Option.getD_some] at hconjunction
    have harities := ha.selects v conjunctions hselect conjunction hconjunction
    rw [find?_selects_of_make hr, Option.map_eq_some_iff] at hselect
    obtain ⟨f, hf, rfl⟩ := hselect
    obtain ⟨l, hl, hgenerates, hv⟩ := exists_generates_of_conjunctionFault?
      (conjunctionFault?_of_make hr hf hconjunction)
    obtain ⟨type', hputs', hvalue⟩ :=
      Literal.exists_puts_of_holdsIn (hholds l hl) hgenerates (harities l hl) hv
    have hmem := Formula.mem_occurrences_of_mem_expand f false hconjunction hl
    rwa [← htypes.selects v f hf _ hmem t ht type' type hputs' hputs]

end Row

/-- Grounding the rows of an accepted rule that binds all its variables never fails. -/
theorem failsOnly_groundRows (hr : make name e formulas weight = .ok r) (ha : r.HasArities)
    (htypes : TypesAgree e formulas)
    (hterms : ∀ t ∈ e.terms, Atom.make t.atom.queryAtom.predicate t.atom.queryAtom.args =
      .ok t.atom.queryAtom)
    (hbinds : ∀ t ∈ e.terms, ∀ v ∈ t.atom.queryAtom.vars, e.Binds v)
    (before : SelectionSets) {rows : List Row}
    (hrows : ∀ row ∈ rows, ∃ τ, r.SatisfiedBy s τ ∧ row = e.vars.map τ) :
    FailsOnly (r.groundRows s before (rows.map (ResultList.assign e.vars))) fun _ => False := by
  induction rows generalizing before with
  | nil => exact failsOnly_pure 0
  | cons row rows ih =>
    obtain ⟨τ, hτ, rfl⟩ := hrows row List.mem_cons_self
    obtain ⟨hexpression, hselects⟩ := selects_of_make hr
    obtain ⟨sets, hsets⟩ := exists_yields_fillSets hr s τ ∅ r.expression.summationVariables
    have hlists : sets.Lists r s (e.vars.map τ) := by
      rw [← hexpression] at hselects hsets ⊢
      exact (runOn_selectionSets ha.selects hselects (hsets ⟨.fresh .strict, []⟩)).2
    have hrow : FailsOnly (r.groundRow s (ResultList.assign e.vars (e.vars.map τ)) sets)
        fun _ => False := by
      refine failsOnly_groundRow (fun t ht v hv => ?_) fun t ht args hargs => ?_
      · rw [hexpression] at ht
        exact mem_distinct.mpr (List.mem_flatMap.mpr ⟨t, ht, TermAtom.mem_vars_of_arg hv⟩)
      · rw [hexpression] at ht
        refine accepts_of_mem_product (hterms t ht) (fun v type _ hputs => ?_)
          (fun v type _ hputs c hc => ?_) hargs
        · have hv : v ∈ t.atom.queryAtom.vars := Atom.mem_vars.mpr (List.of_mem_zip hputs).2
          exact accepts_of_satisfiedBy hr ha htypes hτ ht (hbinds t ht v hv) hputs
        · exact accepts_of_selects hr ha htypes ((hlists.mem_iff v c).mp hc) ht hputs
    rw [List.map_cons, groundRows, recomputeSets_eq]
    refine hsets.failsOnly_bind (hrow.bind fun n => ?_)
    exact (ih sets fun row' hrow' => hrows row' (List.mem_cons_of_mem _ hrow')).bind
      fun rest => failsOnly_pure _

end Grounding

/-- An accepted rule whose atoms are checked ones and whose variables stand for arguments of one
type each, under a deferring manager, whatever it has resolved, and over any store: if the terms
over standard predicates have all variables of the other terms, the rule is grounded. If not, it
never is: the query for the rows is refused, whatever is stored, for a variable that they do not
have. -/
theorem ground_fails_only_for_unbound_variables {name : String} {e : Expression}
    {formulas : FiniteMap SummationVariable Formula} {weight : Option Float}
    (hr : make name e formulas weight = .ok r)
    (hterms : ∀ t ∈ e.terms, Atom.make t.atom.queryAtom.predicate t.atom.queryAtom.args =
      .ok t.atom.queryAtom)
    (hformulas : ∀ v f, formulas.find? v = some f → ∀ a ∈ f.occurrences, a.HasArity)
    (htypes : TypesAgree e formulas) (s : Store) {w : Workspace} {threshold : Float}
    (hw : w.manager.policy = .deferring threshold) :
    ((∀ t ∈ e.terms, ∀ v ∈ t.atom.queryAtom.vars, e.Binds v) →
      ∃ n, ((r.ground s).runOn w).1 = .ok n) ∧
    ((¬ ∀ t ∈ e.terms, ∀ v ∈ t.atom.queryAtom.vars, e.Binds v) →
      ∃ t ∈ e.terms, ∃ v ∈ t.atom.queryAtom.vars, ¬ e.Binds v ∧
        (r.ground s).runOn w = (.error (.query
          (.unboundVariable v.name (Literal.positive t.atom.queryAtom).toText)), w)) := by
  have ha := hasArities_of_make hr (fun t ht => Atom.hasArity_of_make (hterms t ht)) hformulas
  have hexpression := (selects_of_make hr).1
  constructor
  · intro hbinds
    have hquery : r.groundingQuery.fault? = none :=
      fault?_groundingQuery_eq_none (hexpression.symm ▸ hbinds)
    obtain ⟨hvars, -, hmem⟩ := mem_rows_groundingQuery (s := s) ha
      (Query.evaluate_eq_ok_iff.mpr ⟨hquery, rfl⟩)
    rw [hexpression] at hvars hmem
    have hground : FailsOnly (r.ground s) fun _ => False := by
      rw [ground]
      refine (yields_query hquery).failsOnly_bind ?_
      rw [ResultList.assignments, hvars]
      exact failsOnly_groundRows hr ha htypes hterms hbinds ∅ fun row hrow => (hmem row).mp hrow
    exact hground.exists_ok ⟨threshold, hw⟩
  · intro hunbound
    obtain ⟨t, ht, v, hv, hnot, hfault⟩ :=
      exists_fault?_groundingQuery (r := r) (hexpression.symm ▸ hunbound)
    rw [hexpression] at ht hnot
    refine ⟨t, ht, v, hv, hnot, ?_⟩
    rw [ground, runOn_bind, Grounding.query, Query.evaluate, hfault]
    rfl

/-- The tasks of all persons, and whether they differ from a task of which nothing else is said. -/
def otherTaskExpression : Expression where
  terms := [
    ⟨.number 1.0, .plain taskAtom⟩,
    ⟨.number 1.0, .plain ⟨.ofBuiltin .notEqual .integer, [.var ⟨"T"⟩, .var ⟨"U"⟩]⟩⟩]
  comparator := .greaterOrEqual
  constant := .number 0.0

/-- The rule made of this expression. -/
def otherTaskRule : ArithmeticRule := ⟨"other", otherTaskExpression, ∅, none⟩

/-- The rule is accepted and cannot be grounded: the other task is not bound. -/
theorem otherTaskRule_is_refused :
    make "other" otherTaskExpression ∅ none = .ok otherTaskRule ∧
      (∀ t ∈ otherTaskExpression.terms, Atom.make t.atom.queryAtom.predicate
        t.atom.queryAtom.args = .ok t.atom.queryAtom) ∧
      TypesAgree otherTaskExpression ∅ ∧
      (¬ ∀ t ∈ otherTaskExpression.terms, ∀ v ∈ t.atom.queryAtom.vars,
        otherTaskExpression.Binds v) ∧
      (otherTaskRule.ground taskStore).runOn ⟨.fresh (.deferring 0.5), []⟩ =
        (.error (.query (.unboundVariable "U" "#NotEqual(T, U)")),
          ⟨.fresh (.deferring 0.5), []⟩) := by
  have hmake : make "other" otherTaskExpression ∅ none = .ok otherTaskRule := rfl
  have hchecked : ∀ t ∈ otherTaskExpression.terms, Atom.make t.atom.queryAtom.predicate
      t.atom.queryAtom.args = .ok t.atom.queryAtom := by
    intro t ht
    rcases List.mem_pair.mp ht with rfl | rfl <;> rfl
  have hintegers : ∀ a ∈ otherTaskExpression.terms.map fun t => t.atom.queryAtom, ∀ v t,
      a.Puts v t → t = .integer := by
    have hdeclared : ∀ a ∈ otherTaskExpression.terms.map fun t => t.atom.queryAtom,
        ∀ t ∈ a.predicate.argTypes, t = .integer := by decide
    exact fun a ha v t hv => hdeclared a ha t (List.of_mem_zip hv).1
  have htypes : TypesAgree otherTaskExpression ∅ :=
    ⟨fun a ha b hb v t u hv hu => (hintegers a ha v t hv).trans (hintegers b hb v u hu).symm,
      fun v f hf => by cases hf⟩
  have hunbound : ¬ ∀ t ∈ otherTaskExpression.terms, ∀ v ∈ t.atom.queryAtom.vars,
      otherTaskExpression.Binds v := by decide
  have hother : ∀ t ∈ otherTaskExpression.terms, ∀ v ∈ t.atom.queryAtom.vars,
      ¬ otherTaskExpression.Binds v →
        v.name = "U" ∧ (Literal.positive t.atom.queryAtom).toText = "#NotEqual(T, U)" := by decide
  obtain ⟨-, hfails⟩ := ground_fails_only_for_unbound_variables hmake hchecked
    (fun v f hf => by cases hf) htypes taskStore (w := ⟨.fresh (.deferring 0.5), []⟩) rfl
  obtain ⟨t, ht, v, hv, hnot, hrun⟩ := hfails hunbound
  obtain ⟨hname, htext⟩ := hother t ht v hv hnot
  rw [hname, htext] at hrun
  exact ⟨hmake, hchecked, htypes, hunbound, hrun⟩

end ArithmeticRule

end RuleGrounding
