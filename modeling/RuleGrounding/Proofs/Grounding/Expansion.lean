import RuleGrounding.Proofs.CrossProduct
import RuleGrounding.Proofs.Grounding.Selections
import RuleGrounding.Proofs.Manager.Instances

/-!
# Expanding the terms of an arithmetic rule

A term stands for its instances: its ordinary variables have the constants of the
row, and there is one instance for each choice of selected constants for its
summation variables. The expansion of a term resolves each instance once.
-/

namespace RuleGrounding

/-- The constant that an argument stands for under a valuation and a choice for the summation
variables. -/
def SummationTerm.eval (σ : Valuation) (choice : SummationVariable → Constant) :
    SummationTerm → Constant
  | plain t => t.eval σ
  | sum v => choice v

/-- The constants that an argument may stand for. -/
def SummationTerm.domain (σ : Valuation) (sets : SelectionSets) : SummationTerm → List Constant
  | plain t => [t.eval σ]
  | sum v => sets.elements v

/-- The manager gives out this instance for a predicate and constants. -/
structure Manager.GivesInstance (m : Manager) (p : Predicate) (args : List Constant) (h : Handle) :
    Prop where
  /-- The instance is given out. -/
  gives : m.Gives h
  /-- It is one of the predicate. -/
  predicate : h.key.predicate = p
  /-- It has these constants. -/
  args : h.key.args = args

theorem Manager.GivesInstance.later {m m' : Manager} {p : Predicate} {args : List Constant}
    {h : Handle} (hh : m.GivesInstance p args h) (hgrows : m.Grows m') :
    m'.GivesInstance p args h :=
  ⟨hgrows.gives h hh.gives, hh.predicate, hh.args⟩

/-- A step has resolved atoms and done nothing else. -/
structure Workspace.Resolves (w w' : Workspace) : Prop where
  /-- The instances are in order. -/
  sound : w'.manager.Sound
  /-- Earlier instances are kept. -/
  grows : w.manager.Grows w'.manager
  /-- No ground rule is produced. -/
  rules : w'.rules = w.rules

theorem Workspace.Resolves.trans {w₁ w₂ w₃ : Workspace} (h : w₁.Resolves w₂)
    (h' : w₂.Resolves w₃) : w₁.Resolves w₃ :=
  ⟨h'.sound, h.grows.trans h'.grows, h'.rules.trans h.rules⟩

theorem TermAtom.mem_summationVariables {a : TermAtom} {v : SummationVariable} :
    v ∈ a.summationVariables ↔ .sum v ∈ a.args := by
  cases a with
  | plain a => simp [summationVariables, args]
  | sum a =>
    rw [summationVariables, SummationAtom.summationVariables, mem_distinct, List.mem_filterMap]
    constructor
    · rintro ⟨t, ht, hv⟩
      cases t with
      | plain t => cases hv
      | sum u =>
        cases hv
        exact ht
    · exact fun h => ⟨_, h, rfl⟩

theorem TermAtom.mem_vars_of_arg {a : TermAtom} {v : Variable} (h : .plain (.var v) ∈ a.args) :
    v ∈ a.vars := by
  cases a with
  | plain a =>
    obtain ⟨t, ht, he⟩ := List.mem_map.mp h
    rw [SummationTerm.plain.inj he] at ht
    exact Atom.mem_vars.mpr ht
  | sum a =>
    rw [vars, SummationAtom.vars, mem_distinct, List.mem_filterMap]
    exact ⟨_, h, rfl⟩

namespace SelectionSets

variable {sets : SelectionSets} {τ : Valuation}

/-- If no summation variable stands twice, the tuples of the domains are the instances, one for
each choice. -/
theorem mem_product_domains {args : List SummationTerm}
    (hnodup : (args.filterMap SummationTerm.summation?).Nodup) {t : List Constant} :
    t ∈ CrossProduct.product (args.map (SummationTerm.domain τ sets)) ↔
      ∃ choice : SummationVariable → Constant,
        (∀ v, .sum v ∈ args → choice v ∈ sets.elements v) ∧
          t = args.map (SummationTerm.eval τ choice) := by
  rw [CrossProduct.mem_product, List.forall₂_map_right_iff]
  constructor
  · intro h
    induction h with
    | nil => exact ⟨fun _ => .integer 0, fun v hv => absurd hv List.not_mem_nil, rfl⟩
    | @cons x a t args hx _ ih =>
      cases a with
      | plain u =>
        obtain ⟨choice, hchoice, rfl⟩ := ih hnodup
        refine ⟨choice, fun v hv => hchoice v ?_, ?_⟩
        · exact (List.mem_cons.mp hv).resolve_left nofun
        · rw [List.map_cons, List.mem_singleton.mp hx]
          rfl
      | sum u =>
        obtain ⟨hu, hrest⟩ := List.nodup_cons.mp hnodup
        obtain ⟨choice, hchoice, rfl⟩ := ih hrest
        have hother : ∀ v, .sum v ∈ args → v ≠ u := by
          rintro v hv rfl
          exact hu (List.mem_filterMap.mpr ⟨_, hv, rfl⟩)
        refine ⟨fun v => if v = u then x else choice v, fun v hv => ?_, ?_⟩
        · dsimp only
          split
          · rename_i he
            rw [he]
            exact hx
          · rename_i hne
            refine hchoice v ((List.mem_cons.mp hv).resolve_left fun he => hne ?_)
            exact SummationTerm.sum.inj he
        · rw [List.map_cons, SummationTerm.eval, if_pos rfl]
          refine congrArg _ (List.map_congr_left fun a ha => ?_)
          cases a with
          | plain u => rfl
          | sum v => rw [SummationTerm.eval, SummationTerm.eval, if_neg (hother v ha)]
  · rintro ⟨choice, hchoice, rfl⟩
    clear hnodup
    induction args with
    | nil => exact .nil
    | cons a args ih =>
      refine .cons ?_ (ih fun v hv => hchoice v (List.mem_cons_of_mem a hv))
      cases a with
      | plain u => exact List.mem_singleton_self _
      | sum u => exact hchoice u List.mem_cons_self

/-- Sets without repetition give tuples without repetition. -/
theorem nodup_product_domains (hsets : ∀ v, (sets.elements v).Nodup) (args : List SummationTerm) :
    (CrossProduct.product (args.map (SummationTerm.domain τ sets))).Nodup := by
  apply CrossProduct.nodup_product
  intro d hd
  obtain ⟨a, -, rfl⟩ := List.mem_map.mp hd
  cases a with
  | plain t => exact List.nodup_singleton _
  | sum v => exact hsets v

end SelectionSets

/-- The settled form of a term, unless it has no instances. -/
def ExpressionTerm.expansion? (t : ExpressionTerm) (τ : Valuation) (sets : SelectionSets) :
    Option Expansion :=
  let domains := t.atom.args.map (SummationTerm.domain τ sets)
  if domains.any List.isEmpty then none
  else some ⟨t.atom.predicate, t.coefficient.value sets.size, domains⟩

/-- The entries of a term: one for each tuple of the domains of its arguments, in order, with the
value of the coefficient. -/
def ExpressionTerm.Enumerates (t : ExpressionTerm) (τ : Valuation) (sets : SelectionSets)
    (m : Manager) (entries : List (Float × Handle)) : Prop :=
  List.Forall₂ (fun args entry => entry.1 = t.coefficient.value sets.size ∧
      m.GivesInstance t.atom.predicate args entry.2)
    (CrossProduct.product (t.atom.args.map (SummationTerm.domain τ sets))) entries

namespace ArithmeticRule

variable {w w' : Workspace} {τ : Valuation} {vs : List Variable} {sets : SelectionSets}

theorem runOn_domains {args : List SummationTerm} {ds : List (List Constant)}
    (h : (domains (ResultList.assign vs (vs.map τ)) sets args).runOn w = (.ok ds, w')) :
    w = w' ∧ ds = args.map (SummationTerm.domain τ sets) := by
  induction args generalizing ds with
  | nil =>
    obtain ⟨rfl, rfl⟩ := Grounding.runOn_pure_eq_ok_iff.mp h
    exact ⟨rfl, rfl⟩
  | cons a args ih =>
    have hrest : ∀ {d : List Constant}, Grounding.runOn (do
        let rest ← domains (ResultList.assign vs (vs.map τ)) sets args
        pure (d :: rest)) w = (.ok ds, w') →
          w = w' ∧ ds = d :: args.map (SummationTerm.domain τ sets) := by
      intro d h
      obtain ⟨rest, _, hrest, h⟩ := Grounding.runOn_bind_eq_ok_iff.mp h
      obtain ⟨rfl, rfl⟩ := Grounding.runOn_pure_eq_ok_iff.mp h
      obtain ⟨rfl, rfl⟩ := ih hrest
      exact ⟨rfl, rfl⟩
    rcases a with (v | c) | v
    · rw [domains, ResultList.find?_assign] at h
      split at h
      · exact absurd h Grounding.runOn_throw_ne_ok
      · rename_i heq
        split at heq
        · cases heq
          exact hrest h
        · cases heq
    · exact hrest h
    · exact hrest h

/-- The coefficients of all terms with instances are settled together; one that is not finite
gives up the row. -/
theorem runOn_settle {ts : List ExpressionTerm} {result : Option (List Expansion)}
    (h : (settle (ResultList.assign vs (vs.map τ)) sets ts).runOn w = (.ok result, w')) :
    w = w' ∧ result =
      if (ts.filterMap fun t => t.expansion? τ sets).all fun e => e.coefficient.isFinite then
        some (ts.filterMap fun t => t.expansion? τ sets)
      else none := by
  induction ts generalizing result w with
  | nil =>
    obtain ⟨rfl, rfl⟩ := Grounding.runOn_pure_eq_ok_iff.mp h
    exact ⟨rfl, rfl⟩
  | cons t ts ih =>
    rw [settle] at h
    obtain ⟨ds, _, hds, h⟩ := Grounding.runOn_bind_eq_ok_iff.mp h
    obtain ⟨rfl, rfl⟩ := runOn_domains hds
    rw [List.filterMap_cons, ExpressionTerm.expansion?]
    dsimp only at h ⊢
    split at h
    · rename_i hempty
      rw [if_pos hempty]
      exact ih h
    · rename_i hne
      rw [if_neg hne]
      dsimp only
      rw [List.all_cons]
      split at h
      · rename_i hfinite
        obtain ⟨rest, _, hrest, h⟩ := Grounding.runOn_bind_eq_ok_iff.mp h
        obtain ⟨rfl, rfl⟩ := Grounding.runOn_pure_eq_ok_iff.mp h
        obtain ⟨rfl, rfl⟩ := ih hrest
        refine ⟨rfl, ?_⟩
        rw [hfinite, Bool.true_and]
        split <;> rfl
      · rename_i hinfinite
        obtain ⟨rfl, rfl⟩ := Grounding.runOn_pure_eq_ok_iff.mp h
        refine ⟨rfl, ?_⟩
        rw [Bool.eq_false_iff.mpr hinfinite, Bool.false_and]
        rfl

/-- Several argument lists are resolved to their instances, in order. -/
theorem runOn_resolveAll {s : Store} {p : Predicate} {tuples : List (List Constant)}
    {hs : List Handle} (hw : w.manager.Sound)
    (h : (resolveAll s p tuples).runOn w = (.ok hs, w')) :
    w.Resolves w' ∧ List.Forall₂ (w'.manager.GivesInstance p) tuples hs := by
  induction tuples generalizing w hs with
  | nil =>
    obtain ⟨rfl, rfl⟩ := Grounding.runOn_pure_eq_ok_iff.mp h
    exact ⟨⟨hw, .refl _, rfl⟩, .nil⟩
  | cons args rest ih =>
    rw [resolveAll] at h
    obtain ⟨a, _, ha, h⟩ := Grounding.runOn_bind_eq_ok_iff.mp h
    obtain ⟨as, _, has, h⟩ := Grounding.runOn_bind_eq_ok_iff.mp h
    obtain ⟨rfl, rfl⟩ := Grounding.runOn_pure_eq_ok_iff.mp h
    obtain ⟨m, hm, rfl⟩ := Grounding.runOn_resolve_eq_ok_iff.mp ha
    obtain ⟨k, hk, hm⟩ := Manager.resolve_eq_ok_iff.mp hm
    obtain ⟨hpredicate, hargs⟩ := GroundKey.make_eq_ok hk
    obtain ⟨hsound, hgrows, rfl, hgives⟩ := Manager.resolveKey_sound_grows hw hm
    obtain ⟨hresolves, hrest⟩ := ih hsound has
    have hfirst : w.Resolves { w with manager := m } := ⟨hsound, hgrows, rfl⟩
    have hinstance : m.GivesInstance p args a := ⟨hgives, hpredicate, hargs⟩
    exact ⟨hfirst.trans hresolves, .cons (hinstance.later hresolves.grows) hrest⟩

/-- Settled terms expand to the entries of all terms, those with an empty domain having none. -/
theorem runOn_expandAll {s : Store} {ts : List ExpressionTerm} {entries : List (Float × Handle)}
    (hw : w.manager.Sound)
    (h : (expandAll s (ts.filterMap fun t => t.expansion? τ sets)).runOn w = (.ok entries, w')) :
    w.Resolves w' ∧ ∃ parts,
      List.Forall₂ (fun t part => t.Enumerates τ sets w'.manager part) ts parts ∧
        entries = parts.flatten := by
  induction ts generalizing w entries with
  | nil =>
    obtain ⟨rfl, rfl⟩ := Grounding.runOn_pure_eq_ok_iff.mp h
    exact ⟨⟨hw, .refl _, rfl⟩, [], .nil, rfl⟩
  | cons t ts ih =>
    rw [List.filterMap_cons, ExpressionTerm.expansion?] at h
    by_cases hempty : (t.atom.args.map (SummationTerm.domain τ sets)).any List.isEmpty = true
    · rw [if_pos hempty] at h
      obtain ⟨hresolves, parts, hparts, rfl⟩ := ih hw h
      obtain ⟨d, hd, hnil⟩ := List.any_eq_true.mp hempty
      have hnone : t.Enumerates τ sets w'.manager [] := by
        rw [ExpressionTerm.Enumerates,
          CrossProduct.product_eq_nil (List.isEmpty_iff.mp hnil ▸ hd)]
        exact .nil
      exact ⟨hresolves, [] :: parts, .cons hnone hparts, rfl⟩
    · rw [if_neg hempty] at h
      dsimp only at h
      rw [expandAll] at h
      obtain ⟨hs, w₁, hresolve, h⟩ := Grounding.runOn_bind_eq_ok_iff.mp h
      obtain ⟨rest, w₂, hrest, h⟩ := Grounding.runOn_bind_eq_ok_iff.mp h
      obtain ⟨rfl, rfl⟩ := Grounding.runOn_pure_eq_ok_iff.mp h
      obtain ⟨hfirst, hinstances⟩ := runOn_resolveAll hw hresolve
      obtain ⟨hlater, parts, hparts, rfl⟩ := ih hfirst.sound hrest
      rw [CrossProduct.tuples_eq_product] at hinstances
      refine ⟨hfirst.trans hlater, _ :: parts, .cons ?_ hparts, rfl⟩
      rw [ExpressionTerm.Enumerates, List.forall₂_map_right_iff]
      exact hinstances.imp fun _ _ hh => ⟨rfl, hh.later hlater.grows⟩

end ArithmeticRule

end RuleGrounding
