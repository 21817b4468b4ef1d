import RuleGrounding.Proofs.Grounding.Composition
import RuleGrounding.Proofs.Manager.Extensions

/-!
# What grounding adds

Grounding resolves atoms and produces ground rules. Whether it succeeds or fails, what
was there before stays as it was.
-/

namespace RuleGrounding

/-- A workspace in which grounding over a store has resolved atoms and produced ground rules of
some kind. -/
structure Workspace.Extends (s : Store) (kind : GroundRule → Prop) (w w' : Workspace) : Prop where
  /-- The manager has resolved atoms. -/
  manager : w.manager.Extends s w'.manager
  /-- The new ground rules come after the old ones. -/
  rules : ∃ produced, w'.rules = w.rules ++ produced ∧ ∀ g ∈ produced, kind g

namespace Workspace.Extends

variable {s : Store} {kind : GroundRule → Prop} {w w₁ w' : Workspace}

theorem refl (s : Store) (kind : GroundRule → Prop) (w : Workspace) : w.Extends s kind w :=
  ⟨.refl s _, [], (List.append_nil _).symm, fun _ h => absurd h List.not_mem_nil⟩

theorem trans (h : w.Extends s kind w₁) (h' : w₁.Extends s kind w') : w.Extends s kind w' := by
  obtain ⟨first, hfirst, hkind⟩ := h.rules
  obtain ⟨second, hsecond, hkind'⟩ := h'.rules
  refine ⟨h.manager.trans h'.manager, first ++ second, ?_, fun g hg => ?_⟩
  · rw [hsecond, hfirst, List.append_assoc]
  · exact (List.mem_append.mp hg).elim (hkind g) (hkind' g)

/-- Ground rules of one kind are of any wider kind. -/
theorem mono {kind' : GroundRule → Prop} (h : w.Extends s kind w')
    (hkind : ∀ g, kind g → kind' g) : w.Extends s kind' w' := by
  obtain ⟨produced, hrules, hproduced⟩ := h.rules
  exact ⟨h.manager, produced, hrules, fun g hg => hkind g (hproduced g hg)⟩

end Workspace.Extends

namespace Grounding

variable {s : Store} {kind : GroundRule → Prop} {α β : Type}

/-- A step that leaves what there is, wherever it ends. -/
def Extending (s : Store) (kind : GroundRule → Prop) (step : Grounding α) : Prop :=
  ∀ w : Workspace, w.Extends s kind (step.runOn w).2

theorem extending_pure (a : α) : Extending s kind (pure a) :=
  Workspace.Extends.refl s kind

theorem extending_throw (fault : GroundingFault) :
    Extending s kind (throw fault : Grounding α) :=
  Workspace.Extends.refl s kind

theorem Extending.bind {x : Grounding α} {f : α → Grounding β} (hx : Extending s kind x)
    (hf : ∀ a, Extending s kind (f a)) : Extending s kind (x >>= f) := by
  intro w
  have hfirst := hx w
  rw [runOn_bind]
  revert hfirst
  split
  · rename_i a w₁ hrun
    rw [hrun]
    exact fun hfirst => hfirst.trans (hf a w₁)
  · rename_i fault w₁ hrun
    rw [hrun]
    exact id

theorem extending_query (q : Query) : Extending s kind (query s q) := by
  rw [query]
  split
  · exact extending_throw _
  · exact extending_pure _

theorem extending_resolve (p : Predicate) (args : List Constant) :
    Extending s kind (resolve s p args) := by
  intro w
  rw [runOn_resolve]
  split
  · exact .refl s kind w
  · rename_i h m hr
    obtain ⟨k, -, hk⟩ := Manager.resolve_eq_ok_iff.mp hr
    exact ⟨Manager.extends_of_resolveKey hk, [], (List.append_nil _).symm,
      fun _ hg => absurd hg List.not_mem_nil⟩

theorem extending_valueOf (h : Handle) : Extending s kind (valueOf h) :=
  Workspace.Extends.refl s kind

theorem extending_emit {g : GroundRule} (hg : kind g) : Extending s kind (emit g) := by
  refine fun w => ⟨.refl s _, [g], rfl, fun g' hg' => ?_⟩
  rw [List.mem_singleton.mp hg']
  exact hg

/-- So is every step that is composed of the single ones. -/
theorem Parallel.extending {s' : Store} {x x' : Grounding α} (h : Parallel s s' kind x x') :
    Extending s kind x := by
  induction h with
  | pure a => exact extending_pure a
  | throw fault => exact extending_throw fault
  | bind _ _ ihx ihf => exact ihx.bind ihf
  | query q => exact extending_query q
  | resolve p args => exact extending_resolve p args
  | read args _ => exact (extending_resolve _ args).bind extending_valueOf
  | emit hg => exact extending_emit hg

end Grounding

open Grounding

/-- Grounding a logical rule for some rows adds ground clauses of that rule, wherever it ends. -/
theorem LogicalRule.extending_groundRows (r : LogicalRule) (s : Store) (rows : List Assignment) :
    Extending s (GroundRule.IsClauseOf r) (r.groundRows s rows) :=
  (r.parallel_groundRows s s rows).extending

namespace Rule

/-- Grounding a rule of either kind leaves what there is, wherever it ends. -/
theorem extending_ground (s : Store) (r : Rule) :
    Extending s (fun _ => True) (r.ground s) :=
  (r.parallel_ground s s).extending

theorem extending_groundResults (s : Store) (results : ResultList) (r : Rule) :
    Extending s (fun _ => True) (r.groundResults s results) :=
  (r.parallel_groundResults s s results).extending

theorem extending_groundAll (s : Store) (rs : List Rule) :
    Extending s (fun _ => True) (groundAll s rs) :=
  (parallel_groundAll s s rs).extending

end Rule

end RuleGrounding
