import RuleGrounding.Grounding.Rules
import RuleGrounding.Proofs.Grounding.Steps
import RuleGrounding.Proofs.Manager.Instances

/-!
# The instances in ground rules

Every atom of a ground rule is an instance that the manager gives out, and
grounding keeps the instances given out before. This holds after every step, also
after one that fails.
-/

namespace RuleGrounding

/-- The manager's instances are in order and contain those of an earlier manager, some given
handles, and every atom of the ground rules. -/
structure Workspace.Keeps (m₀ : Manager) (hs : List Handle) (w : Workspace) : Prop where
  /-- The instances are in order. -/
  sound : w.manager.Sound
  /-- Earlier instances are kept. -/
  grows : m₀.Grows w.manager
  /-- The handles are given out. -/
  handles : ∀ h ∈ hs, w.manager.Gives h
  /-- The atoms of the ground rules are given out. -/
  rules : ∀ g ∈ w.rules, ∀ h ∈ g.atoms, w.manager.Gives h

namespace Workspace.Keeps

variable {m₀ : Manager} {hs hs' : List Handle} {w : Workspace}

theorem mono (h : w.Keeps m₀ hs) (hsub : ∀ a ∈ hs', a ∈ hs) : w.Keeps m₀ hs' :=
  ⟨h.sound, h.grows, fun a ha => h.handles a (hsub a ha), h.rules⟩

/-- A later manager whose instances are in order keeps what was kept. -/
theorem later (h : w.Keeps m₀ hs) {m : Manager} (hm : m.Sound) (hgrows : w.manager.Grows m) :
    Workspace.Keeps m₀ hs { w with manager := m } :=
  ⟨hm, h.grows.trans hgrows, fun a ha => hgrows.gives a (h.handles a ha),
    fun g hg a ha => hgrows.gives a (h.rules g hg a ha)⟩

end Workspace.Keeps

namespace Grounding

variable {m₀ : Manager} {hs : List Handle} {α β : Type}

/-- A step that keeps the instances, and whose result has some more. -/
def Keeping (m₀ : Manager) (hs : List Handle) (step : Grounding α) (handles : α → List Handle) :
    Prop :=
  Ensures (Workspace.Keeps m₀ hs) step (fun a => Workspace.Keeps m₀ (handles a ++ hs))
    fun _ => Workspace.Keeps m₀ []

theorem keeping_pure {a : α} {handles : α → List Handle} (h : ∀ b ∈ handles a, b ∈ hs) :
    Keeping m₀ hs (pure a) handles :=
  ensures_pure fun _ hw => hw.mono fun b hb => (List.mem_append.mp hb).elim (h b) id

/-- A step without instances of its own may end anywhere. -/
theorem keeping_done {a : α} : Keeping m₀ hs (pure a) fun _ => [] :=
  keeping_pure fun _ hb => absurd hb List.not_mem_nil

theorem keeping_throw {fault : GroundingFault} {handles : α → List Handle} :
    Keeping m₀ hs (throw fault) handles :=
  ensures_throw fun _ hw => hw.mono fun _ hb => absurd hb List.not_mem_nil

/-- Steps one after the other keep the instances; of what the first step found the second may use
any part. -/
theorem Keeping.bind {x : Grounding α} {f : α → Grounding β} {first : α → List Handle}
    {handles : β → List Handle} (hx : Keeping m₀ hs x first)
    (hf : ∀ a, Keeping m₀ (first a ++ hs) (f a) handles) : Keeping m₀ hs (x >>= f) handles :=
  Ensures.bind hx fun a => (hf a).imp (fun _ hw => hw)
    (fun b _ hw => hw.mono fun c hc => by
      rcases List.mem_append.mp hc with hc | hc
      · exact List.mem_append_left _ hc
      · exact List.mem_append_right _ (List.mem_append_right _ hc))
    fun _ _ hw => hw

theorem keeping_query (s : Store) (q : Query) : Keeping m₀ hs (query s q) fun _ => [] :=
  ensures_query (fun _ _ _ hw => hw) fun _ _ _ hw => hw.mono fun _ hb => absurd hb List.not_mem_nil

theorem keeping_valueOf (h : Handle) : Keeping m₀ hs (valueOf h) fun _ => [] :=
  ensures_valueOf fun _ hw => hw

/-- A resolved atom is an instance that the manager gives out. -/
theorem keeping_resolve (s : Store) (p : Predicate) (args : List Constant) :
    Keeping m₀ hs (resolve s p args) fun h => [h] := by
  refine ensures_resolve (fun w h m hw hr => ?_) fun _ _ hw _ =>
    hw.mono fun _ hb => absurd hb List.not_mem_nil
  obtain ⟨hm, hgrows, hh⟩ := Manager.resolve_sound_grows hw.sound hr
  have hlater := hw.later hm hgrows
  refine ⟨hlater.sound, hlater.grows, fun a ha => ?_, hlater.rules⟩
  rcases List.mem_cons.mp ha with rfl | ha
  · exact hh
  · exact hlater.handles a ha

/-- A ground rule may be made of instances that are given out. -/
theorem keeping_emit {g : GroundRule} (hg : ∀ h ∈ g.atoms, h ∈ hs) :
    Keeping m₀ hs (emit g) fun _ => [] := by
  refine ensures_emit fun w hw => ⟨hw.sound, hw.grows, hw.handles, fun g' hg' h hh => ?_⟩
  rcases List.mem_append.mp hg' with hg' | hg'
  · exact hw.rules g' hg' h hh
  · rw [List.mem_singleton.mp hg'] at hh
    exact hw.handles h (hg h hh)

end Grounding

open Grounding

section Logical

variable {m₀ : Manager} {hs : List Handle}

/-- The atoms on both sides. -/
def ClauseSides.handles (sides : ClauseSides) : List Handle := sides.positive ++ sides.negative

theorem ClauseSides.mem_handles_add {sides : ClauseSides} {negated : Bool} {h a : Handle} :
    a ∈ (sides.add negated h).handles ↔ a = h ∨ a ∈ sides.handles := by
  cases negated <;> simp [ClauseSides.add, ClauseSides.handles, or_comm, or_left_comm]

namespace LogicalRule

theorem keeping_resolveLiteral (s : Store) (θ : Assignment) (l : Literal) :
    Keeping m₀ hs (resolveLiteral s θ l) fun h => [h] := by
  rw [resolveLiteral]
  split
  · exact keeping_throw
  · exact keeping_resolve s l.atom.predicate _

theorem keeping_groundLiterals (s : Store) (θ : Assignment) (ls : Conjunction)
    (sides : ClauseSides) (hsides : ∀ h ∈ sides.handles, h ∈ hs) :
    Keeping m₀ hs (groundLiterals s θ ls sides) fun r => r.elim [] ClauseSides.handles := by
  induction ls generalizing hs sides with
  | nil => exact keeping_pure hsides
  | cons l ls ih =>
    rw [groundLiterals]
    refine (keeping_resolveLiteral s θ l).bind fun h => ?_
    split
    · refine ih _ fun a ha => ?_
      rcases ClauseSides.mem_handles_add.mp ha with rfl | ha
      · exact List.mem_append_left _ (List.mem_singleton_self _)
      · exact List.mem_append_right _ (hsides a ha)
    · refine (keeping_valueOf h).bind fun v => ?_
      split
      · exact keeping_pure fun _ hb => absurd hb List.not_mem_nil
      · exact ih _ fun a ha => List.mem_append_right _ (List.mem_append_right _ (hsides a ha))

theorem keeping_groundRow (r : LogicalRule) (s : Store) (θ : Assignment) :
    Keeping m₀ hs (r.groundRow s θ) fun _ => [] := by
  rw [groundRow]
  refine (keeping_groundLiterals s θ r.clause .empty fun h hh => absurd hh List.not_mem_nil).bind
    fun sides => ?_
  split
  · exact keeping_done
  · rename_i g hg
    obtain ⟨sides, rfl, hclause⟩ := Option.bind_eq_some_iff.mp hg
    refine (keeping_emit fun h hh => ?_).bind fun _ => keeping_done
    rw [clauseOf?] at hclause
    split at hclause
    · cases hclause
    · cases hclause
      exact List.mem_append_left _ (List.mem_append.mpr (List.mem_append.mp hh).symm)

theorem keeping_groundRows (r : LogicalRule) (s : Store) (rows : List Assignment) :
    Keeping m₀ hs (r.groundRows s rows) fun _ => [] := by
  induction rows generalizing hs with
  | nil => exact keeping_done
  | cons θ rows ih =>
    rw [groundRows]
    exact (keeping_groundRow r s θ).bind fun _ => ih.bind fun _ => keeping_done

theorem keeping_ground (r : LogicalRule) (s : Store) :
    Keeping m₀ hs (r.ground s) fun _ => [] :=
  (keeping_query s _).bind fun _ => keeping_groundRows r s _

end LogicalRule

end Logical

section Arithmetic

variable {m₀ : Manager} {hs : List Handle}

namespace ArithmeticRule

theorem keeping_selectAll (s : Store) (θ : Assignment) (v : SummationVariable)
    (set : List Constant) (cs : NormalForm) :
    Keeping m₀ hs (selectAll s θ v set cs) fun _ => [] := by
  induction cs generalizing hs set with
  | nil => exact keeping_done
  | cons c cs ih =>
    rw [selectAll]
    exact (keeping_query s _).bind fun _ => ih _

theorem keeping_fillSets (r : ArithmeticRule) (s : Store) (θ : Assignment) (sets : SelectionSets)
    (vs : List SummationVariable) : Keeping m₀ hs (fillSets r s θ sets vs) fun _ => [] := by
  induction vs generalizing hs sets with
  | nil => exact keeping_done
  | cons v vs ih =>
    rw [fillSets]
    exact (keeping_selectAll s θ v _ _).bind fun _ => ih _

theorem keeping_domains (θ : Assignment) (sets : SelectionSets) (args : List SummationTerm) :
    Keeping m₀ hs (domains θ sets args) fun _ => [] := by
  induction args generalizing hs with
  | nil => exact keeping_done
  | cons a args ih =>
    have hrest : ∀ d : List Constant, Keeping m₀ hs (do
        let rest ← domains θ sets args
        pure (d :: rest)) fun _ => [] := fun d => ih.bind fun _ => keeping_done
    rcases a with (v | c) | v
    · rw [domains]
      split
      · exact keeping_throw
      · exact hrest _
    · exact hrest [c]
    · exact hrest _

theorem keeping_settle (θ : Assignment) (sets : SelectionSets) (ts : List ExpressionTerm) :
    Keeping m₀ hs (settle θ sets ts) fun _ => [] := by
  induction ts generalizing hs with
  | nil => exact keeping_done
  | cons t ts ih =>
    rw [settle]
    refine (keeping_domains θ sets t.atom.args).bind fun ds => ?_
    split
    · exact ih
    · dsimp only
      split
      · exact ih.bind fun _ => keeping_done
      · exact keeping_done

theorem keeping_resolveAll (s : Store) (p : Predicate) (tuples : List (List Constant)) :
    Keeping m₀ hs (resolveAll s p tuples) id := by
  induction tuples generalizing hs with
  | nil => exact keeping_pure fun _ hb => absurd hb List.not_mem_nil
  | cons args rest ih =>
    rw [resolveAll]
    refine (keeping_resolve s p args).bind fun h => ih.bind fun found =>
      keeping_pure fun b hb => ?_
    rcases List.mem_cons.mp hb with rfl | hb
    · exact List.mem_append_right _ (List.mem_append_left _ (List.mem_singleton_self _))
    · exact List.mem_append_left _ hb

theorem keeping_expandAll (s : Store) (es : List Expansion) :
    Keeping m₀ hs (expandAll s es) (List.map Prod.snd) := by
  induction es generalizing hs with
  | nil => exact keeping_pure fun _ hb => absurd hb List.not_mem_nil
  | cons e es ih =>
    rw [expandAll]
    refine (keeping_resolveAll s e.predicate _).bind fun found => ih.bind fun rest =>
      keeping_pure fun b hb => ?_
    rw [List.map_append, List.map_map, List.mem_append] at hb
    rcases hb with hb | hb
    · obtain ⟨h, hh, rfl⟩ := List.mem_map.mp hb
      exact List.mem_append_right _ (List.mem_append_left _ hh)
    · exact List.mem_append_left _ hb

theorem keeping_emitAll (r : ArithmeticRule) (entries : List (Float × Handle)) (constant : Float)
    (cs : List Inequality) (hentries : ∀ h ∈ entries.map Prod.snd, h ∈ hs) :
    Keeping m₀ hs (cs.forM fun c => emit (r.constraintOf entries constant c)) fun _ => [] := by
  induction cs generalizing hs with
  | nil => exact keeping_done
  | cons c cs ih =>
    have hatoms : ∀ h ∈ (r.constraintOf entries constant c).atoms, h ∈ hs := hentries
    exact (keeping_emit hatoms).bind fun _ => ih hentries

theorem keeping_groundRow (r : ArithmeticRule) (s : Store) (θ : Assignment)
    (sets : SelectionSets) : Keeping m₀ hs (r.groundRow s θ sets) fun _ => [] := by
  rw [groundRow]
  refine (keeping_settle θ sets r.expression.terms).bind fun expansions => ?_
  split
  · exact keeping_done
  · dsimp only
    split
    · refine (keeping_expandAll s _).bind fun entries =>
        (keeping_emitAll r entries _ _ fun h hh => List.mem_append_left _ hh).bind fun _ =>
          keeping_done
    · exact keeping_done

theorem keeping_groundRows (r : ArithmeticRule) (s : Store) (sets : SelectionSets)
    (rows : List Assignment) : Keeping m₀ hs (r.groundRows s sets rows) fun _ => [] := by
  induction rows generalizing hs sets with
  | nil => exact keeping_done
  | cons θ rows ih =>
    rw [groundRows]
    exact (keeping_fillSets r s θ _ _).bind fun sets => (keeping_groundRow r s θ sets).bind
      fun _ => (ih sets).bind fun _ => keeping_done

theorem keeping_ground (r : ArithmeticRule) (s : Store) :
    Keeping m₀ hs (r.ground s) fun _ => [] :=
  (keeping_query s _).bind fun _ => keeping_groundRows r s ∅ _

end ArithmeticRule

end Arithmetic

section Rules

variable {m₀ : Manager} {hs : List Handle}

theorem Rule.keeping_ground (r : Rule) (s : Store) : Keeping m₀ hs (r.ground s) fun _ => [] := by
  cases r with
  | logical r => exact r.keeping_ground s
  | arithmetic r => exact r.keeping_ground s

theorem Rule.keeping_groundResults (r : Rule) (s : Store) (results : ResultList) :
    Keeping m₀ hs (r.groundResults s results) fun _ => [] := by
  cases r with
  | logical r => exact r.keeping_groundRows s results.assignments
  | arithmetic r => exact keeping_throw

theorem Rule.keeping_groundAll (s : Store) (rs : List Rule) :
    Keeping m₀ hs (Rule.groundAll s rs) fun _ => [] := by
  induction rs generalizing hs with
  | nil => exact keeping_done
  | cons r rs ih =>
    rw [Rule.groundAll]
    exact (r.keeping_ground s).bind fun _ => ih.bind fun _ => keeping_done

/-- Whether it succeeds or fails, grounding a rule base keeps the instances. -/
theorem RuleBase.keeping_ground (b : RuleBase) (s : Store) :
    Keeping m₀ hs (b.ground s) fun _ => [] :=
  Rule.keeping_groundAll s b.rules

end Rules

end RuleGrounding
