import RuleGrounding.Proofs.Grounding.Extensions
import RuleGrounding.Proofs.Manager.Computing

/-!
# Grounding again

A manager remembers the instances that it has given out. So a step that has succeeded succeeds
again wherever they are remembered and functional atoms have kept their values: whatever it resolves
has an instance by then, the same queries are evaluated over the same store, and so it produces the
same ground rules, with the same instances, and leaves the manager as it is.
-/

namespace RuleGrounding

namespace Manager

variable {s : Store} {m m₁ m' : Manager} {a : Handle}

/-- What a manager remembers of another: the instances, and the values of functional atoms. -/
structure RecalledBy (m m' : Manager) : Prop where
  /-- Instances stay. -/
  gives : ∀ h, m.Gives h → m'.Gives h
  /-- Functional atoms keep their values. -/
  values : ∀ h, m.Gives h → h.key.predicate.isStandard = false →
    m'.pool.value h = m.pool.value h

theorem RecalledBy.refl (m : Manager) : m.RecalledBy m := ⟨fun _ h => h, fun _ _ _ => rfl⟩

theorem RecalledBy.trans (h : m.RecalledBy m₁) (h' : m₁.RecalledBy m') : m.RecalledBy m' where
  gives a ha := h'.gives a (h.gives a ha)
  values a ha hp := (h'.values a (h.gives a ha) hp).trans (h.values a ha hp)

/-- Resolving keys leaves what there is. -/
theorem Extends.recalledBy (h : m.Extends s m') (hm : m.Sound) (hgrows : m.Grows m') :
    m.RecalledBy m' :=
  ⟨hgrows.gives, fun a ha _ => h.value (hm.allocated a ha)⟩

/-- So does giving a value to what is none of the functional atoms. -/
theorem recalledBy_setValue (hspares : ∀ b, m.Gives b → a.serial = b.serial →
    b.key.predicate.isStandard = true) (value : Float) : m.RecalledBy (m.setValue a value) where
  gives _ hb := hb
  values b hb hp := by
    refine AtomPool.value_setValue_of_ne value fun he => ?_
    rw [hspares b hb he] at hp
    cases hp

/-- What has been resolved is resolved to the same instance where it is remembered, and nothing
changes. -/
theorem RecalledBy.resolve (h : m₁.RecalledBy m') (hm : m.Sound) {p : Predicate}
    {args : List Constant} (hr : m.resolve s p args = .ok (a, m₁)) :
    m'.resolve s p args = .ok (a, m') := by
  obtain ⟨k, hk, hkey⟩ := resolve_eq_ok_iff.mp hr
  obtain ⟨-, -, rfl, hgives⟩ := resolveKey_sound_grows hm hkey
  refine resolve_eq_ok_iff.mpr ⟨a.key, hk, ?_⟩
  have hinstance := h.gives a hgives
  rw [resolveKey]
  rcases Option.or_eq_some_iff.mp hinstance with hlazy | ⟨hnone, hknown⟩
  · rw [hlazy]
  · rw [hnone, hknown]

end Manager

namespace Grounding

variable {α β : Type} {s : Store} {kind : GroundRule → Prop}

/-- A step that does the same again once it has succeeded: wherever what its manager has come to is
remembered, it has the same result, produces the same ground rules, and leaves the manager. -/
def Repeats (step : Grounding α) : Prop :=
  ∀ w a w₁, w.manager.Sound → step.runOn w = (.ok a, w₁) →
    w₁.manager.Sound ∧ w.manager.RecalledBy w₁.manager ∧
      ∃ produced, w₁.rules = w.rules ++ produced ∧
        ∀ w' : Workspace, w₁.manager.RecalledBy w'.manager →
          step.runOn w' = (.ok a, { w' with rules := w'.rules ++ produced })

/-- What reads and changes nothing always ends in the same way. -/
theorem Still.repeats {step : Grounding α} (h : Still step) : Repeats step := by
  intro w a w₁ hw hrun
  rcases h with ⟨fault, hfault⟩ | ⟨b, hb⟩
  · cases (hfault w).symm.trans hrun
  · obtain ⟨hresult, rfl⟩ := Prod.mk.inj ((hb w).symm.trans hrun)
    obtain rfl := Except.ok.inj hresult
    refine ⟨hw, .refl _, [], (List.append_nil _).symm, fun w' _ => ?_⟩
    rw [List.append_nil]
    exact hb w'

/-- What the second part of a compound step remembers of the first is remembered after both. -/
theorem Repeats.bind {x : Grounding α} {f : α → Grounding β} (hx : Repeats x)
    (hf : ∀ a, Repeats (f a)) : Repeats (x >>= f) := by
  intro w b w₂ hw hrun
  obtain ⟨a, w₁, hfirst, hsecond⟩ := runOn_bind_eq_ok_iff.mp hrun
  obtain ⟨hw₁, hrecalled, produced, hrules, hagain⟩ := hx w a w₁ hw hfirst
  obtain ⟨hw₂, hrecalled', produced', hrules', hagain'⟩ := hf a w₁ b w₂ hw₁ hsecond
  refine ⟨hw₂, hrecalled.trans hrecalled', produced ++ produced', ?_, fun w' hw' => ?_⟩
  · rw [hrules', hrules, List.append_assoc]
  · refine runOn_bind_eq_ok_iff.mpr ⟨a, _, hagain w' (hrecalled'.trans hw'), ?_⟩
    rw [hagain' { w' with rules := w'.rules ++ produced } hw', List.append_assoc]

theorem repeats_resolve (p : Predicate) (args : List Constant) :
    Repeats (resolve s p args) := by
  intro w a w₁ hw hrun
  obtain ⟨m, hr, rfl⟩ := runOn_resolve_eq_ok_iff.mp hrun
  obtain ⟨k, -, hkey⟩ := Manager.resolve_eq_ok_iff.mp hr
  obtain ⟨hsound, hgrows, -⟩ := Manager.resolveKey_sound_grows hw hkey
  refine ⟨hsound, (Manager.extends_of_resolveKey hkey).recalledBy hw hgrows, [],
    (List.append_nil _).symm, fun w' hw' => ?_⟩
  rw [List.append_nil]
  exact runOn_resolve_eq_ok_iff.mpr ⟨w'.manager, hw'.resolve hw hr, rfl⟩

/-- A functional atom that is resolved again has kept its value. -/
theorem repeats_read {p : Predicate} (args : List Constant) (hp : p.isStandard = false) :
    Repeats (resolve s p args >>= valueOf) := by
  intro w value w₁ hw hrun
  obtain ⟨a, w₂, hresolve, hvalue⟩ := runOn_bind_eq_ok_iff.mp hrun
  obtain ⟨hresult, rfl⟩ := Prod.mk.inj hvalue
  obtain rfl := Except.ok.inj hresult
  obtain ⟨hsound, hrecalled, produced, hrules, hagain⟩ := repeats_resolve p args w a w₂ hw hresolve
  refine ⟨hsound, hrecalled, produced, hrules, fun w' hw' => ?_⟩
  refine runOn_bind_eq_ok_iff.mpr ⟨a, _, hagain w' hw', ?_⟩
  obtain ⟨m, hr, rfl⟩ := runOn_resolve_eq_ok_iff.mp hresolve
  obtain ⟨k, hk, hkey⟩ := Manager.resolve_eq_ok_iff.mp hr
  obtain ⟨-, -, rfl, hgives⟩ := Manager.resolveKey_sound_grows hw hkey
  have hfunctional : a.key.predicate.isStandard = false := (GroundKey.make_eq_ok hk).1 ▸ hp
  rw [runOn_valueOf]
  exact Prod.ext (congrArg Except.ok (hw'.values a hgives hfunctional)) rfl

theorem repeats_emit (g : GroundRule) : Repeats (emit g) := by
  intro w a w₁ hw hrun
  obtain ⟨-, rfl⟩ := Prod.mk.inj hrun
  exact ⟨hw, .refl _, [g], rfl, fun _ _ => rfl⟩

/-- All grounding does the same again. -/
theorem Parallel.repeats {x x' : Grounding α} (h : Parallel s s kind x x') : Repeats x := by
  induction h with
  | pure a => exact (still_pure a).repeats
  | throw fault => exact (still_throw fault).repeats
  | bind _ _ ihx ihf => exact ihx.bind ihf
  | query q => exact (still_query s q).repeats
  | resolve p args => exact repeats_resolve p args
  | read args hp => exact repeats_read args hp
  | emit _ => exact repeats_emit _

end Grounding

end RuleGrounding
