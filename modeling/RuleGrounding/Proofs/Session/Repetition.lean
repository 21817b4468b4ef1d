import RuleGrounding.Proofs.Activation.Rounds
import RuleGrounding.Proofs.Grounding.Repetition
import RuleGrounding.Proofs.Session.Changes

/-!
# Grounding a rule base again

A rule base that has been grounded may be grounded again at any time until something is stored,
activated, or assigned to a functional atom. This produces the same ground rules once more and
changes nothing else.
-/

namespace RuleGrounding

namespace Session

variable {x y z : Session} {m₀ : Manager} {hs : List Handle}

/-- An action that stores and activates nothing, and gives no value to a functional atom of the
manager. -/
def Spares (x : Session) : Action → Prop
  | .resolve _ _ => True
  | .setValue h _ => ∀ a, x.manager.Gives a → h.serial = a.serial →
      a.key.predicate.isStandard = true
  | .ground _ => True
  | .groundResults _ _ => True
  | .groundAll _ => True
  | .activate _ => False
  | .insert _ _ _ => False
  | .commit _ _ => False
  | .move _ _ => False

/-- What may become of a session by such actions. -/
inductive Undisturbed (x : Session) : Session → Prop where
  /-- Nothing has happened. -/
  | refl : Undisturbed x x
  /-- One more action is performed. -/
  | perform {y : Session} {a : Action} (h : Undisturbed x y) (ha : y.Spares a) :
    Undisturbed x (y.perform a)

/-- A value may be given to an instance of a standard atom. -/
theorem spares_setValue_of_gives (hx : x.manager.Sound) {h : Handle} (hh : x.manager.Gives h)
    (hstandard : h.key.predicate.isStandard = true) (value : Float) :
    x.Spares (.setValue h value) := by
  intro a ha he
  rwa [← hx.separate h a hh ha he]

theorem store_perform_of_spares {a : Action} (ha : x.Spares a) :
    (x.perform a).store = x.store := by
  cases a with
  | resolve p args =>
    rw [perform]
    cases hr : x.resolve p args with
    | error fault => rfl
    | ok r =>
      obtain ⟨m, -, hy⟩ := resolve_eq_ok hr
      dsimp only
      rw [hy]
      rfl
  | setValue h value => rfl
  | ground r => rfl
  | groundResults r results => rfl
  | groundAll b => rfl
  | activate b => exact ha.elim
  | insert k value p => exact ha.elim
  | commit atoms p => exact ha.elim
  | move p source => exact ha.elim

/-- Such an action leaves what the manager remembers. -/
theorem recalledBy_perform (hx : x.work.Keeps m₀ hs) {a : Action} (ha : x.Spares a) :
    x.manager.RecalledBy (x.perform a).manager := by
  rcases x.manager_perform_cases a with ⟨h, value, rfl⟩ | ⟨b, rfl⟩ | hextends
  · exact Manager.recalledBy_setValue ha value
  · exact ha.elim
  · exact hextends.recalledBy hx.sound (keeps_perform hx.refl a).grows

/-- So do several, and they leave the store. -/
theorem Undisturbed.recalledBy (h : x.Undisturbed y) (hx : x.work.Keeps m₀ hs) :
    x.manager.RecalledBy y.manager ∧ y.store = x.store := by
  have hkeeps : y.work.Keeps y.manager [] ∧ x.manager.RecalledBy y.manager ∧
      y.store = x.store := by
    induction h with
    | refl => exact ⟨hx.refl, .refl _, rfl⟩
    | perform h ha ih =>
      obtain ⟨hy, hrecalled, hstore⟩ := ih
      exact ⟨(keeps_perform hy _).refl, hrecalled.trans (recalledBy_perform hy ha),
        (store_perform_of_spares ha).trans hstore⟩
  exact hkeeps.2

/-- Let a rule base be grounded successfully in a session, and then again after actions that store
and activate nothing and spare the values of functional atoms. The second grounding succeeds, too,
with the same count. It appends the very ground rules that the first one appended, with the same
instances, and changes nothing else: neither the store nor anything about the manager. -/
theorem grounding_again_appends_same_rules {s : Store} {policy : Policy} {actions : List Action}
    (hx : x = (start s policy).after actions) {b : RuleBase} {n : Nat}
    (hrun : x.run b.ground = (.ok n, y)) (hz : y.Undisturbed z) :
    ∃ produced, y.work.rules = x.work.rules ++ produced ∧
      z.run b.ground =
        (.ok n, { z with work := { z.work with rules := z.work.rules ++ produced } }) := by
  have hkeeps : x.work.Keeps x.manager [] := by
    rw [hx]
    exact (keeps_after (keeps_start s policy) actions).refl
  have hy : y.work.Keeps x.manager [] := by
    have hlater := keeps_perform hkeeps (.groundAll b)
    rwa [perform, hrun] at hlater
  obtain ⟨w, hground, rfl⟩ := run_eq_ok_iff.mp hrun
  obtain ⟨hrecalled, hstore⟩ := hz.recalledBy hy
  obtain ⟨-, -, produced, hrules, hagain⟩ := (Rule.parallel_groundAll x.store x.store
    b.rules).repeats x.work n w hkeeps.sound hground
  refine ⟨produced, hrules, run_eq_ok_iff.mpr ⟨_, ?_, rfl⟩⟩
  rw [hstore]
  exact hagain z.work hrecalled

/-- The meeting is grounded again after the reverse one has been given a value, and its ground
clause is there twice. -/
theorem meeting_is_grounded_again :
    (start meetsStore (.deferring 0.5)).run meetsBase.ground = (.ok 1, metOnce) ∧
      metOnce.Undisturbed metRaised ∧
      metRaised.run meetsBase.ground =
        (.ok 1, { metRaised with work := { metRaised.work with
          rules := metOnce.work.rules ++ metOnce.work.rules } }) := by
  have hstart : start meetsStore (.deferring 0.5) =
      (start meetsStore (.deferring 0.5)).after [] := rfl
  have hsound : metOnce.manager.Sound := by
    have hkeeps := keeps_perform (keeps_start meetsStore (.deferring 0.5)) (.groundAll meetsBase)
    rw [perform, run_meetsBase] at hkeeps
    exact hkeeps.sound
  have hgives : metOnce.manager.Gives ⟨reverseKey, 1⟩ := rfl
  have hraised : metOnce.Undisturbed metRaised :=
    .perform .refl (spares_setValue_of_gives hsound hgives rfl 0.9)
  obtain ⟨produced, hproduced, hagain⟩ :=
    grounding_again_appends_same_rules hstart run_meetsBase hraised
  obtain rfl : metOnce.work.rules = produced := hproduced
  exact ⟨run_meetsBase, hraised, hagain⟩

end Session

end RuleGrounding
