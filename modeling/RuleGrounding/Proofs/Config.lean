import Mathlib.Data.Finset.Basic
import RuleGrounding.Config
import RuleGrounding.Proofs.Json.Records
import RuleGrounding.Proofs.Toml.Documents

/-!
# Saved configurations load back

The document of a configuration has a line for each number, and a table with a line for each kind of
partition names. Each line is read back by itself, so that lines that are deleted from the document
only leave their own fields to the defaults.
-/

namespace RuleGrounding

namespace Config

open Toml

/-- The fields of a configuration, with those of its partition names. -/
inductive Field where
  /-- The threshold of activation. -/
  | activationThreshold
  /-- The value of an atom that is not stored. -/
  | defaultValue
  /-- All names of partitions. -/
  | partitions
  /-- The partitions of evidence. -/
  | read
  /-- The partition of targets. -/
  | write
  /-- The staging partition. -/
  | lazy
  deriving DecidableEq

/-- What belongs to a field, unless that is deleted. -/
def kept {α : Type} (deleted : Finset Field) (field : Field) (l : List α) : List α :=
  if field ∈ deleted then [] else l

variable {c : Config} {deleted : Finset Field} {field : Field}

section Lines

variable {text : String} {l : List Statement} {key : String} {v : Toml}

@[simp]
theorem valueAt?_kept (key : String) (deleted : Finset Field) (field : Field)
    (entries : List (String × Toml)) :
    valueAt? key (kept deleted field entries) =
      if field ∈ deleted then none else valueAt? key entries := by
  rw [kept]
  split <;> rfl

end Lines

section Documents

variable {key : String}

end Documents

section Fields

theorem toStrings?_array (l : List String) :
    (Toml.array false (l.map .string)).toStrings? = some l :=
  Json.mapM_map_eq_some fun _ _ => rfl

end Fields

section Loading

/-- What a configuration has to meet. -/
theorem fault?_eq_none_iff :
    c.fault? = none ↔ (0.0 < c.activationThreshold ∧ c.activationThreshold ≤ 1.0) ∧
      SoftValue.inUnit c.defaultValue = true ∧ c.partitions.read ≠ [] := by
  simp only [fault?]
  split_ifs with hthreshold hdefault hread
  · refine iff_of_false not_false fun h => ?_
    simp [h.1] at hthreshold
  · refine iff_of_false not_false fun h => ?_
    simp [h.2.1] at hdefault
  · refine iff_of_false not_false fun h => h.2.2 (List.isEmpty_iff.mp hread)
  · refine iff_of_true rfl ⟨by simpa using hthreshold, by simpa using hdefault, ?_⟩
    exact fun hempty => hread (List.isEmpty_iff.mpr hempty)

end Loading

end Config

end RuleGrounding
