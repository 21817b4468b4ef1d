import RuleGrounding.Exchange.GroundRules
import RuleGrounding.Proofs.Json.Records

/-!
# Exported ground rules read back

A record whose numbers are finite is read back from its JSON value, and a list of such records from
its text. A number that is not finite would become null and take the record with it, or turn it
into that of a hard rule.
-/

namespace RuleGrounding

namespace AtomRecord

variable {a : AtomRecord}

/-- The truth value is a finite number. -/
def IsFinite (a : AtomRecord) : Prop := a.value.isFinite = true

theorem ofJson?_toJson (h : a.IsFinite) : ofJson? a.toJson = some a := by
  have hfields : a.toJson.recordFields? ["predicate", "args", "value", "state"] =
      some [some (.string a.predicate), some (.array (a.args.map .string)),
        some (.ofFloat a.value), some (.string a.state)] :=
    Json.recordFields?_object rfl (by decide)
  rw [ofJson?, hfields]
  simp [Json.toString?, Json.toStrings?_array, Json.toFloat?_ofFloat h]

theorem listOfJson?_array {atoms : List AtomRecord} (h : ∀ a ∈ atoms, a.IsFinite) :
    listOfJson? (.array (atoms.map toJson)) = some atoms :=
  Json.mapM_map_eq_some fun a ha => ofJson?_toJson (h a ha)

/-- An exported atom is nested two levels deep. -/
theorem isBounded_toJson (a : AtomRecord) (depth : Nat) :
    a.toJson.isBounded (depth + 2) = true := by
  simp [toJson, Json.isBounded_object, Json.isBounded_array, Json.isBounded_string,
    Json.isBounded_ofFloat]

end AtomRecord

namespace RuleRecord

variable {r : RuleRecord}

/-- All numbers are finite. -/
def IsFinite : RuleRecord → Prop
  | logical _ weight positive negative =>
    (∀ w ∈ weight, w.isFinite = true) ∧ (∀ a ∈ positive, a.IsFinite) ∧ ∀ a ∈ negative, a.IsFinite
  | arithmetic _ weight coefficients atoms _ constant =>
    (∀ w ∈ weight, w.isFinite = true) ∧ (∀ c ∈ coefficients, c.isFinite = true) ∧
      (∀ a ∈ atoms, a.IsFinite) ∧ constant.isFinite = true

section Weights

variable {weight : Option Float}

theorem weightOfJson?_weightJson (h : ∀ w ∈ weight, w.isFinite = true) :
    weightOfJson? (some (weightJson weight)) = some weight := by
  cases weight with
  | none => rfl
  | some w =>
    have hw := Json.toFloat?_ofFloat (h w rfl)
    rw [weightJson, Option.map_some, Option.getD_some]
    rw [Json.ofFloat, if_pos (h w rfl)] at hw ⊢
    rw [weightOfJson?, hw]
    · rfl
    · intro heq
      cases heq

theorem isBounded_weightJson (weight : Option Float) (depth : Nat) :
    (weightJson weight).isBounded depth = true := by
  cases weight with
  | none => simp [weightJson, Json.isBounded]
  | some w => exact Json.isBounded_ofFloat w depth

end Weights

/-- An exported rule is nested four levels deep. -/
theorem isBounded_toJson (r : RuleRecord) (depth : Nat) :
    r.toJson.isBounded (depth + 4) = true := by
  cases r <;>
    simp [toJson, Json.isBounded_object, Json.isBounded_array, Json.isBounded_string,
      Json.isBounded_ofFloat, isBounded_weightJson, AtomRecord.isBounded_toJson]

section Kinds

variable {rule comparator : String} {weight : Option Float}
  {positive negative atoms : List AtomRecord} {coefficients : List Float} {constant : Float}

theorem logicalOfJson?_object (h : (logical rule weight positive negative).IsFinite) :
    logicalOfJson? (.object [("rule", .string rule), ("weight", weightJson weight),
        ("positive", .array (positive.map AtomRecord.toJson)),
        ("negative", .array (negative.map AtomRecord.toJson))]) =
      some (logical rule weight positive negative) := by
  obtain ⟨hweight, hpositive, hnegative⟩ := h
  have hfields : (Json.object [("rule", .string rule), ("weight", weightJson weight),
      ("positive", .array (positive.map AtomRecord.toJson)),
      ("negative", .array (negative.map AtomRecord.toJson))]).recordFields?
        ["rule", "weight", "positive", "negative"] =
      some [some (.string rule), some (weightJson weight),
        some (.array (positive.map AtomRecord.toJson)),
        some (.array (negative.map AtomRecord.toJson))] :=
    Json.recordFields?_object rfl (by decide)
  rw [logicalOfJson?, hfields]
  simp [Json.toString?, weightOfJson?_weightJson hweight,
    AtomRecord.listOfJson?_array hpositive, AtomRecord.listOfJson?_array hnegative]

theorem arithmeticOfJson?_object
    (h : (arithmetic rule weight coefficients atoms comparator constant).IsFinite) :
    arithmeticOfJson? (.object [("rule", .string rule), ("weight", weightJson weight),
        ("coefficients", .array (coefficients.map Json.ofFloat)),
        ("atoms", .array (atoms.map AtomRecord.toJson)), ("comparator", .string comparator),
        ("constant", .ofFloat constant)]) =
      some (arithmetic rule weight coefficients atoms comparator constant) := by
  obtain ⟨hweight, hcoefficients, hatoms, hconstant⟩ := h
  have hfields : (Json.object [("rule", .string rule), ("weight", weightJson weight),
      ("coefficients", .array (coefficients.map Json.ofFloat)),
      ("atoms", .array (atoms.map AtomRecord.toJson)), ("comparator", .string comparator),
      ("constant", .ofFloat constant)]).recordFields?
        ["rule", "weight", "coefficients", "atoms", "comparator", "constant"] =
      some [some (.string rule), some (weightJson weight),
        some (.array (coefficients.map Json.ofFloat)),
        some (.array (atoms.map AtomRecord.toJson)), some (.string comparator),
        some (.ofFloat constant)] :=
    Json.recordFields?_object rfl (by decide)
  rw [arithmeticOfJson?, hfields]
  simp [Json.toString?, weightOfJson?_weightJson hweight, Json.toFloats?_array hcoefficients,
    AtomRecord.listOfJson?_array hatoms, Json.toFloat?_ofFloat hconstant]

end Kinds

/-- A record with finite numbers is read back from its JSON value. -/
theorem ofJson?_toJson (h : r.IsFinite) : ofJson? r.toJson = some r := by
  rw [ofJson?, depthLimit, if_pos (isBounded_toJson r 123)]
  -- The kind is taken off the fields, and what is left is read as that kind.
  cases r with
  | logical rule weight positive negative =>
    simpa [toJson, splitKind?] using logicalOfJson?_object h
  | arithmetic rule weight coefficients atoms comparator constant =>
    simpa [toJson, splitKind?] using arithmeticOfJson?_object h

end RuleRecord

end RuleGrounding
