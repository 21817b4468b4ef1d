import RuleGrounding.Json.Record
import RuleGrounding.Proofs.Decimal.Shortest
import RuleGrounding.Proofs.Json.RoundTrip

/-!
# JSON values of records

A finite number reads back from its JSON value, and what is not finite becomes null. Lists read
back item by item, and objects field by field if their names differ.
-/

namespace RuleGrounding

namespace Json

variable {x : Float}

section Numbers

/-- A finite number is read back from its JSON value. -/
theorem toFloat?_ofFloat (h : x.isFinite = true) : (ofFloat x).toFloat? = some x := by
  rw [ofFloat, if_pos h, toFloat?, (Decimal.shortest_reads_back h layout.tie).1]
  simp only [h, if_true]

theorem isBounded_ofFloat (x : Float) (depth : Nat) : (ofFloat x).isBounded depth = true := by
  by_cases h : x.isFinite = true
  · have hread := toFloat?_ofFloat h
    rw [ofFloat, if_pos h] at hread ⊢
    rw [isBounded, hread]
    rfl
  · rw [ofFloat, if_neg h]
    rfl

end Numbers

section Lists

variable {α β : Type} {encode : α → β} {read : β → Option α} {l : List α}

/-- What reads back item by item reads back as a list. -/
theorem mapM_map_eq_some (h : ∀ a ∈ l, read (encode a) = some a) :
    (l.map encode).mapM read = some l := by
  induction l with
  | nil => rfl
  | cons a l ih =>
    rw [List.map_cons, List.mapM_cons, h a List.mem_cons_self,
      ih fun b hb => h b (List.mem_cons_of_mem a hb)]
    rfl

theorem toFloats?_array {xs : List Float} (h : ∀ x ∈ xs, x.isFinite = true) :
    (array (xs.map ofFloat)).toFloats? = some xs :=
  mapM_map_eq_some fun x hx => toFloat?_ofFloat (h x hx)

theorem toStrings?_array (ss : List String) : (array (ss.map string)).toStrings? = some ss :=
  mapM_map_eq_some fun _ _ => rfl

end Lists

section Fields

variable {fields : List (String × Json)}

theorem field?_eq_some_of_mem (h : (fields.map Prod.fst).Nodup) {f : String × Json}
    (hf : f ∈ fields) : field? f.1 fields = some f.2 := by
  induction fields with
  | nil => cases hf
  | cons g fields ih =>
    obtain ⟨hg, hrest⟩ := List.nodup_cons.mp h
    rcases List.mem_cons.mp hf with rfl | hf
    · simp [field?]
    · have hne : g.1 ≠ f.1 := fun heq => hg (heq ▸ List.mem_map_of_mem hf)
      rw [field?, List.find?_cons_of_neg (by simpa using hne)]
      exact ih hrest hf

theorem repeats_eq_false (h : (fields.map Prod.fst).Nodup) (names : List String) :
    repeats names fields = false := by
  refine List.any_eq_false.mpr fun name _ => ?_
  have hcount := List.nodup_iff_count_le_one.mp h name
  rw [List.count_eq_countP, List.countP_map, List.countP_eq_length_filter] at hcount
  rw [decide_eq_true_eq, Nat.not_lt]
  exact hcount

/-- An object whose fields have different names is a record of these fields. -/
theorem recordFields?_object {names : List String} (hnames : fields.map Prod.fst = names)
    (h : names.Nodup) :
    (object fields).recordFields? names = some (fields.map fun f => some f.2) := by
  subst hnames
  rw [recordFields?, repeats_eq_false h, if_neg Bool.false_ne_true, List.map_map]
  exact congrArg some (List.map_congr_left fun f hf => field?_eq_some_of_mem h hf)

end Fields

end Json

end RuleGrounding
