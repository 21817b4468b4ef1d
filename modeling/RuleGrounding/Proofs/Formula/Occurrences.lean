import RuleGrounding.Formula.NormalForm

/-!
# Occurrences in normal forms

Normalising a formula brings in no atoms: what holds of the atoms of a formula holds
of those of its normal form.
-/

namespace RuleGrounding

theorem Conjunction.mem_merge {left right : Conjunction} {l : Literal} :
    l ∈ left.merge right ↔ l ∈ left ∨ l ∈ right := by
  rw [merge]
  induction right generalizing left with
  | nil => simp
  | cons r right ih =>
    rw [List.foldl_cons, ih, List.mem_cons]
    split
    · rename_i hr
      constructor
      · rintro (hl | hl)
        · exact .inl hl
        · exact .inr (.inr hl)
      · rintro (hl | rfl | hl)
        · exact .inl hl
        · exact .inl hr
        · exact .inr hl
    · rw [List.mem_append, List.mem_singleton, or_assoc]

/-- A product has the conjunctions of one conjunction from each factor. -/
theorem NormalForm.mem_product {left right : NormalForm} {c : Conjunction} :
    c ∈ left.product right ↔ ∃ d ∈ left, ∃ e ∈ right, d.merge e = c := by
  simp only [product, List.mem_flatMap, List.mem_map]

/-- The literals of a product come from its factors. -/
theorem NormalForm.exists_mem_of_mem_product {left right : NormalForm} {c : Conjunction}
    {l : Literal} (hc : c ∈ left.product right) (hl : l ∈ c) :
    (∃ d ∈ left, l ∈ d) ∨ ∃ d ∈ right, l ∈ d := by
  obtain ⟨d, hd, e, he, rfl⟩ := mem_product.mp hc
  rcases Conjunction.mem_merge.mp hl with hl | hl
  · exact .inl ⟨d, hd, hl⟩
  · exact .inr ⟨e, he, hl⟩

namespace Formula

variable {l : Literal}

mutual

/-- The atoms of a normal form occur in the formula. -/
theorem mem_occurrences_of_mem_expand : ∀ (f : Formula) (negated : Bool) {c : Conjunction},
    c ∈ f.expand negated → l ∈ c → l.atom ∈ f.occurrences
  | .atom a, negated, c, hc, hl => by
    rw [expand, List.mem_singleton] at hc
    rw [hc, List.mem_singleton] at hl
    rw [hl]
    exact List.mem_singleton_self a
  | .negation f, negated, c, hc, hl => by
    rw [expand] at hc
    exact mem_occurrences_of_mem_expand f (!negated) hc hl
  | .conjunction fs, negated, c, hc, hl => by
    rw [expand] at hc
    split at hc
    · exact mem_occurrences_of_mem_expandSome fs negated hc hl
    · exact (mem_occurrences_of_mem_expandAll fs negated hc hl).resolve_left (by simp)
  | .disjunction fs, negated, c, hc, hl => by
    rw [expand] at hc
    split at hc
    · exact (mem_occurrences_of_mem_expandAll fs negated hc hl).resolve_left (by simp)
    · exact mem_occurrences_of_mem_expandSome fs negated hc hl

/-- The atoms that further formulas bring into a normal form occur in these. -/
theorem mem_occurrences_of_mem_expandAll : ∀ (fs : List Formula) (negated : Bool)
    {acc : NormalForm} {c : Conjunction}, c ∈ expandAll negated acc fs → l ∈ c →
      (∃ d ∈ acc, l ∈ d) ∨ l.atom ∈ listOccurrences fs
  | [], negated, acc, c, hc, hl => .inl ⟨c, hc, hl⟩
  | f :: fs, negated, acc, c, hc, hl => by
    rw [expandAll] at hc
    rw [listOccurrences, List.mem_append]
    rcases mem_occurrences_of_mem_expandAll fs negated hc hl with ⟨d, hd, hld⟩ | hrest
    · rcases NormalForm.exists_mem_of_mem_product hd hld with hacc | ⟨e, he, hle⟩
      · exact .inl hacc
      · exact .inr (.inl (mem_occurrences_of_mem_expand f negated he hle))
    · exact .inr (.inr hrest)

/-- The atoms of a union of normal forms occur in one of the formulas. -/
theorem mem_occurrences_of_mem_expandSome : ∀ (fs : List Formula) (negated : Bool)
    {c : Conjunction}, c ∈ expandSome negated fs → l ∈ c → l.atom ∈ listOccurrences fs
  | [], negated, c, hc, hl => by cases hc
  | f :: fs, negated, c, hc, hl => by
    rw [expandSome, List.mem_append] at hc
    rw [listOccurrences, List.mem_append]
    rcases hc with hc | hc
    · exact .inl (mem_occurrences_of_mem_expand f negated hc hl)
    · exact .inr (mem_occurrences_of_mem_expandSome fs negated hc hl)

end

end Formula

end RuleGrounding
