import RuleGrounding.Proofs.Formula.Occurrences

/-!
# Atoms that normalising keeps

If no connective of a formula is empty, then every atom of the formula is in its normal form,
and in that of its negation: distributing over a disjunction drops what stands beside it
only if the disjunction has nothing to choose from. The checked constructors build exactly the
formulas without empty connectives.
-/

namespace RuleGrounding

namespace Formula

mutual

/-- Whether no connective of the formula is empty. -/
def isProper : Formula → Bool
  | .atom _ => true
  | .negation f => f.isProper
  | .conjunction fs => !fs.isEmpty && allProper fs
  | .disjunction fs => !fs.isEmpty && allProper fs

/-- Whether no connective of the formulas is empty. -/
def allProper : List Formula → Bool
  | [] => true
  | f :: fs => f.isProper && allProper fs

end

theorem allProper_iff {fs : List Formula} :
    allProper fs = true ↔ ∀ f ∈ fs, f.isProper = true := by
  induction fs with
  | nil => simp [allProper]
  | cons f fs ih => rw [allProper, Bool.and_eq_true, ih, List.forall_mem_cons]

/-- A conjunction is proper if it has members and these are proper. -/
theorem isProper_conjunction_iff {fs : List Formula} :
    (conjunction fs).isProper = true ↔ fs ≠ [] ∧ allProper fs = true := by
  rw [isProper, Bool.and_eq_true, Bool.not_eq_true', List.isEmpty_eq_false_iff]

/-- So is a disjunction. -/
theorem isProper_disjunction_iff {fs : List Formula} :
    (disjunction fs).isProper = true ↔ fs ≠ [] ∧ allProper fs = true := by
  rw [isProper, Bool.and_eq_true, Bool.not_eq_true', List.isEmpty_eq_false_iff]

/-- The formulas that the constructors build. -/
inductive Built : Formula → Prop where
  /-- An atom. -/
  | atom (a : Atom) : Built (.atom a)
  /-- A negation. -/
  | negation {f : Formula} (hf : Built f) : Built (.negation f)
  /-- A conjunction that is not refused. -/
  | and {fs : List Formula} {g : Formula} (hfs : ∀ f ∈ fs, Built f) (hg : and fs = .ok g) : Built g
  /-- A disjunction that is not refused. -/
  | or {fs : List Formula} {g : Formula} (hfs : ∀ f ∈ fs, Built f) (hg : or fs = .ok g) : Built g
  /-- An implication. -/
  | implies {body head : Formula} (hbody : Built body) (hhead : Built head) :
    Built (implies body head)

theorem and_eq_ok_iff {fs : List Formula} {g : Formula} :
    and fs = .ok g ↔ fs ≠ [] ∧ g = conjunction fs := by
  cases fs with
  | nil => simp [Formula.and]
  | cons f fs => simp [Formula.and, eq_comm]

theorem or_eq_ok_iff {fs : List Formula} {g : Formula} :
    or fs = .ok g ↔ fs ≠ [] ∧ g = disjunction fs := by
  cases fs with
  | nil => simp [Formula.or]
  | cons f fs => simp [Formula.or, eq_comm]

/-- What the constructors build has no empty connective. -/
theorem Built.isProper {f : Formula} (h : f.Built) : f.isProper = true := by
  induction h with
  | atom a => rfl
  | negation _ ih => rwa [Formula.isProper]
  | and _ hg ih =>
    obtain ⟨hfs, rfl⟩ := and_eq_ok_iff.mp hg
    exact isProper_conjunction_iff.mpr ⟨hfs, allProper_iff.mpr ih⟩
  | or _ hg ih =>
    obtain ⟨hfs, rfl⟩ := or_eq_ok_iff.mp hg
    exact isProper_disjunction_iff.mpr ⟨hfs, allProper_iff.mpr ih⟩
  | implies _ _ hbody hhead =>
    rw [Formula.implies, isProper_disjunction_iff, allProper, allProper, allProper,
      Formula.isProper, hbody, hhead]
    exact ⟨List.cons_ne_nil _ _, rfl⟩

mutual

/-- What has no empty connective can be built. -/
theorem built_of_isProper : ∀ f : Formula, f.isProper = true → f.Built
  | .atom a, _ => .atom a
  | .negation f, h => by
    rw [isProper] at h
    exact .negation (built_of_isProper f h)
  | .conjunction fs, h => by
    obtain ⟨hfs, hall⟩ := isProper_conjunction_iff.mp h
    exact .and (built_of_allProper fs hall) (and_eq_ok_iff.mpr ⟨hfs, rfl⟩)
  | .disjunction fs, h => by
    obtain ⟨hfs, hall⟩ := isProper_disjunction_iff.mp h
    exact .or (built_of_allProper fs hall) (or_eq_ok_iff.mpr ⟨hfs, rfl⟩)

/-- So can several such formulas. -/
theorem built_of_allProper : ∀ fs : List Formula, allProper fs = true → ∀ f ∈ fs, f.Built
  | [], _, _, hf => by cases hf
  | f :: fs, h, g, hg => by
    rw [allProper, Bool.and_eq_true] at h
    have hfirst : f.Built := built_of_isProper f h.1
    rcases List.mem_cons.mp hg with rfl | hg
    · exact hfirst
    · exact built_of_allProper fs h.2 g hg

end

theorem isProper_iff_built {f : Formula} : f.isProper = true ↔ f.Built :=
  ⟨built_of_isProper f, Built.isProper⟩

end Formula

namespace NormalForm

/-- Some literal of the normal form has the atom. -/
def Mentions (nf : NormalForm) (a : Atom) : Prop := ∃ c ∈ nf, ∃ l ∈ c, l.atom = a

variable {left right : NormalForm} {a : Atom}

theorem product_ne_nil (hleft : left ≠ []) (hright : right ≠ []) : left.product right ≠ [] := by
  obtain ⟨d, hd⟩ := List.exists_mem_of_ne_nil left hleft
  obtain ⟨e, he⟩ := List.exists_mem_of_ne_nil right hright
  exact List.ne_nil_of_mem (mem_product.mpr ⟨d, hd, e, he, rfl⟩)

/-- What stands beside a disjunction is kept, if there is something to choose. -/
theorem Mentions.product_left (h : left.Mentions a) (hright : right ≠ []) :
    (left.product right).Mentions a := by
  obtain ⟨d, hd, l, hl, hla⟩ := h
  obtain ⟨e, he⟩ := List.exists_mem_of_ne_nil right hright
  exact ⟨d.merge e, mem_product.mpr ⟨d, hd, e, he, rfl⟩, l,
    Conjunction.mem_merge.mpr (.inl hl), hla⟩

theorem Mentions.product_right (h : right.Mentions a) (hleft : left ≠ []) :
    (left.product right).Mentions a := by
  obtain ⟨e, he, l, hl, hla⟩ := h
  obtain ⟨d, hd⟩ := List.exists_mem_of_ne_nil left hleft
  exact ⟨d.merge e, mem_product.mpr ⟨d, hd, e, he, rfl⟩, l,
    Conjunction.mem_merge.mpr (.inr hl), hla⟩

theorem mentions_append : (left ++ right).Mentions a ↔ left.Mentions a ∨ right.Mentions a := by
  simp only [Mentions, List.mem_append, or_and_right, exists_or]

end NormalForm

namespace Formula

open NormalForm

mutual

/-- The normal form of a proper formula has a conjunction, and so has that of its negation. -/
theorem expand_ne_nil : ∀ (f : Formula) (negated : Bool), f.isProper = true →
    f.expand negated ≠ []
  | .atom a, negated, _ => by
    rw [expand]
    exact List.cons_ne_nil _ _
  | .negation f, negated, h => by
    rw [isProper] at h
    rw [expand]
    exact expand_ne_nil f (!negated) h
  | .conjunction fs, negated, h => by
    obtain ⟨hfs, hall⟩ := isProper_conjunction_iff.mp h
    rw [expand]
    split
    · exact expandSome_ne_nil fs negated hfs hall
    · exact expandAll_ne_nil fs negated (List.cons_ne_nil _ _) hall
  | .disjunction fs, negated, h => by
    obtain ⟨hfs, hall⟩ := isProper_disjunction_iff.mp h
    rw [expand]
    split
    · exact expandAll_ne_nil fs negated (List.cons_ne_nil _ _) hall
    · exact expandSome_ne_nil fs negated hfs hall

/-- Conjoining proper formulas leaves a conjunction. -/
theorem expandAll_ne_nil : ∀ (fs : List Formula) (negated : Bool) {acc : NormalForm}, acc ≠ [] →
    allProper fs = true → expandAll negated acc fs ≠ []
  | [], negated, acc, hacc, _ => hacc
  | f :: fs, negated, acc, hacc, h => by
    rw [allProper, Bool.and_eq_true] at h
    rw [expandAll]
    exact expandAll_ne_nil fs negated (product_ne_nil hacc (expand_ne_nil f negated h.1)) h.2

/-- Some of at least one proper formula can be chosen. -/
theorem expandSome_ne_nil : ∀ (fs : List Formula) (negated : Bool), fs ≠ [] →
    allProper fs = true → expandSome negated fs ≠ []
  | [], negated, hfs, _ => absurd rfl hfs
  | f :: fs, negated, _, h => by
    rw [allProper, Bool.and_eq_true] at h
    rw [expandSome]
    exact List.append_ne_nil_of_left_ne_nil (expand_ne_nil f negated h.1) _

end

variable {a : Atom}

mutual

/-- The normal form of a proper formula mentions its atoms, and so does that of its negation. -/
theorem mentions_expand : ∀ (f : Formula) (negated : Bool), f.isProper = true →
    a ∈ f.occurrences → (f.expand negated).Mentions a
  | .atom b, negated, _, ha => by
    rw [occurrences, List.mem_singleton] at ha
    rw [expand]
    exact ⟨_, List.mem_singleton_self _, _, List.mem_singleton_self _, ha.symm⟩
  | .negation f, negated, h, ha => by
    rw [isProper] at h
    rw [occurrences] at ha
    rw [expand]
    exact mentions_expand f (!negated) h ha
  | .conjunction fs, negated, h, ha => by
    obtain ⟨-, hall⟩ := isProper_conjunction_iff.mp h
    rw [occurrences] at ha
    rw [expand]
    split
    · exact mentions_expandSome fs negated hall ha
    · exact mentions_expandAll fs negated (List.cons_ne_nil _ _) hall (.inr ha)
  | .disjunction fs, negated, h, ha => by
    obtain ⟨-, hall⟩ := isProper_disjunction_iff.mp h
    rw [occurrences] at ha
    rw [expand]
    split
    · exact mentions_expandAll fs negated (List.cons_ne_nil _ _) hall (.inr ha)
    · exact mentions_expandSome fs negated hall ha

/-- Conjoining proper formulas keeps the atoms and brings in those of the formulas. -/
theorem mentions_expandAll : ∀ (fs : List Formula) (negated : Bool) {acc : NormalForm}, acc ≠ [] →
    allProper fs = true → acc.Mentions a ∨ a ∈ listOccurrences fs →
      (expandAll negated acc fs).Mentions a
  | [], negated, acc, _, _, ha => ha.resolve_right List.not_mem_nil
  | f :: fs, negated, acc, hacc, h, ha => by
    rw [allProper, Bool.and_eq_true] at h
    rw [listOccurrences, List.mem_append] at ha
    rw [expandAll]
    -- Neither factor is empty, so the product keeps the atoms of both.
    have hexpand := expand_ne_nil f negated h.1
    refine mentions_expandAll fs negated (product_ne_nil hacc hexpand) h.2 ?_
    rcases ha with ha | ha | ha
    · exact .inl (ha.product_left hexpand)
    · exact .inl ((mentions_expand f negated h.1 ha).product_right hacc)
    · exact .inr ha

/-- A union mentions the atoms of all formulas. -/
theorem mentions_expandSome : ∀ (fs : List Formula) (negated : Bool), allProper fs = true →
    a ∈ listOccurrences fs → (expandSome negated fs).Mentions a
  | [], negated, _, ha => absurd ha List.not_mem_nil
  | f :: fs, negated, h, ha => by
    rw [allProper, Bool.and_eq_true] at h
    rw [listOccurrences, List.mem_append] at ha
    rw [expandSome, mentions_append]
    rcases ha with ha | ha
    · exact .inl (mentions_expand f negated h.1 ha)
    · exact .inr (mentions_expandSome fs negated h.2 ha)

end

/-- A normal form mentions no atom that is not in the formula, whether or not it is proper. -/
theorem mem_atoms_of_mentions {f : Formula} {negated : Bool} (h : (f.expand negated).Mentions a) :
    a ∈ f.atoms := by
  obtain ⟨c, hc, l, hl, rfl⟩ := h
  exact mem_distinct.mpr (mem_occurrences_of_mem_expand f negated hc hl)

/-- The normal form of a proper formula, or of its negation, mentions exactly its atoms. -/
theorem mentions_iff_of_isProper {f : Formula} {negated : Bool} (hf : f.isProper = true) :
    (f.expand negated).Mentions a ↔ a ∈ f.atoms :=
  ⟨mem_atoms_of_mentions, fun ha => mentions_expand f negated hf (mem_distinct.mp ha)⟩

/-- A disjunction of nothing takes the atoms beside it along. -/
example (b : Atom) : (conjunction [.atom b, disjunction []]).normalForm = [] := rfl

end Formula

end RuleGrounding
