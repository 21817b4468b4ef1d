import RuleGrounding.Proofs.Toml.Numbers
import RuleGrounding.Proofs.Toml.Strings

/-!
# Documents read back

A document is read line by line. What a line says is read back whatever stands behind it, so that
the statements of a text are those of its lines one after the other.
-/

namespace RuleGrounding

namespace Toml

variable {c : Char} {s rest : List Char} {fuel depth : Nat}

section Blanks

/-- Whether a character is neither a blank, nor a line end, nor the start of a comment. -/
def isSolid (c : Char) : Bool := !(c = ' ' || c = '\t' || c = '#' || c = '\n' || c = '\r')

theorem skipBlank_solid (h : isSolid c = true) (s : List Char) : skipBlank (c :: s) = c :: s := by
  refine List.dropWhile_cons_of_neg fun hblank => ?_
  simp only [Bool.or_eq_true, decide_eq_true_eq] at hblank
  rcases hblank with rfl | rfl <;> cases h

theorem skipComment_solid (h : isSolid c = true) (s : List Char) :
    skipComment (c :: s) = c :: s := by
  unfold skipComment
  split
  · rename_i heq
    rw [(List.cons.inj heq).1] at h
    cases h
  · rfl

/-- Nothing is skipped in front of what is no blank. -/
theorem skipLines_solid (h : isSolid c = true) (fuel : Nat) (s : List Char) :
    skipLines fuel (c :: s) = c :: s := by
  cases fuel with
  | zero => rfl
  | succ fuel =>
    rw [skipLines, skipBlank_solid h, skipComment_solid h]
    split
    · rename_i heq
      rw [(List.cons.inj heq).1] at h
      cases h
    · rename_i heq
      rw [(List.cons.inj heq).1] at h
      cases h
    · rfl

theorem isSolid_quote (h : c = '"' ∨ c = '\'') : isSolid c = true := by
  rcases h with rfl | rfl <;> rfl

end Blanks

section Arrays

theorem skipLines_quote (name : String) (fuel : Nat) (s : List Char) :
    skipLines fuel ((quote name).toList ++ s) = (quote name).toList ++ s := by
  obtain ⟨c, t, hcons, hc⟩ := exists_cons_quote name
  rw [hcons]
  exact skipLines_solid (isSolid_quote hc) fuel _

/-- No string starts like the end of an array. -/
theorem quote_ne_close (name : String) (s t : List Char) : (quote name).toList ++ s ≠ ']' :: t := by
  obtain ⟨c, u, hcons, hc⟩ := exists_cons_quote name
  rw [hcons]
  intro heq
  rw [(List.cons.inj heq).1] at hc
  exact absurd hc (by decide)

theorem endsString_close (s : List Char) : EndsString (']' :: s) := by simp [EndsString]

theorem readItems_singleton (name : String) (fuel depth : Nat) (rest : List Char) :
    readItems (fuel + 2) depth ((quote name).toList ++ ']' :: rest) =
      some ([.string name], rest) := by
  have hvalue := readValue_quote name fuel depth (endsString_close rest)
  rw [readItems_of_readValue (skipLines_quote name _ _) (quote_ne_close name _) hvalue]
  simp only [skipLines_solid (show isSolid ']' = true from rfl)]

theorem readValue_array {r : List Toml × List Char} (h : readItems fuel depth s = some r) :
    readValue (fuel + 1) (depth + 1) ('[' :: s) = some (.array false r.1, r.2) := by
  rw [readValue, h]
  rfl

end Arrays

section Lines

variable {key : String} {text : List Char} {v : Toml}

end Lines

section Texts

variable {key : String} {text text' : List Char} {v : Toml} {l l' : List Statement}

/-- A text of whole lines that make some statements. -/
structure ReadsAs (text : List Char) (l : List Statement) : Prop where
  /-- Every statement takes up some of the text. -/
  length_le : l.length ≤ text.length
  /-- The text does not start with a mark of its encoding. -/
  starts : ∀ c ∈ text.head?, c.toNat ≠ 0xFEFF
  /-- The statements are read, and then those of what stands behind the text. -/
  reads : ∀ fuel rest, readStatements (fuel + l.length) (text ++ rest) =
    (readStatements fuel rest).map fun l' => l ++ l'

theorem ReadsAs.append (h : ReadsAs text l) (h' : ReadsAs text' l') :
    ReadsAs (text ++ text') (l ++ l') where
  length_le := by
    have hle := h.length_le
    have hle' := h'.length_le
    rw [List.length_append, List.length_append]
    omega
  starts c hc := by
    rw [List.head?_append, Option.mem_def, Option.or_eq_some_iff] at hc
    rcases hc with hc | ⟨-, hc⟩
    · exact h.starts c hc
    · exact h'.starts c hc
  reads fuel rest := by
    have hfuel : fuel + (l ++ l').length = fuel + l'.length + l.length := by
      rw [List.length_append]
      omega
    rw [hfuel, List.append_assoc, h.reads, h'.reads, Option.map_map]
    exact congrArg (fun f => Option.map f (readStatements fuel rest))
      (funext fun r => (List.append_assoc l l' r).symm)

end Texts

section Tables

variable {key name : String} {v : Toml} {form : TableForm}
  {entries sub added : List (String × Toml)} {rest : List Statement}

@[simp]
theorem valueAt?_nil (key : String) : valueAt? key [] = none := rfl

@[simp]
theorem valueAt?_append (key : String) (entries entries' : List (String × Toml)) :
    valueAt? key (entries ++ entries') = (valueAt? key entries).or (valueAt? key entries') := by
  rw [valueAt?, List.find?_append, Option.map_or]
  rfl

end Tables

end Toml

end RuleGrounding
