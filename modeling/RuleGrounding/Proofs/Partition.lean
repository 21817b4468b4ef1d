import Mathlib.Data.List.Nodup
import RuleGrounding.Partition

/-!
# Registries of partitions

Whatever calls a registry has answered, it has numbered the names in them from zero on, each one
once, so that names and numbers correspond one to one. A clash of names in a layout is therefore
a clash of partitions, also where some of the names were known before.
-/

namespace RuleGrounding

/-- A call that may give a number to a name. -/
inductive RegistryCall where
  /-- Register a name that is not taken. -/
  | register (name : String)
  /-- Look a name up, and register it if it is new. -/
  | getOrRegister (name : String)
  deriving DecidableEq, Repr

/-- The name that a call is about. -/
def RegistryCall.name : RegistryCall → String
  | register name => name
  | getOrRegister name => name

namespace PartitionRegistry

variable {r r' r'' : PartitionRegistry} {name name' : String} {names names' : List String}
  {id : PartitionId}

/-- The answer to a call, and the registry after it. A refused call leaves the registry. -/
def perform (r : PartitionRegistry) : RegistryCall →
    Except PartitionFault PartitionId × PartitionRegistry
  | .register name =>
    match r.register name with
    | .ok (id, r') => (.ok id, r')
    | .error fault => (.error fault, r)
  | .getOrRegister name => (.ok (r.getOrRegister name).1, (r.getOrRegister name).2)

/-- The registry after several calls. -/
def after (r : PartitionRegistry) (calls : List RegistryCall) : PartitionRegistry :=
  calls.foldl (fun r c => (r.perform c).2) r

/-- The names are numbered from zero on, and no number is given twice. -/
structure Sound (r : PartitionRegistry) : Prop where
  /-- As many numbers are taken as there are names. -/
  next_eq : r.next = r.ids.size
  /-- The numbers that are taken lie below the next one. -/
  lt_next : ∀ {name id}, r.ids.find? name = some id → id.number < r.next
  /-- No two names have one number. -/
  injective : ∀ {name name' id}, r.ids.find? name = some id → r.ids.find? name' = some id →
    name = name'

theorem sound_empty : empty.Sound where
  next_eq := rfl
  lt_next h := by cases h
  injective h := by cases h

theorem get_eq_ok_iff : r.get name = .ok id ↔ r.ids.find? name = some id := by
  rw [get]
  cases r.ids.find? name <;> simp

theorem get_eq_error_iff {fault : PartitionFault} :
    r.get name = .error fault ↔ name ∉ r.ids.keys ∧ fault = .notFound name := by
  rw [get, ← FiniteMap.find?_eq_none_iff]
  cases r.ids.find? name <;> simp [eq_comm]

section Allocation

/-- What is found after a name has been numbered: its number, and what was found before. -/
theorem find?_allocate (r : PartitionRegistry) (name name' : String) :
    (r.allocate name).2.ids.find? name' =
      if name' = name then some ⟨r.next⟩ else r.ids.find? name' :=
  FiniteMap.find?_insert ..

/-- Numbering a new name takes a number that no name has. -/
theorem Sound.allocate (h : r.Sound) (hnew : name ∉ r.ids.keys) : (r.allocate name).2.Sound where
  next_eq := by
    change r.next + 1 = (r.ids.insert name ⟨r.next⟩).size
    rw [FiniteMap.size_insert_of_not_mem hnew, h.next_eq]
  lt_next {name' id} hid := by
    rw [find?_allocate] at hid
    change id.number < r.next + 1
    split at hid
    · cases hid
      exact Nat.lt_succ_self _
    · exact Nat.lt_succ_of_lt (h.lt_next hid)
  injective {name₁ name₂ id} h₁ h₂ := by
    have fresh : ∀ {name'}, r.ids.find? name' ≠ some ⟨r.next⟩ :=
      fun hname => Nat.lt_irrefl _ (h.lt_next hname)
    rw [find?_allocate] at h₁ h₂
    split at h₁ <;> split at h₂
    · simp_all
    · exact absurd (h₂.trans h₁.symm) fresh
    · exact absurd (h₁.trans h₂.symm) fresh
    · exact h.injective h₁ h₂

end Allocation

/-- From one registry to another some names were looked up, and the new ones among them numbered. -/
structure Registers (r : PartitionRegistry) (names : List String) (r' : PartitionRegistry) :
    Prop where
  /-- The numbering stays sound. -/
  sound : r.Sound → r'.Sound
  /-- Numbers that were given stay. -/
  kept : ∀ {name id}, r.ids.find? name = some id → r'.ids.find? name = some id
  /-- No other names are known. -/
  mem_keys_iff : ∀ {name}, name ∈ r'.ids.keys ↔ name ∈ r.ids.keys ∨ name ∈ names
  /-- At most one number was taken for each of the names. -/
  next_le : r'.next ≤ r.next + names.length

theorem Registers.refl (r : PartitionRegistry) : r.Registers [] r where
  sound := id
  kept := id
  mem_keys_iff := by simp
  next_le := Nat.le_refl _

theorem Registers.trans (h : r.Registers names r') (h' : r'.Registers names' r'') :
    r.Registers (names ++ names') r'' where
  sound := h'.sound ∘ h.sound
  kept := h'.kept ∘ h.kept
  mem_keys_iff {name} := by rw [h'.mem_keys_iff, h.mem_keys_iff, List.mem_append, or_assoc]
  next_le := by
    have := h.next_le
    have := h'.next_le
    simp only [List.length_append]
    omega

/-- Looking up a known name changes nothing. -/
theorem registers_self (h : name ∈ r.ids.keys) : r.Registers [name] r where
  sound := id
  kept := id
  mem_keys_iff {name'} := by
    rw [List.mem_singleton]
    exact ⟨.inl, fun hname => hname.elim id fun heq => heq ▸ h⟩
  next_le := Nat.le_succ _

theorem registers_allocate (hnew : name ∉ r.ids.keys) :
    r.Registers [name] (r.allocate name).2 where
  sound h := h.allocate hnew
  kept {name' id} hid := by
    have hne : name' ≠ name := fun heq => hnew (heq ▸ FiniteMap.mem_keys_iff.mpr ⟨id, hid⟩)
    rw [find?_allocate, if_neg hne, hid]
  mem_keys_iff {name'} := by
    rw [List.mem_singleton, or_comm]
    exact FiniteMap.mem_keys_insert
  next_le := Nat.le_refl _

section Calls

theorem register_of_mem (h : name ∈ r.ids.keys) :
    r.register name = .error (.alreadyExists name) := by
  rw [register, if_pos (FiniteMap.contains_iff.mpr h)]

theorem register_of_not_mem (h : name ∉ r.ids.keys) : r.register name = .ok (r.allocate name) := by
  rw [register, if_neg (mt FiniteMap.contains_iff.mp h)]

theorem getOrRegister_of_find? (h : r.ids.find? name = some id) :
    r.getOrRegister name = (id, r) := by
  rw [getOrRegister, h]

theorem getOrRegister_of_not_mem (h : name ∉ r.ids.keys) :
    r.getOrRegister name = r.allocate name := by
  rw [getOrRegister, FiniteMap.find?_eq_none_iff.mpr h]

theorem registers_getOrRegister (r : PartitionRegistry) (name : String) :
    r.Registers [name] (r.getOrRegister name).2 := by
  by_cases h : name ∈ r.ids.keys
  · obtain ⟨id, hid⟩ := FiniteMap.mem_keys_iff.mp h
    rw [getOrRegister_of_find? hid]
    exact registers_self h
  · rw [getOrRegister_of_not_mem h]
    exact registers_allocate h

/-- Afterwards the name has the number that was answered. -/
theorem find?_getOrRegister (r : PartitionRegistry) (name : String) :
    (r.getOrRegister name).2.ids.find? name = some (r.getOrRegister name).1 := by
  by_cases h : name ∈ r.ids.keys
  · obtain ⟨id, hid⟩ := FiniteMap.mem_keys_iff.mp h
    rw [getOrRegister_of_find? hid, hid]
  · rw [getOrRegister_of_not_mem h, find?_allocate, if_pos rfl]
    rfl

/-- Whatever a call answers, its name is known afterwards, and nothing else has become known. -/
theorem registers_perform (r : PartitionRegistry) (c : RegistryCall) :
    r.Registers [c.name] (r.perform c).2 := by
  cases c with
  | register name =>
    by_cases h : name ∈ r.ids.keys
    · rw [perform, register_of_mem h]
      exact registers_self h
    · rw [perform, register_of_not_mem h]
      exact registers_allocate h
  | getOrRegister name => exact registers_getOrRegister r name

theorem find?_perform {c : RegistryCall} (h : (r.perform c).1 = .ok id) :
    (r.perform c).2.ids.find? c.name = some id := by
  cases c with
  | register name =>
    by_cases hknown : name ∈ r.ids.keys
    · rw [perform, register_of_mem hknown] at h
      cases h
    · rw [perform, register_of_not_mem hknown] at h ⊢
      cases h
      exact (find?_allocate ..).trans (if_pos rfl)
  | getOrRegister name =>
    cases h
    exact find?_getOrRegister r name

/-- A call is refused exactly if it registers a name that is taken. -/
theorem perform_eq_error_iff {c : RegistryCall} {fault : PartitionFault} :
    (r.perform c).1 = .error fault ↔
      c = .register c.name ∧ c.name ∈ r.ids.keys ∧ fault = .alreadyExists c.name := by
  cases c with
  | register name =>
    by_cases h : name ∈ r.ids.keys
    · simp [perform, register_of_mem h, RegistryCall.name, h, eq_comm]
    · simp [perform, register_of_not_mem h, RegistryCall.name, h]
  | getOrRegister name => simp [perform]

theorem perform_of_error {c : RegistryCall} {fault : PartitionFault}
    (h : (r.perform c).1 = .error fault) : (r.perform c).2 = r := by
  obtain ⟨hc, hknown, -⟩ := perform_eq_error_iff.mp h
  rw [hc, perform, register_of_mem hknown]

theorem registers_after (r : PartitionRegistry) (calls : List RegistryCall) :
    r.Registers (calls.map RegistryCall.name) (r.after calls) := by
  induction calls generalizing r with
  | nil => exact .refl r
  | cons c calls ih => exact (registers_perform r c).trans (ih _)

end Calls

section Layout

variable {ids : List PartitionId} {read : List String} {write lazy : String}

theorem getOrRegisterAll_cons (r : PartitionRegistry) (name : String) (names : List String) :
    r.getOrRegisterAll (name :: names) =
      ((r.getOrRegister name).1 :: ((r.getOrRegister name).2.getOrRegisterAll names).1,
        ((r.getOrRegister name).2.getOrRegisterAll names).2) := rfl

theorem registers_getOrRegisterAll (r : PartitionRegistry) (names : List String) :
    r.Registers names (r.getOrRegisterAll names).2 := by
  induction names generalizing r with
  | nil => exact .refl r
  | cons name names ih => exact (registers_getOrRegister r name).trans (ih _)

/-- Each name has the number that was answered for it, also where a name is repeated. -/
theorem map_get_getOrRegisterAll (r : PartitionRegistry) (names : List String) :
    names.map (r.getOrRegisterAll names).2.get = (r.getOrRegisterAll names).1.map .ok := by
  induction names generalizing r with
  | nil => rfl
  | cons name names ih =>
    have hname : (r.getOrRegisterAll (name :: names)).2.get name =
        .ok (r.getOrRegister name).1 :=
      get_eq_ok_iff.mpr
        ((registers_getOrRegisterAll _ names).kept (find?_getOrRegister r name))
    rw [List.map_cons, hname, getOrRegisterAll_cons, ih, List.map_cons]

theorem getOrRegisterAll_append (r : PartitionRegistry) (names names' : List String) :
    r.getOrRegisterAll (names ++ names') =
      ((r.getOrRegisterAll names).1 ++ ((r.getOrRegisterAll names).2.getOrRegisterAll names').1,
        ((r.getOrRegisterAll names).2.getOrRegisterAll names').2) := by
  induction names generalizing r with
  | nil => rfl
  | cons name names ih => rw [List.cons_append, getOrRegisterAll_cons, ih, getOrRegisterAll_cons,
      List.cons_append]

/-- In a sound registry names repeat exactly where their numbers do. -/
theorem Sound.nodup_iff (h : r.Sound) (hids : names.map r.get = ids.map .ok) :
    ids.Nodup ↔ names.Nodup := by
  have hinj : ∀ name ∈ names, ∀ name' ∈ names, r.get name = r.get name' → name = name' := by
    intro name hname name' _ heq
    obtain ⟨id, -, hid⟩ := List.mem_map.mp (hids ▸ List.mem_map_of_mem (f := r.get) hname)
    exact h.injective (get_eq_ok_iff.mp hid.symm) (get_eq_ok_iff.mp (heq ▸ hid.symm))
  have hok : Function.Injective (Except.ok : PartitionId → Except PartitionFault PartitionId) :=
    fun _ _ => Except.ok.inj
  rw [← List.nodup_map_iff hok, ← hids]
  exact ⟨List.Nodup.of_map _, List.Nodup.map_on hinj⟩

/-- The names of a layout are looked up one after the other. -/
theorem named_eq (r : PartitionRegistry) (read : List String) (write lazy : String) :
    ∃ readIds writeId lazyId,
      r.getOrRegisterAll (read ++ [write, lazy]) =
        (readIds ++ [writeId, lazyId], (PartitionLayout.named r read write lazy).2) ∧
      (PartitionLayout.named r read write lazy).1 =
        PartitionLayout.make readIds writeId lazyId :=
  ⟨_, _, _, getOrRegisterAll_append .., rfl⟩

end Layout

end PartitionRegistry

namespace PartitionLayout

/-- The roles that a partition can have. -/
inductive Role where
  /-- It holds evidence. -/
  | read
  /-- It holds targets. -/
  | write
  /-- It stages atoms. -/
  | lazy
  deriving DecidableEq, Repr

/-- Whether a layout gives a partition a role. -/
def HasRole (l : PartitionLayout) (p : PartitionId) : Role → Prop
  | .read => p ∈ l.read
  | .write => p = l.write
  | .lazy => p = l.lazy

variable {l : PartitionLayout} {readIds : List PartitionId} {writeId lazyId : PartitionId}
  {p : PartitionId}

theorem make_eq_ok_iff :
    make readIds writeId lazyId = .ok l ↔
      l = ⟨readIds, writeId, lazyId⟩ ∧ (readIds ++ [writeId, lazyId]).Nodup := by
  have hnodup : firstRepeated? [] (readIds ++ [writeId, lazyId]) = none ↔
      (readIds ++ [writeId, lazyId]).Nodup := by simp [firstRepeated?_eq_none_iff]
  rw [make, ← hnodup]
  cases firstRepeated? [] (readIds ++ [writeId, lazyId]) <;> simp [eq_comm]

theorem contains_iff_exists_hasRole : l.contains p = true ↔ ∃ role, l.HasRole p role := by
  rw [contains_iff, visible, List.mem_append, List.mem_pair]
  constructor
  · rintro (h | h | h)
    · exact ⟨.read, h⟩
    · exact ⟨.write, h⟩
    · exact ⟨.lazy, h⟩
  · rintro ⟨role | role | role, h⟩
    · exact .inl h
    · exact .inr (.inl h)
    · exact .inr (.inr h)

/-- Where no partition is visible twice, none has two roles. -/
theorem HasRole.unique (h : l.visible.Nodup) {role role' : Role} (hp : l.HasRole p role)
    (hp' : l.HasRole p role') : role = role' := by
  obtain ⟨-, hroles, hread⟩ := List.nodup_append.mp h
  have hwrite : l.write ∉ l.read := fun hmem => hread _ hmem _ List.mem_cons_self rfl
  have hlazy : l.lazy ∉ l.read := fun hmem => hread _ hmem _ (by simp) rfl
  have hne : l.write ≠ l.lazy := by simpa using hroles
  cases role with
  | read =>
    have hp : p ∈ l.read := hp
    cases role' with
    | read => rfl
    | write =>
      have hp' : p = l.write := hp'
      exact absurd (hp' ▸ hp) hwrite
    | lazy =>
      have hp' : p = l.lazy := hp'
      exact absurd (hp' ▸ hp) hlazy
  | write =>
    have hp : p = l.write := hp
    subst hp
    cases role' with
    | read => exact absurd hp' hwrite
    | write => rfl
    | lazy => exact absurd hp' hne
  | lazy =>
    have hp : p = l.lazy := hp
    subst hp
    cases role' with
    | read => exact absurd hp' hlazy
    | write => exact absurd hp' hne.symm
    | lazy => rfl

/-- Each partition of a layout that is formed has one role and is visible once. -/
theorem existsUnique_role_of_make (h : make readIds writeId lazyId = .ok l)
    (hp : l.contains p = true) : (∃! role, l.HasRole p role) ∧ l.visible.count p = 1 := by
  have hnodup : l.visible.Nodup := nodup_of_make h
  obtain ⟨role, hrole⟩ := contains_iff_exists_hasRole.mp hp
  exact ⟨⟨role, hrole, fun _ h' => h'.unique hnodup hrole⟩,
    List.count_eq_one_of_mem hnodup (contains_iff.mp hp)⟩

end PartitionLayout

namespace PartitionRegistry

section Named

variable {r : PartitionRegistry} {read : List String} {write lazy : String} {l : PartitionLayout}

/-- Names that repeat are the only ones without a layout. -/
theorem exists_named_eq_ok_iff (h : r.Sound) :
    (∃ l, (PartitionLayout.named r read write lazy).1 = .ok l) ↔
      (read ++ [write, lazy]).Nodup := by
  obtain ⟨readIds, writeId, lazyId, hids, hlayout⟩ := named_eq r read write lazy
  have hregisters := registers_getOrRegisterAll r (read ++ [write, lazy])
  have hget := map_get_getOrRegisterAll r (read ++ [write, lazy])
  rw [hids] at hregisters hget
  rw [← (hregisters.sound h).nodup_iff hget, hlayout]
  simp only [PartitionLayout.make_eq_ok_iff, exists_eq_left]

/-- A layout gives each role to the partitions that have the names of the role afterwards. -/
theorem get_of_named (h : (PartitionLayout.named r read write lazy).1 = .ok l) :
    let r' := (PartitionLayout.named r read write lazy).2
    read.map r'.get = l.read.map .ok ∧ r'.get write = .ok l.write ∧ r'.get lazy = .ok l.lazy := by
  intro r'
  obtain ⟨readIds, writeId, lazyId, hids, hlayout⟩ := named_eq r read write lazy
  obtain ⟨rfl, -⟩ := PartitionLayout.make_eq_ok_iff.mp (hlayout.symm.trans h)
  have hget : (read ++ [write, lazy]).map r'.get = (readIds ++ [writeId, lazyId]).map .ok := by
    have := map_get_getOrRegisterAll r (read ++ [write, lazy])
    rwa [hids] at this
  rw [List.map_append, List.map_append] at hget
  obtain ⟨hread, hroles⟩ := List.append_inj' hget rfl
  simp only [List.map_cons, List.map_nil, List.cons.injEq, and_true] at hroles
  exact ⟨hread, hroles⟩

end Named

/-- After any calls to an empty registry, names and numbers correspond one to one. The names of
the calls are exactly the ones that are known, and they keep their numbers; only a known name is
refused, and the refusal changes nothing. The numbers are counted from zero, so they fit in 32 bits
while there are fewer than 2 ^ 32 calls. Therefore names have a layout exactly if none is repeated,
whatever was registered before, and every layout that is formed gives each of its partitions one
role and shows it once. -/
theorem names_and_roles_never_collide (calls : List RegistryCall) :
    let r := empty.after calls
    (∀ name name' id, r.get name = .ok id → r.get name' = .ok id → name = name') ∧
    (∀ later name id, r.get name = .ok id → (r.after later).get name = .ok id) ∧
    (∀ name, (∃ id, r.get name = .ok id) ↔ name ∈ calls.map RegistryCall.name) ∧
    (∀ name fault, r.get name = .error fault ↔
      name ∉ calls.map RegistryCall.name ∧ fault = .notFound name) ∧
    (∀ c fault, (r.perform c).1 = .error fault ↔
      c = .register c.name ∧ c.name ∈ calls.map RegistryCall.name ∧
        fault = .alreadyExists c.name) ∧
    (∀ c, (∃ fault, (r.perform c).1 = .error fault) → (r.perform c).2 = r) ∧
    (∀ c id, (r.perform c).1 = .ok id → (r.perform c).2.get c.name = .ok id) ∧
    (∀ name id, r.get name = .ok id → id.number < r.ids.size) ∧
    r.ids.size ≤ calls.length ∧
    (∀ read write lazy,
      ((∃ l, (PartitionLayout.named r read write lazy).1 = .ok l) ↔
        (read ++ [write, lazy]).Nodup) ∧
      ∀ l, (PartitionLayout.named r read write lazy).1 = .ok l →
        let r' := (PartitionLayout.named r read write lazy).2
        read.map r'.get = l.read.map .ok ∧
          r'.get write = .ok l.write ∧ r'.get lazy = .ok l.lazy) ∧
    ∀ l, ((∃ readIds writeId lazyId, PartitionLayout.make readIds writeId lazyId = .ok l) ∨
        ∃ read write lazy, (PartitionLayout.named r read write lazy).1 = .ok l) →
      ∀ p, l.contains p = true → (∃! role, l.HasRole p role) ∧ l.visible.count p = 1 := by
  intro r
  have hcalls : empty.Registers (calls.map RegistryCall.name) r := registers_after empty calls
  have hsound : r.Sound := hcalls.sound sound_empty
  have hknown : ∀ {name}, name ∈ r.ids.keys ↔ name ∈ calls.map RegistryCall.name := by
    intro name
    rw [hcalls.mem_keys_iff]
    exact or_iff_right List.not_mem_nil
  refine ⟨?_, ?_, ?_, ?_, ?_, ?_, ?_, ?_, ?_, ?_, ?_⟩
  · intro name name' id h h'
    exact hsound.injective (get_eq_ok_iff.mp h) (get_eq_ok_iff.mp h')
  · intro later name id h
    exact get_eq_ok_iff.mpr ((registers_after r later).kept (get_eq_ok_iff.mp h))
  · intro name
    rw [← hknown, FiniteMap.mem_keys_iff]
    simp only [get_eq_ok_iff]
  · intro name fault
    rw [get_eq_error_iff, hknown]
  · intro c fault
    rw [perform_eq_error_iff, hknown]
  · rintro c ⟨fault, h⟩
    exact perform_of_error h
  · intro c id h
    exact get_eq_ok_iff.mpr (find?_perform h)
  · intro name id h
    exact hsound.next_eq ▸ hsound.lt_next (get_eq_ok_iff.mp h)
  · have hle := hcalls.next_le
    rw [hsound.next_eq, List.length_map] at hle
    exact Nat.le_trans hle (Nat.le_of_eq (Nat.zero_add _))
  · exact fun read write lazy => ⟨exists_named_eq_ok_iff hsound, fun l => get_of_named⟩
  · rintro l (⟨readIds, writeId, lazyId, h⟩ | ⟨read, write, lazy, h⟩) p hp
    · exact PartitionLayout.existsUnique_role_of_make h hp
    · exact PartitionLayout.existsUnique_role_of_make h hp

end PartitionRegistry

end RuleGrounding
