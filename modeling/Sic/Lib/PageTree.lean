import Sic.Lib.Word

/-! Multi-level translation tables as trees. Every table is owned by the one
entry that points to it, so two walks meet only where their indices agree. -/

namespace Sic

/-- An entry of a table above the last level: nothing, a large page, or the
next table with its frame and the flags of the entry. -/
inductive Slot (φ α τ : Type) where
  | empty
  | block (e : α)
  | table (phys : Nat) (flags : φ) (sub : τ)

@[reducible]
def Table (φ α : Type) : Nat → Type
  | 0 => Fin 512 → Option α
  | n + 1 => Fin 512 → Slot φ α (Table φ α n)

/-- `(virt >> (12 + 9 * level)) & 0x1FF`. -/
def idx (virt : U64) (level : Nat) : Fin 512 :=
  ⟨virt.toNat / 2 ^ (12 + 9 * level) % 512, Nat.mod_lt _ (by decide)⟩

namespace Table

variable {φ α : Type}

def empty : (n : Nat) → Table φ α n
  | 0 => fun _ => none
  | _ + 1 => fun _ => .empty

def leaf : (n : Nat) → Table φ α n → U64 → Option α
  | 0, t, virt => t (idx virt 0)
  | n + 1, t, virt =>
    match t (idx virt (n + 1)) with
    | .table _ _ sub => leaf n sub virt
    | _ => none

def modify : (n : Nat) → Table φ α n → U64 → (Option α → Option α) → Table φ α n
  | 0, t, virt, f => Function.update t (idx virt 0) (f (t (idx virt 0)))
  | n + 1, t, virt, f =>
    match t (idx virt (n + 1)) with
    | .table phys flags sub =>
      Function.update t (idx virt (n + 1)) (.table phys flags (modify n sub virt f))
    | _ => t

def SamePath (n : Nat) (v w : U64) : Prop := ∀ k ≤ n, idx v k = idx w k

instance (n : Nat) (v w : U64) : Decidable (SamePath n v w) :=
  inferInstanceAs (Decidable (∀ k ≤ n, idx v k = idx w k))

variable {n : Nat} {v w : U64}

theorem samePath_succ : SamePath (n + 1) v w ↔ idx v (n + 1) = idx w (n + 1) ∧ SamePath n v w := by
  constructor
  · intro h
    exact ⟨h _ le_rfl, fun k hk => h k (by omega)⟩
  · rintro ⟨ht, h⟩ k hk
    rcases Nat.lt_or_ge k (n + 1) with hlt | hge
    · exact h k (by omega)
    · have he : k = n + 1 := by omega
      exact he ▸ ht

theorem samePath_three : SamePath 3 v w ↔ v.toNat / 4096 % 2 ^ 36 = w.toNat / 4096 % 2 ^ 36 := by
  constructor
  · intro h
    have h0 := congrArg Fin.val (h 0 (by omega))
    have h1 := congrArg Fin.val (h 1 (by omega))
    have h2 := congrArg Fin.val (h 2 (by omega))
    have h3 := congrArg Fin.val (h 3 (by omega))
    simp only [idx, Nat.reduceMul, Nat.reduceAdd, Nat.reducePow] at h0 h1 h2 h3
    omega
  · intro h k hk
    apply Fin.ext
    obtain rfl | rfl | rfl | rfl : k = 0 ∨ k = 1 ∨ k = 2 ∨ k = 3 := by omega
    all_goals
      simp only [idx, Nat.reduceMul, Nat.reduceAdd, Nat.reducePow]
      omega

theorem leaf_congr (t : Table φ α n) (h : SamePath n v w) : leaf n t v = leaf n t w := by
  induction n with
  | zero => simp only [leaf, h 0 le_rfl]
  | succ n ih =>
    obtain ⟨ht, hn⟩ := samePath_succ.mp h
    simp only [leaf, ht]
    cases t (idx w (n + 1)) with
    | empty => rfl
    | block e => rfl
    | table phys flags sub => exact ih sub hn

@[simp]
theorem leaf_empty (n : Nat) (v : U64) : leaf n (empty n : Table φ α n) v = none := by
  cases n <;> rfl

def below (n : Nat) : Slot φ α (Table φ α n) → Table φ α n
  | .table _ _ sub => sub
  | _ => empty n

theorem leaf_succ (t : Table φ α (n + 1)) (v : U64) :
    leaf (n + 1) t v = leaf n (below n (t (idx v (n + 1)))) v := by
  cases h : t (idx v (n + 1)) <;> simp [leaf, below, h]

theorem leaf_update (t : Table φ α (n + 1)) (i : Fin 512) (x : Slot φ α (Table φ α n)) (v : U64) :
    leaf (n + 1) (Function.update t i x) v =
      if idx v (n + 1) = i then leaf n (below n x) v else leaf (n + 1) t v := by
  split
  · next h => rw [leaf_succ, h, Function.update_self]
  · next h => rw [leaf_succ, Function.update_of_ne h, leaf_succ]

/-- An empty slot and a large page end the walk, so a rewrite only matters
where there was a page already. -/
theorem leaf_modify_self (t : Table φ α n) (v : U64) {f : Option α → Option α}
    (hf : f none = none) : leaf n (modify n t v f) v = f (leaf n t v) := by
  induction n with
  | zero => simp [leaf, modify]
  | succ n ih =>
    simp only [modify]
    cases he : t (idx v (n + 1)) with
    | empty => simp [leaf, he, hf]
    | block e => simp [leaf, he, hf]
    | table phys flags sub => simp [leaf, he, ih sub]

theorem leaf_modify_of_not_samePath (t : Table φ α n) (f : Option α → Option α) (h : ¬ SamePath n v w) :
    leaf n (modify n t v f) w = leaf n t w := by
  induction n with
  | zero =>
    have hne : idx w 0 ≠ idx v 0 := by
      intro he
      apply h
      intro k hk
      have hz : k = 0 := by omega
      exact hz ▸ he.symm
    simp [leaf, modify, hne]
  | succ n ih =>
    simp only [modify]
    cases he : t (idx v (n + 1)) with
    | empty => rfl
    | block e => rfl
    | table phys flags sub =>
      by_cases hi : idx w (n + 1) = idx v (n + 1)
      · have hn : ¬ SamePath n v w := fun hh => h (samePath_succ.mpr ⟨hi.symm, hh⟩)
        simp [leaf, hi, he, ih sub hn]
      · simp [leaf, hi]

theorem modify_slot_of_ne (t : Table φ α (n + 1)) (v : U64) (f : Option α → Option α)
    {i : Fin 512} (h : i ≠ idx v (n + 1)) : modify (n + 1) t v f i = t i := by
  simp only [modify]
  cases t (idx v (n + 1)) with
  | empty => rfl
  | block e => rfl
  | table phys flags sub => exact Function.update_of_ne h _ _

end Table

end Sic
