import Mathlib.Algebra.BigOperators.Fin
import Mathlib.Algebra.Order.BigOperators.Group.Finset
import Sic.Lib.PageTree
import Sic.Mm.Pmm

/-! Translation trees and the frames they take: mapping a page may add tables,
and freeing a tree gives back its tables and the frames of its pages. Both
architectures work alike. -/

namespace Sic

variable {φ α : Type}

/-- The outcome of `map_in`: the table, the allocator and the return code. It
is missing where `alloc_table` finds no frame, for then the CPU halts. -/
abbrev MapResult (φ α : Type) (n : Nat) := Option (Table φ α n × Pmm × Int)

def mapIn : (n : Nat) → Table φ α n → U64 → α → φ → Pmm → MapResult φ α n
  | 0, t, virt, e, _, p =>
    match t (idx virt 0) with
    | some _ => some (t, p, -2)
    | none => some (Function.update t (idx virt 0) (some e), p, 0)
  | n + 1, t, virt, e, tflags, p =>
    match t (idx virt (n + 1)) with
    | .block _ => some (t, p, -1)
    | .empty =>
      let (phys, p) := p.pmmAllocPage
      if phys = 0 then none
      else do
        let (sub, p, rc) ← mapIn n (Table.empty n) virt e tflags p
        return (Function.update t (idx virt (n + 1)) (.table phys tflags sub), p, rc)
    | .table phys flags sub => do
      let (sub, p, rc) ← mapIn n sub virt e tflags p
      return (Function.update t (idx virt (n + 1)) (.table phys flags sub), p, rc)

/-- Free what the listed entries of a table lead to; `owned` is the frame a page
owns, if it owns one. The trees here have no large pages. -/
def freeEntries (owned : α → Option Nat) : (n : Nat) → List (Fin 512) → Table φ α n → Pmm → Pmm
  | 0, l, t, p => l.foldl (fun p i => ((t i).bind owned).elim p p.pmmFreePage) p
  | n + 1, l, t, p => l.foldl (fun p i =>
      match t i with
      | .table phys _ sub => (freeEntries owned n (List.finRange 512) sub p).pmmFreePage phys
      | _ => p) p

/-! ### Mapping -/

variable {p p' : Pmm}

theorem mapIn_slot_of_ne {n : Nat} {t t' : Table φ α (n + 1)} {virt : U64} {e : α} {tflags : φ} {rc : Int}
    (h : mapIn (n + 1) t virt e tflags p = some (t', p', rc)) {i : Fin 512}
    (hi : i ≠ idx virt (n + 1)) : t' i = t i := by
  rcases hp : p.pmmAllocPage with ⟨phys, q⟩
  rw [mapIn, hp] at h
  split at h
  · cases h
    rfl
  · dsimp only at h
    split at h
    · cases h
    simp only [Option.bind_eq_bind, Option.bind_eq_some_iff, Prod.exists] at h
    obtain ⟨sub, q, r, -, h⟩ := h
    cases h
    exact Function.update_of_ne hi _ _
  · simp only [Option.bind_eq_bind, Option.bind_eq_some_iff, Prod.exists] at h
    obtain ⟨sub, q, r, -, h⟩ := h
    cases h
    exact Function.update_of_ne hi _ _

theorem leaf_mapIn_of_not_samePath {n : Nat} {t t' : Table φ α n} {virt w : U64} {e : α} {tflags : φ}
    {rc : Int} (h : mapIn n t virt e tflags p = some (t', p', rc)) (hw : ¬ Table.SamePath n virt w) :
    t'.leaf n w = t.leaf n w := by
  induction n generalizing p p' rc with
  | zero =>
    have hne : idx w 0 ≠ idx virt 0 := by
      intro hi
      apply hw
      intro k hk
      obtain rfl : k = 0 := by omega
      exact hi.symm
    rw [mapIn] at h
    split at h
    · cases h
      rfl
    · cases h
      exact Function.update_of_ne hne _ _
  | succ n ih =>
    by_cases hi : idx w (n + 1) = idx virt (n + 1)
    · have hn : ¬ Table.SamePath n virt w := fun hs => hw (Table.samePath_succ.mpr ⟨hi.symm, hs⟩)
      rw [mapIn] at h
      split at h
      · cases h
        rfl
      · next hs =>
        dsimp only at h
        split at h
        · cases h
        simp only [Option.bind_eq_bind, Option.bind_eq_some_iff, Prod.exists] at h
        obtain ⟨sub, q, r, hsub, h⟩ := h
        cases h
        rw [Table.leaf_update, if_pos hi, Table.leaf_succ t, hi, hs]
        exact ih hsub hn
      · next phys flags sub₀ hs =>
        simp only [Option.bind_eq_bind, Option.bind_eq_some_iff, Prod.exists] at h
        obtain ⟨sub, q, r, hsub, h⟩ := h
        cases h
        rw [Table.leaf_update, if_pos hi, Table.leaf_succ t, hi, hs]
        exact ih hsub hn
    · rw [Table.leaf_succ, Table.leaf_succ t, mapIn_slot_of_ne h hi]

end Sic
