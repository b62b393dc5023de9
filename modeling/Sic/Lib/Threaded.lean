import Mathlib.Data.List.Basic

/-! Lists threaded through their elements, each with a link to the next one. -/

namespace Sic.Threaded

variable {α : Type*}

def Seg (next : α → Option α) : Option α → List α → Option α → Prop
  | h, [], e => h = e
  | h, x :: q, e => h = some x ∧ Seg next (next x) q e

variable {next next' : α → Option α} {q q' : List α} {h e : Option α}

theorem Seg.append : Seg next h (q ++ q') e ↔ ∃ m, Seg next h q m ∧ Seg next m q' e := by
  induction q generalizing h with
  | nil => exact ⟨fun hs => ⟨h, rfl, hs⟩, fun ⟨m, hm, hs⟩ => hm ▸ hs⟩
  | cons y q ih =>
    constructor
    · rintro ⟨hy, hs⟩
      obtain ⟨m, hm, hs⟩ := ih.mp hs
      exact ⟨m, ⟨hy, hm⟩, hs⟩
    · rintro ⟨m, ⟨hy, hm⟩, hs⟩
      exact ⟨hy, ih.mpr ⟨m, hm, hs⟩⟩

theorem Seg.congr (hs : Seg next h q e) (hn : ∀ y ∈ q, next' y = next y) : Seg next' h q e := by
  induction q generalizing h with
  | nil => exact hs
  | cons y q ih =>
    obtain ⟨hy, hs⟩ := hs
    refine ⟨hy, ?_⟩
    rw [hn y List.mem_cons_self]
    exact ih hs fun z hz => hn z (List.mem_cons_of_mem y hz)

end Sic.Threaded
