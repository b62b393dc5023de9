import Mathlib.Data.List.Perm.Basic

/-! Tables kept as an array with a count: an entry is removed by moving the last
one into its place. -/

namespace Sic

variable {α : Type*}

/-- `l[k] = l[--n]`. -/
def swapRemove (l : List α) (k : Nat) : List α :=
  match l.getLast? with
  | none => []
  | some x => (l.set k x).dropLast

theorem swapRemove_concat (l : List α) (x : α) {k : Nat} (h : k < l.length) :
    swapRemove (l ++ [x]) k = l.set k x := by
  rw [swapRemove, List.getLast?_concat]
  dsimp only
  rw [List.set_append_left _ _ h, List.dropLast_concat]

theorem swapRemove_perm {l : List α} {k : Nat} {y : α} (h : l[k]? = some y) :
    l.Perm (y :: swapRemove l k) := by
  rcases List.eq_nil_or_concat l with rfl | ⟨l, x, rfl⟩
  · simp at h
  rw [List.concat_eq_append] at h ⊢
  by_cases hlt : k < l.length
  · rw [List.getElem?_append_left hlt] at h
    obtain ⟨_, hy⟩ := List.getElem?_eq_some_iff.mp h
    rw [swapRemove_concat l x hlt]
    have herase := List.getElem_cons_eraseIdx_perm hlt
    rw [hy] at herase
    have hset := List.set_perm_cons_eraseIdx hlt x
    have hx := (List.perm_append_singleton x l).trans (herase.symm.cons x)
    exact (hx.trans (.swap y x _)).trans (hset.symm.cons y)
  · have hk : k = l.length := by
      have := (List.getElem?_eq_some_iff.mp h).1
      simp only [List.length_append, List.length_singleton] at this
      omega
    subst hk
    obtain rfl : x = y := by simpa using h
    have he : swapRemove (l ++ [x]) l.length = l := by
      rw [swapRemove, List.getLast?_concat]
      simp
    rw [he]
    exact List.perm_append_singleton x l

theorem getElem?_swapRemove_of_lt {l : List α} {j k : Nat} (hk : k < l.length) (hj : j < k) :
    (swapRemove l k)[j]? = l[j]? := by
  rcases List.eq_nil_or_concat l with rfl | ⟨l, x, rfl⟩
  · cases hk
  rw [List.concat_eq_append, List.length_append, List.length_singleton] at hk
  rw [List.concat_eq_append, swapRemove, List.getLast?_concat]
  dsimp only
  rw [List.getElem?_dropLast, List.getElem?_set_ne (by omega), if_pos (by simp; omega)]

theorem mem_of_mem_swapRemove {l : List α} {k : Nat} {x : α} (hk : k < l.length) (h : x ∈ swapRemove l k) :
    x ∈ l :=
  (swapRemove_perm (List.getElem?_eq_getElem hk)).mem_iff.mpr (List.mem_cons_of_mem _ h)

theorem exists_of_mem_modify {l : List α} {k : Nat} {f : α → α} {y : α} (h : y ∈ l.modify k f) :
    ∃ x ∈ l, y = x ∨ y = f x := by
  obtain ⟨i, hi⟩ := List.mem_iff_getElem?.mp h
  rw [List.getElem?_modify] at hi
  obtain ⟨x, hx, hy⟩ := Option.map_eq_some_iff.mp hi
  refine ⟨x, List.mem_of_getElem? hx, ?_⟩
  split at hy
  · exact .inr hy.symm
  · exact .inl hy.symm

theorem swapRemove_length {l : List α} {k : Nat} {y : α} (h : l[k]? = some y) :
    l.length = (swapRemove l k).length + 1 := by
  simpa using (swapRemove_perm h).length_eq

end Sic
