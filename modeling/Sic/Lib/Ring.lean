import Mathlib.Data.List.Basic

/-! A ring buffer: storage, head and length. Writing and reading take at most
two copies, and together they are the operations of a bounded queue. -/

namespace Sic

variable {α : Type*}

def memcpy (buf : Nat → α) (i : Nat) (xs : List α) : Nat → α := fun k =>
  if i ≤ k then (xs[k - i]?).getD (buf k) else buf k

theorem map_memcpy (buf : Nat → α) (u : Nat) (bytes : List α) :
    (List.range (u + bytes.length)).map (memcpy buf u bytes) = (List.range u).map buf ++ bytes := by
  apply List.ext_getElem
  · simp
  · intro k hk hk'
    simp only [List.length_map, List.length_range] at hk
    rw [List.getElem_append]
    simp only [List.getElem_map, List.getElem_range, List.length_map, List.length_range, memcpy]
    split
    · next h => rw [dif_neg (Nat.not_lt.mpr h), List.getElem?_eq_getElem (by omega), Option.getD_some]
    · next h => rw [dif_pos (Nat.lt_of_not_le h)]

structure Ring (α : Type*) where
  buf : Nat → α
  head : Nat
  len : Nat

namespace Ring

variable {N : Nat} {r : Ring α}

def push (N : Nat) (r : Ring α) (xs : List α) : Ring α :=
  let n := min xs.length (N - r.len)
  let tail := (r.head + r.len) % N
  let first := min (N - tail) n
  let buf := memcpy r.buf tail (xs.take first)
  { r with buf := memcpy buf 0 ((xs.drop first).take (n - first)), len := r.len + n }

def read (N : Nat) (r : Ring α) (n : Nat) : List α :=
  let first := min (N - r.head) n
  (List.range first).map (fun i => r.buf (r.head + i)) ++ (List.range (n - first)).map r.buf

def pop (N : Nat) (r : Ring α) (n : Nat) : Ring α :=
  { r with head := (r.head + n) % N, len := r.len - n }

def contents (N : Nat) (r : Ring α) : List α :=
  (List.range r.len).map fun i => r.buf ((r.head + i) % N)

structure Wf (N : Nat) (r : Ring α) : Prop where
  head : r.head < N
  len : r.len ≤ N

@[simp]
theorem length_contents : (r.contents N).length = r.len := by simp [contents]

theorem wrap_eq {h i : Nat} (hh : h < N) (hi : i < N) :
    (h + i) % N = if h + i < N then h + i else h + i - N := by
  split
  · exact Nat.mod_eq_of_lt (by assumption)
  · rw [Nat.mod_eq_sub_mod (by omega), Nat.mod_eq_of_lt (by omega)]

theorem contents_pop (n : Nat) :
    (r.pop N n).contents N = (r.contents N).drop n := by
  apply List.ext_getElem
  · simp [pop]
  · intro i h₁ h₂
    simp only [contents, pop, List.getElem_map, List.getElem_range, List.getElem_drop,
      Nat.mod_add_mod, Nat.add_assoc]

/-! One element at a time. -/

theorem contents_snoc (h : r.Wf N) (hroom : r.len < N) (x : α) :
    contents N ⟨Function.update r.buf ((r.head + r.len) % N) x, r.head, r.len + 1⟩ = r.contents N ++ [x] := by
  have hold : ∀ i ∈ List.range r.len,
      Function.update r.buf ((r.head + r.len) % N) x ((r.head + i) % N) = r.buf ((r.head + i) % N) := by
    intro i hi
    have hlt := List.mem_range.mp hi
    have hh := h.head
    refine Function.update_of_ne ?_ ..
    rw [wrap_eq hh (by omega), wrap_eq hh hroom]
    split <;> split <;> omega
  simp only [contents, List.range_succ, List.map_append, List.map_cons, List.map_nil, Function.update_self]
  rw [List.map_congr_left hold]

theorem contents_cons (h : r.Wf N) {n : Nat} (hn : r.len = n + 1) :
    r.contents N = r.buf r.head :: contents N ⟨r.buf, (r.head + 1) % N, n⟩ := by
  have hh := h.head
  simp only [contents, hn, List.range_succ_eq_map, List.map_cons, List.map_map, Nat.add_zero, Nat.mod_eq_of_lt hh]
  refine congrArg _ (List.map_congr_left fun i _ => ?_)
  simp only [Function.comp, Nat.succ_eq_add_one, Nat.mod_add_mod, Nat.add_assoc, Nat.add_comm 1]

end Ring

end Sic
