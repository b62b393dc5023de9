import Mathlib.Data.List.Perm.Basic

/-! Extents of a line, and lists of extents that do not overlap. Cutting one in
two, joining neighbours and moving the top of the line keep them apart. -/

namespace Sic

structure Extent where
  start : Nat
  len : Nat
deriving DecidableEq, Repr

namespace Extent

def stop (e : Extent) : Nat := e.start + e.len

def Apart (a b : Extent) : Prop := a.stop ≤ b.start ∨ b.stop ≤ a.start

theorem Apart.symm {a b : Extent} (h : a.Apart b) : b.Apart a := Or.symm h

def Has (e : Extent) (x : Nat) : Prop := e.start ≤ x ∧ x < e.stop

theorem Apart.not_has {a b : Extent} (h : a.Apart b) {x : Nat} (ha : a.Has x) : ¬ b.Has x := by
  intro hb
  unfold Apart at h
  unfold Has at ha hb
  omega

end Extent

/-- Non-empty extents below `top`, no two of which overlap. -/
structure Tiled (top : Nat) (l : List Extent) : Prop where
  apart : l.Pairwise Extent.Apart
  pos : ∀ e ∈ l, 0 < e.len
  le : ∀ e ∈ l, e.stop ≤ top

namespace Tiled

variable {top : Nat} {l l' : List Extent} {e : Extent}

theorem perm (h : Tiled top l) (hp : l.Perm l') : Tiled top l' :=
  ⟨(hp.pairwise_iff Extent.Apart.symm).mp h.apart, fun e he => h.pos e (hp.mem_iff.mpr he),
    fun e he => h.le e (hp.mem_iff.mpr he)⟩

theorem tail (h : Tiled top (e :: l)) : Tiled top l :=
  ⟨(List.pairwise_cons.mp h.apart).2, fun d hd => h.pos d (List.mem_cons_of_mem _ hd),
    fun d hd => h.le d (List.mem_cons_of_mem _ hd)⟩

theorem head_apart (h : Tiled top (e :: l)) : ∀ d ∈ l, e.Apart d := (List.pairwise_cons.mp h.apart).1

theorem cons_of {d : Extent} (h : Tiled top l) (hap : ∀ x ∈ l, d.Apart x) (hpos : 0 < d.len)
    (hle : d.stop ≤ top) : Tiled top (d :: l) := by
  refine ⟨List.pairwise_cons.mpr ⟨hap, h.apart⟩, ?_, ?_⟩
  · intro x hx
    rcases List.mem_cons.mp hx with rfl | hx
    · exact hpos
    · exact h.pos x hx
  · intro x hx
    rcases List.mem_cons.mp hx with rfl | hx
    · exact hle
    · exact h.le x hx

theorem split {s n m : Nat} (h : Tiled top (⟨s, n + m⟩ :: l)) (hn : 0 < n) (hm : 0 < m) :
    Tiled top (⟨s, n⟩ :: ⟨s + n, m⟩ :: l) := by
  have hle := h.le _ (List.mem_cons_self ..)
  have hap := h.head_apart
  simp only [Extent.Apart, Extent.stop] at hle hap
  have hsnd : Tiled top (⟨s + n, m⟩ :: l) := by
    refine h.tail.cons_of ?_ hm ?_
    · intro x hx
      have := hap x hx
      simp only [Extent.Apart, Extent.stop]
      omega
    · simp only [Extent.stop]
      omega
  refine hsnd.cons_of ?_ hn ?_
  · intro x hx
    simp only [Extent.Apart, Extent.stop]
    rcases List.mem_cons.mp hx with rfl | hx
    · exact .inl (Nat.le_refl _)
    · have := hap x hx
      omega
  · simp only [Extent.stop]
    omega

theorem join {s n m : Nat} (h : Tiled top (⟨s, n⟩ :: ⟨s + n, m⟩ :: l)) :
    Tiled top (⟨s, n + m⟩ :: l) := by
  have hap := h.head_apart
  have hap' := h.tail.head_apart
  have hpos := h.pos _ (List.mem_cons_self ..)
  have hpos' := h.tail.pos _ (List.mem_cons_self ..)
  have hle := h.tail.le _ (List.mem_cons_self ..)
  simp only [Extent.Apart, Extent.stop] at hap hap' hpos hpos' hle
  refine h.tail.tail.cons_of ?_ (by simp only; omega) (by simp only [Extent.stop]; omega)
  intro x hx
  have h₁ := hap x (List.mem_cons_of_mem _ hx)
  have h₂ := hap' x hx
  have hx := h.pos x (List.mem_cons_of_mem _ (List.mem_cons_of_mem _ hx))
  simp only [Extent.Apart, Extent.stop]
  omega

theorem grow (h : Tiled top l) {n : Nat} (hn : 0 < n) : Tiled (top + n) (⟨top, n⟩ :: l) := by
  have hup : Tiled (top + n) l := ⟨h.apart, h.pos, fun e he => Nat.le_trans (h.le e he) (Nat.le_add_right ..)⟩
  exact hup.cons_of (fun x hx => .inr (h.le x hx)) hn (Nat.le_refl _)

theorem shrink (h : Tiled top (e :: l)) (htop : e.stop = top) : Tiled e.start l := by
  refine ⟨h.tail.apart, h.tail.pos, ?_⟩
  intro x hx
  have hap := h.head_apart x hx
  have hle := h.tail.le x hx
  have hpos := h.tail.pos x hx
  unfold Extent.Apart at hap
  unfold Extent.stop at *
  omega

end Tiled

end Sic
