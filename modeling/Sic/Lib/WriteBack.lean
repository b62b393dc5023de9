import Mathlib.Logic.Function.Basic

/-! A device whose lines have copies, behind a cache of one line that may be written back late. -/

namespace Sic

structure WriteBack (α ρ : Type*) where
  dev : α → ρ
  line : ρ
  /-- The first copy of the line. -/
  key : α
  dirty : Bool

namespace WriteBack

variable {α ρ : Type*} [DecidableEq α] (copies : α → List α) (w : WriteBack α ρ)

def putAll (dev : α → ρ) (r : ρ) (as : List α) : α → ρ := as.foldl (fun d a => Function.update d a r) dev

def store : WriteBack α ρ := { w with dev := putAll w.dev w.line (copies w.key), dirty := false }

def flush : WriteBack α ρ := if w.dirty then w.store copies else w

def load (k : α) : WriteBack α ρ :=
  if w.key = k then w
  else
    let w := w.flush copies
    { w with line := w.dev k, key := k }

def modify (f : ρ → ρ) : WriteBack α ρ := { w with line := f w.line, dirty := true }

def view (k : α) : ρ := if w.key = k then w.line else w.dev k

/-- The lines in `K` are the same in all their copies, but for the one that is still to be written. -/
structure Mirrored (K : α → Prop) : Prop where
  clean : ∀ k, K k → (w.dirty = true → w.key ≠ k) → ∀ a ∈ copies k, w.dev a = w.view k
  inside : w.dirty = true → K w.key

/-- No place is a copy of two lines of `K`, and each line is its own first copy. -/
structure Apart (K : α → Prop) : Prop where
  self : ∀ k, K k → k ∈ copies k
  only : ∀ k k' a, K k → K k' → a ∈ copies k → a ∈ copies k' → k = k'

theorem putAll_of_not_mem {dev : α → ρ} {r : ρ} {as : List α} {a : α} (h : a ∉ as) :
    putAll dev r as a = dev a := by
  induction as generalizing dev with
  | nil => rfl
  | cons b as ih =>
    rw [List.mem_cons, not_or] at h
    exact (ih h.2).trans (Function.update_of_ne h.1 _ _)

theorem putAll_of_mem {dev : α → ρ} {r : ρ} {as : List α} {a : α} (h : a ∈ as) : putAll dev r as a = r := by
  induction as generalizing dev with
  | nil => cases h
  | cons b as ih =>
    by_cases hm : a ∈ as
    · exact ih hm
    · obtain rfl : a = b := by simpa [hm] using h
      exact (putAll_of_not_mem hm).trans (Function.update_self a r dev)

variable {copies w} {K : α → Prop}

theorem view_store (h : Apart copies K) (hw : K w.key) {k : α} (hk : K k) :
    (w.store copies).view k = w.view k := by
  by_cases he : w.key = k
  · simp [view, store, he]
  · have hn : k ∉ copies w.key := fun hm => he (h.only _ _ k hw hk hm (h.self k hk))
    simp [view, store, he, putAll_of_not_mem hn]

theorem Mirrored.store (hm : Mirrored copies w K) (h : Apart copies K) (hw : K w.key) :
    Mirrored copies (w.store copies) K where
  clean k hk _ a ha := by
    rw [view_store h hw hk]
    by_cases he : w.key = k
    · subst he
      exact (putAll_of_mem ha).trans (if_pos rfl).symm
    · have hn : a ∉ copies w.key := fun hx => he (h.only _ _ a hw hk hx ha)
      exact (putAll_of_not_mem hn).trans (hm.clean k hk (fun _ => he) a ha)
  inside hd := by cases hd

theorem view_flush (hm : Mirrored copies w K) (h : Apart copies K) {k : α} (hk : K k) :
    (w.flush copies).view k = w.view k := by
  rw [flush]
  split
  next hd => exact view_store h (hm.inside hd) hk
  next => rfl

theorem Mirrored.flush (hm : Mirrored copies w K) (h : Apart copies K) : Mirrored copies (w.flush copies) K := by
  rw [WriteBack.flush]
  split
  next hd => exact hm.store h (hm.inside hd)
  next => exact hm

theorem flush_dirty : (w.flush copies).dirty = false := by
  rw [flush]
  split
  next => rfl
  next hd => simpa using hd

theorem dev_flush (hm : Mirrored copies w K) (h : Apart copies K) {k a : α} (hk : K k) (ha : a ∈ copies k) :
    (w.flush copies).dev a = w.view k := by
  rw [← view_flush hm h hk]
  exact (hm.flush h).clean k hk (fun hd => by rw [flush_dirty] at hd; cases hd) a ha

theorem load_key (k : α) : (w.load copies k).key = k := by
  rw [load]
  split
  · assumption
  · rfl

theorem view_load (hm : Mirrored copies w K) (h : Apart copies K) {k j : α} (hj : K j) :
    (w.load copies k).view j = w.view j := by
  rw [load]
  split
  · rfl
  have hdev := dev_flush hm h hj (h.self j hj)
  simp only [view]
  split
  next he => rw [he, hdev, view]
  next => rw [hdev, view]

theorem load_line (hm : Mirrored copies w K) (h : Apart copies K) {k : α} (hk : K k) :
    (w.load copies k).line = w.view k := by
  rw [← view_load hm h hk, view, if_pos (load_key k)]

theorem Mirrored.load (hm : Mirrored copies w K) (h : Apart copies K) (k : α) :
    Mirrored copies (w.load copies k) K := by
  by_cases he : w.key = k
  · rwa [WriteBack.load, if_pos he]
  have hdirty : (w.load copies k).dirty = false := by rw [WriteBack.load, if_neg he]; exact flush_dirty
  have hdev : (w.load copies k).dev = (w.flush copies).dev := by rw [WriteBack.load, if_neg he]
  refine ⟨fun j hj _ a ha => ?_, fun hd => ?_⟩
  · rw [view_load hm h hj, hdev, dev_flush hm h hj ha]
  · rw [hdirty] at hd
    cases hd

theorem view_modify (f : ρ → ρ) (k : α) :
    (w.modify f).view k = if w.key = k then f (w.view k) else w.view k := by
  by_cases he : w.key = k <;> simp [view, modify, he]

theorem Mirrored.modify (hm : Mirrored copies w K) (hw : K w.key) (f : ρ → ρ) :
    Mirrored copies (w.modify f) K where
  clean k hk hd a ha := by
    have hne : w.key ≠ k := hd rfl
    rw [view_modify, if_neg hne]
    exact hm.clean k hk (fun _ => hne) a ha
  inside _ := hw

theorem store_frame {a : α} (h : a ∉ copies w.key) : (w.store copies).dev a = w.dev a := putAll_of_not_mem h

theorem flush_frame (hm : Mirrored copies w K) {a : α} (ha : ∀ k, K k → a ∉ copies k) :
    (w.flush copies).dev a = w.dev a := by
  rw [flush]
  split
  next hd => exact store_frame (ha _ (hm.inside hd))
  next => rfl

theorem load_frame (hm : Mirrored copies w K) {k a : α} (ha : ∀ k, K k → a ∉ copies k) :
    (w.load copies k).dev a = w.dev a := by
  rw [load]
  split
  · rfl
  · exact flush_frame hm ha

end WriteBack

end Sic
