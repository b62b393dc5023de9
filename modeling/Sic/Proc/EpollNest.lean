import Mathlib.Order.WellFounded
import Sic.Proc.Epoll

/-! Asking an epoll instance for its readiness asks what it watches in turn. The calls come to
an end for every answer of the other files exactly when no chain of watches is infinite. -/

namespace Sic.Epoll

def Watches (s : Sys) (f g : Nat) : Prop :=
  ∃ ep it, (s.file f).epoll = some ep ∧ it ∈ ep.items ∧ it.armed = true ∧ s.fds it.fd = some it.f ∧ it.f = g

variable {s : Sys} {ready : Nat → U32}

variable {items : List Item} {m : U32} {n f : Nat}

theorem epollFilePoll_mono {poll poll' : Nat → Option U32} (h : ∀ g m, poll g = some m → poll' g = some m)
    (hp : epollFilePoll s poll items = some m) : epollFilePoll s poll' items = some m := by
  induction items with
  | nil => exact hp
  | cons it items ih =>
    rw [epollFilePoll] at hp ⊢
    split at hp
    · next hcur =>
      rw [if_pos hcur]
      split at hp
      · cases hp
      next mask hmask =>
      rw [h _ _ hmask]
      dsimp only
      split at hp
      · next hready =>
        rw [if_pos hready]
        exact hp
      · next hready =>
        rw [if_neg hready]
        exact ih hp
    · next hcur =>
      rw [if_neg hcur]
      exact ih hp

theorem filePoll_succ (h : filePoll s ready n f = some m) : filePoll s ready (n + 1) f = some m := by
  induction n generalizing f m with
  | zero => cases h
  | succ n ih =>
    rw [filePoll] at h ⊢
    split at h
    · exact h
    · exact epollFilePoll_mono (fun _ _ hg => ih hg) h

theorem filePoll_mono {n' : Nat} (hn : n ≤ n') (h : filePoll s ready n f = some m) :
    filePoll s ready n' f = some m := by
  induction n', hn using Nat.le_induction with
  | base => exact h
  | succ k _ ih => exact filePoll_succ ih

theorem epollFilePoll_ends
    (h : ∀ it ∈ items, it.armed = true → s.fds it.fd = some it.f → ∃ n, filePoll s ready n it.f ≠ none) :
    ∃ n, epollFilePoll s (filePoll s ready n) items ≠ none := by
  induction items with
  | nil => exact ⟨0, nofun⟩
  | cons it items ih =>
    obtain ⟨n, hn⟩ := ih fun x hx => h x (List.mem_cons_of_mem it hx)
    obtain ⟨m, hm⟩ := Option.ne_none_iff_exists'.mp hn
    have hup : ∀ k, epollFilePoll s (filePoll s ready (max k n)) items = some m := fun k =>
      epollFilePoll_mono (fun _ _ hg => filePoll_mono (Nat.le_max_right k n) hg) hm
    by_cases hcur : it.armed = true ∧ s.fds it.fd = some it.f
    · obtain ⟨k, hk⟩ := h it List.mem_cons_self hcur.1 hcur.2
      obtain ⟨mask, hmask⟩ := Option.ne_none_iff_exists'.mp hk
      refine ⟨max k n, ?_⟩
      rw [epollFilePoll, if_pos hcur, filePoll_mono (Nat.le_max_left k n) hmask]
      dsimp only
      split
      · nofun
      · rw [hup k]
        nofun
    · refine ⟨max 0 n, ?_⟩
      rw [epollFilePoll, if_neg hcur, hup 0]
      nofun

theorem filePoll_ends_of_wellFounded (h : WellFounded fun g f => Watches s f g) (ready : Nat → U32) (f : Nat) :
    ∃ n, filePoll s ready n f ≠ none := by
  induction f using h.induction with
  | _ f ih =>
    cases he : (s.file f).epoll with
    | none =>
      refine ⟨1, ?_⟩
      rw [filePoll, he]
      nofun
    | some ep =>
      have hitems : ∀ it ∈ ep.items, it.armed = true → s.fds it.fd = some it.f → ∃ n,
        filePoll s ready n it.f ≠ none :=
        fun it hit ha hf => ih it.f ⟨ep, it, he, hit, ha, hf, rfl⟩
      obtain ⟨n, hn⟩ := epollFilePoll_ends hitems
      refine ⟨n + 1, ?_⟩
      rw [filePoll, he]
      exact hn

theorem epollFilePoll_all {poll : Nat → Option U32} (h0 : ∀ g m, poll g = some m → m = 0)
    (hp : epollFilePoll s poll items = some m) :
    m = 0 ∧ ∀ it ∈ items, it.armed = true → s.fds it.fd = some it.f → poll it.f ≠ none := by
  induction items with
  | nil =>
    cases hp
    exact ⟨rfl, nofun⟩
  | cons it items ih =>
    rw [epollFilePoll] at hp
    split at hp
    · split at hp
      · cases hp
      · next mask hmask =>
        rw [h0 _ _ hmask, if_neg (by simp)] at hp
        obtain ⟨hm, hrest⟩ := ih hp
        refine ⟨hm, List.forall_mem_cons.mpr ⟨fun _ _ => ?_, hrest⟩⟩
        rw [hmask]
        nofun
    · next hcur =>
      obtain ⟨hm, hrest⟩ := ih hp
      exact ⟨hm, List.forall_mem_cons.mpr ⟨fun ha hf => absurd ⟨ha, hf⟩ hcur, hrest⟩⟩

theorem filePoll_idle (h : filePoll s (fun _ => 0) n f = some m) : m = 0 := by
  induction n generalizing f m with
  | zero => cases h
  | succ n ih =>
    rw [filePoll] at h
    split at h
    · cases h
      rfl
    · exact (epollFilePoll_all (fun _ _ hg => ih hg) h).1

theorem acc_of_filePoll (h : filePoll s (fun _ => 0) n f ≠ none) : Acc (fun g f => Watches s f g) f := by
  induction n generalizing f with
  | zero => exact absurd rfl h
  | succ n ih =>
    refine ⟨f, fun g hg => ?_⟩
    obtain ⟨ep, it, he, hit, ha, hf, rfl⟩ := hg
    obtain ⟨m, hm⟩ := Option.ne_none_iff_exists'.mp h
    rw [filePoll, he] at hm
    exact ih ((epollFilePoll_all (fun _ _ hx => filePoll_idle hx) hm).2 it hit ha hf)

/-- Asking any file for its readiness ends, whatever the files that are no instances answer,
exactly if the watches are well founded. -/
theorem poll_ends_iff (s : Sys) :
    (∀ (ready : Nat → U32) (f : Nat), ∃ n, filePoll s ready n f ≠ none) ↔
      WellFounded fun g f => Watches s f g := by
  refine ⟨fun h => ⟨fun f => ?_⟩, fun h ready f => filePoll_ends_of_wellFounded h ready f⟩
  obtain ⟨n, hn⟩ := h (fun _ => 0) f
  exact acc_of_filePoll hn

def mutualWatch : List Event :=
  [.epollCreate 0, .epollCreate 1, .epollCtl 0 .add 1 (some (1, 0)) true, .epollCtl 1 .add 0 (some (1, 0)) true]

theorem filePoll_mutualWatch (n : Nat) :
    filePoll (run step {} mutualWatch) (fun _ => 0) n 0 = none ∧
      filePoll (run step {} mutualWatch) (fun _ => 0) n 1 = none := by
  have h₀ : ((run step {} mutualWatch).file 0).epoll = some ⟨[⟨1, 1, 1, 0, true, 1⟩], 8⟩ := by decide +kernel
  have h₁ : ((run step {} mutualWatch).file 1).epoll = some ⟨[⟨0, 0, 1, 0, true, 0⟩], 8⟩ := by decide +kernel
  have hfd : (run step {} mutualWatch).fds 0 = some 0 ∧ (run step {} mutualWatch).fds 1 = some 1 := by
    decide +kernel
  induction n with
  | zero => exact ⟨rfl, rfl⟩
  | succ n ih =>
    refine ⟨?_, ?_⟩
    · rw [filePoll, h₀]
      dsimp only
      rw [epollFilePoll, if_pos ⟨rfl, hfd.2⟩, ih.2]
    · rw [filePoll, h₁]
      dsimp only
      rw [epollFilePoll, if_pos ⟨rfl, hfd.1⟩, ih.1]

/-- Polling either set ends at no depth of the C stack. -/
theorem mutual_watch_never_ends :
    ¬ ∃ n, filePoll (run step {} mutualWatch) (fun _ => 0) n 0 ≠ none ∨
      filePoll (run step {} mutualWatch) (fun _ => 0) n 1 ≠ none := by
  rintro ⟨n, hn | hn⟩
  · exact hn (filePoll_mutualWatch n).1
  · exact hn (filePoll_mutualWatch n).2

end Sic.Epoll
