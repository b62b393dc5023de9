import Mathlib.Tactic.Ring
import Sic.Arch.X86Mmu

/-! The checks system calls make on user pointers: `user_ok` of
`kernel/proc/syscall.c` and `user_range_ok` of `kernel/proc/signal.c`. -/

namespace Sic.X86

/-- The page loop of both checks. Both have established the bound on `e`
before, so stepping `p` cannot wrap. -/
def pagesMapped (t : Pml4) (p e : U64) (he : e ≤ userEnd) : Bool :=
  if p < e then
    if vmmTranslateIn t p = 0 then false else pagesMapped t (p + 4096#64) e he
  else true
termination_by e.toNat - p.toNat
decreasing_by bv_omega

def userOk (t : Pml4) (ptr len : U64) : Bool :=
  if len = 0 then decide (userBase ≤ ptr) && decide (ptr < userEnd)
  else if h : ptr < userBase ∨ userEnd - userBase < len ∨ userEnd < ptr + len then false
  else pagesMapped t (pageAlignDown ptr) (ptr + len) (by bv_omega)

def userRangeOk (t : Pml4) (p len : U64) : Bool :=
  if h : p < userBase ∨ userEnd < p + len then false
  else pagesMapped t (pageAlignDown p) (p + len) (by bv_omega)

theorem pagesMapped_iff (t : Pml4) (p e : U64) (he : e ≤ userEnd) :
    pagesMapped t p e he = true ↔
      ∀ k : Nat, p.toNat + 4096 * k < e.toNat →
        vmmTranslateIn t (BitVec.ofNat 64 (p.toNat + 4096 * k)) ≠ 0 := by
  fun_induction pagesMapped t p e he with
  | case1 p hlt hz =>
    simp only [Bool.false_eq_true, false_iff, not_forall, not_not]
    refine ⟨0, ?_, ?_⟩
    · simpa using BitVec.lt_def.mp hlt
    · simpa using hz
  | case2 p hlt hz ih =>
    have hu := he
    have hn : (p + 4096#64).toNat = p.toNat + 4096 := by bv_omega
    rw [ih]
    constructor
    · intro h k hk
      cases k with
      | zero => simpa using hz
      | succ k =>
        have hh := h k (by omega)
        rwa [hn, show p.toNat + 4096 + 4096 * k = p.toNat + 4096 * (k + 1) by ring] at hh
    · intro h k hk
      have hh := h (k + 1) (by omega)
      rwa [hn, show p.toNat + 4096 + 4096 * k = p.toNat + 4096 * (k + 1) by ring]
  | case3 p hlt =>
    have hge : e.toNat ≤ p.toNat := by bv_omega
    simp only [true_iff]
    intro k hk
    omega

/-- What a system call relies on: the bytes `[ptr, ptr + len)`, counted
without wrapping, lie in user space and in mapped pages. -/
def UserAccess (t : Pml4) (ptr len : U64) : Prop :=
  userBase ≤ ptr ∧ ptr.toNat + len.toNat ≤ userEnd.toNat ∧
    ∀ a, ptr.toNat ≤ a → a < ptr.toNat + len.toNat →
      vmmTranslateIn t (pageAlignDown (BitVec.ofNat 64 a)) ≠ 0

theorem pageAlignDown_ofNat {a : Nat} (h : a < 2 ^ 64) :
    pageAlignDown (BitVec.ofNat 64 a) = BitVec.ofNat 64 (a / 4096 * 4096) := by
  apply BitVec.eq_of_toNat_eq
  rw [toNat_pageAlignDown, BitVec.toNat_ofNat, BitVec.toNat_ofNat, Nat.mod_eq_of_lt h,
    Nat.mod_eq_of_lt (by omega)]

variable {t : Pml4} {ptr len : U64}

theorem userAccess_of_pagesMapped (he : ptr + len ≤ userEnd)
    (hb : userBase ≤ ptr) (hw : ptr.toNat + len.toNat < 2 ^ 64)
    (h : pagesMapped t (pageAlignDown ptr) (ptr + len) he = true) : UserAccess t ptr len := by
  have hs : (ptr + len).toNat = ptr.toNat + len.toNat := by bv_omega
  have hu := he
  refine ⟨hb, by bv_omega, ?_⟩
  intro a hpa hal
  have hd := toNat_pageAlignDown ptr
  have hk := (pagesMapped_iff t _ _ he).mp h (a / 4096 - ptr.toNat / 4096)
  have hpage : (pageAlignDown ptr).toNat + 4096 * (a / 4096 - ptr.toNat / 4096) = a / 4096 * 4096 := by
    omega
  rw [hpage, hs] at hk
  rw [pageAlignDown_ofNat (by omega)]
  exact hk (by omega)

theorem not_userAccess_of_wraps (hw : 2 ^ 64 ≤ ptr.toNat + len.toNat) : ¬ UserAccess t ptr len := by
  rintro ⟨-, he, -⟩
  have hu : userEnd.toNat = 2 ^ 47 := rfl
  omega

/-- `user_ok` lets a range pass whose end wraps past the top of the address
space: the wrapped end is below the first page, so the loop looks at nothing. -/
def UserOkWraps (ptr len : U64) : Prop :=
  2 ^ 64 ≤ ptr.toNat + len.toNat ∧ len ≤ userEnd - userBase

/-- `user_range_ok` lets a range pass whose end wraps to an address in user
space; it looks at the first page only if the wrapped end lies inside it. -/
def UserRangeOkWraps (t : Pml4) (p len : U64) : Prop :=
  userBase ≤ p ∧ 2 ^ 64 ≤ p.toNat + len.toNat ∧ p + len ≤ userEnd ∧
    (pageAlignDown p < p + len → vmmTranslateIn t (pageAlignDown p) ≠ 0)

theorem userOk_of_wraps (h : UserOkWraps ptr len) : userOk t ptr len = true := by
  obtain ⟨hw, hl⟩ := h
  have hd := toNat_pageAlignDown ptr
  have hne : len ≠ 0 := by bv_omega
  have hc : ¬ (ptr < userBase ∨ userEnd - userBase < len ∨ userEnd < ptr + len) := by bv_omega
  rw [userOk, if_neg hne, dif_neg hc, pagesMapped_iff]
  intro k hk
  bv_omega

theorem userAccess_of_userOk (h : ¬ UserOkWraps ptr len)
    (hok : userOk t ptr len = true) : UserAccess t ptr len := by
  rw [userOk] at hok
  split at hok
  · rename_i hz
    simp only [Bool.and_eq_true, decide_eq_true_eq] at hok
    refine ⟨hok.1, by bv_omega, ?_⟩
    intro a hpa hal
    bv_omega
  · split at hok
    · cases hok
    · rename_i hz hc
      have hr := hc
      simp only [UserOkWraps, not_and] at h
      have hw : ptr.toNat + len.toNat < 2 ^ 64 := by
        by_contra hh
        exact h (by omega) (by bv_omega)
      exact userAccess_of_pagesMapped (by bv_omega) (by bv_omega) hw hok

theorem userRangeOk_of_wraps {p : U64} (h : UserRangeOkWraps t p len) : userRangeOk t p len = true := by
  obtain ⟨hb, hw, he, hm⟩ := h
  have hd := toNat_pageAlignDown p
  have hc : ¬ (p < userBase ∨ userEnd < p + len) := by bv_omega
  rw [userRangeOk, dif_neg hc, pagesMapped_iff]
  intro k hk
  have hs : (p + len).toNat = p.toNat + len.toNat - 2 ^ 64 := by bv_omega
  have hk0 : k = 0 := by have := len.isLt; omega
  subst hk0
  have hlt : pageAlignDown p < p + len := by
    rw [BitVec.lt_def]
    omega
  simpa using hm hlt

theorem userAccess_of_userRangeOk {p : U64} (h : ¬ UserRangeOkWraps t p len)
    (hok : userRangeOk t p len = true) : UserAccess t p len := by
  rw [userRangeOk] at hok
  split at hok
  · cases hok
  rename_i hc
  have hr := hc
  have he : p + len ≤ userEnd := by bv_omega
  have hb : userBase ≤ p := by bv_omega
  have hw : p.toNat + len.toNat < 2 ^ 64 := by
    by_contra hh
    apply h
    refine ⟨hb, by omega, he, ?_⟩
    intro hlt
    have hk := (pagesMapped_iff t _ _ he).mp hok 0 (by bv_omega)
    simpa using hk
  exact userAccess_of_pagesMapped he hb hw hok

/-- Both checks keep their promise on exactly the ranges they do not let wrap. -/
theorem user_checks_sound_iff (t : Pml4) (ptr len : U64) :
    ((userOk t ptr len = true → UserAccess t ptr len) ↔ ¬ UserOkWraps ptr len) ∧
      ((userRangeOk t ptr len = true → UserAccess t ptr len) ↔ ¬ UserRangeOkWraps t ptr len) := by
  constructor
  · constructor
    · intro h hw
      exact not_userAccess_of_wraps hw.1 (h (userOk_of_wraps hw))
    · exact fun h hok => userAccess_of_userOk h hok
  · constructor
    · intro h hw
      exact not_userAccess_of_wraps hw.2.1 (h (userRangeOk_of_wraps hw))
    · exact fun h hok => userAccess_of_userRangeOk h hok

/-- The last page of the address space, which no user owns, passes both checks. -/
theorem user_checks_accept_kernel_page :
    (userOk (Table.empty 3) 0xFFFFFFFFFFFFF000#64 0x1000#64 = true ∧
      ¬ UserAccess (Table.empty 3) 0xFFFFFFFFFFFFF000#64 0x1000#64) ∧
    (userRangeOk (Table.empty 3) 0xFFFFFFFFFFFFF000#64 0x1000#64 = true ∧
      ¬ UserAccess (Table.empty 3) 0xFFFFFFFFFFFFF000#64 0x1000#64) := by
  have hn : ¬ UserAccess (Table.empty 3) 0xFFFFFFFFFFFFF000#64 0x1000#64 :=
    not_userAccess_of_wraps (by decide)
  refine ⟨⟨userOk_of_wraps ⟨by decide, by decide⟩, hn⟩, userRangeOk_of_wraps ?_, hn⟩
  exact ⟨by decide, by decide, by decide, fun h => absurd h (by decide)⟩

end Sic.X86
