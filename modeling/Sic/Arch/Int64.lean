import Mathlib.Tactic.Ring
import Sic.Lib.Word

/-! The 64-bit division that the compiler expects on 32-bit machines (`kernel/lib/int64.c`): one bit of the
quotient a turn, the remainder shifted in the word it is compared in. -/

namespace Sic.Int64

def divTurn (n d : U64) (s : U64 × U64) (i : Nat) : U64 × U64 :=
  let r := s.2 <<< 1 ||| (n >>> i &&& 1)
  if d ≤ r then (s.1 ||| (1 : U64) <<< i, r - d) else (s.1, r)

def divLoop (n d : U64) : Nat → U64 × U64
  | 0 => (0, 0)
  | k + 1 => divTurn n d (divLoop n d k) (63 - k)

def udiv64 (n d : U64) : U64 × U64 := if d = 0 then (0, 0) else divLoop n d 64

def udivdi3 (n d : U64) : U64 := (udiv64 n d).1

def umoddi3 (n d : U64) : U64 := (udiv64 n d).2

def magnitude (n : U64) : U64 := if n.msb then -n else n

def divdi3 (n d : U64) : U64 :=
  let q := (udiv64 (magnitude n) (magnitude d)).1
  if n.msb != d.msb then -q else q

def moddi3 (n d : U64) : U64 :=
  let r := (udiv64 (magnitude n) (magnitude d)).2
  if n.msb then -r else r

/-! ### The loop -/

theorem toNat_shifted {n r : U64} (i : Nat) (hr : r.toNat < 2 ^ 63) :
    (r <<< 1 ||| (n >>> i &&& 1)).toNat = 2 * r.toNat + n.toNat / 2 ^ i % 2 := by
  have hlow : (n >>> i &&& 1).toNat = n.toNat / 2 ^ i % 2 := by
    rw [BitVec.toNat_and, BitVec.toNat_ushiftRight, Nat.shiftRight_eq_div_pow]
    exact Nat.and_one_is_mod _
  have hhigh : (r <<< 1).toNat = 2 ^ 1 * r.toNat := by
    rw [BitVec.toNat_shiftLeft, Nat.shiftLeft_eq, Nat.mod_eq_of_lt (by omega), Nat.mul_comm]
  rw [BitVec.toNat_or, hlow, hhigh, ← Nat.two_pow_add_eq_or_of_lt (Nat.mod_lt _ (by decide))]

theorem toNat_set_bit {q : U64} {i m : Nat} (hi : i < 64) (hq : q.toNat = 2 ^ (i + 1) * m) :
    (q ||| (1 : U64) <<< i).toNat = 2 ^ (i + 1) * m + 2 ^ i := by
  have hbit : ((1 : U64) <<< i).toNat = 2 ^ i := by
    rw [BitVec.toNat_shiftLeft, Nat.shiftLeft_eq]
    change 1 * 2 ^ i % 2 ^ 64 = 2 ^ i
    rw [Nat.one_mul]
    exact Nat.mod_eq_of_lt (Nat.pow_lt_pow_right (by decide) hi)
  rw [BitVec.toNat_or, hbit, hq, ← Nat.two_pow_add_eq_or_of_lt
    (Nat.pow_lt_pow_right (by decide) (Nat.lt_succ_self i))]

theorem divLoop_spec (n d : U64) (hd : d ≠ 0) {k : Nat} (hk : k ≤ 64) :
    (divLoop n d k).1.toNat = 2 ^ (64 - k) * (n.toNat / 2 ^ (64 - k) / d.toNat) ∧
      (divLoop n d k).2.toNat = n.toNat / 2 ^ (64 - k) % d.toNat := by
  have hd' : 0 < d.toNat := Nat.pos_of_ne_zero fun h => hd (BitVec.eq_of_toNat_eq h)
  induction k with
  | zero =>
    have hzero : n.toNat / 2 ^ 64 = 0 := Nat.div_eq_of_lt n.isLt
    rw [Nat.sub_zero, hzero, Nat.zero_div, Nat.zero_mod]
    exact ⟨rfl, rfl⟩
  | succ k ih =>
    obtain ⟨hq, hr⟩ := ih (by omega)
    have hexp : 64 - k = 63 - k + 1 := by omega
    have hexp' : 64 - (k + 1) = 63 - k := by omega
    rw [hexp] at hq hr
    rw [hexp', divLoop, divTurn]
    generalize divLoop n d k = s at hq hr ⊢
    generalize hi : 63 - k = i at *
    have hm : n.toNat / 2 ^ (i + 1) = n.toNat / 2 ^ i / 2 := by rw [Nat.div_div_eq_div_mul, Nat.pow_succ]
    rw [hm] at hq hr
    have hlt : s.2.toNat < 2 ^ 63 := by
      have hle : n.toNat / 2 ^ i ≤ n.toNat := Nat.div_le_self ..
      have hmod : s.2.toNat ≤ n.toNat / 2 ^ i / 2 := hr ▸ Nat.mod_le ..
      have := n.isLt
      omega
    have hshift := toNat_shifted (n := n) i hlt
    rw [hr] at hshift
    generalize n.toNat / 2 ^ i = m at *
    have hsplit := Nat.div_add_mod (m / 2) d.toNat
    have hsmall := Nat.mod_lt (m / 2) hd'
    generalize s.2 <<< 1 ||| (n >>> i &&& 1) = r at hshift ⊢
    generalize m / 2 / d.toNat = Q at hq hsplit
    generalize m / 2 % d.toNat = R at hr hshift hsplit hsmall
    have hm2 : r.toNat + d.toNat * (2 * Q) = m := by
      rw [hshift, Nat.mul_left_comm]
      omega
    split
    · next hle =>
      have hle' : d.toNat ≤ r.toNat := BitVec.le_def.mp hle
      have hsub : (r - d).toNat = r.toNat - d.toNat := BitVec.toNat_sub_of_le hle
      obtain ⟨hdiv, hmod⟩ : m / d.toNat = 2 * Q + 1 ∧ m % d.toNat = r.toNat - d.toNat :=
        (Nat.div_mod_unique hd').mpr ⟨by rw [Nat.mul_succ]; omega, by omega⟩
      refine ⟨?_, hsub.trans hmod.symm⟩
      rw [toNat_set_bit (by omega) hq, hdiv, Nat.pow_succ]
      ring
    · next hlt' =>
      have hlt'' : r.toNat < d.toNat := BitVec.lt_def.mp (BitVec.not_le.mp hlt')
      obtain ⟨hdiv, hmod⟩ : m / d.toNat = 2 * Q ∧ m % d.toNat = r.toNat :=
        (Nat.div_mod_unique hd').mpr ⟨hm2, hlt''⟩
      refine ⟨?_, hmod.symm⟩
      rw [hq, hdiv, Nat.pow_succ]
      ring

theorem udiv64_spec (n d : U64) (hd : d ≠ 0) :
    (udiv64 n d).1.toNat = n.toNat / d.toNat ∧ (udiv64 n d).2.toNat = n.toNat % d.toNat := by
  have h := divLoop_spec n d hd (Nat.le_refl 64)
  rw [Nat.sub_self, Nat.pow_zero, Nat.div_one, Nat.one_mul] at h
  rwa [udiv64, if_neg hd]

/-! ### Signs -/

theorem udiv64_eq (n d : U64) (hd : d ≠ 0) : udiv64 n d = (n.udiv d, n.umod d) := by
  obtain ⟨hq, hr⟩ := udiv64_spec n d hd
  refine Prod.ext (BitVec.eq_of_toNat_eq ?_) (BitVec.eq_of_toNat_eq ?_)
  · exact hq.trans BitVec.toNat_udiv.symm
  · exact hr.trans BitVec.toNat_umod.symm

theorem magnitude_ne_zero {d : U64} (hd : d ≠ 0) : magnitude d ≠ 0 := by
  rw [magnitude]
  split
  · exact fun h => hd (BitVec.neg_eq_zero_iff.mp h)
  · exact hd

theorem divdi3_eq (n d : U64) (hd : d ≠ 0) : divdi3 n d = n.sdiv d := by
  rw [divdi3, udiv64_eq _ _ (magnitude_ne_zero hd), BitVec.sdiv, magnitude, magnitude]
  cases n.msb <;> cases d.msb <;> rfl

theorem moddi3_eq (n d : U64) (hd : d ≠ 0) : moddi3 n d = n.srem d := by
  rw [moddi3, udiv64_eq _ _ (magnitude_ne_zero hd), BitVec.srem, magnitude, magnitude]
  cases n.msb <;> cases d.msb <;> rfl

/-- Division by a nonzero number: no turn shifts a bit out of the remainder, the quotient and the remainder are
those of the numbers, and the signed functions truncate toward zero, modulo `2 ^ 64`. -/
theorem division (n d : U64) (hd : d ≠ 0) :
    (∀ k, k < 64 → 2 * (divLoop n d k).2.toNat + 1 < 2 ^ 64) ∧
    (n.toNat = (udiv64 n d).1.toNat * d.toNat + (udiv64 n d).2.toNat ∧ (udiv64 n d).2 < d) ∧
    (udivdi3 n d = (udiv64 n d).1 ∧ umoddi3 n d = (udiv64 n d).2) ∧
    (divdi3 n d).toInt = (n.toInt.tdiv d.toInt).bmod (2 ^ 64) ∧ (moddi3 n d).toInt = n.toInt.tmod d.toInt := by
  have hd' : 0 < d.toNat := Nat.pos_of_ne_zero fun h => hd (BitVec.eq_of_toNat_eq h)
  obtain ⟨hq, hr⟩ := udiv64_spec n d hd
  refine ⟨fun k hk => ?_, ⟨?_, ?_⟩, ⟨rfl, rfl⟩, ?_, ?_⟩
  · have hrem := (divLoop_spec n d hd (Nat.le_of_lt hk)).2
    have hle : n.toNat / 2 ^ (64 - k) % d.toNat ≤ n.toNat / 2 ^ (64 - k) := Nat.mod_le ..
    have hhalf : n.toNat / 2 ^ (64 - k) ≤ n.toNat / 2 ^ 1 :=
      Nat.div_le_div_left (Nat.pow_le_pow_right (by decide) (by omega)) (by decide)
    have := n.isLt
    omega
  · rw [hq, hr, Nat.mul_comm]
    exact (Nat.div_add_mod ..).symm
  · rw [BitVec.lt_def, hr]
    exact Nat.mod_lt _ hd'
  · rw [divdi3_eq n d hd, BitVec.toInt_sdiv]
  · rw [moddi3_eq n d hd, BitVec.toInt_srem]

theorem division_most_negative :
    (0xFFFFFFFFFFFFFFFF : U64) ≠ 0 ∧
      (divdi3 0x8000000000000000 0xFFFFFFFFFFFFFFFF).toInt = (Int.tdiv (-2 ^ 63) (-1)).bmod (2 ^ 64) :=
  ⟨by decide, (division 0x8000000000000000 0xFFFFFFFFFFFFFFFF (by decide)).2.2.2.1⟩

end Sic.Int64
