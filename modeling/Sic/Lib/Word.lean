import Mathlib.Data.BitVec

/-! Machine words and their alignment to pages. The bit masks of a C program
become arithmetic on the numbers the words stand for. -/

namespace Sic

abbrev U64 := BitVec 64

abbrev U32 := BitVec 32

abbrev U8 := BitVec 8

def pageAlignDown (x : U64) : U64 := x &&& ~~~0xFFF#64

/-- `(x + 0xFFF) & ~0xFFF`, the addition wrapping at 64 bits. -/
def pageAlignUp (x : U64) : U64 := pageAlignDown (x + 0xFFF#64)

theorem getLsbD_pageMask (i : Nat) : (0xFFF#64).getLsbD i = decide (i < 12) := by
  have h := Nat.testBit_two_pow_sub_one 12 i
  simp only [BitVec.getLsbD_ofNat]
  by_cases hi : i < 64
  · simpa [hi] using h
  · simp [hi]
    omega

theorem pageAlignDown_eq_shift (x : U64) : pageAlignDown x = (x >>> 12) <<< 12 := by
  apply BitVec.eq_of_getLsbD_eq
  intro i hi
  simp only [pageAlignDown, BitVec.getLsbD_and, BitVec.getLsbD_not, BitVec.getLsbD_shiftLeft,
    BitVec.getLsbD_ushiftRight, getLsbD_pageMask, hi]
  by_cases h : i < 12
  · simp [h]
  · simp [h, show 12 + (i - 12) = i by omega]

theorem toNat_pageAlignDown (x : U64) : (pageAlignDown x).toNat = x.toNat / 4096 * 4096 := by
  rw [pageAlignDown_eq_shift]
  simp only [BitVec.toNat_shiftLeft, BitVec.toNat_ushiftRight, Nat.shiftLeft_eq,
    Nat.shiftRight_eq_div_pow]
  have := x.isLt
  omega

theorem toNat_pageAlignUp (x : U64) :
    (pageAlignUp x).toNat = (x.toNat + 4095) % 2 ^ 64 / 4096 * 4096 := by
  rw [pageAlignUp, toNat_pageAlignDown]
  simp [BitVec.toNat_add]

theorem toNat_pageAlignUp_of_lt {x : U64} (h : x.toNat + 4095 < 2 ^ 64) :
    (pageAlignUp x).toNat = (x.toNat + 4095) / 4096 * 4096 := by
  rw [toNat_pageAlignUp, Nat.mod_eq_of_lt h]

/-- The only lengths that round to no page at all are zero and those within
a page of the end of the number range. -/
theorem pageAlignUp_eq_zero_iff (x : U64) :
    (pageAlignUp x).toNat = 0 ↔ x.toNat = 0 ∨ 2 ^ 64 - 4096 < x.toNat := by
  rw [toNat_pageAlignUp]
  have := x.isLt
  omega

/-! ### Bytes of a number -/

/-- The last `n` digits of `x` to the base 256, the most significant first. -/
def octets (n x : Nat) : List U8 := (List.range n).map fun i => BitVec.ofNat 8 (x / 256 ^ (n - 1 - i))

theorem octets_length (n x : Nat) : (octets n x).length = n := by rw [octets, List.length_map, List.length_range]

theorem octets_mod (n x : Nat) : octets n (x % 256 ^ n) = octets n x := by
  refine List.map_congr_left fun i hi => BitVec.eq_of_toNat_eq ?_
  have hpow : 256 ^ n = 256 ^ (n - 1 - i) * 256 ^ (i + 1) := by
    rw [← Nat.pow_add]
    have := List.mem_range.mp hi
    congr 1
    omega
  rw [BitVec.toNat_ofNat, BitVec.toNat_ofNat, hpow, Nat.mod_mul_right_div_self]
  exact Nat.mod_mod_of_dvd _ (Dvd.intro_left (256 ^ i) rfl)

theorem map_shift_eq_octets {w : Nat} (n : Nat) (x : BitVec w) :
    (List.range n).map (fun i => (x >>> (8 * (n - 1) - 8 * i)).setWidth 8) = octets n x.toNat := by
  refine List.map_congr_left fun i _ => BitVec.eq_of_toNat_eq ?_
  rw [BitVec.toNat_setWidth, BitVec.toNat_ushiftRight, BitVec.toNat_ofNat, Nat.shiftRight_eq_div_pow,
    ← Nat.mul_sub, Nat.pow_mul]

end Sic
