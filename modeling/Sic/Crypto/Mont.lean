import Mathlib.Tactic.NormNum.Prime
import Sic.Crypto.Fp
import Sic.Lib.Pocklington

/-! The numbers below `p` in Montgomery form stand for the elements of the field of `p` elements, and the
operations on them for those of the field. -/

namespace Sic.P256

open Sic.Limbs Sic.Pocklington

theorem prime_204061199 : Nat.Prime 204061199 := by
  refine prime_of_test (a := 2) (show [3769, 107].Nodup by decide) (fun q hq => ?_) (by decide +kernel)
  rcases List.mem_cons.mp hq with rfl | hq
  · norm_num
  · rw [List.mem_singleton.mp hq]
    norm_num

theorem prime_46076956964474543 : Nat.Prime 46076956964474543 := by
  refine prime_of_test (a := 2) (show [78283, 704251].Nodup by decide) (fun q hq => ?_) (by decide +kernel)
  rcases List.mem_cons.mp hq with rfl | hq
  · norm_num
  · rw [List.mem_singleton.mp hq]
    norm_num

theorem prime_of_one {n q : Nat} (hq : q.Prime) (h : test n 2 [q]) : n.Prime :=
  prime_of_test (List.nodup_singleton q) (fun _ hr => List.mem_singleton.mp hr ▸ hq) h

theorem prime_774023187263532362759620327192479577272145303 :
    Nat.Prime 774023187263532362759620327192479577272145303 := by
  refine prime_of_test (a := 2) (show [46076956964474543, 34282281433].Nodup by decide) (fun q hq => ?_)
    (by decide +kernel)
  rcases List.mem_cons.mp hq with rfl | hq
  · exact prime_46076956964474543
  · rw [List.mem_singleton.mp hq]
    exact prime_of_one prime_204061199 (by decide +kernel)

theorem prime_prime : Nat.Prime prime := by
  have h : Nat.Prime 835945042244614951780389953367877943453916927241 :=
    prime_of_one prime_774023187263532362759620327192479577272145303 (by decide +kernel)
  exact prime_of_one h (by decide +kernel)

instance fact_prime : Fact (Nat.Prime prime) := ⟨prime_prime⟩

/-! ### The field -/

def Red : Type := { a : Fe // a.value < prime }

def Red.mul (a b : Red) : Red := ⟨montFe a.1 b.1, (montFe_value b.2).1⟩

def Red.add (a b : Red) : Red := ⟨addFe a.1 b.1, addFe_value a.2 b.2 ▸ Nat.mod_lt _ prime_prime.pos⟩

def Red.sub (a b : Red) : Red := ⟨subFe a.1 b.1, subFe_value a.2 b.2 ▸ Nat.mod_lt _ prime_prime.pos⟩

def toZ (a : Red) : ZMod prime := a.1.value * (2 ^ 256)⁻¹

theorem natCast_ne_zero {n : Nat} (h0 : 0 < n) (h : n < prime) : (n : ZMod prime) ≠ 0 := fun hz =>
  absurd (Nat.le_of_dvd h0 ((ZMod.natCast_eq_zero_iff _ _).mp hz)) (Nat.not_le.mpr h)

theorem two_ne_zero' : (2 : ZMod prime) ≠ 0 := natCast_ne_zero (n := 2) (by decide) (by decide)

theorem radix_ne_zero : (2 ^ 256 : ZMod prime) ≠ 0 := pow_ne_zero 256 two_ne_zero'

theorem mont_cast {a b : Fe} (hb : b.value < prime) :
    ((montFe a b).value : ZMod prime) * 2 ^ 256 = a.value * b.value := by
  have h := (ZMod.natCast_eq_natCast_iff _ _ _).mpr (montFe_modEq (a := a) hb)
  rwa [Nat.cast_mul, Nat.cast_mul, Nat.cast_pow, Nat.cast_ofNat] at h

theorem toZ_mul (a b : Red) : toZ (a.mul b) = toZ a * toZ b := by
  have h := mont_cast (a := a.1) b.2
  simp only [toZ, Red.mul]
  rw [(eq_mul_inv_iff_mul_eq₀ radix_ne_zero).mpr h]
  ring

theorem toZ_add (a b : Red) : toZ (a.add b) = toZ a + toZ b := by
  simp only [toZ, Red.add, addFe_value a.2 b.2, ZMod.natCast_mod, Nat.cast_add]
  ring

theorem toZ_sub (a b : Red) : toZ (a.sub b) = toZ a - toZ b := by
  simp only [toZ, Red.sub, subFe_value a.2 b.2, ZMod.natCast_mod]
  rw [Nat.cast_sub (Nat.le_add_left_of_le b.2.le), Nat.cast_add, ZMod.natCast_self]
  ring

def feIsZero (a : Fe) : Bool := a.limbs.foldl (· ||| ·) 0 = 0

theorem foldl_or_eq_zero (x : U32) (xs : List U32) : xs.foldl (· ||| ·) x = 0 ↔ x = 0 ∧ value xs = 0 := by
  induction xs generalizing x with
  | nil => exact ⟨fun h => ⟨h, rfl⟩, fun h => h.1⟩
  | cons y xs ih =>
    have hy : y = 0 ↔ y.toNat = 0 := BitVec.toNat_inj.symm
    have hor : x ||| y = 0 ↔ x = 0 ∧ y = 0 := BitVec.or_eq_zero_iff
    rw [List.foldl_cons, ih, hor, hy, value, Nat.add_eq_zero_iff, mul_eq_zero, or_iff_right (by decide),
      and_assoc]

theorem feIsZero_iff (a : Red) : feIsZero a.1 = true ↔ toZ a = 0 := by
  rw [feIsZero, decide_eq_true_eq, foldl_or_eq_zero, toZ, mul_eq_zero, or_iff_left (inv_ne_zero radix_ne_zero),
    ZMod.natCast_eq_zero_iff]
  constructor
  · rintro ⟨_, h⟩
    rw [Fe.value, h]
    exact dvd_zero _
  · intro h
    exact ⟨rfl, Nat.eq_zero_of_dvd_of_lt h a.2⟩

/-! ### The constants -/

def oneFe : Red := ⟨⟨[1, 0, 0, 0, 0, 0, 0, 0], rfl⟩, by decide⟩

def zeroFe : Red := ⟨⟨[0, 0, 0, 0, 0, 0, 0, 0], rfl⟩, by decide⟩

def r2 : Red := (List.range 512).foldl (fun r _ => r.add r) oneFe

theorem doublings_cast (n : Nat) :
    (((List.range n).foldl (fun r _ => r.add r) oneFe : Red).1.value : ZMod prime) = 2 ^ n := by
  induction n with
  | zero => exact (Nat.cast_one).trans (pow_zero _).symm
  | succ n ih =>
    rw [List.range_succ, List.foldl_append, List.foldl_cons, List.foldl_nil, pow_succ, ← ih]
    generalize (List.range n).foldl (fun r _ => r.add r) oneFe = r
    simp only [Red.add, addFe_value r.2 r.2, ZMod.natCast_mod, Nat.cast_add]
    ring

theorem r2_cast : (r2.1.value : ZMod prime) = 2 ^ 256 * 2 ^ 256 := (doublings_cast 512).trans (pow_add 2 256 256)

def toMont (a : Fe) : Red := ⟨montFe a r2.1, (montFe_value r2.2).1⟩

theorem toZ_toMont (a : Fe) : toZ (toMont a) = a.value := by
  have h := mont_cast (a := a) r2.2
  have hr := radix_ne_zero
  rw [r2_cast] at h
  rw [toZ, toMont]
  dsimp only
  generalize (2 ^ 256 : ZMod prime) = r at h hr ⊢
  generalize ((montFe a r2.1).value : ZMod prime) = x at h ⊢
  rw [mul_inv_eq_iff_eq_mul₀ hr]
  exact mul_right_cancel₀ hr (h.trans (mul_assoc _ r r).symm)

def fromMont (a : Red) : Red := a.mul oneFe

theorem fromMont_value (a : Red) : (fromMont a).1.value = (toZ a).val := by
  have h : ((fromMont a).1.value : ZMod prime) = toZ a := by
    have hm := mont_cast (a := a.1) oneFe.2
    rw [show oneFe.1.value = 1 from rfl, Nat.cast_one, mul_one] at hm
    exact (eq_mul_inv_iff_mul_eq₀ radix_ne_zero).mpr hm
  rw [← h, ZMod.val_cast_of_lt (fromMont a).2]

def oneM : Red := toMont oneFe.1

theorem toZ_oneM : toZ oneM = 1 := (toZ_toMont _).trans Nat.cast_one

theorem toZ_zeroFe : toZ zeroFe = 0 := (feIsZero_iff zeroFe).mp rfl

/-! ### Powers -/

def ofBits (bs : List Bool) (n : Nat) : Nat := bs.foldl (fun n b => 2 * n + b.toNat) n

theorem ofBits_eq (bs : List Bool) (n : Nat) : ofBits bs n = 2 ^ bs.length * n + ofBits bs 0 := by
  induction bs generalizing n with
  | nil => rw [ofBits, ofBits, List.foldl_nil, List.foldl_nil, List.length_nil, pow_zero, one_mul, add_zero]
  | cons b bs ih =>
    rw [ofBits, ofBits, List.foldl_cons, List.foldl_cons]
    change ofBits bs _ = _ + ofBits bs _
    rw [ih, ih (2 * 0 + _), List.length_cons, pow_succ]
    ring

theorem double_and_add {S : Type*} {R : S → Nat → Prop} {double add : S → S}
    (hdouble : ∀ {s n}, R s n → R (double s) (2 * n))
    (hadd : ∀ {s n}, R s n → R (add s) (n + 1)) (bs : List Bool) {s : S} {n : Nat} (h : R s n) :
    R (bs.foldl (fun s b => if b then add (double s) else double s) s) (ofBits bs n) := by
  induction bs generalizing s n with
  | nil => exact h
  | cons b bs ih =>
    cases b with
    | false => exact ih (hdouble h)
    | true => exact ih (hadd (hdouble h))

def expBit (e : Fe) (i : Nat) : Bool := e.limbs.getD (i / 32) 0 >>> (i % 32) &&& 1 ≠ 0

def expBits (e : Fe) : List Bool := (List.range 256).reverse.map (expBit e)

def montPow (base : Red) (e : Fe) : Red :=
  (expBits e).foldl (fun r b => if b then (r.mul r).mul base else r.mul r) oneM

theorem toZ_montPow (base : Red) (e : Fe) : toZ (montPow base e) = toZ base ^ ofBits (expBits e) 0 := by
  have hsquare : ∀ {r n}, toZ r = toZ base ^ n → toZ (r.mul r) = toZ base ^ (2 * n) := by
    intro r n h
    rw [toZ_mul, h, two_mul, pow_add]
  have hmul : ∀ {r n}, toZ r = toZ base ^ n → toZ (r.mul base) = toZ base ^ (n + 1) := by
    intro r n h
    rw [toZ_mul, h, pow_succ]
  have hone : toZ oneM = toZ base ^ 0 := by rw [toZ_oneM, pow_zero]
  rw [montPow]
  exact double_and_add (R := fun r n => toZ r = toZ base ^ n) hsquare hmul (expBits e) hone

def peInv : Fe := ⟨p256.modifyHead (· - 2), rfl⟩

theorem ofBits_peInv : ofBits (expBits peInv) 0 = prime - 2 := by decide +kernel

def montInv (a : Red) : Red := montPow a peInv

theorem toZ_montInv {a : Red} (ha : toZ a ≠ 0) : toZ (montInv a) = (toZ a)⁻¹ := by
  rw [montInv, toZ_montPow, ofBits_peInv]
  refine eq_inv_of_mul_eq_one_left ?_
  rw [← pow_succ, show prime - 2 + 1 = prime - 1 by decide]
  exact ZMod.pow_card_sub_one_eq_one ha

/-! ### Numbers in bytes -/

def be (b : Nat → U8) : Nat → Nat
  | 0 => 0
  | n + 1 => 256 * be b n + (b n).toNat

def word (b : Nat → U8) (i : Nat) : U32 :=
  (b i).setWidth 32 <<< 24 ||| (b (i + 1)).setWidth 32 <<< 16 ||| (b (i + 2)).setWidth 32 <<< 8 |||
    (b (i + 3)).setWidth 32

theorem toNat_word (b : Nat → U8) (i : Nat) : (word b i).toNat =
    256 * (256 * (256 * (b i).toNat + (b (i + 1)).toNat) + (b (i + 2)).toNat) + (b (i + 3)).toNat := by
  have h₀ := (b i).isLt
  have h₁ := (b (i + 1)).isLt
  have h₂ := (b (i + 2)).isLt
  have h₃ := (b (i + 3)).isLt
  simp only [word, BitVec.toNat_or, BitVec.toNat_shiftLeft, BitVec.toNat_setWidth, Nat.shiftLeft_eq]
  generalize (b i).toNat = w, (b (i + 1)).toNat = x, (b (i + 2)).toNat = y, (b (i + 3)).toNat = z at *
  rw [show w % 2 ^ 32 * 2 ^ 24 % 2 ^ 32 = 2 ^ 24 * w by omega, ← Nat.two_pow_add_eq_or_of_lt (by omega),
    show 2 ^ 24 * w + x % 2 ^ 32 * 2 ^ 16 % 2 ^ 32 = 2 ^ 16 * (256 * w + x) by omega,
    ← Nat.two_pow_add_eq_or_of_lt (by omega),
    show 2 ^ 16 * (256 * w + x) + y % 2 ^ 32 * 2 ^ 8 % 2 ^ 32 = 2 ^ 8 * (256 * (256 * w + x) + y) by omega,
    ← Nat.two_pow_add_eq_or_of_lt (by omega)]
  omega

def words (b : Nat → U8) : Nat → List U32
  | 0 => []
  | k + 1 => word b (4 * k) :: words b k

theorem words_length (b : Nat → U8) (k : Nat) : (words b k).length = k := by
  induction k with
  | zero => rfl
  | succ k ih => rw [words, List.length_cons, ih]

theorem value_words (b : Nat → U8) (k : Nat) : value (words b k) = be b (4 * k) := by
  induction k with
  | zero => rfl
  | succ k ih =>
    rw [words, value, ih, toNat_word, show 4 * (k + 1) = 4 * k + 3 + 1 by ring]
    simp only [be]
    ring

def feFromBe (b : Nat → U8) : Fe := ⟨words b 8, words_length b 8⟩

theorem feFromBe_value (b : Nat → U8) : (feFromBe b).value = be b 32 := value_words b 8

def feToBe (r : Fe) (i : Nat) : U8 := (r.limbs.getD (7 - i / 4) 0 >>> (24 - 8 * (i % 4))).setWidth 8

theorem word_feToBe (r : Fe) (k : Nat) : word (feToBe r) (4 * k) = r.limbs.getD (7 - k) 0 := by
  apply BitVec.eq_of_toNat_eq
  rw [toNat_word]
  simp only [feToBe, BitVec.toNat_setWidth, BitVec.toNat_ushiftRight, Nat.shiftRight_eq_div_pow]
  rw [show 4 * k / 4 = k by omega, show (4 * k + 1) / 4 = k by omega, show (4 * k + 2) / 4 = k by omega,
    show (4 * k + 3) / 4 = k by omega, show 4 * k % 4 = 0 by omega, show (4 * k + 1) % 4 = 1 by omega,
    show (4 * k + 2) % 4 = 2 by omega, show (4 * k + 3) % 4 = 3 by omega]
  have hlt := (r.limbs.getD (7 - k) 0).isLt
  omega

theorem words_eq {b : Nat → U8} {xs : List U32}
    (h : ∀ k < xs.length, word b (4 * k) = xs.getD (xs.length - 1 - k) 0) :
    words b xs.length = xs := by
  induction xs with
  | nil => rfl
  | cons x xs ih =>
    have hhead := h xs.length (Nat.lt_succ_self _)
    rw [List.length_cons, Nat.add_sub_cancel, Nat.sub_self, List.getD_cons_zero] at hhead
    rw [List.length_cons, words, hhead, ih]
    intro k hk
    rw [h k (Nat.lt_succ_of_lt hk), List.length_cons, show xs.length + 1 - 1 - k = xs.length - 1 - k + 1 by omega,
      List.getD_cons_succ]

theorem be_feToBe (r : Fe) : be (feToBe r) 32 = r.value := by
  have hlen := r.length_eq
  have h : words (feToBe r) r.limbs.length = r.limbs := words_eq fun k _ => by rw [word_feToBe, hlen]
  rw [hlen] at h
  rw [← feFromBe_value]
  exact congrArg value h

end Sic.P256
