import Sic.Lib.Word

/-! Little-endian fields and single bits in an array of bytes. -/

namespace Sic

def leGet (b : Nat → U8) (off : Nat) : Nat → Nat
  | 0 => 0
  | n + 1 => (b off).toNat + 256 * leGet b (off + 1) n

def lePut (b : Nat → U8) (off n x : Nat) : Nat → U8 :=
  fun k => if off ≤ k ∧ k < off + n then BitVec.ofNat 8 (x / 256 ^ (k - off)) else b k

variable {b b' : Nat → U8}

theorem leGet_congr {off n : Nat} (h : ∀ k, off ≤ k → k < off + n → b k = b' k) :
    leGet b off n = leGet b' off n := by
  induction n generalizing off with
  | zero => rfl
  | succ n ih =>
    rw [leGet, leGet, h off (by omega) (by omega), ih fun k h₁ h₂ => h k (by omega) (by omega)]

theorem leGet_shift {off off' n : Nat} (hb : ∀ k, k < n → b' (off' + k) = b (off + k)) :
    leGet b' off' n = leGet b off n := by
  induction n generalizing off off' with
  | zero => rfl
  | succ n ih =>
    have htail : leGet b' (off' + 1) n = leGet b (off + 1) n := ih fun k hk => by
      have := hb (k + 1) (by omega)
      rwa [Nat.add_assoc, Nat.add_assoc, Nat.add_comm 1 k]
    have hhead : b' off' = b off := hb 0 (Nat.succ_pos n)
    rw [leGet, leGet, htail, hhead]

theorem leGet_lt (b : Nat → U8) (off n : Nat) : leGet b off n < 256 ^ n := by
  induction n generalizing off with
  | zero => simp [leGet]
  | succ n ih =>
    have := ih (off + 1)
    have := (b off).isLt
    rw [leGet, Nat.pow_succ]
    omega

theorem leGet_lePut (b : Nat → U8) (off n x : Nat) : leGet (lePut b off n x) off n = x % 256 ^ n := by
  induction n generalizing b off x with
  | zero => simp [leGet, Nat.mod_one]
  | succ n ih =>
    have htail : leGet (lePut b off (n + 1) x) (off + 1) n =
      leGet (lePut b (off + 1) n (x / 256)) (off + 1) n := by
      refine leGet_congr fun k h₁ h₂ => ?_
      have hk : k - off = k - (off + 1) + 1 := by omega
      rw [lePut, lePut, if_pos (by omega), if_pos (by omega), hk, Nat.pow_succ', Nat.div_div_eq_div_mul]
    have hsplit : x % 256 ^ (n + 1) = x % 256 + 256 * (x / 256 % 256 ^ n) := by
      rw [Nat.pow_succ', Nat.mod_mul]
    rw [leGet, htail, ih, lePut, if_pos (by omega), Nat.sub_self, Nat.pow_zero, Nat.div_one,
      BitVec.toNat_ofNat, hsplit]

theorem leGet_lePut_of_apart (b : Nat → U8) {off n off' m : Nat} (x : Nat)
    (h : off' + m ≤ off ∨ off + n ≤ off') : leGet (lePut b off n x) off' m = leGet b off' m :=
  leGet_congr fun k h₁ h₂ => by rw [lePut, if_neg (by omega)]

def testBit (b : Nat → U8) (i : Nat) : Bool := (b (i / 8)).getLsbD (i % 8)

def setBit (b : Nat → U8) (i : Nat) : Nat → U8 :=
  Function.update b (i / 8) (b (i / 8) ||| 1#8 <<< (i % 8))

end Sic
