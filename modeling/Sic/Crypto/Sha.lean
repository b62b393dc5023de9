import Sic.Lib.BlockHash

/-! SHA-1 and SHA-256: the block functions of the source and those of FIPS 180-4. -/

namespace Sic.Sha

open Sic.BlockHash

def rol (v : U32) (n : Nat) : U32 := v <<< n ||| v >>> (32 - n)

def ror (v : U32) (n : Nat) : U32 := v >>> n ||| v <<< (32 - n)

def word (p : List U8) (i : Nat) : U32 :=
  (p.getD (4 * i) 0).setWidth 32 <<< 24 ||| (p.getD (4 * i + 1) 0).setWidth 32 <<< 16 |||
    (p.getD (4 * i + 2) 0).setWidth 32 <<< 8 ||| (p.getD (4 * i + 3) 0).setWidth 32

def outBytes (h : List U32) : List U8 :=
  (List.range (4 * h.length)).map fun i => (h.getD (i / 4) 0 >>> (24 - 8 * (i % 4))).setWidth 8

def extend (next : List U32 → Nat → U32) (n : Nat) (p : List U8) : List U32 :=
  (List.range' 16 n).foldl (fun w i => w ++ [next w i]) ((List.range 16).map (word p))

/-! ### SHA-1 -/

structure Sha1State where
  a : U32
  b : U32
  c : U32
  d : U32
  e : U32

def sha1Next (w : List U32) (i : Nat) : U32 :=
  rol (w.getD (i - 3) 0 ^^^ w.getD (i - 8) 0 ^^^ w.getD (i - 14) 0 ^^^ w.getD (i - 16) 0) 1

def sha1Round (w : List U32) (s : Sha1State) (i : Nat) : Sha1State :=
  let fk : U32 × U32 :=
    if i < 20 then ((s.b &&& s.c) ||| (~~~s.b &&& s.d), 0x5a827999)
    else if i < 40 then (s.b ^^^ s.c ^^^ s.d, 0x6ed9eba1)
    else if i < 60 then ((s.b &&& s.c) ||| (s.b &&& s.d) ||| (s.c &&& s.d), 0x8f1bbcdc)
    else (s.b ^^^ s.c ^^^ s.d, 0xca62c1d6)
  let t := rol s.a 5 + fk.1 + s.e + fk.2 + w.getD i 0
  ⟨t, s.a, rol s.b 30, s.c, s.d⟩

def sha1Block (h : Sha1State) (p : List U8) : Sha1State :=
  let s := (List.range 80).foldl (sha1Round (extend sha1Next 64 p)) h
  ⟨h.a + s.a, h.b + s.b, h.c + s.c, h.d + s.d, h.e + s.e⟩

def sha1 : Alg Sha1State :=
  ⟨⟨0x67452301, 0xefcdab89, 0x98badcfe, 0x10325476, 0xc3d2e1f0⟩, sha1Block,
    fun h => outBytes [h.a, h.b, h.c, h.d, h.e]⟩

/-! ### SHA-256 -/

structure Sha256State where
  a : U32
  b : U32
  c : U32
  d : U32
  e : U32
  f : U32
  g : U32
  h : U32

def sha256K : List U32 := [
  0x428a2f98, 0x71374491, 0xb5c0fbcf, 0xe9b5dba5, 0x3956c25b, 0x59f111f1, 0x923f82a4, 0xab1c5ed5,
  0xd807aa98, 0x12835b01, 0x243185be, 0x550c7dc3, 0x72be5d74, 0x80deb1fe, 0x9bdc06a7, 0xc19bf174,
  0xe49b69c1, 0xefbe4786, 0x0fc19dc6, 0x240ca1cc, 0x2de92c6f, 0x4a7484aa, 0x5cb0a9dc, 0x76f988da,
  0x983e5152, 0xa831c66d, 0xb00327c8, 0xbf597fc7, 0xc6e00bf3, 0xd5a79147, 0x06ca6351, 0x14292967,
  0x27b70a85, 0x2e1b2138, 0x4d2c6dfc, 0x53380d13, 0x650a7354, 0x766a0abb, 0x81c2c92e, 0x92722c85,
  0xa2bfe8a1, 0xa81a664b, 0xc24b8b70, 0xc76c51a3, 0xd192e819, 0xd6990624, 0xf40e3585, 0x106aa070,
  0x19a4c116, 0x1e376c08, 0x2748774c, 0x34b0bcb5, 0x391c0cb3, 0x4ed8aa4a, 0x5b9cca4f, 0x682e6ff3,
  0x748f82ee, 0x78a5636f, 0x84c87814, 0x8cc70208, 0x90befffa, 0xa4506ceb, 0xbef9a3f7, 0xc67178f2]

def sha256Next (w : List U32) (i : Nat) : U32 :=
  let s0 := ror (w.getD (i - 15) 0) 7 ^^^ ror (w.getD (i - 15) 0) 18 ^^^ w.getD (i - 15) 0 >>> 3
  let s1 := ror (w.getD (i - 2) 0) 17 ^^^ ror (w.getD (i - 2) 0) 19 ^^^ w.getD (i - 2) 0 >>> 10
  w.getD (i - 16) 0 + s0 + w.getD (i - 7) 0 + s1

def sha256Round (w : List U32) (s : Sha256State) (i : Nat) : Sha256State :=
  let s1 := ror s.e 6 ^^^ ror s.e 11 ^^^ ror s.e 25
  let ch := (s.e &&& s.f) ^^^ (~~~s.e &&& s.g)
  let t1 := s.h + s1 + ch + sha256K.getD i 0 + w.getD i 0
  let s0 := ror s.a 2 ^^^ ror s.a 13 ^^^ ror s.a 22
  let maj := (s.a &&& s.b) ^^^ (s.a &&& s.c) ^^^ (s.b &&& s.c)
  let t2 := s0 + maj
  ⟨t1 + t2, s.a, s.b, s.c, s.d + t1, s.e, s.f, s.g⟩

def sha256Block (h : Sha256State) (p : List U8) : Sha256State :=
  let s := (List.range 64).foldl (sha256Round (extend sha256Next 48 p)) h
  ⟨h.a + s.a, h.b + s.b, h.c + s.c, h.d + s.d, h.e + s.e, h.f + s.f, h.g + s.g, h.h + s.h⟩

def sha256 : Alg Sha256State :=
  ⟨⟨0x6a09e667, 0xbb67ae85, 0x3c6ef372, 0xa54ff53a, 0x510e527f, 0x9b05688c, 0x1f83d9ab, 0x5be0cd19⟩, sha256Block,
    fun h => outBytes [h.a, h.b, h.c, h.d, h.e, h.f, h.g, h.h]⟩

/-! ### FIPS 180-4 -/

namespace Fips

def m (p : List U8) (t : Nat) : U32 :=
  p.getD (4 * t) 0 ++ p.getD (4 * t + 1) 0 ++ p.getD (4 * t + 2) 0 ++ p.getD (4 * t + 3) 0

def ch (x y z : U32) : U32 := (x &&& y) ^^^ (~~~x &&& z)

def parity (x y z : U32) : U32 := x ^^^ y ^^^ z

def maj (x y z : U32) : U32 := (x &&& y) ^^^ (x &&& z) ^^^ (y &&& z)

/-- Section 4.1.1. -/
def f (t : Nat) : U32 → U32 → U32 → U32 :=
  if t < 20 then ch else if t < 40 then parity else if t < 60 then maj else parity

/-- Section 4.2.1. -/
def k (t : Nat) : U32 :=
  if t < 20 then 0x5a827999 else if t < 40 then 0x6ed9eba1 else if t < 60 then 0x8f1bbcdc else 0xca62c1d6

def sha1W (m : Nat → U32) (t : Nat) : U32 :=
  if t < 16 then m t
  else (sha1W m (t - 3) ^^^ sha1W m (t - 8) ^^^ sha1W m (t - 14) ^^^ sha1W m (t - 16)).rotateLeft 1
termination_by t
decreasing_by all_goals omega

def sha1Step (m : Nat → U32) (s : Sha1State) (t : Nat) : Sha1State :=
  ⟨s.a.rotateLeft 5 + f t s.b s.c s.d + s.e + k t + sha1W m t, s.a, s.b.rotateLeft 30, s.c, s.d⟩

/-- Section 6.1.2. -/
def sha1Block (h : Sha1State) (p : List U8) : Sha1State :=
  let s := (List.range 80).foldl (sha1Step (m p)) h
  ⟨s.a + h.a, s.b + h.b, s.c + h.c, s.d + h.d, s.e + h.e⟩

def bytes (h : List U32) : List U8 := h.flatMap fun x => octets 4 x.toNat

/-- Section 5.3.1 and the end of 6.1.2. -/
def sha1 : Alg Sha1State where
  iv := ⟨0x67452301, 0xefcdab89, 0x98badcfe, 0x10325476, 0xc3d2e1f0⟩
  block := sha1Block
  bytes h := bytes [h.a, h.b, h.c, h.d, h.e]

def primes (n : Nat) : List Nat :=
  (List.range n).filter fun p => 2 ≤ p && (List.range p).all fun d => d < 2 || p % d ≠ 0

/-- The largest number whose power `e` is at most `n`, for results of at most 40 bits. -/
def root (e n : Nat) : Nat := (List.range 40).reverse.foldl
    (fun r b => if (r + 2 ^ b) ^ e ≤ n then r + 2 ^ b else r) 0

/-- The first 32 bits of the fractional parts of the cube roots of the first 64 primes. -/
def k256 : List U32 := (primes 312).map fun p => BitVec.ofNat 32 (root 3 (p * 2 ^ 96))

/-- The first 32 bits of the fractional parts of the square roots of the first eight primes. -/
def iv256 : List U32 := (primes 20).map fun p => BitVec.ofNat 32 (root 2 (p * 2 ^ 64))

def bigSigma0 (x : U32) : U32 := x.rotateRight 2 ^^^ x.rotateRight 13 ^^^ x.rotateRight 22

def bigSigma1 (x : U32) : U32 := x.rotateRight 6 ^^^ x.rotateRight 11 ^^^ x.rotateRight 25

def sigma0 (x : U32) : U32 := x.rotateRight 7 ^^^ x.rotateRight 18 ^^^ x >>> 3

def sigma1 (x : U32) : U32 := x.rotateRight 17 ^^^ x.rotateRight 19 ^^^ x >>> 10

def sha256W (m : Nat → U32) (t : Nat) : U32 :=
  if t < 16 then m t
  else sigma1 (sha256W m (t - 2)) + sha256W m (t - 7) + sigma0 (sha256W m (t - 15)) + sha256W m (t - 16)
termination_by t
decreasing_by all_goals omega

def sha256Step (m : Nat → U32) (s : Sha256State) (t : Nat) : Sha256State :=
  let t1 := s.h + bigSigma1 s.e + ch s.e s.f s.g + k256.getD t 0 + sha256W m t
  let t2 := bigSigma0 s.a + maj s.a s.b s.c
  ⟨t1 + t2, s.a, s.b, s.c, s.d + t1, s.e, s.f, s.g⟩

/-- Section 6.2.2. -/
def sha256Block (h : Sha256State) (p : List U8) : Sha256State :=
  let s := (List.range 64).foldl (sha256Step (m p)) h
  ⟨s.a + h.a, s.b + h.b, s.c + h.c, s.d + h.d, s.e + h.e, s.f + h.f, s.g + h.g, s.h + h.h⟩

def sha256 : Alg Sha256State where
  iv := ⟨iv256.getD 0 0, iv256.getD 1 0, iv256.getD 2 0, iv256.getD 3 0, iv256.getD 4 0, iv256.getD 5 0,
    iv256.getD 6 0, iv256.getD 7 0⟩
  block := sha256Block
  bytes h := bytes [h.a, h.b, h.c, h.d, h.e, h.f, h.g, h.h]

end Fips

/-! ### The hashes agree -/

theorem append_bytes (a b c d : U8) : a.setWidth 32 <<< 24 ||| b.setWidth 32 <<< 16 ||| c.setWidth 32 <<< 8 |||
    d.setWidth 32 = a ++ b ++ c ++ d := by
  refine BitVec.eq_of_getLsbD_eq fun i hi => ?_
  simp only [BitVec.getLsbD_or, BitVec.getLsbD_shiftLeft, BitVec.getLsbD_setWidth, BitVec.getLsbD_append, hi,
    decide_true]
  grind

theorem word_eq (p : List U8) : word p = Fips.m p := funext fun _ => append_bytes _ _ _ _

theorem outBytes_eq (h : List U32) : outBytes h = Fips.bytes h := by
  induction h with
  | nil => rfl
  | cons x h ih =>
    rw [Fips.bytes, List.flatMap_cons, ← Fips.bytes, ← ih, outBytes, List.length_cons, Nat.mul_succ, Nat.add_comm,
      List.range_add, List.map_append, List.map_map]
    congr 1
    · rw [← map_shift_eq_octets]
      rfl
    · refine List.map_congr_left fun i _ => ?_
      simp [Nat.add_div_left]

theorem ch_eq (x y z : U32) : (x &&& y) ||| (~~~x &&& z) = Fips.ch x y z := by
  refine BitVec.eq_of_getLsbD_eq fun i hi => ?_
  simp only [Fips.ch, BitVec.getLsbD_or, BitVec.getLsbD_xor, BitVec.getLsbD_and, BitVec.getLsbD_not, hi,
    decide_true]
  cases x.getLsbD i <;> cases y.getLsbD i <;> cases z.getLsbD i <;> rfl

theorem maj_eq (x y z : U32) : (x &&& y) ||| (x &&& z) ||| (y &&& z) = Fips.maj x y z := by
  refine BitVec.eq_of_getLsbD_eq fun i _ => ?_
  simp only [Fips.maj, BitVec.getLsbD_or, BitVec.getLsbD_xor, BitVec.getLsbD_and]
  cases x.getLsbD i <;> cases y.getLsbD i <;> cases z.getLsbD i <;> rfl

theorem getD_table (W : Nat → U32) {n j : Nat} (h : j < n) : ((List.range n).map W).getD j 0 = W j := by
  simp [h]

theorem extend_eq {next : List U32 → Nat → U32} {W : Nat → U32} {p : List U8} (hfirst : ∀ i < 16, word p i = W i)
    (hnext : ∀ i, 16 ≤ i → next ((List.range i).map W) i = W i) (n : Nat) :
    extend next n p = (List.range (16 + n)).map W := by
  induction n with
  | zero => exact List.map_congr_left fun i hi => hfirst i (List.mem_range.mp hi)
  | succ n ih =>
    rw [extend, List.range'_concat, List.foldl_append, ← extend, ih, List.foldl_cons, List.foldl_nil, Nat.one_mul,
      hnext _ (Nat.le_add_right _ _), ← Nat.add_assoc, List.range_succ, List.map_append]
    rfl

theorem sha1_schedule (p : List U8) : extend sha1Next 64 p = (List.range 80).map (Fips.sha1W (Fips.m p)) := by
  rw [← word_eq]
  refine extend_eq (fun i hi => ?_) (fun i hi => ?_) 64
  · rw [Fips.sha1W, if_pos hi]
  rw [sha1Next, getD_table _ (by omega), getD_table _ (by omega), getD_table _ (by omega),
    getD_table _ (by omega)]
  conv_rhs => rw [Fips.sha1W, if_neg (Nat.not_lt.mpr hi)]
  rfl

theorem sha256_schedule (p : List U8) :
    extend sha256Next 48 p = (List.range 64).map (Fips.sha256W (Fips.m p)) := by
  rw [← word_eq]
  refine extend_eq (fun i hi => ?_) (fun i hi => ?_) 48
  · rw [Fips.sha256W, if_pos hi]
  rw [sha256Next, getD_table _ (by omega), getD_table _ (by omega), getD_table _ (by omega),
    getD_table _ (by omega)]
  conv_rhs => rw [Fips.sha256W, if_neg (Nat.not_lt.mpr hi)]
  change _ + Fips.sigma0 _ + _ + Fips.sigma1 _ = _
  ac_rfl

theorem sha1Round_eq (p : List U8) (s : Sha1State) {i : Nat} (hi : i < 80) :
    sha1Round (extend sha1Next 64 p) s i = Fips.sha1Step (Fips.m p) s i := by
  have hfk : (if i < 20 then ((s.b &&& s.c) ||| (~~~s.b &&& s.d), (0x5a827999 : U32))
      else if i < 40 then (s.b ^^^ s.c ^^^ s.d, 0x6ed9eba1)
      else if i < 60 then ((s.b &&& s.c) ||| (s.b &&& s.d) ||| (s.c &&& s.d), 0x8f1bbcdc)
      else (s.b ^^^ s.c ^^^ s.d, 0xca62c1d6)) = (Fips.f i s.b s.c s.d, Fips.k i) := by
    rw [Fips.f, Fips.k, ch_eq, maj_eq]
    split
    · rfl
    split
    · rfl
    · split <;> rfl
  rw [sha1Round, hfk, sha1_schedule, getD_table _ hi]
  rfl

theorem sha1Block_eq (h : Sha1State) (p : List U8) : sha1Block h p = Fips.sha1Block h p := by
  have hrounds : (List.range 80).foldl (sha1Round (extend sha1Next 64 p)) h =
      (List.range 80).foldl (Fips.sha1Step (Fips.m p)) h :=
    List.foldl_ext _ _ _ fun s i hi => sha1Round_eq p s (List.mem_range.mp hi)
  simp only [sha1Block, Fips.sha1Block, hrounds, BitVec.add_comm]

theorem k256_eq : Fips.k256 = sha256K := by decide +kernel

theorem iv256_eq : Fips.iv256 =
    [0x6a09e667, 0xbb67ae85, 0x3c6ef372, 0xa54ff53a, 0x510e527f, 0x9b05688c, 0x1f83d9ab, 0x5be0cd19] := by
  decide +kernel

theorem sha256Round_eq (p : List U8) (s : Sha256State) {i : Nat} (hi : i < 64) :
    sha256Round (extend sha256Next 48 p) s i = Fips.sha256Step (Fips.m p) s i := by
  rw [sha256Round, sha256_schedule, getD_table _ hi, Fips.sha256Step, k256_eq]
  rfl

theorem sha256Block_eq (h : Sha256State) (p : List U8) : sha256Block h p = Fips.sha256Block h p := by
  have hrounds : (List.range 64).foldl (sha256Round (extend sha256Next 48 p)) h =
      (List.range 64).foldl (Fips.sha256Step (Fips.m p)) h :=
    List.foldl_ext _ _ _ fun s i hi => sha256Round_eq p s (List.mem_range.mp hi)
  simp only [sha256Block, Fips.sha256Block, hrounds, BitVec.add_comm]

theorem sha1_eq : sha1 = Fips.sha1 := by
  have hblock : sha1Block = Fips.sha1Block := funext fun h => funext fun p => sha1Block_eq h p
  rw [sha1, Fips.sha1, hblock]
  simp only [outBytes_eq]

theorem sha256_eq : sha256 = Fips.sha256 := by
  have hblock : sha256Block = Fips.sha256Block := funext fun h => funext fun p => sha256Block_eq h p
  rw [sha256, Fips.sha256, hblock, iv256_eq]
  simp only [outBytes_eq]
  rfl

end Sic.Sha
