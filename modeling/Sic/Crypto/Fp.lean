import Mathlib.Data.Int.ModEq
import Mathlib.Tactic.LinearCombination
import Sic.Lib.Limbs

/-! The field of the P-256 curve: numbers of eight words, the reduced sum and difference and the Montgomery
product. A call names the buffers it works on, and two of them may be one. -/

namespace Sic.P256

open Sic.Limbs

def p256 : List U32 :=
  [0xffffffff, 0xffffffff, 0xffffffff, 0x00000000, 0x00000000, 0x00000000, 0x00000001, 0xffffffff]

def prime : Nat := 2 ^ 256 - 2 ^ 224 + 2 ^ 192 + 2 ^ 96 - 1

theorem value_p256 : value p256 = prime := by decide

structure Fe where
  limbs : List U32
  length_eq : limbs.length = 8
deriving DecidableEq

def Fe.value (a : Fe) : Nat := Limbs.value a.limbs

theorem Fe.value_lt (a : Fe) : a.value < 2 ^ 256 := by
  have h := Limbs.value_lt a.limbs
  rwa [a.length_eq] at h

def pFe : Fe := ⟨p256, rfl⟩

theorem pFe_value : pFe.value = prime := value_p256

/-! ### On values -/

theorem carry_zero : (0 : U64).toNat ≤ 1 := by decide

def sumFe (a b : Fe) : Fe × U64 :=
  (⟨(addLoop a.limbs b.limbs 0).1, (addLoop_spec (a.length_eq.trans b.length_eq.symm) carry_zero).1.trans
    a.length_eq⟩, (addLoop a.limbs b.limbs 0).2)

def diffFe (a b : Fe) : Fe × U64 :=
  (⟨(subLoop a.limbs b.limbs 0).1, (subLoop_spec (a.length_eq.trans b.length_eq.symm) carry_zero).1.trans
    a.length_eq⟩, (subLoop a.limbs b.limbs 0).2)

theorem sumFe_spec (a b : Fe) :
    (sumFe a b).2.toNat ≤ 1 ∧ (sumFe a b).1.value + 2 ^ 256 * (sumFe a b).2.toNat = a.value + b.value := by
  have h := (addLoop_spec (a.length_eq.trans b.length_eq.symm) carry_zero).2
  rwa [a.length_eq] at h

theorem diffFe_spec (a b : Fe) :
    (diffFe a b).2.toNat ≤ 1 ∧ (diffFe a b).1.value + b.value = a.value + 2 ^ 256 * (diffFe a b).2.toNat := by
  have h := (subLoop_spec (a.length_eq.trans b.length_eq.symm) carry_zero).2
  rwa [a.length_eq] at h

def addFe (a b : Fe) : Fe :=
  let (r, c) := sumFe a b
  let (t, bo) := diffFe r pFe
  if c ≠ 0 ∨ bo = 0 then t else r

def subFe (a b : Fe) : Fe :=
  let (r, bo) := diffFe a b
  if bo ≠ 0 then (sumFe r pFe).1 else r

theorem eq_zero_iff_toNat (c : U64) : c = 0 ↔ c.toNat = 0 := BitVec.toNat_inj.symm

variable {a b : Fe} {i j : Nat}

theorem addFe_value (ha : a.value < prime) (hb : b.value < prime) :
    (addFe a b).value = (a.value + b.value) % prime := by
  obtain ⟨hc, hs⟩ := sumFe_spec a b
  obtain ⟨hbo, hd⟩ := diffFe_spec (sumFe a b).1 pFe
  have hr := (sumFe a b).1.value_lt
  have ht := (diffFe (sumFe a b).1 pFe).1.value_lt
  have hif : (addFe a b).value = if (sumFe a b).2.toNat ≠ 0 ∨ (diffFe (sumFe a b).1 pFe).2.toNat = 0 then
      (diffFe (sumFe a b).1 pFe).1.value else (sumFe a b).1.value := by
    simp only [addFe, ne_eq, eq_zero_iff_toNat]
    split <;> rfl
  rw [hif]
  rw [pFe_value] at hd
  generalize (sumFe a b).2.toNat = c at *
  generalize (diffFe (sumFe a b).1 pFe).2.toNat = bo at *
  generalize (diffFe (sumFe a b).1 pFe).1.value = t at *
  generalize (sumFe a b).1.value = r at *
  unfold prime at *
  split <;> omega

theorem subFe_value (ha : a.value < prime) (hb : b.value < prime) :
    (subFe a b).value = (a.value + prime - b.value) % prime := by
  obtain ⟨hbo, hd⟩ := diffFe_spec a b
  obtain ⟨hc, hs⟩ := sumFe_spec (diffFe a b).1 pFe
  have hr := (diffFe a b).1.value_lt
  have ht := (sumFe (diffFe a b).1 pFe).1.value_lt
  have hif : (subFe a b).value = if (diffFe a b).2.toNat ≠ 0 then
      (sumFe (diffFe a b).1 pFe).1.value else (diffFe a b).1.value := by
    simp only [subFe, ne_eq, eq_zero_iff_toNat]
    split <;> rfl
  rw [hif]
  rw [pFe_value] at hs
  generalize (diffFe a b).2.toNat = bo at *
  generalize (sumFe (diffFe a b).1 pFe).2.toNat = c at *
  generalize (sumFe (diffFe a b).1 pFe).1.value = t at *
  generalize (diffFe a b).1.value = r at *
  unfold prime at *
  split <;> omega

/-! ### The Montgomery product -/

/-- One row: `a` times a word of `b` is added, and the multiple of `p` that clears the low word is added and the
accumulator moved down by a word. The accumulator is its eight low words and `t[8]`. -/
def montRow (a : List U32) (t : List U32 × U32) (bi : U32) : List U32 × U32 :=
  let (u, c) := mulAddLoop bi a t.1 0
  let s := t.2.setWidth 64 + c
  let t8 : U32 := s.setWidth 32
  let t9 : U32 := (s >>> 32).setWidth 32
  let m := u.headD 0
  let c := (m.setWidth 64 * 0xffffffff + m.setWidth 64 : U64) >>> 32
  let (v, c) := mulAddLoop m p256.tail u.tail c
  let s := t8.setWidth 64 + c
  (v ++ [s.setWidth 32], t9 + (s >>> 32).setWidth 32)

def montLoop (a b : List U32) : List U32 × U32 := b.foldl (montRow a) (List.replicate 8 0, 0)

def accValue (t : List U32 × U32) : Nat := value t.1 + 2 ^ 256 * t.2.toNat

theorem clear_carry (m : U32) : ((m.setWidth 64 * 0xffffffff + m.setWidth 64 : U64) >>> 32).toNat = m.toNat := by
  have hm := m.isLt
  rw [toNat_high, BitVec.toNat_add, BitVec.toNat_mul, toNat_wide,
    show (0xffffffff : U64).toNat = 0xffffffff from rfl]
  omega

theorem montRow_spec {a : List U32} (ha : a.length = 8) {t : List U32 × U32} (ht : t.1.length = 8)
    (hT : accValue t < value a + prime) (bi : U32) :
    (montRow a t bi).1.length = 8 ∧ accValue (montRow a t bi) < value a + prime ∧
      ∃ m < 2 ^ 32, 2 ^ 32 * accValue (montRow a t bi) = accValue t + value a * bi.toNat + m * prime := by
  obtain ⟨hul, huc, huv⟩ := mulAddLoop_spec (m := bi) (ha.trans ht.symm) (c := 0) (by decide)
  have hA := Limbs.value_lt a
  rw [ha] at hul huv hA
  rw [montRow]
  generalize mulAddLoop bi a t.1 0 = uc at hul huc huv ⊢
  obtain ⟨u, c⟩ := uc
  dsimp only at hul huc huv ⊢
  cases u with
  | nil => cases hul
  | cons m us =>
    have hm := m.isLt
    have hcc := clear_carry m
    rw [List.headD_cons, List.tail_cons]
    generalize (m.setWidth 64 * 0xffffffff + m.setWidth 64 : U64) >>> 32 = c₀ at hcc ⊢
    have hlens : p256.tail.length = us.length := (Nat.succ.inj hul).symm
    obtain ⟨hvl, hvc, hvv⟩ := mulAddLoop_spec (m := m) hlens (c := c₀) (by omega)
    generalize mulAddLoop m p256.tail us c₀ = vc at hvl hvc hvv ⊢
    obtain ⟨v, c'⟩ := vc
    dsimp only at hvl hvc hvv ⊢
    have hlen : (p256.tail).length = 7 := rfl
    rw [hlen] at hvl hvv
    have ht8 : t.2.toNat ≤ 1 := by
      unfold accValue prime at hT
      omega
    have hs : (t.2.setWidth 64 + c).toNat = t.2.toNat + c.toNat := by
      rw [BitVec.toNat_add, toNat_wide]
      omega
    generalize t.2.setWidth 64 + c = s at hs ⊢
    have hs' : ((s.setWidth 32 : U32).setWidth 64 + c').toNat = s.toNat % 2 ^ 32 + c'.toNat := by
      rw [BitVec.toNat_add, toNat_wide, toNat_low]
      omega
    generalize (s.setWidth 32 : U32).setWidth 64 + c' = s' at hs' ⊢
    have htop : ((s >>> 32).setWidth 32 + (s' >>> 32).setWidth 32 : U32).toNat =
      s.toNat / 2 ^ 32 + s'.toNat / 2 ^ 32 := by
      rw [BitVec.toNat_add, toNat_low, toNat_low, toNat_high, toNat_high]
      omega
    have heq : 2 ^ 32 * accValue (v ++ [s'.setWidth 32], (s >>> 32).setWidth 32 + (s' >>> 32).setWidth 32) =
        accValue t + value a * bi.toNat + m.toNat * prime := by
      have hp : value p256.tail * 2 ^ 32 + 0xffffffff = prime := by decide
      rw [accValue, accValue, value_append, hvl, htop, value, value, toNat_low, ← hp, Nat.mul_add m.toNat,
        ← Nat.mul_assoc m.toNat, Nat.mul_comm m.toNat (value p256.tail)]
      rw [value] at huv
      generalize value p256.tail * m.toNat = x at hvv ⊢
      generalize value a * bi.toNat = y at huv ⊢
      have h0 : (0 : U64).toNat = 0 := rfl
      omega
    refine ⟨by rw [List.length_append, hvl]; rfl, ?_, m.toNat, hm, heq⟩
    have hy : value a * bi.toNat ≤ value a * (2 ^ 32 - 1) := Nat.mul_le_mul_left _ (by have := bi.isLt; omega)
    have hx : m.toNat * prime ≤ (2 ^ 32 - 1) * prime := Nat.mul_le_mul_right _ (by omega)
    omega

theorem accValue_start : accValue (List.replicate 8 0, 0) < prime := by decide

theorem montLoop_spec {a : List U32} (ha : a.length = 8) (bs : List U32) :
    (montLoop a bs).1.length = 8 ∧ accValue (montLoop a bs) < value a + prime ∧
      ∃ M < 2 ^ (32 * bs.length), 2 ^ (32 * bs.length) * accValue (montLoop a bs) =
        value a * value bs + M * prime := by
  induction bs using List.reverseRecOn with
  | nil =>
    exact ⟨rfl, Nat.lt_of_lt_of_le accValue_start (Nat.le_add_left _ _), 0, by decide, by rw [Nat.zero_mul]; rfl⟩
  | append_singleton bs b ih =>
    obtain ⟨hl, hlt, M, hM, heq⟩ := ih
    have hfold : montLoop a (bs ++ [b]) = montRow a (montLoop a bs) b := List.foldl_append
    obtain ⟨hl', hlt', m, hm, heq'⟩ := montRow_spec ha hl hlt b
    rw [hfold]
    refine ⟨hl', hlt', M + 2 ^ (32 * bs.length) * m, ?_, ?_⟩
    · rw [List.length_append, List.length_singleton, Nat.mul_succ, Nat.pow_add]
      calc M + 2 ^ (32 * bs.length) * m < 2 ^ (32 * bs.length) + 2 ^ (32 * bs.length) * m :=
        Nat.add_lt_add_right hM _
        _ = 2 ^ (32 * bs.length) * (m + 1) := by ring
        _ ≤ 2 ^ (32 * bs.length) * 2 ^ 32 := Nat.mul_le_mul_left _ hm
    · rw [List.length_append, List.length_singleton, Nat.mul_succ, Nat.pow_add, Nat.mul_assoc, heq', value_append,
        value, value]
      linear_combination heq

def montLast (t : List U32 × U32) (ht : t.1.length = 8) : Fe :=
  let r : Fe := ⟨t.1, ht⟩
  let (tmp, bo) := diffFe r pFe
  if t.2 ≠ 0 ∨ bo = 0 then tmp else r

theorem montLast_value {t : List U32 × U32} (ht : t.1.length = 8) (hT : accValue t < 2 * prime) :
    (montLast t ht).value < prime ∧ ((montLast t ht).value = accValue t ∨
      (montLast t ht).value + prime = accValue t) := by
  have hlow := Limbs.value_lt t.1
  rw [ht] at hlow
  obtain ⟨hbo, hd⟩ := diffFe_spec ⟨t.1, ht⟩ pFe
  have hdl := (diffFe ⟨t.1, ht⟩ pFe).1.value_lt
  have hv : (⟨t.1, ht⟩ : Fe).value = value t.1 := rfl
  have hif : (montLast t ht).value = if t.2.toNat ≠ 0 ∨ (diffFe ⟨t.1, ht⟩ pFe).2.toNat = 0 then
      (diffFe ⟨t.1, ht⟩ pFe).1.value else value t.1 := by
    have htop : t.2 = 0 ↔ t.2.toNat = 0 := BitVec.toNat_inj.symm
    simp only [montLast, ne_eq, eq_zero_iff_toNat, htop]
    split <;> rfl
  rw [hif]
  rw [pFe_value, hv] at hd
  unfold accValue at *
  generalize (diffFe ⟨t.1, ht⟩ pFe).2.toNat = bo at *
  generalize (diffFe ⟨t.1, ht⟩ pFe).1.value = d at *
  generalize t.2.toNat = top at *
  generalize value t.1 = low at *
  unfold prime at *
  split <;> omega

def montFe (a b : Fe) : Fe := montLast (montLoop a.limbs b.limbs) (montLoop_spec a.length_eq b.limbs).1

theorem montLoop_product (a b : Fe) :
    ∃ M < 2 ^ 256, 2 ^ 256 * accValue (montLoop a.limbs b.limbs) = a.value * b.value + M * prime := by
  obtain ⟨_, _, M, hM, h⟩ := montLoop_spec a.length_eq b.limbs
  rw [b.length_eq] at hM h
  exact ⟨M, hM, h⟩

theorem accValue_lt (hb : b.value < prime) : accValue (montLoop a.limbs b.limbs) < 2 * prime := by
  obtain ⟨M, hM, h⟩ := montLoop_product a b
  have hab : a.value * b.value < 2 ^ 256 * prime := Nat.mul_lt_mul_of_le_of_lt a.value_lt.le hb (by decide)
  have hMp : M * prime < 2 ^ 256 * prime := Nat.mul_lt_mul_of_pos_right hM (by decide)
  omega

theorem montFe_value (hb : b.value < prime) :
    (montFe a b).value < prime ∧ ((montFe a b).value = accValue (montLoop a.limbs b.limbs) ∨
      (montFe a b).value + prime = accValue (montLoop a.limbs b.limbs)) :=
  montLast_value _ (accValue_lt hb)

theorem montFe_modEq (hb : b.value < prime) : (montFe a b).value * 2 ^ 256 ≡ a.value * b.value [MOD prime] := by
  obtain ⟨M, _, h⟩ := montLoop_product a b
  have hT : (montFe a b).value ≡ accValue (montLoop a.limbs b.limbs) [MOD prime] := by
    rcases (montFe_value (a := a) hb).2 with heq | heq
    · rw [heq]
    · rw [← heq]
      exact (Nat.add_mod_right _ _).symm
  refine (hT.mul_right _).trans ?_
  rw [Nat.mul_comm, h]
  exact Nat.add_mul_mod_self_right _ _ _

/-! ### In place -/

abbrev Mem := Nat → Nat → U32

inductive Operand
  | buf (a : Nat)
  | p

def Mem.get (m : Mem) : Operand → Nat → U32
  | .buf a, i => m a i
  | .p, i => p256.getD i 0

def Mem.set (m : Mem) (r i : Nat) (x : U32) : Mem := fun q j => if q = r ∧ j = i then x else m q j

def Mem.words (m : Mem) (a : Operand) (i : Nat) : Nat → List U32
  | 0 => []
  | n + 1 => m.get a i :: m.words a (i + 1) n

def Mem.copy (m : Mem) (r i : Nat) : List U32 → Mem
  | [] => m
  | x :: xs => (m.set r i x).copy r (i + 1) xs

theorem Mem.words_length (m : Mem) (a : Operand) (i n : Nat) : (m.words a i n).length = n := by
  induction n generalizing i with
  | zero => rfl
  | succ n ih => exact congrArg (· + 1) (ih (i + 1))

def Mem.fe (m : Mem) (a : Operand) : Fe := ⟨m.words a 0 8, m.words_length a 0 8⟩

theorem Mem.fe_p (m : Mem) : m.fe .p = pFe := rfl

theorem Mem.get_set_of_lt (m : Mem) (r : Nat) (a : Operand) (x : U32) (h : i < j) :
    (m.set r i x).get a j = m.get a j := by
  cases a with
  | buf a => exact if_neg fun hc => absurd hc.2 h.ne'
  | p => rfl

theorem Mem.words_set (m : Mem) (r : Nat) (a : Operand) (x : U32) (h : i < j) (n : Nat) :
    (m.set r i x).words a j n = m.words a j n := by
  induction n generalizing j with
  | zero => rfl
  | succ n ih => rw [Mem.words, Mem.words, ih (Nat.lt_succ_of_lt h), m.get_set_of_lt r a x h]

theorem Mem.copy_get_of_lt (m : Mem) (r q : Nat) (h : j < i) (xs : List U32) : m.copy r i xs q j = m q j := by
  induction xs generalizing m i with
  | nil => rfl
  | cons x xs ih =>
    rw [Mem.copy, ih _ (Nat.lt_succ_of_lt h)]
    exact if_neg fun hc => absurd hc.2 h.ne

theorem Mem.copy_other (m : Mem) {r q : Nat} (h : q ≠ r) (i : Nat) (xs : List U32) : m.copy r i xs q = m q := by
  induction xs generalizing m i with
  | nil => rfl
  | cons x xs ih =>
    rw [Mem.copy, ih]
    exact funext fun j => if_neg fun hc => h hc.1

theorem Mem.words_copy (m : Mem) (r i : Nat) (xs : List U32) :
    (m.copy r i xs).words (.buf r) i xs.length = xs := by
  induction xs generalizing m i with
  | nil => rfl
  | cons x xs ih =>
    rw [List.length_cons, Mem.words, Mem.copy, ih, Mem.get, Mem.copy_get_of_lt _ _ _ (Nat.lt_succ_self i)]
    exact congrArg (· :: xs) (if_pos ⟨rfl, rfl⟩)

theorem Mem.fe_copy (m : Mem) (r : Nat) (x : Fe) : (m.copy r 0 x.limbs).fe (.buf r) = x := by
  have h := m.words_copy r 0 x.limbs
  rw [x.length_eq] at h
  cases x
  simp only [Mem.fe, h]

def addLimbs (r : Nat) (a b : Operand) : Nat → Nat → U64 → Mem → Mem × U64
  | _, 0, c, m => (m, c)
  | i, n + 1, c, m =>
    let s := (m.get a i).setWidth 64 + (m.get b i).setWidth 64 + c
    addLimbs r a b (i + 1) n (s >>> 32) (m.set r i (s.setWidth 32))

def subLimbs (r : Nat) (a b : Operand) : Nat → Nat → U64 → Mem → Mem × U64
  | _, 0, bo, m => (m, bo)
  | i, n + 1, bo, m =>
    let d := (m.get a i).setWidth 64 - (m.get b i).setWidth 64 - bo
    subLimbs r a b (i + 1) n (if d.msb then 1 else 0) (m.set r i (d.setWidth 32))

theorem addLimbs_eq (r : Nat) (a b : Operand) (i n : Nat) (c : U64) (m : Mem) :
    addLimbs r a b i n c m =
      (m.copy r i (addLoop (m.words a i n) (m.words b i n) c).1,
        (addLoop (m.words a i n) (m.words b i n) c).2) := by
  induction n generalizing i c m with
  | zero => rfl
  | succ n ih =>
    rw [addLimbs, ih, m.words_set r a _ (Nat.lt_succ_self i), m.words_set r b _ (Nat.lt_succ_self i)]
    rfl

theorem subLimbs_eq (r : Nat) (a b : Operand) (i n : Nat) (c : U64) (m : Mem) :
    subLimbs r a b i n c m =
      (m.copy r i (subLoop (m.words a i n) (m.words b i n) c).1,
        (subLoop (m.words a i n) (m.words b i n) c).2) := by
  induction n generalizing i c m with
  | zero => rfl
  | succ n ih =>
    rw [subLimbs, ih, m.words_set r a _ (Nat.lt_succ_self i), m.words_set r b _ (Nat.lt_succ_self i)]
    rfl

def fpAdd (m : Mem) (r : Nat) (a b : Operand) : Mem :=
  let (m, c) := addLimbs r a b 0 8 0 m
  let (t, bo) := diffFe (m.fe (.buf r)) pFe
  if c ≠ 0 ∨ bo = 0 then m.copy r 0 t.limbs else m

def fpSub (m : Mem) (r : Nat) (a b : Operand) : Mem :=
  let (m, bo) := subLimbs r a b 0 8 0 m
  if bo ≠ 0 then (addLimbs r (.buf r) .p 0 8 0 m).1 else m

def montMul (m : Mem) (r : Nat) (a b : Operand) : Mem :=
  let t := montLoop (m.fe a).limbs (m.fe b).limbs
  let m := m.copy r 0 t.1
  let (tmp, bo) := diffFe (m.fe (.buf r)) pFe
  if t.2 ≠ 0 ∨ bo = 0 then m.copy r 0 tmp.limbs else m

theorem addLimbs_fe (m : Mem) (r : Nat) (a b : Operand) : addLimbs r a b 0 8 0 m =
    (m.copy r 0 (sumFe (m.fe a) (m.fe b)).1.limbs, (sumFe (m.fe a) (m.fe b)).2) := addLimbs_eq r a b 0 8 0 m

theorem subLimbs_fe (m : Mem) (r : Nat) (a b : Operand) : subLimbs r a b 0 8 0 m =
    (m.copy r 0 (diffFe (m.fe a) (m.fe b)).1.limbs, (diffFe (m.fe a) (m.fe b)).2) := subLimbs_eq r a b 0 8 0 m

theorem fe_fpAdd (m : Mem) (r : Nat) (a b : Operand) : (fpAdd m r a b).fe (.buf r) = addFe (m.fe a) (m.fe b) := by
  have hm := m.fe_copy r (sumFe (m.fe a) (m.fe b)).1
  rw [fpAdd, addLimbs_fe, addFe]
  dsimp only
  rw [hm]
  split
  · exact Mem.fe_copy _ r _
  · exact hm

theorem fe_fpSub (m : Mem) (r : Nat) (a b : Operand) : (fpSub m r a b).fe (.buf r) = subFe (m.fe a) (m.fe b) := by
  have hm := m.fe_copy r (diffFe (m.fe a) (m.fe b)).1
  rw [fpSub, subLimbs_fe, subFe]
  dsimp only
  split
  · rw [addLimbs_fe, Mem.fe_copy, hm, Mem.fe_p]
  · exact hm

theorem fe_montMul (m : Mem) (r : Nat) (a b : Operand) :
    (montMul m r a b).fe (.buf r) = montFe (m.fe a) (m.fe b) := by
  have hm := m.fe_copy r ⟨_, (montLoop_spec (m.fe a).length_eq (m.fe b).limbs).1⟩
  rw [montMul, montFe, montLast]
  dsimp only at hm ⊢
  rw [hm]
  split
  · exact Mem.fe_copy _ r _
  · exact hm

theorem montMul_other (m : Mem) {r q : Nat} (h : q ≠ r) (a b : Operand) : montMul m r a b q = m q := by
  rw [montMul]
  dsimp only
  split
  · rw [Mem.copy_other _ h, Mem.copy_other _ h]
  · rw [Mem.copy_other _ h]

/-- The product is reduced and loses no carry, and the sum and the difference are exact, whichever buffers are
one. -/
theorem field_arithmetic (m : Mem) (r : Nat) (a b : Operand) :
    ((m.fe b).value < prime → ((montMul m r a b).fe (.buf r)).value < prime ∧
      ((montMul m r a b).fe (.buf r)).value * 2 ^ 256 ≡ (m.fe a).value * (m.fe b).value [MOD prime] ∧
      (∃ M < 2 ^ 256, 2 ^ 256 * accValue (montLoop (m.fe a).limbs (m.fe b).limbs) =
        (m.fe a).value * (m.fe b).value + M * prime) ∧ ∀ q ≠ r, montMul m r a b q = m q) ∧
      ((m.fe a).value < prime → (m.fe b).value < prime →
        ((fpAdd m r a b).fe (.buf r)).value = ((m.fe a).value + (m.fe b).value) % prime ∧
          (((fpSub m r a b).fe (.buf r)).value : Int) = ((m.fe a).value - (m.fe b).value : Int) % prime) := by
  refine ⟨fun hb => ⟨?_, ?_, montLoop_product _ _, fun q hq => montMul_other m hq a b⟩, fun ha hb => ⟨?_, ?_⟩⟩
  · rw [fe_montMul]
    exact (montFe_value hb).1
  · rw [fe_montMul]
    exact montFe_modEq hb
  · rw [fe_fpAdd]
    exact addFe_value ha hb
  · rw [fe_fpSub, subFe_value ha hb, Int.natCast_mod, Nat.cast_sub (Nat.le_add_left_of_le hb.le), Nat.cast_add]
    exact (congrArg (· % (prime : Int)) (by ring)).trans (Int.add_emod_right _ _)

theorem field_arithmetic_square :
    ((montMul (fun _ _ => 1) 0 (.buf 0) (.buf 0)).fe (.buf 0)).value < prime :=
  ((field_arithmetic (fun _ _ => 1) 0 (.buf 0) (.buf 0)).1 (by decide)).1

end Sic.P256
