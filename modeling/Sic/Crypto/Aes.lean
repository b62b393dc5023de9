import Mathlib.Data.Finite.Prod
import Mathlib.Tactic.FinCases
import Sic.Lib.Run
import Sic.Lib.Word

/-! AES-128 with the tables computed from the field, and the AES key unwrap of RFC 3394. -/

namespace Sic.Aes

def xt (a : U8) : U8 := a <<< 1 ^^^ (if a &&& 0x80 ≠ 0 then 0x1b else 0)

def gmulLoop : Nat → U8 → U8 → U8 → U8
  | 0, _, _, r => r
  | fuel + 1, a, b, r =>
    if b = 0 then r else gmulLoop fuel (xt a) (b >>> 1) (if b &&& 1 ≠ 0 then r ^^^ a else r)

def gmul (a b : U8) : U8 := gmulLoop 8 a b 0

/-! ### The tables -/

def mul3 (p : U8) : U8 := p ^^^ xt p

def div3 (q : U8) : U8 :=
  let q := q ^^^ q <<< 1
  let q := q ^^^ q <<< 2
  let q := q ^^^ q <<< 4
  if q &&& 0x80 ≠ 0 then q ^^^ 0x09 else q

def affine (q : U8) : U8 :=
  q ^^^ (q <<< 1 ||| q >>> 7) ^^^ (q <<< 2 ||| q >>> 6) ^^^ (q <<< 3 ||| q >>> 5) ^^^ (q <<< 4 ||| q >>> 4) ^^^
    0x63

/-- The turns of the loop; `none` if it does not end in them. -/
def tablesLoop : Nat → U8 → U8 → List U8 → Option (List U8)
  | 0, _, _, _ => none
  | fuel + 1, p, q, sbox =>
    let p := mul3 p
    let q := div3 q
    let sbox := sbox.set p.toNat (affine q)
    if p = 1 then some sbox else tablesLoop fuel p q sbox

def sboxTable : List U8 := ((tablesLoop 255 1 1 (List.replicate 256 0)).getD []).set 0 0x63

def isboxTable : List U8 :=
  (List.range 256).foldl (fun isbox i => isbox.set (sboxTable.getD i 0).toNat (BitVec.ofNat 8 i))
    (List.replicate 256 0)

theorem isbox_sbox_table : ∀ i < 256, isboxTable.getD (sboxTable.getD i 0).toNat 0 = BitVec.ofNat 8 i := by
  decide +kernel

def sbox (x : U8) : U8 := sboxTable.getD x.toNat 0

def isbox (x : U8) : U8 := isboxTable.getD x.toNat 0

theorem isbox_sbox (x : U8) : isbox (sbox x) = x := by
  rw [isbox, sbox, isbox_sbox_table x.toNat x.isLt, BitVec.ofNat_toNat, BitVec.setWidth_eq]

/-! ### The columns -/

theorem xor_left_comm (a b c : U8) : a ^^^ (b ^^^ c) = b ^^^ (a ^^^ c) := by
  rw [← BitVec.xor_assoc, BitVec.xor_comm a b, BitVec.xor_assoc]

theorem xor_cancel (a b : U8) : a ^^^ (a ^^^ b) = b := by
  rw [← BitVec.xor_assoc, BitVec.xor_self, BitVec.zero_xor]

theorem msb_eq_and (a : U8) : (a &&& 0x80 ≠ 0) ↔ a.msb = true := by
  revert a
  decide

theorem xt_xor (a b : U8) : xt (a ^^^ b) = xt a ^^^ xt b := by
  simp only [xt, msb_eq_and, BitVec.msb_xor, BitVec.shiftLeft_xor_distrib]
  cases a.msb <;> cases b.msb <;>
    simp [BitVec.xor_assoc, BitVec.xor_comm, xor_left_comm]

/-- The coefficients 14, 11, 13 and 9 as polynomials, evaluated with `xt` for the indeterminate. -/
theorem gmul_row (b0 b1 b2 b3 : U8) : gmul b0 14 ^^^ gmul b1 11 ^^^ gmul b2 13 ^^^ gmul b3 9 =
    xt (xt (xt (b0 ^^^ b1 ^^^ b2 ^^^ b3) ^^^ (b0 ^^^ b2)) ^^^ (b0 ^^^ b1)) ^^^ (b1 ^^^ b2 ^^^ b3) := by
  have h9 : ∀ a, gmul a 9 = a ^^^ xt (xt (xt a)) := fun a => by simp [gmul, gmulLoop]
  have h11 : ∀ a, gmul a 11 = a ^^^ xt a ^^^ xt (xt (xt a)) := fun a => by simp [gmul, gmulLoop]
  have h13 : ∀ a, gmul a 13 = a ^^^ xt (xt a) ^^^ xt (xt (xt a)) := fun a => by simp [gmul, gmulLoop]
  have h14 : ∀ a, gmul a 14 = xt a ^^^ xt (xt a) ^^^ xt (xt (xt a)) := fun a => by simp [gmul, gmulLoop]
  simp only [h9, h11, h13, h14, xt_xor]
  ac_rfl

def mixByte (a0 a1 a2 a3 : U8) : U8 := a0 ^^^ (a0 ^^^ a1 ^^^ a2 ^^^ a3 ^^^ xt (a0 ^^^ a1))

theorem mixByte_eq (a0 a1 a2 a3 : U8) : mixByte a0 a1 a2 a3 = a1 ^^^ a2 ^^^ a3 ^^^ xt a0 ^^^ xt a1 := by
  rw [mixByte, xt_xor]
  simp only [BitVec.xor_assoc, xor_cancel]

theorem mix_undone (a0 a1 a2 a3 : U8) :
    gmul (mixByte a0 a1 a2 a3) 14 ^^^ gmul (mixByte a1 a2 a3 a0) 11 ^^^ gmul (mixByte a2 a3 a0 a1) 13 ^^^
      gmul (mixByte a3 a0 a1 a2) 9 = a0 := by
  have hall : mixByte a0 a1 a2 a3 ^^^ mixByte a1 a2 a3 a0 ^^^ mixByte a2 a3 a0 a1 ^^^ mixByte a3 a0 a1 a2 =
      a0 ^^^ a1 ^^^ a2 ^^^ a3 := by
    simp only [mixByte_eq, BitVec.xor_assoc, BitVec.xor_comm, xor_left_comm, xor_cancel, BitVec.xor_self,
      BitVec.xor_zero]
  have heven : mixByte a0 a1 a2 a3 ^^^ mixByte a2 a3 a0 a1 = xt (a0 ^^^ a1 ^^^ a2 ^^^ a3) ^^^ (a0 ^^^ a2) := by
    simp only [mixByte_eq, xt_xor, BitVec.xor_assoc, BitVec.xor_comm, xor_left_comm, xor_cancel]
  have hpair : mixByte a0 a1 a2 a3 ^^^ mixByte a1 a2 a3 a0 = xt (a0 ^^^ a2) ^^^ (a0 ^^^ a1) := by
    simp only [mixByte_eq, xt_xor, BitVec.xor_assoc, BitVec.xor_comm, xor_left_comm, xor_cancel]
  have hrest : mixByte a1 a2 a3 a0 ^^^ mixByte a2 a3 a0 a1 ^^^ mixByte a3 a0 a1 a2 = xt (a0 ^^^ a1) ^^^ a0 := by
    simp only [mixByte_eq, xt_xor, BitVec.xor_assoc, BitVec.xor_comm, xor_left_comm, xor_cancel, BitVec.xor_self,
      BitVec.zero_xor]
  rw [gmul_row, hall, heven, hpair, hrest, xor_cancel, xor_cancel, xor_cancel]

def mixColumn (a0 a1 a2 a3 : U8) : Fin 4 → U8
  | 0 => a0 ^^^ (a0 ^^^ a1 ^^^ a2 ^^^ a3 ^^^ xt (a0 ^^^ a1))
  | 1 => a1 ^^^ (a0 ^^^ a1 ^^^ a2 ^^^ a3 ^^^ xt (a1 ^^^ a2))
  | 2 => a2 ^^^ (a0 ^^^ a1 ^^^ a2 ^^^ a3 ^^^ xt (a2 ^^^ a3))
  | 3 => a3 ^^^ (a0 ^^^ a1 ^^^ a2 ^^^ a3 ^^^ xt (a3 ^^^ a0))

theorem mixColumn_eq (a0 a1 a2 a3 : U8) : mixColumn a0 a1 a2 a3 0 = mixByte a0 a1 a2 a3 ∧
    mixColumn a0 a1 a2 a3 1 = mixByte a1 a2 a3 a0 ∧ mixColumn a0 a1 a2 a3 2 = mixByte a2 a3 a0 a1 ∧
    mixColumn a0 a1 a2 a3 3 = mixByte a3 a0 a1 a2 := by
  refine ⟨rfl, ?_, ?_, ?_⟩ <;>
  · unfold mixByte mixColumn
    ac_rfl

def invMixColumn (a0 a1 a2 a3 : U8) : Fin 4 → U8
  | 0 => gmul a0 14 ^^^ gmul a1 11 ^^^ gmul a2 13 ^^^ gmul a3 9
  | 1 => gmul a0 9 ^^^ gmul a1 14 ^^^ gmul a2 11 ^^^ gmul a3 13
  | 2 => gmul a0 13 ^^^ gmul a1 9 ^^^ gmul a2 14 ^^^ gmul a3 11
  | 3 => gmul a0 11 ^^^ gmul a1 13 ^^^ gmul a2 9 ^^^ gmul a3 14

theorem invMixColumn_mixColumn (a : Fin 4 → U8) : invMixColumn (mixColumn (a 0) (a 1) (a 2) (a 3) 0)
    (mixColumn (a 0) (a 1) (a 2) (a 3) 1) (mixColumn (a 0) (a 1) (a 2) (a 3) 2)
    (mixColumn (a 0) (a 1) (a 2) (a 3) 3) = a := by
  obtain ⟨h0, h1, h2, h3⟩ := mixColumn_eq (a 0) (a 1) (a 2) (a 3)
  rw [h0, h1, h2, h3]
  funext k
  -- each row of the matrix is the first one turned round
  fin_cases k
  · exact mix_undone _ _ _ _
  · refine Eq.trans ?_ (mix_undone (a 1) (a 2) (a 3) (a 0))
    unfold invMixColumn
    ac_rfl
  · refine Eq.trans ?_ (mix_undone (a 2) (a 3) (a 0) (a 1))
    unfold invMixColumn
    ac_rfl
  · refine Eq.trans ?_ (mix_undone (a 3) (a 0) (a 1) (a 2))
    unfold invMixColumn
    ac_rfl

/-! ### The rounds -/

abbrev Block := Vector U8 16

theorem block_ext {a b : Block} (h : ∀ i : Fin 16, a.get i = b.get i) : a = b := Vector.ext fun i hi => h ⟨i, hi⟩

theorem get_ofFn (f : Fin 16 → U8) (i : Fin 16) : (Vector.ofFn f).get i = f i := Vector.getElem_ofFn i.isLt

instance finite_byte : Finite U8 := Finite.of_injective BitVec.toFin fun _ _ h => BitVec.eq_of_toFin_eq h

instance finite_block : Finite Block :=
  Finite.of_injective Vector.get fun _ _ h => block_ext fun i => congrFun h i

def cell (c k : Fin 4) : Fin 16 := ⟨4 * c + k, by omega⟩

def column (i : Fin 16) : Fin 4 := ⟨i / 4, by omega⟩

def row (i : Fin 16) : Fin 4 := ⟨i % 4, by omega⟩

theorem cell_column_row (i : Fin 16) : cell (column i) (row i) = i := Fin.ext (Nat.div_add_mod i 4)

theorem column_cell (c k : Fin 4) : column (cell c k) = c := Fin.ext (by rw [column, cell]; dsimp only; omega)

theorem row_cell (c k : Fin 4) : row (cell c k) = k := Fin.ext (by rw [row, cell]; dsimp only; omega)

def onColumns (f : U8 → U8 → U8 → U8 → Fin 4 → U8) (s : Block) : Block := Vector.ofFn fun i =>
  f (s.get (cell (column i) 0)) (s.get (cell (column i) 1)) (s.get (cell (column i) 2))
    (s.get (cell (column i) 3)) (row i)

theorem invMix_mix (s : Block) : onColumns invMixColumn (onColumns mixColumn s) = s := by
  refine block_ext fun i => ?_
  simp only [onColumns, get_ofFn, column_cell, row_cell]
  exact (congrFun (invMixColumn_mixColumn fun k => s.get (cell (column i) k)) (row i)).trans
    (congrArg s.get (cell_column_row i))

def shift (i : Fin 16) : Fin 16 := ⟨(i + 4 * (i % 4)) % 16, Nat.mod_lt _ (by decide)⟩

def addKey (s : Block) (rk : List U8) (k : Nat) : Block := Vector.ofFn fun i => s.get i ^^^ rk.getD (k + i) 0

theorem addKey_addKey (s : Block) (rk : List U8) (k : Nat) : addKey (addKey s rk k) rk k = s := by
  refine block_ext fun i => ?_
  rw [addKey, addKey, get_ofFn, get_ofFn, BitVec.xor_assoc, BitVec.xor_self, BitVec.xor_zero]

def encryptRound (rk : List U8) (s : Block) (r : Nat) : Block :=
  let t : Block := Vector.ofFn fun i => sbox (s.get (shift i))
  let t := if r < 10 then onColumns mixColumn t else t
  addKey t rk (16 * r)

def scatter (f : Fin 16 → U8) : Block :=
  Vector.ofFn ((List.finRange 16).foldl (fun t i => Function.update t (shift i) (f i)) fun _ => 0)

theorem scatter_shift (f : Fin 16 → U8) (i : Fin 16) : (scatter f).get (shift i) = f i := by
  rw [scatter, get_ofFn]
  fin_cases i <;> rfl

def decryptRound (rk : List U8) (s : Block) (r : Nat) : Block :=
  let s := addKey s rk (16 * r)
  let s := if r < 10 then onColumns invMixColumn s else s
  scatter fun i => isbox (s.get i)

theorem shift_surjective : Function.Surjective shift := by decide

theorem decryptRound_encryptRound (rk : List U8) (s : Block) (r : Nat) :
    decryptRound rk (encryptRound rk s r) r = s := by
  have hmid : (if r < 10 then onColumns invMixColumn (addKey (encryptRound rk s r) rk (16 * r))
      else addKey (encryptRound rk s r) rk (16 * r)) = Vector.ofFn fun i => sbox (s.get (shift i)) := by
    simp only [encryptRound, addKey_addKey]
    split
    · exact invMix_mix _
    · rfl
  refine block_ext fun j => ?_
  obtain ⟨i, rfl⟩ := shift_surjective j
  simp only [decryptRound, hmid, scatter_shift, get_ofFn, isbox_sbox]

def aes128Encrypt (rk : List U8) (inp : Block) : Block :=
  (List.range' 1 10).foldl (encryptRound rk) (addKey inp rk 0)

def aes128Decrypt (rk : List U8) (inp : Block) : Block :=
  addKey ((List.range' 1 10).reverse.foldl (decryptRound rk) inp) rk 0

theorem decrypt_encrypt (rk : List U8) (b : Block) : aes128Decrypt rk (aes128Encrypt rk b) = b := by
  rw [aes128Decrypt, aes128Encrypt, foldl_undo (decryptRound_encryptRound rk), addKey_addKey]

theorem encrypt_decrypt (rk : List U8) (b : Block) : aes128Encrypt rk (aes128Decrypt rk b) = b := by
  have hinj : Function.Injective (aes128Encrypt rk) := Function.LeftInverse.injective (decrypt_encrypt rk)
  obtain ⟨a, rfl⟩ := Finite.surjective_of_injective hinj b
  rw [decrypt_encrypt]

/-! ### The key schedule -/

def keyStep (s : List U8 × U8) (i : Nat) : List U8 × U8 :=
  let w := s.1
  let rc := s.2
  let old (j : Nat) : U8 := w.getD (i - 16 + j) 0
  let t (j : Nat) : U8 := w.getD (i - 4 + j) 0
  if i % 16 = 0 then
    (w ++ [old 0 ^^^ (sbox (t 1) ^^^ rc), old 1 ^^^ sbox (t 2), old 2 ^^^ sbox (t 3), old 3 ^^^ sbox (t 0)],
      xt rc)
  else (w ++ [old 0 ^^^ t 0, old 1 ^^^ t 1, old 2 ^^^ t 2, old 3 ^^^ t 3], rc)

def aes128Key (key : Fin 16 → U8) : List U8 :=
  ((List.range' 16 40 4).foldl keyStep (List.ofFn key, 1)).1

/-! ### Key wrap -/

abbrev Half := Fin 8 → U8

def join (a r : Half) : Block := Vector.ofFn fun i => if h : i.val < 8 then a ⟨i, h⟩ else r ⟨i - 8, by omega⟩

def upper (b : Block) : Half := fun i => b.get (i.castLE (by decide))

def lower (b : Block) : Half := fun i => b.get ⟨i + 8, by omega⟩

theorem join_halves (b : Block) : join (upper b) (lower b) = b := by
  refine block_ext fun i => ?_
  rw [join, get_ofFn]
  split
  · rfl
  · exact congrArg b.get (Fin.ext (Nat.sub_add_cancel (by omega)))

theorem upper_join (a r : Half) : upper (join a r) = a := funext fun i => (get_ofFn _ _).trans (dif_pos i.isLt)

theorem lower_join (a r : Half) : lower (join a r) = r := by
  funext i
  have hge : ¬ i.val + 8 < 8 := Nat.not_lt.mpr (Nat.le_add_left 8 i)
  simp only [lower, join, get_ofFn, hge, dif_neg, not_false_eq_true, Nat.add_sub_cancel]

def mixCounter (a : Half) (t : U64) : Half := fun m => a m ^^^ (t >>> (8 * (7 - m.val))).setWidth 8

theorem mixCounter_mixCounter (a : Half) (t : U64) : mixCounter (mixCounter a t) t = a := by
  funext m
  rw [mixCounter, mixCounter, BitVec.xor_assoc, BitVec.xor_self, BitVec.xor_zero]

variable {n : Nat}

/-- `(uint64_t)n * (uint64_t)j + (uint64_t)i`, where `i` counts from one. -/
def counter (n : Nat) (e : Nat × Fin n) : U64 :=
  BitVec.ofNat 64 n * BitVec.ofNat 64 e.1 + BitVec.ofNat 64 (e.2 + 1)

def unwrapStep (rk : List U8) (s : Half × (Fin n → Half)) (e : Nat × Fin n) : Half × (Fin n → Half) :=
  let b := aes128Decrypt rk (join (mixCounter s.1 (counter n e)) (s.2 e.2))
  (upper b, Function.update s.2 e.2 (lower b))

def aesUnwrap (kek : Fin 16 → U8) (cipher : Half × (Fin n → Half)) : Int × (Fin n → Half) :=
  let s := ((List.range 6).reverse.flatMap fun j => (List.finRange n).reverse.map (j, ·)).foldl
    (unwrapStep (aes128Key kek)) cipher
  (if ∀ k, s.1 k = 0xa6 then 0 else -1, s.2)

/-- The step of the wrapping process of RFC 3394, section 2.2.1, whose `A = MSB(64, B) ^ t` takes the number
`t = (n * j) + i` as 64 bits. -/
def wrapStep (rk : List U8) (s : Half × (Fin n → Half)) (e : Nat × Fin n) : Half × (Fin n → Half) :=
  let b := aes128Encrypt rk (join s.1 (s.2 e.2))
  let t := n * e.1 + (e.2.val + 1)
  (fun m => upper b m ^^^ (octets 8 t).getD m 0, Function.update s.2 e.2 (lower b))

def keyWrap (kek : Fin 16 → U8) (plain : Fin n → Half) : Half × (Fin n → Half) :=
  ((List.range 6).flatMap fun j => (List.finRange n).map (j, ·)).foldl (wrapStep (aes128Key kek))
    (fun _ => 0xa6, plain)

theorem mixCounter_counter (a : Half) (e : Nat × Fin n) :
    mixCounter a (counter n e) = fun m => a m ^^^ (octets 8 (n * e.1 + (e.2.val + 1))).getD m 0 := by
  have hcounter : (counter n e).toNat = (n * e.1 + (e.2.val + 1)) % 256 ^ 8 := by
    rw [counter, ← BitVec.ofNat_mul, ← BitVec.ofNat_add, BitVec.toNat_ofNat]
    rfl
  funext m
  rw [← octets_mod, ← hcounter, ← map_shift_eq_octets, mixCounter, Nat.mul_sub]
  simp

theorem wrapStep_eq (rk : List U8) (s : Half × (Fin n → Half)) (e : Nat × Fin n) : wrapStep rk s e =
    (mixCounter (upper (aes128Encrypt rk (join s.1 (s.2 e.2)))) (counter n e),
      Function.update s.2 e.2 (lower (aes128Encrypt rk (join s.1 (s.2 e.2))))) := by
  rw [wrapStep, mixCounter_counter]

theorem unwrapStep_wrapStep (rk : List U8) (s : Half × (Fin n → Half)) (e : Nat × Fin n) :
    unwrapStep rk (wrapStep rk s e) e = s := by
  simp only [unwrapStep, wrapStep_eq, mixCounter_mixCounter, Function.update_self, join_halves, decrypt_encrypt,
    upper_join, lower_join, Function.update_idem, Function.update_eq_self]

theorem wrapStep_unwrapStep (rk : List U8) (s : Half × (Fin n → Half)) (e : Nat × Fin n) :
    wrapStep rk (unwrapStep rk s e) e = s := by
  simp only [unwrapStep, wrapStep_eq, Function.update_self, join_halves, encrypt_decrypt, upper_join, lower_join,
    mixCounter_mixCounter, Function.update_idem, Function.update_eq_self]

theorem passes_reverse : ((List.range 6).reverse.flatMap fun j => (List.finRange n).reverse.map (j, ·)) =
    ((List.range 6).flatMap fun j => (List.finRange n).map (j, ·)).reverse := by
  rw [List.reverse_flatMap]
  exact congrArg (List.flatMap · _) (funext fun j => List.map_reverse)

/-- Unwrapping succeeds on what key wrap gives, and on nothing else. -/
theorem key_unwrap (kek : Fin 16 → U8) (n : Nat) :
    (∀ plain : Fin n → Half, aesUnwrap kek (keyWrap kek plain) = (0, plain)) ∧
      (∀ cipher : Half × (Fin n → Half), (aesUnwrap kek cipher).1 = 0 ↔ ∃ plain, keyWrap kek plain = cipher) ∧
      ∀ b, aes128Decrypt (aes128Key kek) (aes128Encrypt (aes128Key kek) b) = b := by
  have hback : ∀ plain : Fin n → Half, aesUnwrap kek (keyWrap kek plain) = (0, plain) := by
    intro plain
    rw [aesUnwrap, passes_reverse, keyWrap, foldl_undo (unwrapStep_wrapStep _)]
    exact congrArg (·, plain) (if_pos fun _ => rfl)
  refine ⟨hback, fun cipher => ⟨fun h => ⟨(aesUnwrap kek cipher).2, ?_⟩, ?_⟩, decrypt_encrypt _⟩
  · rw [aesUnwrap, passes_reverse] at h ⊢
    generalize hs : List.foldl (unwrapStep (aes128Key kek)) cipher _ = s at h ⊢
    dsimp only at h ⊢
    split at h
    · next hiv =>
      have hundo := foldl_undo (wrapStep_unwrapStep (aes128Key kek)) cipher
        ((List.range 6).flatMap fun j => (List.finRange n).map (j, ·)).reverse
      rw [List.reverse_reverse, hs] at hundo
      have hfst : (fun _ => 0xa6) = s.1 := funext fun k => (hiv k).symm
      rw [keyWrap, hfst]
      exact hundo
    · cases h
  · rintro ⟨plain, rfl⟩
    rw [hback]

end Sic.Aes
