import Mathlib.Data.List.Range
import Sic.Lib.Bytes
import Sic.Lib.Fields

/-! Reading a range of bytes from a block device. A run of sectors is read if each of them is, and a
bounce buffer can always be had. -/

namespace Sic.Fs

structure Disk where
  sectors : Nat
  sectorSize : Nat
  /-- `d->read(d, lba, 1, buf)`. -/
  sector : Nat → Option (Nat → U8)
  sectorSize_pos : 0 < sectorSize
  addressable : sectors * sectorSize < 2 ^ 64
  sector_past : ∀ lba, sectors ≤ lba → sector lba = none

namespace Disk

variable (d : Disk)

def bytes (n : Nat) (b : Nat → U8) : Bytes := (List.range n).map b

def readRun (lba : Nat) : Nat → Option Bytes
  | 0 => some []
  | k + 1 => do
    let sec ← d.sector lba
    let rest ← readRun (lba + 1) k
    some (bytes d.sectorSize sec ++ rest)

def readLoop (off len : Nat) : Nat → Nat → Bytes
  | 0, _ => []
  | fuel + 1, done =>
    if done < len then
      let lba := (off + done) % 2 ^ 64 / d.sectorSize
      let i := (off + done) % 2 ^ 64 % d.sectorSize
      let n := min (d.sectorSize - i) (len - done)
      if i = 0 ∧ n = d.sectorSize then
        let k := min ((len - done) / d.sectorSize % 2 ^ 32) 2048
        match d.readRun lba k with
        | none => []
        | some run => run ++ readLoop off len fuel (done + k * d.sectorSize)
      else
        match d.sector lba with
        | none => []
        | some sec => bytes n (fun j => sec (i + j)) ++ readLoop off len fuel (done + n)
    else []

def readBytes (off len : Nat) : Bytes :=
  let total := d.sectors * d.sectorSize
  if total ≤ off then []
  else
    let len := if total < (off + len) % 2 ^ 64 then total - off else len
    d.readLoop off len len 0

def byte (a : Nat) : Option U8 := (d.sector (a / d.sectorSize)).map (· (a % d.sectorSize))

def get (a : Nat) : Nat → Option Bytes
  | 0 => some []
  | n + 1 => do
    let b ← d.byte a
    let rest ← get (a + 1) n
    some (b :: rest)

variable {a n off len : Nat}

theorem byte_past (h : d.sectors * d.sectorSize ≤ a) : d.byte a = none := by
  rw [byte, d.sector_past _ ((Nat.le_div_iff_mul_le d.sectorSize_pos).mpr h), Option.map_none]

theorem get_length {bs : Bytes} (h : d.get a n = some bs) : bs.length = n := by
  induction n generalizing a bs with
  | zero => cases h; rfl
  | succ n ih =>
    cases hb : d.byte a with
    | none => simp [get, hb] at h
    | some b =>
      cases hr : d.get (a + 1) n with
      | none => simp [get, hb, hr] at h
      | some rest =>
        simp only [get, hb, hr, Option.bind_eq_bind, Option.bind_some, Option.some.injEq] at h
        rw [← h, List.length_cons, ih hr]

theorem get_add (a m n : Nat) :
    d.get a (m + n) = (d.get a m).bind fun x => (d.get (a + m) n).map (x ++ ·) := by
  induction m generalizing a with
  | zero => simp [get]
  | succ m ih =>
    rw [Nat.add_right_comm, get, get, ih, Nat.add_assoc a 1 m, Nat.add_comm 1 m]
    cases d.byte a with
    | none => rfl
    | some b =>
      cases d.get (a + 1) m with
      | none => rfl
      | some x => cases d.get (a + (m + 1)) n <;> rfl

theorem get_past (h : d.sectors * d.sectorSize < a + n) (hn : 0 < n) : d.get a n = none := by
  induction n generalizing a with
  | zero => omega
  | succ n ih =>
    by_cases ha : d.sectors * d.sectorSize ≤ a
    · rw [get, d.byte_past ha]
      rfl
    · rw [get, ih (by omega) (by omega)]
      cases d.byte a <;> rfl

theorem bytes_succ (n : Nat) (b : Nat → U8) : bytes (n + 1) b = b 0 :: bytes n (fun j => b (j + 1)) := by
  simp [bytes, List.range_succ_eq_map]

theorem get_sector (lba : Nat) {i : Nat} (h : i + n ≤ d.sectorSize) (hn : 0 < n) :
    d.get (lba * d.sectorSize + i) n = (d.sector lba).map fun sec => bytes n (fun j => sec (i + j)) := by
  induction n generalizing i with
  | zero => omega
  | succ n ih =>
    have hdiv : (lba * d.sectorSize + i) / d.sectorSize = lba := by
      rw [Nat.mul_comm, Nat.mul_add_div d.sectorSize_pos, Nat.div_eq_of_lt (by omega), Nat.add_zero]
    have hmod : (lba * d.sectorSize + i) % d.sectorSize = i := by
      rw [Nat.mul_comm, Nat.mul_add_mod, Nat.mod_eq_of_lt (by omega)]
    rw [get, byte, hdiv, hmod]
    cases hs : d.sector lba with
    | none => rfl
    | some sec =>
      have hrest : d.get (lba * d.sectorSize + i + 1) n = some (bytes n (fun j => sec (i + (j + 1)))) := by
        cases n with
        | zero => rfl
        | succ n =>
          rw [Nat.add_assoc, ih (by omega) (by omega), hs, Option.map_some]
          simp only [Nat.add_assoc, Nat.add_comm 1]
      simp only [Option.map_some, hrest, bytes_succ, Nat.add_zero]
      rfl

theorem get_readRun (lba k : Nat) : d.get (lba * d.sectorSize) (k * d.sectorSize) = d.readRun lba k := by
  induction k generalizing lba with
  | zero => simp [get, readRun]
  | succ k ih =>
    have hsec := d.get_sector lba (i := 0) (Nat.le_of_eq (Nat.zero_add _)) d.sectorSize_pos
    rw [Nat.add_zero] at hsec
    rw [Nat.succ_mul, Nat.add_comm (k * _), get_add, hsec, ← Nat.succ_mul, ih, readRun]
    cases d.sector lba with
    | none => rfl
    | some sec =>
      simp only [Nat.zero_add]
      cases d.readRun (lba + 1) k <;> rfl

def Gives (got : Bytes) (a n : Nat) : Prop :=
  match d.get a n with
  | some bs => got = bs
  | none => got.length < n

variable {d}

theorem Gives.nil (hn : 0 < n) (h : d.get a n = none) : d.Gives [] a n := by
  rw [Gives, h]
  exact hn

theorem Gives.append {x rest : Bytes} {m : Nat} (hx : d.get a m = some x) (hr : d.Gives rest (a + m) n) :
    d.Gives (x ++ rest) a (m + n) := by
  rw [Gives, get_add, hx, Option.bind_some]
  rw [Gives] at hr
  cases hn : d.get (a + m) n with
  | none =>
    rw [hn] at hr
    simp only [Option.map_none, List.length_append, d.get_length hx]
    simp only at hr
    omega
  | some y =>
    rw [hn] at hr
    simp only at hr
    rw [hr]
    rfl

theorem Gives.stop {m : Nat} (hm : 0 < m) (hx : d.get a m = none) : d.Gives [] a (m + n) := by
  refine .nil (by omega) ?_
  rw [get_add, hx]
  rfl

theorem Gives.whole {got : Bytes} (h : d.Gives got a n) :
    (if got.length = n then some got else none) = d.get a n := by
  rw [Gives] at h
  cases hg : d.get a n with
  | none =>
    rw [hg] at h
    exact if_neg (Nat.ne_of_lt h)
  | some bs =>
    rw [hg] at h
    simp only at h
    rw [h, if_pos (d.get_length hg)]

theorem Gives.length_le {got : Bytes} (h : d.Gives got a n) : got.length ≤ n := by
  rw [Gives] at h
  cases hg : d.get a n with
  | none =>
    rw [hg] at h
    exact Nat.le_of_lt h
  | some bs =>
    rw [hg] at h
    simp only at h
    rw [h, d.get_length hg]

theorem readLoop_gives (hlen : len < 2 ^ 32) {fuel done : Nat} (hf : len ≤ done + fuel)
    (hd : done ≤ len) (ho : off + done ≤ d.sectors * d.sectorSize) :
    d.Gives (d.readLoop off len fuel done) (off + done) (len - done) := by
  induction fuel generalizing done with
  | zero =>
    rw [show len - done = 0 by omega]
    rfl
  | succ fuel ih =>
    have hpos := d.sectorSize_pos
    have h64 : (off + done) % 2 ^ 64 = off + done := Nat.mod_eq_of_lt (Nat.lt_of_le_of_lt ho d.addressable)
    have hsplit := Nat.div_add_mod' (off + done) d.sectorSize
    have hmod := Nat.mod_lt (off + done) hpos
    rw [readLoop]
    split
    next hlt =>
      simp only [h64]
      generalize hi : (off + done) % d.sectorSize = i at *
      generalize (off + done) / d.sectorSize = lba at *
      split
      next hwhole =>
        obtain ⟨rfl, hwhole⟩ := hwhole
        have hk : (len - done) / d.sectorSize % 2 ^ 32 = (len - done) / d.sectorSize :=
          Nat.mod_eq_of_lt (Nat.lt_of_le_of_lt (Nat.div_le_self _ _) (by omega))
        rw [hk]
        have hone : 1 ≤ (len - done) / d.sectorSize := (Nat.le_div_iff_mul_le hpos).mpr (by omega)
        generalize hkk : min ((len - done) / d.sectorSize) 2048 = k
        have hk1 : 1 ≤ k := by omega
        have hkle : k * d.sectorSize ≤ len - done :=
          Nat.le_trans (Nat.mul_le_mul_right _ (by omega)) (Nat.div_mul_le_self _ _)
        have hkpos : 0 < k * d.sectorSize := Nat.mul_pos hk1 hpos
        have hrun := d.get_readRun lba k
        rw [show lba * d.sectorSize = off + done by omega] at hrun
        rw [show len - done = k * d.sectorSize + (len - (done + k * d.sectorSize)) by omega]
        split
        next hn => exact .stop hkpos (hrun.trans hn)
        next run hs =>
          refine .append (hrun.trans hs) ?_
          by_cases hpast : off + (done + k * d.sectorSize) ≤ d.sectors * d.sectorSize
          · rw [Nat.add_assoc]
            exact ih (by omega) (by omega) hpast
          have := d.get_past (a := off + done) (n := k * d.sectorSize) (by omega) hkpos
          rw [hrun, hs] at this
          cases this
      next hpart =>
        generalize hn : min (d.sectorSize - i) (len - done) = n at *
        have hsec := d.get_sector lba (i := i) (n := n) (by omega) (by omega)
        rw [hsplit] at hsec
        rw [show len - done = n + (len - (done + n)) by omega]
        split
        next hnone => exact .stop (by omega) (by rw [hsec, hnone]; rfl)
        next sec hsome =>
          have hgot : d.get (off + done) n = some (bytes n fun j => sec (i + j)) := by rw [hsec, hsome]; rfl
          refine .append hgot ?_
          by_cases hpast : off + (done + n) ≤ d.sectors * d.sectorSize
          · rw [Nat.add_assoc]
            exact ih (by omega) (by omega) hpast
          have := d.get_past (a := off + done) (n := n) (by omega) (by omega)
          rw [hgot] at this
          cases this
    next hge =>
      rw [show len - done = 0 by omega]
      rfl

theorem start_gives (hlen : len < 2 ^ 32) (ho : off ≤ d.sectors * d.sectorSize) :
    d.Gives (d.readLoop off len len 0) off len := by
  have h := readLoop_gives hlen (Nat.le_of_eq (Nat.zero_add len).symm) (Nat.zero_le _) ho
  rwa [Nat.sub_zero, Nat.add_zero] at h

theorem readBytes_whole (hlen : len < 2 ^ 32) (hpos : 0 < len) :
    (if (d.readBytes off len).length = len then some (d.readBytes off len) else none) = d.get off len := by
  rw [readBytes]
  simp only
  split
  next hpast =>
    rw [d.get_past (by omega) hpos]
    exact if_neg (Nat.ne_of_lt hpos)
  next hin =>
    split
    next hclamp =>
      have hlt : d.sectors * d.sectorSize < off + len := Nat.lt_of_lt_of_le hclamp (Nat.mod_le _ _)
      have hle := (start_gives (d := d) (show d.sectors * d.sectorSize - off < 2 ^ 32 by omega)
        (Nat.le_of_not_le hin)).length_le
      rw [d.get_past hlt hpos]
      exact if_neg (by omega)
    next => exact (start_gives hlen (by omega)).whole

end Disk

end Sic.Fs
