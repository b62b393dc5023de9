import Mathlib.Data.List.GetD
import Sic.Fs.Disk

/-! Reading and writing a range of bytes of a block device whose transfers succeed. The device is seen
as its bytes, one sector after the other. -/

namespace Sic.Fs

structure Dev where
  sectors : Nat
  sectorSize : Nat
  byte : Nat → U8

inductive Round where
  | run (lba k : Nat)
  | part (lba i n : Nat)

namespace Dev

def round (ss off len done : Nat) : Round :=
  let lba := (off + done) % 2 ^ 64 / ss
  let i := (off + done) % 2 ^ 64 % ss
  let n := min (ss - i) (len - done)
  if i = 0 ∧ n = ss then .run lba (min ((len - done) / ss % 2 ^ 32) 2048) else .part lba i n

def advance (ss : Nat) : Round → Nat
  | .run _ k => k * ss
  | .part _ _ n => n

variable {σ : Type} (body : σ → Nat → Round → σ)

/-- The loop of both functions; `none` if it has not ended after `fuel` rounds. -/
def loop (ss off len : Nat) : Nat → Nat → σ → Option σ
  | 0, done, s => if done < len then none else some s
  | fuel + 1, done, s =>
    if done < len then
      let r := round ss off len done
      loop ss off len fuel (done + advance ss r) (body s done r)
    else some s

variable (d : Dev)

def readSectors (lba k : Nat) : Bytes :=
  (List.range (k * d.sectorSize)).map fun j => d.byte (lba * d.sectorSize + j)

def writeSectors (lba : Nat) (buf : Bytes) : Dev :=
  { d with byte := fun a =>
      if lba * d.sectorSize ≤ a then buf.getD (a - lba * d.sectorSize) (d.byte a) else d.byte a }

def total : Nat := d.sectors * d.sectorSize % 2 ^ 64

def clamped (off len : Nat) : Nat :=
  if d.total < (off + len) % 2 ^ 64 then d.total - off else len

def readRound (out : Bytes) (_done : Nat) : Round → Bytes
  | .run lba k => out ++ d.readSectors lba k
  | .part lba i n => out ++ ((d.readSectors lba 1).drop i).take n

def readBytes (fuel off len : Nat) : Option Bytes :=
  if d.total ≤ off then some []
  else loop d.readRound d.sectorSize off (d.clamped off len) fuel 0 []

def writeRound (buf : Bytes) (d : Dev) (done : Nat) : Round → Dev
  | .run lba k => d.writeSectors lba ((buf.drop done).take (k * d.sectorSize))
  | .part lba i n =>
    let bounce := d.readSectors lba 1
    d.writeSectors lba (bounce.take i ++ (buf.drop done).take n ++ bounce.drop (i + n))

def writeBytes (fuel off : Nat) (buf : Bytes) : Option (Int × Dev) :=
  if d.total ≤ off then some (-1, d)
  else
    let len := d.clamped off buf.length
    (loop (writeRound buf) d.sectorSize off len fuel 0 d).map fun d' => (Int.ofNat len, d')

def size : Nat := d.sectors * d.sectorSize

def inside (off len : Nat) : Nat := min len (d.size - off)

def upto (off n : Nat) : Bytes := (List.range n).map fun j => d.byte (off + j)

def slice (off len : Nat) : Bytes := d.upto off (d.inside off len)

def patch (off n : Nat) (buf : Bytes) : Dev :=
  { d with byte := fun a => if off ≤ a ∧ a < off + n then buf.getD (a - off) 0 else d.byte a }

def splice (off : Nat) (buf : Bytes) : Dev := d.patch off (d.inside off buf.length) buf

def wholeSectors (ss a e : Nat) : Nat := e / ss - (a + ss - 1) / ss

section Loop

variable {ss off len done : Nat}

theorem wholeSectors_aligned (hss : 0 < ss) (s e : Nat) : wholeSectors ss (s * ss) e = e / ss - s := by
  have h : (s * ss + ss - 1) / ss = s := by
    rw [show s * ss + ss - 1 = ss * s + (ss - 1) by rw [Nat.mul_comm]; omega, Nat.mul_add_div hss,
      Nat.div_eq_of_lt (by omega), Nat.add_zero]
  rw [wholeSectors, h]

theorem wholeSectors_inner {i : Nat} (hi : 0 < i) (his : i < ss) (s e : Nat) :
    wholeSectors ss (s * ss + i) e = e / ss - (s + 1) := by
  have h : (s * ss + i + ss - 1) / ss = s + 1 := by
    rw [show s * ss + i + ss - 1 = ss * (s + 1) + (i - 1) by rw [Nat.mul_add, Nat.mul_comm ss s]; omega,
      Nat.mul_add_div (by omega), Nat.div_eq_of_lt (by omega), Nat.add_zero]
  rw [wholeSectors, h]

theorem round_cases (hss : 0 < ss) (hb : off + len < 2 ^ 64) (hd : done < len) :
    ∃ s i, off + done = s * ss + i ∧ i < ss ∧
      ((i = 0 ∧ ss ≤ len - done ∧
          round ss off len done = .run s (min (((off + len) / ss - s) % 2 ^ 32) 2048)) ∨
        ((0 < i ∨ len - done < ss) ∧ round ss off len done = .part s i (min (ss - i) (len - done)))) := by
  have hmod : (off + done) % 2 ^ 64 = off + done := Nat.mod_eq_of_lt (by omega)
  have hdiv := Nat.div_add_mod (off + done) ss
  have hlt := Nat.mod_lt (off + done) hss
  rw [Nat.mul_comm] at hdiv
  refine ⟨(off + done) / ss, (off + done) % ss, hdiv.symm, hlt, ?_⟩
  simp only [round, hmod]
  by_cases h : (off + done) % ss = 0 ∧ min (ss - (off + done) % ss) (len - done) = ss
  · have hq : (len - done) / ss = (off + len) / ss - (off + done) / ss := by
      rw [show off + len = ss * ((off + done) / ss) + (len - done) by rw [Nat.mul_comm]; omega,
        Nat.mul_add_div hss, Nat.add_sub_cancel_left]
    rw [if_pos h, hq]
    exact .inl ⟨h.1, by omega, rfl⟩
  · rw [if_neg h]
    exact .inr ⟨by omega, rfl⟩

theorem advance_le (hss : 0 < ss) (hb : off + len < 2 ^ 64) (hd : done < len) :
    done + advance ss (round ss off len done) ≤ len := by
  obtain ⟨s, i, ha, hi, ⟨rfl, hl, hr⟩ | ⟨_, hr⟩⟩ := round_cases hss hb hd
  · rw [hr, advance]
    have hk : min (((off + len) / ss - s) % 2 ^ 32) 2048 ≤ (off + len) / ss - s :=
      Nat.le_trans (Nat.min_le_left _ _) (Nat.mod_le _ _)
    have hmul := Nat.mul_le_mul_right ss hk
    have hq := Nat.div_mul_le_self (off + len) ss
    rw [Nat.sub_mul] at hmul
    omega
  · rw [hr, advance]
    omega

theorem wholeSectors_advance (hss : 0 < ss) (hb : off + len < 2 ^ 64) (hd : done < len) :
    let q := wholeSectors ss (off + done) (off + len)
    let q' := wholeSectors ss (off + done + advance ss (round ss off len done)) (off + len)
    (q' = q ∧ 0 < advance ss (round ss off len done)) ∨
      (q' = q - min (q % 2 ^ 32) 2048 ∧ 0 < q ∧
        advance ss (round ss off len done) = min (q % 2 ^ 32) 2048 * ss) := by
  obtain ⟨s, i, ha, hi, ⟨rfl, hl, hr⟩ | ⟨hpart, hr⟩⟩ := round_cases hss hb hd
  · right
    simp only [hr, advance, ha, Nat.add_zero, ← Nat.add_mul, wholeSectors_aligned hss]
    refine ⟨by omega, ?_, trivial⟩
    have h1 : s + 1 ≤ (off + len) / ss :=
      (Nat.le_div_iff_mul_le hss).mpr (by rw [Nat.succ_mul]; omega)
    omega
  · left
    simp only [hr, advance, ha]
    refine ⟨?_, by omega⟩
    by_cases hlast : len - done < ss - i
    · have hend : (off + len) / ss = s := by
        rw [show off + len = ss * s + (i + (len - done)) by rw [Nat.mul_comm]; omega, Nat.mul_add_div hss,
          Nat.div_eq_of_lt (by omega), Nat.add_zero]
      rw [wholeSectors, wholeSectors, hend, Nat.sub_eq_zero_of_le, Nat.sub_eq_zero_of_le]
      · exact (Nat.le_div_iff_mul_le hss).mpr (by omega)
      · exact (Nat.le_div_iff_mul_le hss).mpr (by omega)
    · have hi0 : 0 < i := by omega
      rw [Nat.min_eq_left (by omega), Nat.add_assoc, Nat.add_sub_cancel' (by omega), ← Nat.succ_mul,
        wholeSectors_aligned hss, wholeSectors_inner hi0 hi]

theorem loop_ends (hss : 0 < ss) (hb : off + len < 2 ^ 64)
    (hq : wholeSectors ss (off + done) (off + len) < 2 ^ 32) (s : σ) :
    ∃ fuel s', loop body ss off len fuel done s = some s' := by
  suffices h : ∀ fuel, len - done ≤ fuel → ∃ s', loop body ss off len fuel done s = some s' from
    ⟨_, h _ Nat.le.refl⟩
  intro fuel hf
  induction fuel generalizing done s with
  | zero => exact ⟨s, if_neg (by omega)⟩
  | succ fuel ih =>
    by_cases hd : done < len
    · have hle := advance_le hss hb hd
      have hnext := wholeSectors_advance hss hb hd
      simp only [loop, if_pos hd]
      have hpos : 0 < advance ss (round ss off len done) := by
        obtain ⟨_, hpos⟩ | ⟨_, hq0, he⟩ := hnext
        · exact hpos
        · rw [he]
          exact Nat.mul_pos (by omega) hss
      refine ih ?_ _ (by omega)
      rw [← Nat.add_assoc]
      omega
    · exact ⟨s, if_neg hd⟩

/-- With more of them ahead it never does: the runs stop short of the last `2 ^ 32`. -/
theorem loop_stuck (hss : 0 < ss) (hb : off + len < 2 ^ 64)
    (hq : 2 ^ 32 ≤ wholeSectors ss (off + done) (off + len)) (fuel : Nat) (s : σ) :
    loop body ss off len fuel done s = none := by
  have hlt {done : Nat} (hq : 2 ^ 32 ≤ wholeSectors ss (off + done) (off + len)) : done < len := by
    by_contra hge
    have h : (off + len) / ss ≤ (off + done + ss - 1) / ss := Nat.div_le_div_right (by omega)
    rw [wholeSectors] at hq
    omega
  induction fuel generalizing done s with
  | zero => exact if_pos (hlt hq)
  | succ fuel ih =>
    have hnext := wholeSectors_advance hss hb (hlt hq)
    simp only [loop, if_pos (hlt hq)]
    apply ih
    rw [← Nat.add_assoc]
    omega

theorem loop_inv (hss : 0 < ss) (hb : off + len < 2 ^ 64) (P : Nat → σ → Prop)
    (step : ∀ done s, done < len → P done s →
      P (done + advance ss (round ss off len done)) (body s done (round ss off len done)))
    {fuel : Nat} {s s' : σ} (hle : done ≤ len) (h0 : P done s)
    (h : loop body ss off len fuel done s = some s') : P len s' := by
  induction fuel generalizing done s with
  | zero =>
    rw [loop] at h
    split at h
    · cases h
    · rw [← Option.some.inj h, ← Nat.le_antisymm hle (by omega)]
      exact h0
  | succ fuel ih =>
    rw [loop] at h
    split at h
    next hd => exact ih (advance_le hss hb hd) (step done s hd h0) h
    next hd =>
      rw [← Option.some.inj h, ← Nat.le_antisymm hle (by omega)]
      exact h0

end Loop

section Bytes

variable {off len : Nat}

theorem clamped_eq (hb : off + len < 2 ^ 64) (h : off < d.total) :
    d.clamped off len = min len (d.total - off) := by
  rw [clamped, Nat.mod_eq_of_lt hb]
  split <;> omega

theorem upto_add (off m n : Nat) : d.upto off (m + n) = d.upto off m ++ d.upto (off + m) n := by
  simp [upto, List.range_add, List.map_map, Function.comp_def, Nat.add_assoc]

@[simp] theorem length_upto (off n : Nat) : (d.upto off n).length = n := by
  simp [upto]

theorem readSectors_eq (lba k : Nat) :
    d.readSectors lba k = d.upto (lba * d.sectorSize) (k * d.sectorSize) := rfl

variable {a i n m done : Nat} {buf : Bytes}

theorem take_drop_upto (h : i + n ≤ m) : ((d.upto a m).drop i).take n = d.upto (a + i) n := by
  obtain ⟨r, rfl⟩ := Nat.exists_eq_add_of_le h
  rw [Nat.add_assoc, upto_add, List.drop_left' (d.length_upto a i), upto_add,
    List.take_left' (d.length_upto _ n)]

theorem readRound_upto (hss : 0 < d.sectorSize) (hb : off + len < 2 ^ 64) (hd : done < len) :
    d.readRound (d.upto off done) done (round d.sectorSize off len done) =
      d.upto off (done + advance d.sectorSize (round d.sectorSize off len done)) := by
  obtain ⟨s, i, ha, hi, ⟨rfl, hl, hr⟩ | ⟨_, hr⟩⟩ := round_cases hss hb hd
  · rw [hr, readRound, advance, upto_add, readSectors_eq, ha, Nat.add_zero]
  · rw [hr, readRound, advance, upto_add, readSectors_eq, ha, take_drop_upto]
    omega

theorem getD_upto {j : Nat} (h : j < n) (x : U8) : (d.upto a n).getD j x = d.byte (a + j) := by
  simp [upto, h]

theorem writeSectors_around (lba i r : Nat) (mid : Bytes) (a : Nat) :
    (d.writeSectors lba (d.upto (lba * d.sectorSize) i ++ mid ++
        d.upto (lba * d.sectorSize + (i + mid.length)) r)).byte a =
      if lba * d.sectorSize + i ≤ a ∧ a < lba * d.sectorSize + i + mid.length then
        mid.getD (a - (lba * d.sectorSize + i)) 0 else d.byte a := by
  generalize hs : lba * d.sectorSize = s
  simp only [writeSectors, hs]
  by_cases h0 : s ≤ a
  · obtain ⟨j, rfl⟩ := Nat.exists_eq_add_of_le h0
    rw [if_pos h0, Nat.add_sub_cancel_left, List.append_assoc]
    by_cases h1 : j < i
    · rw [List.getD_append _ _ _ _ (by simpa using h1), getD_upto d h1, if_neg (by omega)]
    rw [List.getD_append_right _ _ _ _ (by simpa using h1), length_upto]
    by_cases h2 : j - i < mid.length
    · rw [List.getD_append _ _ _ _ h2, if_pos (by omega), Nat.add_sub_add_left,
        List.getD_eq_getElem _ _ h2, List.getD_eq_getElem _ _ h2]
    rw [List.getD_append_right _ _ _ _ (by omega), if_neg (by omega)]
    by_cases h3 : j - i - mid.length < r
    · rw [getD_upto d h3, Nat.add_assoc, Nat.add_assoc]
      congr 2
      omega
    · rw [List.getD_eq_default _ _ (by simpa using h3)]
  · rw [if_neg h0, if_neg (by omega)]

theorem drop_upto (h : i ≤ m) : (d.upto a m).drop i = d.upto (a + i) (m - i) := by
  obtain ⟨r, rfl⟩ := Nat.exists_eq_add_of_le h
  rw [upto_add, List.drop_left' (d.length_upto a i), Nat.add_sub_cancel_left]

theorem take_upto (h : i ≤ m) : (d.upto a m).take i = d.upto a i := by
  obtain ⟨r, rfl⟩ := Nat.exists_eq_add_of_le h
  rw [upto_add, List.take_left' (d.length_upto a i)]

theorem patch_patch (h : done + n ≤ buf.length) (a : Nat) :
    (if off + done ≤ a ∧ a < off + done + n then ((buf.drop done).take n).getD (a - (off + done)) 0
      else (d.patch off done buf).byte a) = (d.patch off (done + n) buf).byte a := by
  simp only [patch]
  by_cases h1 : off + done ≤ a ∧ a < off + done + n
  · rw [if_pos h1, if_pos (by omega), List.getD_eq_getElem _ _ (by simp; omega),
      List.getD_eq_getElem _ _ (by omega), List.getElem_take, List.getElem_drop]
    congr 1
    omega
  · rw [if_neg h1]
    by_cases h2 : off ≤ a ∧ a < off + done
    · rw [if_pos h2, if_pos (by omega)]
    · rw [if_neg h2, if_neg (by omega)]

theorem writeSectors_patch {s r : Nat} (ha : off + done = s * d.sectorSize + i) (h : done + n ≤ buf.length) :
    (d.patch off done buf).writeSectors s ((d.patch off done buf).upto (s * d.sectorSize) i ++
        (buf.drop done).take n ++ (d.patch off done buf).upto (s * d.sectorSize + (i + n)) r) =
      d.patch off (done + n) buf := by
  have hmid : ((buf.drop done).take n).length = n := by simp; omega
  have hb := (d.patch off done buf).writeSectors_around s i r ((buf.drop done).take n)
  rw [hmid] at hb
  simp only [show (d.patch off done buf).sectorSize = d.sectorSize from rfl, ← ha, d.patch_patch h] at hb
  rw [writeSectors, patch, patch, Dev.mk.injEq]
  exact ⟨rfl, rfl, funext hb⟩

theorem writeRound_patch (hss : 0 < d.sectorSize) (hb : off + len < 2 ^ 64)
    (hlen : len ≤ buf.length) (hd : done < len) :
    writeRound buf (d.patch off done buf) done (round d.sectorSize off len done) =
      d.patch off (done + advance d.sectorSize (round d.sectorSize off len done)) buf := by
  have hle := advance_le hss hb hd
  obtain ⟨s, i, ha, hi, ⟨rfl, hl, hr⟩ | ⟨_, hr⟩⟩ := round_cases hss hb hd
  · rw [hr] at hle ⊢
    rw [advance] at hle ⊢
    have hs := d.writeSectors_patch (r := 0) ha (Nat.le_trans hle hlen)
    simp only [upto, List.range_zero, List.map_nil, List.nil_append, List.append_nil] at hs
    exact hs
  · rw [hr] at hle ⊢
    rw [advance] at hle ⊢
    have hs := d.writeSectors_patch (r := d.sectorSize - (i + min (d.sectorSize - i) (len - done))) ha
      (Nat.le_trans hle hlen)
    rw [← hs]
    simp only [writeRound, readSectors_eq]
    rw [Nat.one_mul, take_upto _ (show i ≤ (d.patch off done buf).sectorSize from Nat.le_of_lt hi),
      drop_upto _ (show _ ≤ (d.patch off done buf).sectorSize by
        show i + min (d.sectorSize - i) (len - done) ≤ d.sectorSize
        omega)]
    rfl

theorem patch_zero (off : Nat) (buf : Bytes) : d.patch off 0 buf = d := by
  have h : ∀ a, ¬ (off ≤ a ∧ a < off + 0) := fun a => by omega
  simp only [patch, if_neg (h _)]

theorem sectorSize_pos (h : ¬ d.total ≤ off) : 0 < d.sectorSize := by
  by_contra h0
  rw [total, show d.sectorSize = 0 by omega, Nat.mul_zero, Nat.zero_mod] at h
  omega

theorem readBytes_some {fuel : Nat} {out : Bytes} (hb : off + len < 2 ^ 64)
    (h : d.readBytes fuel off len = some out) : out = d.upto off (min len (d.total - off)) := by
  rw [readBytes] at h
  split at h
  next ht =>
    rw [Nat.sub_eq_zero_of_le ht, Nat.min_zero]
    exact (Option.some.inj h).symm
  next ht =>
    have hss := d.sectorSize_pos ht
    rw [d.clamped_eq hb (Nat.lt_of_not_le ht)] at h
    refine loop_inv d.readRound hss (by omega) (fun done out => out = d.upto off done) ?_ (Nat.zero_le _)
      (by simp [upto]) h
    rintro done _ hd rfl
    exact d.readRound_upto hss (by omega) hd

theorem writeBytes_some {fuel : Nat} {r : Int} {d' : Dev} (hb : off + buf.length < 2 ^ 64)
    (h : d.writeBytes fuel off buf = some (r, d')) :
    d' = d.patch off (min buf.length (d.total - off)) buf := by
  rw [writeBytes] at h
  split at h
  next ht =>
    rw [Nat.sub_eq_zero_of_le ht, Nat.min_zero, patch_zero]
    exact (congrArg Prod.snd (Option.some.inj h)).symm
  next ht =>
    have hss := d.sectorSize_pos ht
    obtain ⟨d'', hloop, he⟩ := Option.map_eq_some_iff.mp h
    obtain rfl : d'' = d' := congrArg Prod.snd he
    rw [d.clamped_eq hb (Nat.lt_of_not_le ht)] at hloop
    refine loop_inv (writeRound buf) hss (by omega) (fun done d' => d' = d.patch off done buf) ?_
      (Nat.zero_le _) (d.patch_zero off buf).symm hloop
    rintro done _ hd rfl
    exact d.writeRound_patch hss (by omega) (Nat.min_le_left _ _) hd

theorem readBytes_ends_iff (hb : off + len < 2 ^ 64) :
    (∃ fuel out, d.readBytes fuel off len = some out) ↔
      wholeSectors d.sectorSize off (off + min len (d.total - off)) < 2 ^ 32 := by
  by_cases ht : d.total ≤ off
  · have h0 : off / d.sectorSize ≤ (off + d.sectorSize - 1) / d.sectorSize := by
      by_cases h : d.sectorSize = 0
      · simp [h]
      · exact Nat.div_le_div_right (by omega)
    simp only [readBytes, if_pos ht, Nat.sub_eq_zero_of_le ht, Nat.min_zero, Nat.add_zero, wholeSectors,
      Nat.sub_eq_zero_of_le h0]
    simp
  · have hss := d.sectorSize_pos ht
    simp only [readBytes, if_neg ht, d.clamped_eq hb (Nat.lt_of_not_le ht)]
    constructor
    · rintro ⟨fuel, out, h⟩
      by_contra hq
      rw [loop_stuck d.readRound hss (by omega) (by simpa using hq)] at h
      cases h
    · intro hq
      exact loop_ends d.readRound hss (by omega) (by simpa using hq) []

theorem writeBytes_ends (hb : off + buf.length < 2 ^ 64)
    (hq : wholeSectors d.sectorSize off (off + min buf.length (d.total - off)) < 2 ^ 32) :
    ∃ fuel r d', d.writeBytes fuel off buf = some (r, d') := by
  by_cases ht : d.total ≤ off
  · exact ⟨0, _, _, if_pos ht⟩
  obtain ⟨fuel, d', h⟩ := loop_ends (writeRound buf) (d.sectorSize_pos ht)
    (show off + min buf.length (d.total - off) < 2 ^ 64 by omega)
    (show wholeSectors d.sectorSize (off + 0) _ < _ from hq) d
  refine ⟨fuel, Int.ofNat (min buf.length (d.total - off)), d', ?_⟩
  simp only [writeBytes, if_neg ht, d.clamped_eq hb (Nat.lt_of_not_le ht), h, Option.map_some]

/-- Both functions agree with the flat array exactly when the size of the device in bytes does not cut
the range short, and less than `2 ^ 32` whole sectors are in it. -/
theorem byte_access_iff (off len : Nat) (hb : off + len < 2 ^ 64) :
    ((∃ fuel, d.readBytes fuel off len = some (d.slice off len)) ∧
      ∀ buf : Bytes, buf.length = len →
        ∃ fuel r, d.writeBytes fuel off buf = some (r, d.splice off buf)) ↔
      min len (d.total - off) = d.inside off len ∧
        wholeSectors d.sectorSize off (off + d.inside off len) < 2 ^ 32 := by
  constructor
  · rintro ⟨⟨fuel, hr⟩, -⟩
    have he := congrArg List.length (d.readBytes_some hb hr)
    rw [slice, length_upto, length_upto] at he
    rw [he]
    exact ⟨rfl, (d.readBytes_ends_iff hb).mp ⟨fuel, _, hr⟩⟩
  · rintro ⟨he, hq⟩
    rw [← he] at hq
    constructor
    · obtain ⟨fuel, out, h⟩ := (d.readBytes_ends_iff hb).mpr hq
      refine ⟨fuel, ?_⟩
      rw [h, d.readBytes_some hb h, he, slice]
    · rintro buf rfl
      obtain ⟨fuel, r, d', h⟩ := d.writeBytes_ends hb hq
      refine ⟨fuel, r, ?_⟩
      rw [h, d.writeBytes_some hb h, he, splice]

theorem byte_access_small :
    let d : Dev := ⟨4, 4, fun a => BitVec.ofNat 8 a⟩
    3 + 20 < 2 ^ 64 ∧ (∃ fuel, d.readBytes fuel 3 20 = some (d.slice 3 20)) ∧
      ∀ buf : Bytes, buf.length = 20 → ∃ fuel r, d.writeBytes fuel 3 buf = some (r, d.splice 3 buf) :=
  ⟨by decide, (byte_access_iff _ 3 20 (by decide)).mpr (by decide)⟩

/-- A read of 2 ^ 32 sectors asks the driver for none of them, for ever. -/
theorem readBytes_forever :
    let d : Dev := ⟨2 ^ 32, 512, fun _ => 0⟩
    0 + 2 ^ 41 < 2 ^ 64 ∧ ∀ fuel, d.readBytes fuel 0 (2 ^ 41) ≠ some (d.slice 0 (2 ^ 41)) := by
  refine ⟨by decide, fun fuel h => ?_⟩
  have hq := (readBytes_ends_iff ⟨2 ^ 32, 512, fun _ => 0⟩ (by decide)).mp ⟨fuel, _, h⟩
  exact absurd hq (by decide)

/-! ### The disk that the file systems read from -/

def toDisk (hss : 0 < d.sectorSize) (hsize : d.size < 2 ^ 64) : Disk where
  sectors := d.sectors
  sectorSize := d.sectorSize
  sector lba := if lba < d.sectors then some fun i => d.byte (lba * d.sectorSize + i) else none
  sectorSize_pos := hss
  addressable := hsize
  sector_past _ h := if_neg (Nat.not_lt.mpr h)

theorem get_toDisk {hss : 0 < d.sectorSize} {hsize : d.size < 2 ^ 64} (h : off + len ≤ d.size) :
    (d.toDisk hss hsize).get off len = some (d.upto off len) := by
  induction len generalizing off with
  | zero => rfl
  | succ len ih =>
    have hbyte : (d.toDisk hss hsize).byte off = some (d.byte off) := by
      rw [Disk.byte, toDisk]
      dsimp only
      rw [if_pos ((Nat.div_lt_iff_lt_mul hss).mpr (Nat.lt_of_lt_of_le (by omega) h)), Option.map_some]
      exact congrArg (fun a => some (d.byte a)) (Nat.div_add_mod' off _)
    rw [Disk.get, hbyte, ih (by omega), upto, upto, List.range_succ_eq_map]
    simp [Function.comp_def, Nat.add_assoc, Nat.add_comm 1]

theorem wholeSectors_le (ss a n : Nat) : wholeSectors ss a (a + n) ≤ n := by
  rcases Nat.eq_zero_or_pos ss with rfl | hss
  · simp [wholeSectors]
  · have hmul : (a + n) / ss ≤ (a + n * ss) / ss :=
      Nat.div_le_div_right (Nat.add_le_add_left (Nat.le_mul_of_pos_right n hss) a)
    have hup : a / ss ≤ (a + ss - 1) / ss := Nat.div_le_div_right (by omega)
    rw [Nat.add_mul_div_right _ _ hss] at hmul
    rw [wholeSectors]
    omega

/-- Both models of `blkdev_read_bytes` read the same from a disk on which every sector can be read. -/
theorem readBytes_toDisk {hss : 0 < d.sectorSize} {hsize : d.size < 2 ^ 64} (hin : off + len ≤ d.size)
    (hlen : len < 2 ^ 32) (hpos : 0 < len) :
    ∃ fuel, d.readBytes fuel off len = some ((d.toDisk hss hsize).readBytes off len) := by
  have htotal : d.total = d.size := Nat.mod_eq_of_lt hsize
  have hmin : min len (d.total - off) = len := by omega
  have hb : off + len < 2 ^ 64 := by omega
  have hwhole : _ = (d.toDisk hss hsize).get off len := Disk.readBytes_whole hlen hpos
  rw [d.get_toDisk hin] at hwhole
  split at hwhole
  · obtain ⟨fuel, out, h⟩ := (d.readBytes_ends_iff hb).mpr
      (Nat.lt_of_le_of_lt (wholeSectors_le _ _ _) (by rw [hmin]; exact hlen))
    refine ⟨fuel, ?_⟩
    rw [h, d.readBytes_some hb h, hmin, hwhole]
  · cases hwhole

end Bytes

end Dev

end Sic.Fs
