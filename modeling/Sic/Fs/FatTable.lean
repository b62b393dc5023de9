import Sic.Fs.Fat
import Sic.Lib.Run

/-! The table as an array of entries. Its cache and the batches do not show: an entry reads as it was
set last, and the copies end up as if every change had been written at once. -/

namespace Sic.Fs.Fat

def norm (k : Kind) (value : Nat) : Nat :=
  match k with
  | .fat12 => if 0xFF8 ≤ value % 4096 then 0x0FFFFFFF else value % 4096
  | .fat16 => if 0xFFF8 ≤ value % 65536 then 0x0FFFFFFF else value % 65536
  | .fat32 => if 0x0FFFFFF8 ≤ value % 2 ^ 28 then 0x0FFFFFFF else value % 2 ^ 28

def entry (k : Kind) (b : Nat → U8) (c : Nat) : Nat := decode k c (leGet b (entryOff k c) (width k))

def setEntry (k : Kind) (b : Nat → U8) (c value : Nat) : Nat → U8 :=
  lePut b (entryOff k c) (width k) (encode k c (leGet b (entryOff k c) (width k)) value)

theorem encode_lt {k : Kind} {c old value : Nat} (h : old < 256 ^ width k) :
    encode k c old value < 256 ^ width k := by
  cases k <;> simp only [encode, width] at * <;> (try split) <;> omega

theorem decode_encode {k : Kind} {c old value : Nat} (h : old < 256 ^ width k) :
    decode k c (encode k c old value) = norm k value := by
  cases k with
  | fat12 =>
    simp only [width] at h
    by_cases hc : c % 2 = 1
    · have hv : (old % 16 + value % 4096 * 16) / 16 = value % 4096 := by omega
      simp only [decode, encode, norm, if_pos hc, hv]
    · have hv : (old / 4096 * 4096 + value % 4096) % 4096 = value % 4096 := by omega
      simp only [decode, encode, norm, if_neg hc, hv]
  | fat16 => rfl
  | fat32 =>
    have hv : (old / 2 ^ 28 * 2 ^ 28 + value % 2 ^ 28) % 2 ^ 28 = value % 2 ^ 28 := by omega
    simp only [decode, encode, norm, hv]

theorem entry_setEntry_self (k : Kind) (b : Nat → U8) (c value : Nat) :
    entry k (setEntry k b c value) c = norm k value := by
  have hold := leGet_lt b (entryOff k c) (width k)
  rw [entry, setEntry, leGet_lePut, Nat.mod_eq_of_lt (encode_lt hold), decode_encode hold]

theorem leGet_two (b : Nat → U8) (o : Nat) : leGet b o 2 = (b o).toNat + 256 * (b (o + 1)).toNat := by
  simp [leGet]

/-- Two entries of twelve bits may share a byte, half of which is each one's. -/
theorem decode_setEntry_near (b : Nat → U8) {c c' : Nat} (value : Nat)
    (h : (c % 2 = 0 ∧ c' = c + 1) ∨ (c' % 2 = 0 ∧ c = c' + 1)) :
    entry .fat12 (setEntry .fat12 b c value) c' = entry .fat12 b c' := by
  have hb := fun o => (b o).isLt
  rcases h with ⟨hc, rfl⟩ | ⟨hc, rfl⟩
  · have ho : entryOff .fat12 (c + 1) = entryOff .fat12 c + 1 := by simp only [entryOff]; omega
    generalize hoff : entryOff .fat12 c = o at *
    have h1 := hb o
    have h2 := hb (o + 1)
    have hraw : leGet (setEntry .fat12 b c value) (o + 1) 2 / 16 = leGet b (o + 1) 2 / 16 := by
      simp only [setEntry, hoff, width, leGet_two, lePut, encode, if_neg (show ¬ c % 2 = 1 by omega)]
      rw [if_pos (by omega), if_neg (by omega), show o + 1 - o = 1 by omega, BitVec.toNat_ofNat]
      omega
    simp only [entry, ho, width, decode, if_pos (show (c + 1) % 2 = 1 by omega), hraw]
  · have ho : entryOff .fat12 (c' + 1) = entryOff .fat12 c' + 1 := by simp only [entryOff]; omega
    generalize hoff : entryOff .fat12 c' = o at *
    have h1 := hb o
    have h2 := hb (o + 1)
    have hraw : leGet (setEntry .fat12 b (c' + 1) value) o 2 % 4096 = leGet b o 2 % 4096 := by
      simp only [setEntry, ho, width, leGet_two, lePut, encode, if_pos (show (c' + 1) % 2 = 1 by omega)]
      rw [if_neg (by omega), if_pos (by omega), Nat.sub_self, BitVec.toNat_ofNat]
      omega
    simp only [entry, hoff, width, decode, if_neg (show ¬ c' % 2 = 1 by omega), hraw]

theorem entry_setEntry_of_ne (k : Kind) (b : Nat → U8) {c c' : Nat} (value : Nat) (h : c' ≠ c) :
    entry k (setEntry k b c value) c' = entry k b c' := by
  by_cases hnear : k = .fat12 ∧ ((c % 2 = 0 ∧ c' = c + 1) ∨ (c' % 2 = 0 ∧ c = c' + 1))
  · obtain ⟨rfl, hn⟩ := hnear
    exact decode_setEntry_near b value hn
  rw [entry, setEntry, leGet_lePut_of_apart, entry]
  cases k with
  | fat12 =>
    simp only [true_and] at hnear
    simp only [entryOff, width]
    omega
  | fat16 =>
    simp only [entryOff, width]
    omega
  | fat32 =>
    simp only [entryOff, width]
    omega

theorem entry_setEntry (k : Kind) (b : Nat → U8) (c c' value : Nat) :
    entry k (setEntry k b c value) c' = if c' = c then norm k value else entry k b c' := by
  split
  next h => rw [h, entry_setEntry_self]
  next h => exact entry_setEntry_of_ne k b value h

/-- The copies of the table lie one after the other, and whole entries of two or four bytes fit in a
sector. Sector 0 stands for an empty cache. -/
structure Layout (g : Geo) : Prop where
  fatStart_pos : 0 < g.fatStart
  fats_pos : 0 < g.fats
  sectorSize_pos : 0 < g.sectorSize
  aligned : 4 ∣ g.sectorSize
  room : g.fatStart + g.fats * g.fatSectors ≤ 2 ^ 32

def IsFat (g : Geo) (sector : Nat) : Prop := g.fatStart ≤ sector ∧ sector < g.fatStart + g.fatSectors

structure InFat (g : Geo) (c : Nat) : Prop where
  inside : entryOff g.kind c + width g.kind ≤ g.fatSectors * g.sectorSize
  lt : entryOff g.kind c < 2 ^ 32

def table (g : Geo) (s : State) : Nat → U8 :=
  fun o =>
    if o < g.fatSectors * g.sectorSize then
      s.io.view (g.fatStart + o / g.sectorSize) (o % g.sectorSize) else 0

structure Ready (g : Geo) (s : State) : Prop where
  mirrored : s.io.Mirrored (copies g) (IsFat g)
  batched : s.io.dirty = true → s.batch = true

structure Left (g : Geo) (s s' : State) (t : Nat → U8) : Prop where
  ready : Ready g s'
  table : table g s' = t
  data : ∀ a, (∀ k, IsFat g k → a ∉ copies g k) → s'.io.dev a = s.io.dev a
  batch : s'.batch = s.batch
  noZero : s'.noZero = s.noZero
  nextFree : s'.nextFree = s.nextFree

variable {g : Geo} {s : State} {c : Nat}

theorem copy_lt {sector i : Nat} (hs : IsFat g sector) (hi : i < g.fats) :
    sector + i * g.fatSectors < g.fatStart + g.fats * g.fatSectors := by
  have h : (i + 1) * g.fatSectors ≤ g.fats * g.fatSectors := Nat.mul_le_mul_right _ hi
  rw [Nat.succ_mul] at h
  have := hs.2
  omega

theorem Layout.mem_copies (hl : Layout g) {sector a : Nat} (hs : IsFat g sector) :
    a ∈ copies g sector ↔ ∃ i, i < g.fats ∧ a = sector + i * g.fatSectors := by
  simp only [copies, List.mem_map, List.mem_range]
  constructor
  · rintro ⟨i, hi, rfl⟩
    have := copy_lt hs hi
    have := hl.room
    exact ⟨i, hi, Nat.mod_eq_of_lt (by omega)⟩
  · rintro ⟨i, hi, rfl⟩
    have := copy_lt hs hi
    have := hl.room
    exact ⟨i, hi, Nat.mod_eq_of_lt (by omega)⟩

theorem Layout.apart (hl : Layout g) : WriteBack.Apart (copies g) (IsFat g) where
  self k hk := (hl.mem_copies hk).mpr ⟨0, hl.fats_pos, by omega⟩
  only k k' a hk hk' ha ha' := by
    obtain ⟨i, hi, rfl⟩ := (hl.mem_copies hk).mp ha
    obtain ⟨j, hj, he⟩ := (hl.mem_copies hk').mp ha'
    obtain ⟨x, rfl⟩ := Nat.exists_eq_add_of_le hk.1
    obtain ⟨y, rfl⟩ := Nat.exists_eq_add_of_le hk'.1
    have hx : x < g.fatSectors := by have := hk.2; omega
    have hy : y < g.fatSectors := by have := hk'.2; omega
    -- both sides are a place `x` below `fatSectors` in the `i`-th copy
    have hxy : (x + i * g.fatSectors) % g.fatSectors = (y + j * g.fatSectors) % g.fatSectors := by
      congr 1
      omega
    rw [Nat.add_mul_mod_self_right, Nat.add_mul_mod_self_right, Nat.mod_eq_of_lt hx,
      Nat.mod_eq_of_lt hy] at hxy
    rw [hxy]

theorem InFat.sectorOf_eq (hl : Layout g) (hc : InFat g c) :
    sectorOf g c = g.fatStart + entryOff g.kind c / g.sectorSize ∧ IsFat g (sectorOf g c) := by
  have hin := hc.inside
  have hw : 0 < width g.kind := by cases g.kind <;> decide
  have hdiv : entryOff g.kind c / g.sectorSize < g.fatSectors :=
    (Nat.div_lt_iff_lt_mul hl.sectorSize_pos).mpr (by omega)
  have hone : 1 * g.fatSectors ≤ g.fats * g.fatSectors := Nat.mul_le_mul_right _ hl.fats_pos
  have hroom := hl.room
  rw [sectorOf, Nat.mod_eq_of_lt hc.lt]
  generalize entryOff g.kind c / g.sectorSize = q at hdiv
  rw [Nat.mod_eq_of_lt (by omega)]
  exact ⟨rfl, Nat.le_add_right _ _, Nat.add_lt_add_left hdiv _⟩

theorem InFat.indexOf_eq (hc : InFat g c) : indexOf g c = entryOff g.kind c % g.sectorSize := by
  rw [indexOf, Nat.mod_eq_of_lt hc.lt]

theorem InFat.index_le (hl : Layout g) (hc : InFat g c) (hn : ¬ Straddles g c) :
    indexOf g c + width g.kind ≤ g.sectorSize := by
  have hlt := Nat.mod_lt (entryOff g.kind c) hl.sectorSize_pos
  have h4 := hl.aligned
  rw [hc.indexOf_eq]
  rw [Straddles, hc.indexOf_eq] at hn
  cases hk : g.kind with
  | fat12 =>
    rw [hk] at hn hlt
    simp only [width]
    simp only [true_and] at hn
    omega
  | fat16 =>
    rw [hk] at hlt
    have h2 : 2 ∣ entryOff .fat16 c % g.sectorSize :=
      (Nat.dvd_mod_iff (Nat.dvd_trans (by decide) h4)).mpr ⟨c, Nat.mul_comm _ _⟩
    simp only [width]
    omega
  | fat32 =>
    rw [hk] at hlt
    have h4' : 4 ∣ entryOff .fat32 c % g.sectorSize := (Nat.dvd_mod_iff h4).mpr ⟨c, Nat.mul_comm _ _⟩
    simp only [width]
    omega

theorem table_eq (hl : Layout g) (s : State) {q j : Nat} (hq : q < g.fatSectors) (hj : j < g.sectorSize) :
    table g s (q * g.sectorSize + j) = s.io.view (g.fatStart + q) j := by
  have hlt : q * g.sectorSize + j < g.fatSectors * g.sectorSize := by
    have h := Nat.mul_le_mul_right g.sectorSize hq
    rw [Nat.succ_mul] at h
    omega
  rw [table, if_pos hlt, Nat.mul_comm q, Nat.mul_add_div hl.sectorSize_pos, Nat.mul_add_mod,
    Nat.div_eq_of_lt hj, Nat.mod_eq_of_lt hj, Nat.add_zero]

theorem table_ext (hl : Layout g) {s : State} {t : Nat → U8}
    (h : ∀ q j, q < g.fatSectors → j < g.sectorSize → t (q * g.sectorSize + j) = s.io.view (g.fatStart + q) j)
    (h0 : ∀ o, g.fatSectors * g.sectorSize ≤ o → t o = 0) : table g s = t := by
  funext o
  by_cases ho : o < g.fatSectors * g.sectorSize
  · have hq : o / g.sectorSize < g.fatSectors := (Nat.div_lt_iff_lt_mul hl.sectorSize_pos).mpr ho
    have hj := Nat.mod_lt o hl.sectorSize_pos
    have he := Nat.div_add_mod o g.sectorSize
    rw [Nat.mul_comm] at he
    rw [← he, h _ _ hq hj, table_eq hl s hq hj]
  · rw [h0 o (by omega), table, if_neg ho]

theorem table_congr {s' : State} (h : ∀ k, IsFat g k → s'.io.view k = s.io.view k) (hl : Layout g) :
    table g s' = table g s := by
  refine table_ext hl (fun q j hq hj => ?_) fun o ho => if_neg (by omega)
  rw [table_eq hl s hq hj, h _ ⟨Nat.le_add_right _ _, Nat.add_lt_add_left hq _⟩]

theorem Ready.load (hl : Layout g) (hr : Ready g s) (sector : Nat) :
    Left g s (fatSectorLoad g s sector) (table g s) where
  ready := by
    refine ⟨hr.mirrored.load hl.apart sector, fun hd => hr.batched ?_⟩
    simp only [fatSectorLoad, WriteBack.load] at hd
    split at hd
    · exact hd
    · rw [show (s.io.flush (copies g)).dirty = false from WriteBack.flush_dirty] at hd
      cases hd
  table := table_congr (fun k hk => WriteBack.view_load hr.mirrored hl.apart hk) hl
  data a ha := WriteBack.load_frame hr.mirrored ha
  batch := rfl
  noZero := rfl
  nextFree := rfl

theorem entryOff_eq (hl : Layout g) (hc : InFat g c) :
    ∃ q, q < g.fatSectors ∧ sectorOf g c = g.fatStart + q ∧ indexOf g c < g.sectorSize ∧
      entryOff g.kind c = q * g.sectorSize + indexOf g c := by
  obtain ⟨he, hs⟩ := hc.sectorOf_eq hl
  refine ⟨entryOff g.kind c / g.sectorSize, ?_, he, ?_, ?_⟩
  · have := hs.2
    omega
  · rw [hc.indexOf_eq]
    exact Nat.mod_lt _ hl.sectorSize_pos
  · rw [hc.indexOf_eq, Nat.mul_comm, Nat.div_add_mod]

theorem leGet_table (hl : Layout g) (hc : InFat g c) (hn : ¬ Straddles g c) (s : State) :
    leGet (s.io.view (sectorOf g c)) (indexOf g c) (width g.kind) =
      leGet (table g s) (entryOff g.kind c) (width g.kind) := by
  obtain ⟨q, hq, hs, hi, ho⟩ := entryOff_eq hl hc
  have hle := hc.index_le hl hn
  refine leGet_shift fun k hk => ?_
  rw [ho, Nat.add_assoc, table_eq hl s hq (by omega), hs]

theorem fatGet_value (hl : Layout g) (hr : Ready g s) (hc : InFat g c) :
    (fatGet g s c).2 = entry g.kind (table g s) c := by
  obtain ⟨q, hq, hs, hi, ho⟩ := entryOff_eq hl hc
  have hsector := (hc.sectorOf_eq hl).2
  have hline := WriteBack.load_line hr.mirrored hl.apart hsector
  simp only [fatGet, entry, fatSectorLoad, hline]
  congr 1
  split
  next hst =>
    have hlast : indexOf g c + 1 = g.sectorSize := by have := hst.2; omega
    have hin := hc.inside
    rw [hst.1] at hin ho
    have hq1 : q + 1 < g.fatSectors := by
      by_contra hge
      have h := Nat.mul_le_mul_right g.sectorSize (show g.fatSectors ≤ q + 1 by omega)
      rw [Nat.succ_mul] at h
      simp only [width] at hin
      omega
    have hnext : IsFat g (sectorOf g c + 1) := by rw [hs]; exact ⟨by omega, by omega⟩
    have hroom := hl.room
    have hone : 1 * g.fatSectors ≤ g.fats * g.fatSectors := Nat.mul_le_mul_right _ hl.fats_pos
    have hdev : (s.io.load (copies g) (sectorOf g c)).dev (sectorOf g c + 1) = s.io.view (sectorOf g c + 1) := by
      rw [← WriteBack.view_load hr.mirrored hl.apart hnext (k := sectorOf g c), WriteBack.view,
        if_neg (by rw [WriteBack.load_key]; omega)]
    have hbyte : entryOff .fat12 c + 1 = (q + 1) * g.sectorSize + 0 := by
      rw [ho, Nat.succ_mul]
      omega
    rw [hst.1, width, leGet_two, hbyte, table_eq hl s hq1 hl.sectorSize_pos, ho, table_eq hl s hq hi,
      readSector, Nat.mod_eq_of_lt (by rw [hs]; omega), hdev, hs, Nat.add_assoc]
  next hst => exact leGet_table hl hc hst s

theorem fatGet_left (hl : Layout g) (hr : Ready g s) : Left g s (fatGet g s c).1 (table g s) :=
  hr.load hl (sectorOf g c)

theorem table_modify (hl : Layout g) (hc : InFat g c) (hn : ¬ Straddles g c) (hk : s.io.key = sectorOf g c)
    (value : Nat) :
    table g { s with io := s.io.modify (putEntry g c value) } = setEntry g.kind (table g s) c value := by
  obtain ⟨q, hq, hs, hi, ho⟩ := entryOff_eq hl hc
  have hle := hc.index_le hl hn
  have hin := hc.inside
  have hraw := leGet_table hl hc hn s
  refine table_ext hl (fun q' j hq' hj => ?_) fun o hge => ?_
  · rw [WriteBack.view_modify, hk, hs]
    rw [hs] at hraw
    by_cases he : q = q'
    · subst he
      rw [if_pos rfl, setEntry, putEntry, lePut, lePut, hraw, ho]
      by_cases hj' : indexOf g c ≤ j ∧ j < indexOf g c + width g.kind
      · rw [if_pos hj', if_pos (by omega), show q * g.sectorSize + j - (q * g.sectorSize + indexOf g c) =
          j - indexOf g c by omega]
      · rw [if_neg hj', if_neg (by omega), table_eq hl s hq hj]
    · have hout : ¬ (entryOff g.kind c ≤ q' * g.sectorSize + j ∧
          q' * g.sectorSize + j < entryOff g.kind c + width g.kind) := by
        rw [ho]
        rcases Nat.lt_or_gt_of_ne he with hlt | hlt
        · have hm := Nat.mul_le_mul_right g.sectorSize hlt
          rw [Nat.succ_mul] at hm
          omega
        · have hm := Nat.mul_le_mul_right g.sectorSize hlt
          rw [Nat.succ_mul] at hm
          omega
      rw [if_neg (by omega), setEntry, lePut, if_neg hout, table_eq hl s hq' hj]
  · rw [setEntry, lePut, if_neg (by omega), table, if_neg (by omega)]

theorem fatSet_ok (s : State) (c value : Nat) : (fatSet g s c value).2 = !decide (Straddles g c) := by
  rw [fatSet]
  split
  next h => simp [h]
  next h =>
    simp only [h, decide_false, Bool.not_false]
    split <;> rfl

theorem fatSet_straddles (h : Straddles g c) (s : State) (value : Nat) :
    (fatSet g s c value).1 = fatSectorLoad g s (sectorOf g c) := by
  rw [fatSet]
  simp only [if_pos h]

theorem fatSet_left (hl : Layout g) (hr : Ready g s) (hc : InFat g c) (hn : ¬ Straddles g c) (value : Nat) :
    Left g s (fatSet g s c value).1 (setEntry g.kind (table g s) c value) := by
  have hload := hr.load hl (sectorOf g c)
  have hkey : (fatSectorLoad g s (sectorOf g c)).io.key = sectorOf g c := WriteBack.load_key _
  have hfat : IsFat g (fatSectorLoad g s (sectorOf g c)).io.key := by
    rw [hkey]
    exact (hc.sectorOf_eq hl).2
  have hm := hload.ready.mirrored.modify hfat (putEntry g c value)
  have htable := table_modify hl hc hn hkey value
  rw [hload.table] at htable
  simp only [fatSet, if_neg hn]
  split
  next hb => exact ⟨⟨hm, fun _ => hb⟩, htable, hload.data, rfl, rfl, rfl⟩
  next hb =>
    refine ⟨⟨hm.store hl.apart hfat, fun hd => by cases hd⟩, ?_, fun a ha => ?_, rfl, rfl, rfl⟩
    · rw [← htable]
      refine table_congr (fun k hk => ?_) hl
      refine WriteBack.view_store hl.apart ?_ hk
      exact hfat
    · refine Eq.trans (WriteBack.store_frame ?_) (hload.data a ha)
      exact ha _ hfat

def put (g : Geo) (t : Nat → U8) (c value : Nat) : Nat → U8 :=
  if Straddles g c then t else setEntry g.kind t c value

theorem fatSet_put (hl : Layout g) (hr : Ready g s) (hc : InFat g c) (value : Nat) :
    Left g s (fatSet g s c value).1 (put g (table g s) c value) := by
  by_cases h : Straddles g c
  · rw [fatSet_straddles h, put, if_pos h]
    exact hr.load hl _
  · rw [put, if_neg h]
    exact fatSet_left hl hr hc h value

theorem entry_put (g : Geo) (t : Nat → U8) (c c' value : Nat) :
    entry g.kind (put g t c value) c' =
      if c' = c ∧ ¬ Straddles g c then norm g.kind value else entry g.kind t c' := by
  rw [put]
  by_cases h : Straddles g c
  · rw [if_pos h, if_neg (by tauto)]
  · rw [if_neg h, entry_setEntry]
    simp only [h, not_false_eq_true, and_true]

theorem batchEnd_left (hl : Layout g) (hr : Ready g s) :
    Ready g (batchEnd g s) ∧ table g (batchEnd g s) = table g s ∧
      ∀ a, (∀ k, IsFat g k → a ∉ copies g k) → (batchEnd g s).io.dev a = s.io.dev a :=
  ⟨⟨hr.mirrored.flush hl.apart, fun hd => by
      rw [show (batchEnd g s).io.dirty = false from WriteBack.flush_dirty] at hd
      cases hd⟩,
    table_congr (fun k hk => WriteBack.view_flush hr.mirrored hl.apart hk) hl,
    fun a ha => WriteBack.flush_frame hr.mirrored ha⟩

inductive Op where
  | batchBegin
  | batchEnd
  | get (c : Nat)
  | set (c value : Nat)

def Op.InFat (g : Geo) : Op → Prop
  | .get c => Fat.InFat g c
  | .set c _ => Fat.InFat g c
  | _ => True

def step (g : Geo) (s : State) : Op → State
  | .batchBegin => batchBegin s
  | .batchEnd => batchEnd g s
  | .get c => (fatGet g s c).1
  | .set c value => (fatSet g s c value).1

def Op.effect (g : Geo) (t : Nat → U8) : Op → Nat → U8
  | .set c value => put g t c value
  | _ => t

theorem step_ready (hl : Layout g) (hr : Ready g s) {op : Op} (hop : op.InFat g) :
    Ready g (step g s op) ∧ table g (step g s op) = op.effect g (table g s) ∧
      ∀ a, (∀ k, IsFat g k → a ∉ copies g k) → (step g s op).io.dev a = s.io.dev a := by
  cases op with
  | batchBegin => exact ⟨⟨hr.mirrored, fun _ => rfl⟩, rfl, fun _ _ => rfl⟩
  | batchEnd => exact batchEnd_left hl hr
  | get c =>
    have h := fatGet_left (c := c) hl hr
    exact ⟨h.ready, h.table, h.data⟩
  | set c value =>
    have h := fatSet_put hl hr hop value
    exact ⟨h.ready, h.table, h.data⟩

theorem run_ready (hl : Layout g) (hr : Ready g s) {ops : List Op} (hops : ∀ op ∈ ops, op.InFat g) :
    Ready g (run (step g) s ops) ∧ table g (run (step g) s ops) = ops.foldl (Op.effect g) (table g s) ∧
      ∀ a, (∀ k, IsFat g k → a ∉ copies g k) → (run (step g) s ops).io.dev a = s.io.dev a := by
  induction ops generalizing s with
  | nil => exact ⟨hr, rfl, fun _ _ => rfl⟩
  | cons op ops ih =>
    obtain ⟨h1, h2, h3⟩ := step_ready hl hr (hops op List.mem_cons_self)
    obtain ⟨h4, h5, h6⟩ := ih h1 fun o ho => hops o (List.mem_cons_of_mem _ ho)
    refine ⟨h4, ?_, fun a ha => (h6 a ha).trans (h3 a ha)⟩
    rw [List.foldl_cons, ← h2]
    exact h5

def Op.value (g : Geo) (c v : Nat) : Op → Nat
  | .set c' value => if c = c' ∧ ¬ Straddles g c' then norm g.kind value else v
  | _ => v

theorem entry_effects (g : Geo) (c : Nat) (ops : List Op) (t : Nat → U8) :
    entry g.kind (ops.foldl (Op.effect g) t) c = ops.foldl (Op.value g c) (entry g.kind t c) := by
  induction ops generalizing t with
  | nil => rfl
  | cons op ops ih =>
    rw [List.foldl_cons, List.foldl_cons, ih]
    cases op with
    | set c' value =>
      rw [Op.effect, entry_put]
      rfl
    | _ => rfl

def Op.unbatched : Op → Bool
  | .batchBegin => false
  | .batchEnd => false
  | _ => true

theorem effects_unbatched (g : Geo) (ops : List Op) (t : Nat → U8) :
    (ops.filter Op.unbatched).foldl (Op.effect g) t = ops.foldl (Op.effect g) t := by
  induction ops generalizing t with
  | nil => rfl
  | cons op ops ih => cases op <;> exact ih _

theorem run_unbatched (hb : s.batch = false) (ops : List Op) :
    (run (step g) s (ops.filter Op.unbatched)).batch = false := by
  suffices h : ∀ ops : List Op, (∀ op ∈ ops, op.unbatched = true) → (run (step g) s ops).batch = false from
    h _ fun op hop => (List.mem_filter.mp hop).2
  intro ops hops
  induction ops generalizing s with
  | nil => exact hb
  | cons op ops ih =>
    refine ih ?_ fun o ho => hops o (List.mem_cons_of_mem _ ho)
    cases op with
    | batchBegin => exact absurd (hops _ List.mem_cons_self) (by decide)
    | batchEnd => exact absurd (hops _ List.mem_cons_self) (by decide)
    | get c => exact hb
    | set c value =>
      simp only [step, fatSet]
      split
      · exact hb
      · split <;> exact hb

theorem dev_eq_table (hl : Layout g) (hr : Ready g s) (hb : s.batch = false) {q i j : Nat}
    (hq : q < g.fatSectors) (hi : i < g.fats) (hj : j < g.sectorSize) :
    s.io.dev (g.fatStart + q + i * g.fatSectors) j = table g s (q * g.sectorSize + j) := by
  have hs : IsFat g (g.fatStart + q) := ⟨Nat.le_add_right _ _, Nat.add_lt_add_left hq _⟩
  have hclean := hr.mirrored.clean _ hs (fun hd => by rw [hr.batched hd] at hb; cases hb)
  rw [table_eq hl s hq hj, hclean _ ((hl.mem_copies hs).mpr ⟨i, hi, rfl⟩)]

theorem copy_or_apart (hl : Layout g) (a : Nat) :
    (∃ q i, q < g.fatSectors ∧ i < g.fats ∧ a = g.fatStart + q + i * g.fatSectors) ∨
      ∀ k, IsFat g k → a ∉ copies g k := by
  by_cases h : ∃ k, IsFat g k ∧ a ∈ copies g k
  · obtain ⟨k, hk, ha⟩ := h
    obtain ⟨i, hi, rfl⟩ := (hl.mem_copies hk).mp ha
    obtain ⟨q, rfl⟩ := Nat.exists_eq_add_of_le hk.1
    exact .inl ⟨q, i, Nat.lt_of_add_lt_add_left hk.2, hi, rfl⟩
  · exact .inr fun k hk ha => h ⟨k, hk, ha⟩

/-- Batched or not, an entry reads as it was set last, as far as its bits go, and the copies become the
same. -/
theorem fat_batched (hl : Layout g) (hr : Ready g s) (hb : s.batch = false) (ops : List Op)
    (hops : ∀ op ∈ ops, op.InFat g) :
    (∀ c, InFat g c → (fatGet g (run (step g) s ops) c).2 = ops.foldl (Op.value g c) (fatGet g s c).2) ∧
      (∀ q i j, q < g.fatSectors → i < g.fats → j < g.sectorSize →
        (batchEnd g (run (step g) s ops)).io.dev (g.fatStart + q + i * g.fatSectors) j =
          (batchEnd g (run (step g) s ops)).io.dev (g.fatStart + q) j) ∧
      ∀ a j, j < g.sectorSize →
        (batchEnd g (run (step g) s ops)).io.dev a j =
          (run (step g) s (ops.filter Op.unbatched)).io.dev a j := by
  obtain ⟨hrun, htable, hdata⟩ := run_ready hl hr hops
  obtain ⟨hend, htend, hdend⟩ := batchEnd_left hl hrun
  obtain ⟨hrun', htable', hdata'⟩ := run_ready hl hr fun op hop => hops op (List.mem_filter.mp hop).1
  rw [effects_unbatched, ← htable, ← htend] at htable'
  refine ⟨fun c hc => ?_, fun q i j hq hi hj => ?_, fun a j hj => ?_⟩
  · rw [fatGet_value hl hrun hc, fatGet_value hl hr hc, htable, entry_effects]
  · have h0 := dev_eq_table hl hend rfl hq hl.fats_pos hj
    rw [Nat.zero_mul, Nat.add_zero] at h0
    rw [dev_eq_table hl hend rfl hq hi hj, h0]
  · rcases copy_or_apart hl a with ⟨q, i, hq, hi, rfl⟩ | ha
    · rw [dev_eq_table hl hend rfl hq hi hj, dev_eq_table hl hrun' (run_unbatched hb ops) hq hi hj, htable']
    · rw [hdend a ha, hdata a ha, hdata' a ha]

def smallGeo : Geo where
  kind := .fat12
  sectorSize := 512
  sectorsPerCluster := 1
  fatStart := 1
  fatSectors := 2
  fats := 2
  rootStart := 5
  rootSectors := 1
  rootCluster := 0
  dataStart := 6
  clusters := 600

def blank : State where
  io := { dev := fun _ _ => 0, line := fun _ => 0, key := 0, dirty := false }
  batch := false
  noZero := false
  nextFree := 2

theorem smallGeo_layout : Layout smallGeo := by
  constructor <;> decide

theorem blank_ready (g : Geo) (h : 0 < g.fatStart) : Ready g blank where
  mirrored := ⟨fun k hk _ a _ => by rw [WriteBack.view, if_neg (by have := hk.1; simp only [blank]; omega)]; rfl,
    fun hd => by cases hd⟩
  batched hd := by cases hd

theorem fat_batched_small :
    let ops : List Op := [.batchBegin, .set 4 9, .set 5 0xFFF, .set 400 7, .get 5, .batchEnd]
    (∀ op ∈ ops, op.InFat smallGeo) ∧
      ∀ a j, j < 512 → (batchEnd smallGeo (run (step smallGeo) blank ops)).io.dev a j =
        (run (step smallGeo) blank (ops.filter Op.unbatched)).io.dev a j := by
  have hops : ∀ op ∈ ([.batchBegin, .set 4 9, .set 5 0xFFF, .set 400 7, .get 5, .batchEnd] : List Op),
      op.InFat smallGeo := by
    intro op hop
    simp only [List.mem_cons, List.not_mem_nil, or_false] at hop
    rcases hop with rfl | rfl | rfl | rfl | rfl | rfl
    · trivial
    · exact ⟨by decide, by decide⟩
    · exact ⟨by decide, by decide⟩
    · exact ⟨by decide, by decide⟩
    · exact ⟨by decide, by decide⟩
    · trivial
  exact ⟨hops, (fat_batched smallGeo_layout (blank_ready _ (by decide)) rfl _ hops).2.2⟩

/-- The end of a chain is set as 0xFFF and read as 0x0FFFFFFF. -/
theorem fatGet_widened :
    (fatSet smallGeo blank 5 0xFFF).2 = true ∧
      (fatGet smallGeo (fatSet smallGeo blank 5 0xFFF).1 5).2 ≠ 0xFFF := by
  decide

end Sic.Fs.Fat
