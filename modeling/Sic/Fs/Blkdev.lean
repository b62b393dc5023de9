import Sic.Lib.Fields
import Sic.Lib.Run

/-! Block devices: the partition tables a disk is scanned for, the list of devices, and
accesses through a partition. What the sectors of a disk hold, and whether they read, is
given for each scan. The device nodes made for them are left out. -/

namespace Sic.Fs

structure Blkdev where
  name : List Char
  sectorSize : U32
  sectors : U64
  /-- The disk that a partition is on. -/
  parent : Option (List Char) := none
  start : U64 := 0
deriving DecidableEq, Repr

inductive Fault where
  | divZero | outside
deriving DecidableEq, Repr

abbrev SectorRead := U64 → Option (Nat → U8)

def field (ss : U32) (sec : Nat → U8) (off n : Nat) : Except Fault Nat :=
  if off + n ≤ ss.toNat then .ok (leGet sec off n) else .error .outside

structure PartArgs where
  index : Nat
  start : U64
  sectors : U64
deriving DecidableEq, Repr

def gptSig : Nat := 0x5452415020494645

structure GptHeader where
  sig : Nat
  entriesLba : U64
  entryCount : U32
  entrySize : U32
deriving DecidableEq, Repr

def GptHeader.get (ss : U32) (sec : Nat → U8) : Except Fault GptHeader := do
  let sig ← field ss sec 0 8
  let entriesLba ← field ss sec 72 8
  let entryCount ← field ss sec 80 4
  let entrySize ← field ss sec 84 4
  .ok ⟨sig, .ofNat 64 entriesLba, .ofNat 32 entryCount, .ofNat 32 entrySize⟩

def gptLoop (rd : SectorRead) (ss : U32) (h : GptHeader) : Nat → Nat → (Nat → U8) → Except Fault (List PartArgs)
  | 0, _, _ => .ok []
  | left + 1, i, sec =>
    let perSector := ss.toNat / h.entrySize.toNat
    if perSector = 0 then .error .divZero
    else
      match if i % perSector = 0 then rd (h.entriesLba + .ofNat 64 (i / perSector)) else some sec with
      | none => .ok []
      | some sec => do
        let e := i % perSector * h.entrySize.toNat
        let type ← field ss sec e 16
        if type = 0 then gptLoop rd ss h left (i + 1) sec
        else
          let _label ← field ss sec (e + 56) 72
          let first ← field ss sec (e + 32) 8
          let last ← field ss sec (e + 40) 8
          let calls ← gptLoop rd ss h left (i + 1) sec
          .ok (⟨i + 1, .ofNat 64 first, .ofNat 64 last - .ofNat 64 first + 1⟩ :: calls)

def mbrLoop (ss : U32) (sec : Nat → U8) : Nat → Nat → Except Fault (List PartArgs)
  | 0, _ => .ok []
  | left + 1, i => do
    let e := 446 + i * 16
    let start ← field ss sec (e + 8) 4
    let count ← field ss sec (e + 12) 4
    let type ← field ss sec (e + 4) 1
    let calls ← mbrLoop ss sec left (i + 1)
    .ok (if type ≠ 0 ∧ count ≠ 0 then ⟨i + 1, .ofNat 64 start, .ofNat 64 count⟩ :: calls else calls)

namespace Blkdev

def scanPartitions (disk : Blkdev) (rd : SectorRead) : Except Fault (List PartArgs) :=
  let ss := disk.sectorSize
  if (ss ≠ 512 ∧ ss ≠ 4096) ∨ disk.sectors < 2 then .ok []
  else
    match rd 0 with
    | none => .ok []
    | some sec => do
      let sign ← field ss sec 510 2
      if sign ≠ 0xAA55 then .ok []
      else
        let t0 ← field ss sec 450 1
        let t1 ← field ss sec 466 1
        let t2 ← field ss sec 482 1
        let t3 ← field ss sec 498 1
        if t0 = 0xEE ∨ t1 = 0xEE ∨ t2 = 0xEE ∨ t3 = 0xEE then
          match rd 1 with
          | none => .ok []
          | some sec => do
            let h ← GptHeader.get ss sec
            if h.sig ≠ gptSig ∨ h.entrySize < 128 then .ok []
            else gptLoop rd ss h (min h.entryCount.toNat 128) 0 sec
        else mbrLoop ss sec 4 0

def gpt (disk : Blkdev) (rd : SectorRead) : Option GptHeader :=
  let ss := disk.sectorSize
  if (ss ≠ 512 ∧ ss ≠ 4096) ∨ disk.sectors < 2 then none
  else (rd 0).bind fun sec =>
    if leGet sec 510 2 = 0xAA55 ∧
        (leGet sec 450 1 = 0xEE ∨ leGet sec 466 1 = 0xEE ∨ leGet sec 482 1 = 0xEE ∨ leGet sec 498 1 = 0xEE) then
      (rd 1).bind fun sec => (GptHeader.get ss sec).toOption.bind fun h =>
        if h.sig = gptSig ∧ 128 ≤ h.entrySize then some h else none
    else none

/-- The `i`th entry of the table is read and used, with these bounds: all sectors of the
table up to its own can be read, and its type is not zero. -/
def Entry (disk : Blkdev) (rd : SectorRead) (h : GptHeader) (i : Nat) (first last : U64) : Prop :=
  let perSector := disk.sectorSize.toNat / h.entrySize.toNat
  let e := i % perSector * h.entrySize.toNat
  (∀ q, q * perSector ≤ i → (rd (h.entriesLba + .ofNat 64 q)).isSome) ∧
    ∃ sec, rd (h.entriesLba + .ofNat 64 (i / perSector)) = some sec ∧ leGet sec e 16 ≠ 0 ∧
      first = .ofNat 64 (leGet sec (e + 32) 8) ∧ last = .ofNat 64 (leGet sec (e + 40) 8)

def partName (disk : Blkdev) (index : Nat) : List Char :=
  let digit (k : Nat) : Char := Char.ofNat (48 + k)
  disk.name ++ (if disk.name.getLast?.any Char.isDigit then ['p'] else []) ++
    (if 100 ≤ index then [digit (index / 100)] else []) ++
    (if 10 ≤ index then [digit (index / 10 % 10)] else []) ++ [digit (index % 10)]

def Takes (disk : Blkdev) (a : PartArgs) : Prop := a.sectors ≠ 0 ∧ a.start + a.sectors ≤ disk.sectors

instance (disk : Blkdev) (a : PartArgs) : Decidable (disk.Takes a) := inferInstanceAs (Decidable (_ ∧ _))

def partAccess (p : Blkdev) (lba : U64) (count : U32) : Option (U64 × U32) :=
  if p.sectors < lba + count.setWidth 64 then none else some (p.start + lba, count)

end Blkdev

def blkdevFind (devices : List Blkdev) (name : List Char) : Option Blkdev := devices.find? fun d => d.name = name

def addPartition (disk : Blkdev) (devices : List Blkdev) (a : PartArgs) : List Blkdev :=
  if disk.Takes a then
    match blkdevFind devices (disk.partName a.index) with
    | some old => devices.map fun d => if d = old then { old with start := a.start, sectors := a.sectors } else d
    | none =>
      { name := disk.partName a.index, sectorSize := disk.sectorSize, sectors := a.sectors,
        parent := some disk.name, start := a.start } :: devices
  else devices

structure Blkdevs where
  devices : List Blkdev
  fault : Option Fault
deriving DecidableEq

inductive BlkEvent where
  /-- A driver has found a disk. -/
  | register (d : Blkdev) (rd : SectorRead)
  | rescan (disk : Blkdev) (rd : SectorRead)

namespace Blkdevs

def scan (devices : List Blkdev) (disk : Blkdev) (rd : SectorRead) : Blkdevs :=
  match disk.scanPartitions rd with
  | .error f => ⟨devices, some f⟩
  | .ok calls => ⟨calls.foldl (addPartition disk) devices, none⟩

def step (s : Blkdevs) : BlkEvent → Blkdevs
  | .register d rd => if s.fault = none then scan (d :: s.devices) d rd else s
  | .rescan disk rd => if s.fault = none then scan s.devices disk rd else s

end Blkdevs

/-! ### The scan -/

theorem field_ok {ss : U32} {off n : Nat} (h : off + n ≤ ss.toNat) (sec : Nat → U8) :
    field ss sec off n = .ok (leGet sec off n) := if_pos h

theorem entry_le {ss : U32} {h : GptHeader} (hmin : 128 ≤ h.entrySize.toNat) (hmax : h.entrySize.toNat ≤ ss.toNat)
    (i : Nat) : i % (ss.toNat / h.entrySize.toNat) * h.entrySize.toNat + 128 ≤ ss.toNat := by
  have hlt := Nat.mod_lt i (Nat.div_pos hmax (by omega))
  calc i % (ss.toNat / h.entrySize.toNat) * h.entrySize.toNat + 128
      ≤ (i % (ss.toNat / h.entrySize.toNat) + 1) * h.entrySize.toNat := by rw [Nat.succ_mul]; omega
    _ ≤ ss.toNat / h.entrySize.toNat * h.entrySize.toNat := Nat.mul_le_mul_right _ hlt
    _ ≤ ss.toNat := Nat.div_mul_le_self _ _

theorem gptLoop_ok (rd : SectorRead) {ss : U32} {h : GptHeader} (hmin : 128 ≤ h.entrySize.toNat)
    (hmax : h.entrySize.toNat ≤ ss.toNat) (left i : Nat) (sec : Nat → U8) :
    ∃ calls, gptLoop rd ss h left i sec = .ok calls := by
  induction left generalizing i sec with
  | zero => exact ⟨[], rfl⟩
  | succ left ih =>
    have hpos : 0 < ss.toNat / h.entrySize.toNat := Nat.div_pos hmax (by omega)
    have hlast := entry_le hmin hmax i
    rw [gptLoop]
    dsimp only
    rw [if_neg (by omega)]
    split
    · exact ⟨[], rfl⟩
    next sec' _ =>
    rw [field_ok (by omega), field_ok (by omega), field_ok (by omega), field_ok (by omega)]
    obtain ⟨calls, hcalls⟩ := ih (i + 1) sec'
    simp only [bind, Except.bind, hcalls]
    split
    · exact ⟨calls, rfl⟩
    · exact ⟨_, rfl⟩

theorem mbrLoop_ok {ss : U32} (hss : 512 ≤ ss.toNat) (sec : Nat → U8) {left i : Nat} (hi : i + left = 4) :
    ∃ calls, mbrLoop ss sec left i = .ok calls ∧ ∀ a ∈ calls, a.start.toNat + a.sectors.toNat < 2 ^ 64 := by
  induction left generalizing i with
  | zero => exact ⟨[], rfl, nofun⟩
  | succ left ih =>
    obtain ⟨calls, hcalls, hall⟩ := ih (i := i + 1) (by omega)
    have hstart := leGet_lt sec (446 + i * 16 + 8) 4
    have hcount := leGet_lt sec (446 + i * 16 + 12) 4
    rw [mbrLoop, field_ok (by omega), field_ok (by omega), field_ok (by omega)]
    simp only [bind, Except.bind, hcalls]
    refine ⟨_, rfl, fun a ha => ?_⟩
    split at ha
    · rcases List.mem_cons.mp ha with rfl | ha
      · simp only [BitVec.toNat_ofNat]
        omega
      · exact hall a ha
    · exact hall a ha

namespace Blkdev

variable {disk : Blkdev} {rd : SectorRead}

theorem entry_iff {h : GptHeader} {i per : Nat} {sec : Nat → U8}
    (hper : disk.sectorSize.toNat / h.entrySize.toNat = per)
    (hupto : ∀ q, q * per ≤ i → (rd (h.entriesLba + .ofNat 64 q)).isSome)
    (hrd : rd (h.entriesLba + .ofNat 64 (i / per)) = some sec) (first last : U64) :
    disk.Entry rd h i first last ↔ leGet sec (i % per * h.entrySize.toNat) 16 ≠ 0 ∧
      first = .ofNat 64 (leGet sec (i % per * h.entrySize.toNat + 32) 8) ∧
      last = .ofNat 64 (leGet sec (i % per * h.entrySize.toNat + 40) 8) := by
  simp only [Entry, hper]
  refine ⟨?_, fun hrest => ⟨hupto, sec, hrd, hrest⟩⟩
  rintro ⟨_, sec', hs, hrest⟩
  cases hrd.symm.trans hs
  exact hrest

/-- The calls that the loop makes from the `i`th entry on are those for the used entries; `sec`
is the sector of that entry, unless the entry is the first of its sector. -/
theorem gptLoop_calls {h : GptHeader} (hmin : 128 ≤ h.entrySize.toNat)
    (hmax : h.entrySize.toNat ≤ disk.sectorSize.toNat) {left i : Nat} {sec : Nat → U8} {calls : List PartArgs}
    (hsec : i % (disk.sectorSize.toNat / h.entrySize.toNat) ≠ 0 →
      rd (h.entriesLba + .ofNat 64 (i / (disk.sectorSize.toNat / h.entrySize.toNat))) = some sec)
    (hread : ∀ q, q * (disk.sectorSize.toNat / h.entrySize.toNat) < i → (rd (h.entriesLba + .ofNat 64 q)).isSome)
    (heq : gptLoop rd disk.sectorSize h left i sec = .ok calls) (a : PartArgs) :
    a ∈ calls ↔ ∃ j first last, i ≤ j ∧ j < i + left ∧ disk.Entry rd h j first last ∧
      a = ⟨j + 1, first, last - first + 1⟩ := by
  have hpos : 0 < disk.sectorSize.toNat / h.entrySize.toNat := Nat.div_pos hmax (by omega)
  induction left generalizing i sec calls with
  | zero =>
    cases heq
    simp only [List.not_mem_nil, false_iff]
    rintro ⟨j, _, _, hi, hj, _⟩
    omega
  | succ left ih =>
    have hlast := entry_le hmin hmax i
    rw [gptLoop] at heq
    dsimp only at heq
    generalize hper : disk.sectorSize.toNat / h.entrySize.toNat = per at hsec hread hpos heq hlast ih
    have hx : (if i % per = 0 then rd (h.entriesLba + .ofNat 64 (i / per)) else some sec) =
        rd (h.entriesLba + .ofNat 64 (i / per)) := by
      split
      · rfl
      · next hne => exact (hsec hne).symm
    rw [if_neg (by omega), hx] at heq
    cases hrd : rd (h.entriesLba + .ofNat 64 (i / per)) with
    | none =>
      rw [hrd] at heq
      cases heq
      simp only [List.not_mem_nil, false_iff]
      rintro ⟨j, _, _, hi, _, ⟨hall, _⟩, _⟩
      have := hall (i / per) (by rw [hper]; exact (Nat.div_mul_le_self i per).trans hi)
      simp [hrd] at this
    | some sec' =>
      have hupto (q : Nat) (hq : q * per ≤ i) : (rd (h.entriesLba + .ofNat 64 q)).isSome := by
        rcases hq.lt_or_eq with hq | rfl
        · exact hread q hq
        rw [Nat.mul_div_cancel q hpos] at hrd
        rw [hrd]
        rfl
      obtain ⟨rest, hrest⟩ := gptLoop_ok rd hmin hmax left (i + 1) sec'
      have hsame (hne : (i + 1) % per ≠ 0) : rd (h.entriesLba + .ofNat 64 ((i + 1) / per)) = some sec' := by
        rw [Nat.succ_div, if_neg fun hd => hne (Nat.mod_eq_zero_of_dvd hd)]
        exact hrd
      have hnext := ih hsame (fun q hq => hupto q (by omega)) hrest
      have hentry := entry_iff hper hupto hrd
      rw [hrd] at heq
      dsimp only at heq
      rw [field_ok (by omega), field_ok (by omega), field_ok (by omega), field_ok (by omega)] at heq
      simp only [bind, Except.bind, hrest] at heq
      split at heq
      · next htype =>
        cases heq
        refine hnext.trans ⟨fun ⟨j, first, last, hi, hj, hx⟩ => ⟨j, first, last, by omega, by omega, hx⟩, ?_⟩
        rintro ⟨j, first, last, hi, hj, hx, ha⟩
        have hne : i ≠ j := by
          rintro rfl
          exact ((hentry first last).mp hx).1 htype
        exact ⟨j, first, last, by omega, by omega, hx, ha⟩
      · next htype =>
        cases heq
        refine List.mem_cons.trans ((or_congr_right hnext).trans ⟨?_, ?_⟩)
        · rintro (rfl | ⟨j, first, last, hi, hj, hx⟩)
          · exact ⟨i, _, _, le_rfl, by omega, (hentry _ _).mpr ⟨htype, rfl, rfl⟩, rfl⟩
          · exact ⟨j, first, last, by omega, by omega, hx⟩
        · rintro ⟨j, first, last, hi, hj, hx, rfl⟩
          by_cases hij : i = j
          · subst hij
            obtain ⟨_, rfl, rfl⟩ := (hentry first last).mp hx
            exact .inl rfl
          · exact .inr ⟨j, first, last, by omega, by omega, hx, rfl⟩

theorem GptHeader.get_ok {ss : U32} (hss : 512 ≤ ss.toNat) (sec : Nat → U8) :
    ∃ h, GptHeader.get ss sec = .ok h := by
  rw [GptHeader.get, field_ok (by omega), field_ok (by omega), field_ok (by omega), field_ok (by omega)]
  exact ⟨_, rfl⟩

theorem scanPartitions_cases (disk : Blkdev) (rd : SectorRead) :
    (∃ h sec, disk.gpt rd = some h ∧ 128 ≤ h.entrySize.toNat ∧
        disk.scanPartitions rd = gptLoop rd disk.sectorSize h (min h.entryCount.toNat 128) 0 sec) ∨
      (disk.gpt rd = none ∧
        ∃ calls, disk.scanPartitions rd = .ok calls ∧ ∀ a ∈ calls, a.start.toNat + a.sectors.toNat < 2 ^ 64) := by
  rw [gpt, scanPartitions]
  by_cases hgeo : (disk.sectorSize ≠ 512 ∧ disk.sectorSize ≠ 4096) ∨ disk.sectors < 2
  · rw [if_pos hgeo, if_pos hgeo]
    exact .inr ⟨rfl, [], rfl, nofun⟩
  rw [if_neg hgeo, if_neg hgeo]
  have hss : 512 ≤ disk.sectorSize.toNat := by bv_omega
  cases hzero : rd 0 with
  | none => exact .inr ⟨rfl, [], rfl, nofun⟩
  | some sec =>
    rw [Option.bind_some]
    dsimp only
    rw [field_ok (by omega), field_ok (by omega), field_ok (by omega), field_ok (by omega), field_ok (by omega)]
    simp only [bind, Except.bind]
    by_cases hsign : leGet sec 510 2 = 0xAA55
    · by_cases hee : leGet sec 450 1 = 0xEE ∨ leGet sec 466 1 = 0xEE ∨ leGet sec 482 1 = 0xEE ∨
        leGet sec 498 1 = 0xEE
      · rw [if_pos ⟨hsign, hee⟩, if_neg (not_not.mpr hsign), if_pos hee]
        cases hone : rd 1 with
        | none => exact .inr ⟨rfl, [], rfl, nofun⟩
        | some sec =>
          obtain ⟨h, hh⟩ := GptHeader.get_ok hss sec
          simp only [hh, Option.bind_some, Except.toOption]
          by_cases hvalid : h.sig = gptSig ∧ 128 ≤ h.entrySize
          · rw [if_pos hvalid, if_neg (by bv_omega)]
            exact .inl ⟨h, sec, rfl, hvalid.2, rfl⟩
          · rw [if_neg hvalid, if_pos (by bv_omega)]
            exact .inr ⟨rfl, [], rfl, nofun⟩
      · rw [if_neg fun hc => hee hc.2, if_neg (not_not.mpr hsign), if_neg hee]
        exact .inr ⟨rfl, mbrLoop_ok hss sec rfl⟩
    · rw [if_neg fun hc => hsign hc.1, if_pos hsign]
      exact .inr ⟨rfl, [], rfl, nofun⟩

/-- The bounds of an entry do not wrap on the way to `add_partition`, or the entry is refused
there all the same. -/
def Proper (disk : Blkdev) (first last : U64) : Prop :=
  (first.toNat ≤ last.toNat + 1 ∨ disk.sectors.toNat ≤ last.toNat) ∧ (last.toNat + 1 = 2 ^ 64 → first = 0)

/-- A GPT has entries that fit in a sector, and the bounds of those in use are proper. -/
def Sane (disk : Blkdev) (rd : SectorRead) : Prop :=
  ∀ h, disk.gpt rd = some h → (h.entryCount = 0 ∨ h.entrySize ≤ disk.sectorSize) ∧
    ∀ i first last, i < min h.entryCount.toNat 128 → disk.Entry rd h i first last → disk.Proper first last

theorem scanPartitions_ok_iff (disk : Blkdev) (rd : SectorRead) :
    (∃ calls, disk.scanPartitions rd = .ok calls) ↔
      ∀ h, disk.gpt rd = some h → h.entryCount = 0 ∨ h.entrySize ≤ disk.sectorSize := by
  obtain ⟨h, sec, hgpt, hmin, heq⟩ | ⟨hgpt, calls, heq, -⟩ := scanPartitions_cases disk rd
  · rw [heq, hgpt]
    refine ⟨?_, fun hfit => ?_⟩
    · rintro ⟨calls, hcalls⟩ _ ⟨⟩
      by_contra hno
      obtain ⟨left, hleft⟩ : ∃ left, min h.entryCount.toNat 128 = left + 1 :=
        ⟨min h.entryCount.toNat 128 - 1, by bv_omega⟩
      have hzero : disk.sectorSize.toNat / h.entrySize.toNat = 0 := Nat.div_eq_of_lt (by bv_omega)
      rw [hleft, gptLoop, if_pos hzero] at hcalls
      cases hcalls
    · rcases hfit h rfl with hzero | hle
      · rw [hzero]
        exact ⟨[], rfl⟩
      · exact gptLoop_ok rd hmin hle _ _ _
  · rw [heq, hgpt]
    exact iff_of_true ⟨calls, rfl⟩ nofun

theorem scanPartitions_not_outside (disk : Blkdev) (rd : SectorRead) :
    disk.scanPartitions rd ≠ .error .outside := by
  obtain ⟨h, sec, hgpt, hmin, heq⟩ | ⟨hgpt, calls, heq, -⟩ := scanPartitions_cases disk rd
  · by_cases hle : h.entrySize.toNat ≤ disk.sectorSize.toNat
    · obtain ⟨calls, hcalls⟩ := gptLoop_ok rd hmin hle (min h.entryCount.toNat 128) 0 sec
      rw [heq, hcalls]
      nofun
    · rw [heq]
      cases min h.entryCount.toNat 128 with
      | zero => nofun
      | succ left =>
        rw [gptLoop, if_pos (Nat.div_eq_of_lt (by omega))]
        nofun
  · rw [heq]
    nofun

theorem Takes.inside_iff {a : PartArgs} (h : disk.Takes a) :
    a.start.toNat + a.sectors.toNat ≤ disk.sectors.toNat ↔ a.start.toNat + a.sectors.toNat < 2 ^ 64 := by
  obtain ⟨-, hle⟩ := h
  have hdisk := disk.sectors.isLt
  rw [BitVec.le_def, BitVec.toNat_add] at hle
  refine ⟨fun hin => by omega, fun hlt => ?_⟩
  rwa [Nat.mod_eq_of_lt hlt] at hle

theorem proper_iff (disk : Blkdev) (index : Nat) (first last : U64) :
    disk.Proper first last ↔ (disk.Takes ⟨index, first, last - first + 1⟩ →
      first.toNat + (last - first + 1).toNat ≤ disk.sectors.toNat) := by
  rw [Proper, Takes]
  bv_omega

def Covers (p : Blkdev) (req : U64 × U32) : Prop :=
  ∀ k < req.2.toNat, p.start.toNat ≤ req.1.toNat + k ∧ req.1.toNat + k < p.start.toNat + p.sectors.toNat

theorem covers_iff {p : Blkdev} {lba : U64} {count : U32} {req : U64 × U32} {total : U64}
    (hp : p.start.toNat + p.sectors.toNat ≤ total.toNat) (h : p.partAccess lba count = some req) :
    p.Covers req ↔ lba.toNat + count.toNat < 2 ^ 64 := by
  rw [partAccess] at h
  split at h
  · cases h
  next hle =>
  cases h
  rw [BitVec.lt_def, BitVec.toNat_add, BitVec.toNat_setWidth] at hle
  have hcount := count.isLt
  have hlba := lba.isLt
  have htotal := total.isLt
  rw [Nat.mod_eq_of_lt (by omega : count.toNat < 2 ^ 64)] at hle
  rw [Covers]
  dsimp only
  rw [BitVec.toNat_add]
  refine ⟨fun hall => ?_, fun hlt k hk => ?_⟩
  · by_contra hwrap
    by_cases hs : p.start.toNat + lba.toNat < 2 ^ 64
    · have := hall (count.toNat - 1) (by omega)
      rw [Nat.mod_eq_of_lt hs] at this
      omega
    · have := hall 0 (by omega)
      omega
  · rw [Nat.mod_eq_of_lt hlt] at hle
    omega

theorem scanPartitions_inside_iff (disk : Blkdev) (rd : SectorRead) :
    (∃ calls, disk.scanPartitions rd = .ok calls ∧
      ∀ a ∈ calls, disk.Takes a → a.start.toNat + a.sectors.toNat ≤ disk.sectors.toNat) ↔ disk.Sane rd := by
  have hok := scanPartitions_ok_iff disk rd
  obtain ⟨h, sec, hgpt, hmin, heq⟩ | ⟨hgpt, calls, heq, hall⟩ := scanPartitions_cases disk rd
  · have hcalls {calls : List PartArgs} (hcalls : disk.scanPartitions rd = .ok calls)
        (hfit : h.entrySize ≤ disk.sectorSize) (a : PartArgs) :=
      gptLoop_calls hmin (show h.entrySize.toNat ≤ disk.sectorSize.toNat from hfit)
        (fun hne => absurd (Nat.zero_mod _) hne)
        (fun q hq => absurd hq (Nat.not_lt_zero _)) (heq ▸ hcalls) a
    constructor
    · rintro ⟨calls, hscan, hin⟩ h' hh'
      have hfit := hok.mp ⟨calls, hscan⟩ h' hh'
      cases hgpt.symm.trans hh'
      refine ⟨hfit, fun i first last hi hentry => (proper_iff disk (i + 1) first last).mpr fun htakes => ?_⟩
      have hfit := hfit.resolve_left fun hzero => by simp [hzero] at hi
      exact hin _ ((hcalls hscan hfit _).mpr ⟨i, first, last, Nat.zero_le i, by omega, hentry, rfl⟩) htakes
    · intro hsane
      obtain ⟨calls, hscan⟩ := hok.mpr fun h' hh' => (hsane h' hh').1
      obtain ⟨hfit, hproper⟩ := hsane h hgpt
      refine ⟨calls, hscan, fun a ha => ?_⟩
      rcases hfit with hzero | hfit
      · rw [heq, hzero] at hscan
        cases hscan
        cases ha
      · obtain ⟨i, first, last, _, hi, hentry, rfl⟩ := (hcalls hscan hfit a).mp ha
        exact (proper_iff disk (i + 1) first last).mp (hproper i first last (by omega) hentry)
  · rw [Sane, hgpt]
    refine iff_of_true ⟨calls, heq, fun a ha htakes => ?_⟩ nofun
    exact htakes.inside_iff.mpr (hall a ha)

end Blkdev

/-! ### The devices -/

namespace Blkdevs

/-- What has a name of a partition of the disk is one. -/
def Own (disk : Blkdev) (devices : List Blkdev) : Prop :=
  ∀ p ∈ devices, ∀ index, p.name = disk.partName index → p.parent = some disk.name

/-- Disks are whole, tables are sane, and names do not clash. -/
def Allows (s : Blkdevs) : BlkEvent → Prop
  | .register d rd => d.parent = none ∧ d.name ∉ s.devices.map Blkdev.name ∧ d.Sane rd ∧ Own d (d :: s.devices)
  | .rescan disk rd => disk ∈ s.devices ∧ disk.parent = none ∧ disk.Sane rd ∧ Own disk s.devices

structure Inside (devices : List Blkdev) : Prop where
  names : (devices.map Blkdev.name).Nodup
  on : ∀ p ∈ devices, ∀ name, p.parent = some name →
    ∃ disk ∈ devices, disk.name = name ∧ disk.parent = none ∧ p.start.toNat + p.sectors.toNat ≤ disk.sectors.toNat

variable {s : Blkdevs} {devices : List Blkdev} {disk : Blkdev} {rd : SectorRead}

theorem addPartition_inside {a : PartArgs} (hmem : disk ∈ devices) (hwhole : disk.parent = none)
    (hown : Own disk devices)
    (hin : Inside devices) (ha : disk.Takes a → a.start.toNat + a.sectors.toNat ≤ disk.sectors.toNat) :
    disk ∈ addPartition disk devices a ∧ Own disk (addPartition disk devices a) ∧
      Inside (addPartition disk devices a) := by
  rw [addPartition]
  split
  next htakes =>
    cases hfind : blkdevFind devices (disk.partName a.index) with
    | none =>
      dsimp only
      refine ⟨List.mem_cons_of_mem _ hmem, fun p hp index hname => ?_, ?_, fun p hp name hparent => ?_⟩
      · rcases List.mem_cons.mp hp with rfl | hp
        · rfl
        · exact hown p hp index hname
      · refine List.nodup_cons.mpr ⟨fun hm => ?_, hin.names⟩
        obtain ⟨d, hd, hname⟩ := List.mem_map.mp hm
        exact List.find?_eq_none.mp hfind d hd (decide_eq_true hname)
      · rcases List.mem_cons.mp hp with rfl | hp
        · cases hparent
          exact ⟨disk, List.mem_cons_of_mem _ hmem, rfl, hwhole, ha htakes⟩
        · obtain ⟨d, hd, hrest⟩ := hin.on p hp name hparent
          exact ⟨d, List.mem_cons_of_mem _ hd, hrest⟩
    | some old =>
      have hparent := hown old (List.mem_of_find?_eq_some hfind) a.index (by simpa using List.find?_some hfind)
      have hkeep {d : Blkdev} (hd : d ∈ devices) (hnone : d.parent = none) :
          d ∈ devices.map fun d =>
            if d = old then { old with start := a.start, sectors := a.sectors } else d := by
        refine List.mem_map.mpr ⟨d, hd, if_neg ?_⟩
        rintro rfl
        rw [hnone] at hparent
        cases hparent
      dsimp only
      refine ⟨hkeep hmem hwhole, fun p hp index hname => ?_, ?_, fun p hp name hp' => ?_⟩
      · obtain ⟨d, hd, rfl⟩ := List.mem_map.mp hp
        by_cases hd' : d = old
        · rw [if_pos hd']
          exact hparent
        · rw [if_neg hd'] at hname ⊢
          exact hown d hd index hname
      · rw [List.map_map]
        convert hin.names using 2
        funext d
        by_cases hd : d = old <;> simp [hd]
      · obtain ⟨d, hd, rfl⟩ := List.mem_map.mp hp
        by_cases hd' : d = old
        · rw [if_pos hd'] at hp' ⊢
          cases hparent.symm.trans hp'
          exact ⟨disk, hkeep hmem hwhole, rfl, hwhole, ha htakes⟩
        · rw [if_neg hd'] at hp' ⊢
          obtain ⟨e, he, hname, hnone, hle⟩ := hin.on d hd name hp'
          exact ⟨e, hkeep he hnone, hname, hnone, hle⟩
  · exact ⟨hmem, hown, hin⟩

theorem scan_inside (hmem : disk ∈ devices) (hwhole : disk.parent = none) (hown : Own disk devices)
    (hin : Inside devices) (hsane : disk.Sane rd) :
    (scan devices disk rd).fault = none ∧ Inside (scan devices disk rd).devices := by
  obtain ⟨calls, heq, hall⟩ := (Blkdev.scanPartitions_inside_iff disk rd).mpr hsane
  rw [scan, heq]
  refine ⟨rfl, ?_⟩
  dsimp only
  clear heq
  induction calls generalizing devices with
  | nil => exact hin
  | cons a calls ih =>
    obtain ⟨hmem', hown', hin'⟩ := addPartition_inside hmem hwhole hown hin (hall a List.mem_cons_self)
    exact ih hmem' hown' hin' fun b hb => hall b (List.mem_cons_of_mem _ hb)

theorem step_inside (s : Blkdevs) (e : BlkEvent) (h : s.fault = none ∧ Inside s.devices) (he : s.Allows e) :
    (s.step e).fault = none ∧ Inside (s.step e).devices := by
  obtain ⟨hfault, hin⟩ := h
  cases e with
  | register d rd =>
    obtain ⟨hwhole, hname, hsane, hown⟩ := he
    rw [step, if_pos hfault]
    refine scan_inside List.mem_cons_self hwhole hown ⟨List.nodup_cons.mpr ⟨hname, hin.names⟩, ?_⟩ hsane
    intro p hp name hparent
    rcases List.mem_cons.mp hp with rfl | hp
    · rw [hwhole] at hparent
      cases hparent
    · obtain ⟨e, he, hrest⟩ := hin.on p hp name hparent
      exact ⟨e, List.mem_cons_of_mem _ he, hrest⟩
  | rescan disk rd =>
    obtain ⟨hmem, hwhole, hsane, hown⟩ := he
    rw [step, if_pos hfault]
    exact scan_inside hmem hwhole hown hin hsane

end Blkdevs

namespace Blkdev

/-- A scan reads no byte outside its buffer; it ends, with every partition it adds on the disk,
exactly if the table is sane; whatever disks with sane tables come and are scanned again,
their partitions stay on them; and an access that is let through stays in its partition
exactly if its end is a number of 64 bits. -/
theorem partitions_inside (disk : Blkdev) (rd : SectorRead) :
    disk.scanPartitions rd ≠ .error .outside ∧
      ((∃ calls, disk.scanPartitions rd = .ok calls ∧
        ∀ a ∈ calls, disk.Takes a → a.start.toNat + a.sectors.toNat ≤ disk.sectors.toNat) ↔ disk.Sane rd) ∧
      (∀ es, Along Blkdevs.Allows Blkdevs.step ⟨[], none⟩ es →
        (run Blkdevs.step ⟨[], none⟩ es).fault = none ∧ Blkdevs.Inside (run Blkdevs.step ⟨[], none⟩ es).devices) ∧
      ∀ p : Blkdev, p.start.toNat + p.sectors.toNat ≤ disk.sectors.toNat → ∀ lba count req,
        p.partAccess lba count = some req → (p.Covers req ↔ lba.toNat + count.toNat < 2 ^ 64) := by
  refine ⟨scanPartitions_not_outside disk rd, scanPartitions_inside_iff disk rd, fun es hok => ?_,
    fun p hp lba count req hreq => covers_iff hp hreq⟩
  exact invariant_run (P := fun s : Blkdevs => s.fault = none ∧ Blkdevs.Inside s.devices) Blkdevs.step_inside
    ⟨rfl, List.nodup_nil, nofun⟩ hok

def gptDisk (entrySize first last : Nat) : SectorRead := fun lba =>
  if lba = 0 then some (lePut (lePut (fun _ => 0) 450 1 0xEE) 510 2 0xAA55)
  else if lba = 1 then some (lePut (lePut (lePut (lePut (fun _ => 0) 0 8 gptSig) 72 8 2) 80 4 1) 84 4 entrySize)
  else if lba = 2 then some (lePut (lePut (lePut (fun _ => 0) 0 16 1) 32 8 first) 40 8 last)
  else none

def someDisk : Blkdev := { name := ['s', 'd', 'a'], sectorSize := 512, sectors := 1000 }

def somePart : Blkdev :=
  { name := ['s', 'd', 'a', '1'], sectorSize := 512, sectors := 100, parent := some ['s', 'd', 'a'], start := 34 }

/-- An entry larger than a sector is divided by zero; one that ends before it starts becomes a
partition past the end of the disk; and a request past the end of the 64 bits goes below
the partition. -/
theorem partitions_outside :
    someDisk.scanPartitions (gptDisk 1024 34 133) = .error .divZero ∧
      Blkdevs.scan [someDisk] someDisk (gptDisk 128 5000 99) =
        ⟨[{ somePart with sectors := 0xFFFFFFFFFFFFECDC, start := 5000 }, someDisk], none⟩ ∧
      somePart.partAccess 0xFFFFFFFFFFFFFFFF 2 = some (33, 2) ∧ ¬ somePart.Covers (33, 2) := by
  refine ⟨by decide +kernel, by decide +kernel, by decide, fun hall => ?_⟩
  exact absurd (hall 0 (by decide)).1 (by decide)

end Blkdev

end Sic.Fs
