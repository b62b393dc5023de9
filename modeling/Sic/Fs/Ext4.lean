import Sic.Fs.Disk

/-! The geometry of an ext4 volume: what the mount takes from the superblock, and where groups, group
descriptors and inodes are. The marks that a mount leaves in the superblock, the checksums and memory
that runs out before the heap is full are left out. -/

namespace Sic.Fs

namespace Ext4

structure Geom where
  sb : Nat → U8
  bs : Nat
  groups : Nat
  ipg : Nat
  bpg : Nat
  inodeSize : Nat
  descSize : Nat
  firstData : Nat
  gdtBlocks : Nat
  reservedGdt : Nat
  firstMetaBg : Nat
  blocks : Nat
  csum : Bool
  gdtCsum : Bool
  metaBg : Bool
  sparse : Bool

end Ext4

structure Ext4 extends Ext4.Geom where
  /-- Every group descriptor. -/
  gdt : Nat → U8
  rw : Bool

namespace Ext4

inductive Fault where
  | shift | divZero | outside
deriving DecidableEq, Repr

def fault? {α : Type} : Except Fault α → Option Fault
  | .error f => some f
  | .ok _ => none

def incompatReadOk : Nat := 0x67d6

def incompatWriteOk : Nat := 0x66d2

def logBlockSize (sb : Nat → U8) : Nat := leGet sb 0x18 4

def ofSb (sb : Nat → U8) : Geom :=
  let incompat := leGet sb 0x60 4
  let ro := leGet sb 0x64 4
  let bs := 1024 * 2 ^ logBlockSize sb % 2 ^ 32
  let bpg := leGet sb 0x20 4
  let firstData := leGet sb 0x14 4
  let bit64 := incompat.testBit 7
  let descSize := if bit64 then leGet sb 0xfe 2 else 32
  let blocks := leGet sb 4 4 + if bit64 then leGet sb 0x150 4 * 2 ^ 32 else 0
  let groups := (blocks + (2 ^ 64 - firstData) + bpg - 1) % 2 ^ 64 / bpg % 2 ^ 32
  { sb := sb
    bs := bs
    groups := groups
    ipg := leGet sb 0x28 4
    bpg := bpg
    inodeSize := if leGet sb 0x4c 4 ≠ 0 then leGet sb 0x58 2 else 128
    descSize := descSize
    firstData := firstData
    gdtBlocks := (groups * descSize + bs - 1) % 2 ^ 32 / bs
    reservedGdt := leGet sb 0xce 2
    firstMetaBg := leGet sb 0x104 4
    blocks := blocks
    csum := ro.testBit 10
    gdtCsum := ro.testBit 4
    metaBg := incompat.testBit 4
    sparse := ro.testBit 0 }

def ofBytes (bs : Bytes) : Nat → U8 := fun i => bs.getD i 0

def meetsPow (b g : Nat) : Nat → Nat → Bool
  | 0, _ => false
  | fuel + 1, p => if p < g then meetsPow b g fuel (p * b % 2 ^ 32) else p == g

namespace Geom

variable (fs : Geom)

def inodesCount : Nat := leGet fs.sb 0 4

def bread (d : Disk) (b : Nat) : Option (Nat → U8) :=
  if b = 0 ∨ fs.blocks ≤ b then none
  else
    let got := d.readBytes (b * fs.bs % 2 ^ 64) fs.bs
    if got.length = fs.bs then some (ofBytes got) else none

def hasSuper (g : Nat) : Bool :=
  !fs.sparse || g ≤ 1 || meetsPow 3 g 32 3 || meetsPow 5 g 32 5 || meetsPow 7 g 32 7

def groupFirst (g : Nat) : Nat := fs.firstData + g * fs.bpg

def groupBlocks (g : Nat) : Nat :=
  (min (fs.groupFirst g + fs.bpg) fs.blocks + (2 ^ 64 - fs.groupFirst g)) % 2 ^ 32

def per : Nat := fs.bs / fs.descSize

def gdBlock (g : Nat) : Except Fault Nat :=
  if fs.descSize = 0 ∨ fs.per = 0 then .error .divZero
  else
    let b := g / fs.per
    if !fs.metaBg || b < fs.firstMetaBg then .ok ((fs.firstData + 1 + b) % 2 ^ 32)
    else
      let first := b * fs.per
      .ok (fs.groupFirst first + if fs.hasSuper first then 1 else 0)

def loadGdt (d : Disk) : Nat → Nat → (Nat → U8) → Except Fault (Option (Nat → U8))
  | 0, _, gdt => .ok (some gdt)
  | fuel + 1, g, gdt =>
    if g < fs.groups then do
      let b ← fs.gdBlock g
      match fs.bread d b with
      | none => .ok none
      | some blk =>
        let n := min (fs.groups - g) fs.per
        loadGdt d fuel (g + fs.per) fun k =>
          if g * fs.descSize ≤ k ∧ k < (g + n) * fs.descSize then blk (k - g * fs.descSize) else gdt k
    else .ok (some gdt)

def fieldsOk : Bool :=
  fs.bpg ≠ 0 ∧ fs.ipg ≠ 0 ∧ 32 ≤ fs.descSize ∧ 128 ≤ fs.inodeSize ∧ fs.inodeSize ≤ fs.bs

def mayWrite (ro writable : Bool) : Bool :=
  !ro && leGet fs.sb 0x60 4 &&& (0xffffffff ^^^ incompatWriteOk) ==
    0 && (!fs.csum || fs.sb 0x175 == 1) && writable

end Geom

variable (fs : Ext4)

def table (off n : Nat) : Except Fault Nat :=
  if off + n ≤ fs.groups * fs.descSize then .ok (leGet fs.gdt off n) else .error .outside

def gd64 (g lo hi : Nat) : Except Fault Nat := do
  let l ← fs.table (g * fs.descSize + lo) 4
  if 64 ≤ fs.descSize then
    let h ← fs.table (g * fs.descSize + hi) 4
    .ok (l + h * 2 ^ 32)
  else .ok l

def inodeLoc (ino : Nat) : Except Fault (Option (Nat × Nat)) :=
  if ino = 0 ∨ fs.inodesCount < ino then .ok none
  else if fs.ipg = 0 then .error .divZero
  else do
    let byte := (ino - 1) % fs.ipg * fs.inodeSize
    let it ← fs.gd64 ((ino - 1) / fs.ipg) 0x08 0x28
    if fs.bs = 0 then .error .divZero
    else .ok (some ((it + byte / fs.bs) % 2 ^ 64, byte % fs.bs))

def iread (d : Disk) (ino : Nat) : Except Fault (Option (Nat → U8)) := do
  match ← fs.inodeLoc ino with
  | none => .ok none
  | some (b, off) =>
    match fs.bread d b with
    | none => .ok none
    | some blk =>
      -- `memcpy` of a whole inode from the buffer of one block
      if off + fs.inodeSize ≤ fs.bs then .ok (some fun k => blk (off + k)) else .error .outside

def heapSize : Nat := 2 ^ 30

def superblock (d : Disk) : Nat → U8 := ofBytes (d.readBytes 1024 1024)

def mount (d : Disk) (ro writable : Bool) : Except Fault (Option Ext4) :=
  let sb := superblock d
  if (d.readBytes 1024 1024).length ≠ 1024 ∨ leGet sb 0x38 2 ≠ 0xef53 then .ok none
  else if leGet sb 0x60 4 &&& (0xffffffff ^^^ incompatReadOk) ≠ 0 then .ok none
  else if 32 ≤ logBlockSize sb then .error .shift
  else
    let geom := ofSb sb
    if 65536 < geom.bs ∨ !geom.fieldsOk then .ok none
    else if geom.groups = 0 ∨ heapSize < geom.groups * geom.descSize then .ok none
    else do
      match ← geom.loadGdt d geom.groups 0 (fun _ => 0) with
      | none => .ok none
      | some gdt =>
        let fs : Ext4 := ⟨geom, gdt, geom.mayWrite ro writable⟩
        match ← fs.iread d 2 with
        | none => .ok none
        | some _ => .ok (some fs)

variable {fs : Ext4} {geom : Geom}

theorem table_ok {off n : Nat} (h : off + n ≤ fs.groups * fs.descSize) :
    fs.table off n = .ok (leGet fs.gdt off n) :=
  if_pos h

theorem field_le {g off n : Nat} (hg : g < fs.groups) (h : off + n ≤ fs.descSize) :
    g * fs.descSize + off + n ≤ fs.groups * fs.descSize := by
  have : (g + 1) * fs.descSize ≤ fs.groups * fs.descSize := Nat.mul_le_mul_right _ hg
  rw [Nat.succ_mul] at this
  omega

theorem gd64_ok {g lo hi : Nat} (hg : g < fs.groups) (hd : 32 ≤ fs.descSize) (hlo : lo ≤ 28) (hhi : hi ≤ 60) :
    ∃ v, fs.gd64 g lo hi = .ok v := by
  rw [gd64, table_ok (field_le hg (by omega))]
  split
  next h64 =>
    rw [table_ok (field_le hg (by omega))]
    exact ⟨_, rfl⟩
  next => exact ⟨_, rfl⟩

theorem inodeLoc_ok (hd : 32 ≤ fs.descSize) (hi : 0 < fs.ipg) (hb : 0 < fs.bs) {ino : Nat} (h1 : 1 ≤ ino)
    (hc : ino ≤ fs.inodesCount) (hg : (ino - 1) / fs.ipg < fs.groups) :
    ∃ b, fs.inodeLoc ino = .ok (some (b, (ino - 1) % fs.ipg * fs.inodeSize % fs.bs)) := by
  obtain ⟨v, hv⟩ : ∃ v, fs.gd64 ((ino - 1) / fs.ipg) 0x08 0x28 = .ok v := gd64_ok hg hd (by decide) (by decide)
  rw [inodeLoc, if_neg (by omega), if_neg (by omega), hv]
  simp only [bind, Except.bind, if_neg (show ¬fs.bs = 0 by omega)]
  exact ⟨_, rfl⟩

structure Defined (fs : Ext4) : Prop where
  bs_pos : 0 < fs.bs
  bpg_pos : 0 < fs.bpg
  ipg_pos : 0 < fs.ipg
  groups_pos : 0 < fs.groups
  descSize_pos : 0 < fs.descSize
  per_pos : 0 < fs.per
  gdBlock_ok : ∀ g, ∃ b, fs.gdBlock g = .ok b
  inode_ok : ∀ ino, 1 ≤ ino → ino ≤ fs.inodesCount →
    (ino - 1) / fs.ipg < fs.groups ∧
      ((ino - 1) / fs.ipg + 1) * fs.descSize ≤ fs.groups * fs.descSize ∧
      ∃ b off, fs.inodeLoc ino = .ok (some (b, off)) ∧ off + fs.inodeSize ≤ fs.bs
  last_group : 1 ≤ fs.groupBlocks (fs.groups - 1) ∧ fs.groupBlocks (fs.groups - 1) ≤ fs.bpg

def Sound (d : Disk) (ro writable : Bool) : Prop :=
  fault? (mount d ro writable) = none ∧ ∀ fs, mount d ro writable = .ok (some fs) → fs.Defined

/-- Whole inodes fill the blocks, or the inodes of a group are in one block. -/
def Geom.SlotsFit (fs : Geom) : Prop := fs.inodeSize ∣ fs.bs ∨ min fs.ipg fs.inodesCount ≤ fs.bs / fs.inodeSize

/-- What the mount does not check of a superblock. -/
def Sane (sb : Nat → U8) : Prop :=
  logBlockSize sb < 32 ∧ (ofSb sb).descSize ≤ (ofSb sb).bs ∧
    (ofSb sb).inodesCount ≤ (ofSb sb).groups * (ofSb sb).ipg ∧ (ofSb sb).SlotsFit

namespace Geom

theorem gdBlock_ok (hd : 0 < geom.descSize) (hp : 0 < geom.per) (g : Nat) : ∃ b, geom.gdBlock g = .ok b := by
  rw [gdBlock, if_neg (by omega)]
  simp only
  split <;> exact ⟨_, rfl⟩

theorem group_lt_iff (hi : 0 < geom.ipg) :
    (∀ ino, 1 ≤ ino → ino ≤ geom.inodesCount → (ino - 1) / geom.ipg < geom.groups) ↔
      geom.inodesCount ≤ geom.groups * geom.ipg := by
  constructor
  · intro h
    by_cases h0 : geom.inodesCount = 0
    · omega
    · have := (Nat.div_lt_iff_lt_mul hi).mp (h geom.inodesCount (by omega) (Nat.le_refl _))
      omega
  · intro h ino h1 hc
    exact (Nat.div_lt_iff_lt_mul hi).mpr (by omega)

theorem slot_le {k : Nat} (hk : (k + 1) * geom.inodeSize ≤ geom.bs) :
    k * geom.inodeSize % geom.bs + geom.inodeSize ≤ geom.bs := by
  have := Nat.mod_le (k * geom.inodeSize) geom.bs
  rw [Nat.succ_mul] at hk
  omega

theorem slotsFit_iff (hi : 0 < geom.ipg) (hs : 0 < geom.inodeSize) (hb : 0 < geom.bs) :
    (∀ ino, 1 ≤ ino → ino ≤ geom.inodesCount →
      (ino - 1) % geom.ipg * geom.inodeSize % geom.bs + geom.inodeSize ≤ geom.bs) ↔ geom.SlotsFit := by
  rw [SlotsFit]
  constructor
  · intro h
    by_contra hno
    obtain ⟨hdvd, hlt⟩ := not_or.mp hno
    -- the first inode that does not fit in the first block
    generalize hq : geom.bs / geom.inodeSize = q at hlt
    have hle : q * geom.inodeSize ≤ geom.bs := hq ▸ Nat.div_mul_le_self _ _
    have hne : q * geom.inodeSize ≠ geom.bs := fun heq => hdvd ⟨q, by rw [Nat.mul_comm, heq]⟩
    have hfit := h (q + 1) (by omega) (by omega)
    rw [Nat.add_sub_cancel, Nat.mod_eq_of_lt (by omega : q < geom.ipg), Nat.mod_eq_of_lt (by omega),
      ← Nat.succ_mul] at hfit
    have := (Nat.le_div_iff_mul_le hs).mpr hfit
    omega
  · rintro (⟨c, hc⟩ | hle) ino h1 hcount
    · rw [hc, Nat.mul_comm _ geom.inodeSize, Nat.mul_mod_mul_left, ← Nat.mul_succ]
      have hpos : 0 < c := Nat.pos_of_ne_zero fun h0 => by
        rw [h0, Nat.mul_zero] at hc
        omega
      exact Nat.mul_le_mul_left _ (Nat.mod_lt _ hpos)
    · have h1' := Nat.mod_lt (ino - 1) hi
      have h2' := Nat.mod_le (ino - 1) geom.ipg
      refine (slot_le ((Nat.le_div_iff_mul_le hs).mp ?_))
      omega

theorem groupBlocks_eq {g : Nat} (hb : geom.bpg < 2 ^ 32) (h : geom.groupFirst g < geom.blocks)
    (h64 : geom.blocks < 2 ^ 64) : geom.groupBlocks g = min geom.bpg (geom.blocks - geom.groupFirst g) := by
  have hsum : min (geom.groupFirst g + geom.bpg) geom.blocks + (2 ^ 64 - geom.groupFirst g) =
      2 ^ 64 + min geom.bpg (geom.blocks - geom.groupFirst g) := by omega
  rw [groupBlocks, hsum, show (2 ^ 64 : Nat) = 2 ^ 32 * 2 ^ 32 by decide, Nat.mul_add_mod]
  exact Nat.mod_eq_of_lt (by omega)

theorem loadGdt_ok (hd : 0 < geom.descSize) (hp : 0 < geom.per) (d : Disk) (fuel g : Nat) (gdt : Nat → U8) :
    ∃ r, geom.loadGdt d fuel g gdt = .ok r := by
  induction fuel generalizing g gdt with
  | zero => exact ⟨_, rfl⟩
  | succ fuel ih =>
    rw [loadGdt]
    split
    next =>
      obtain ⟨b, hb⟩ := gdBlock_ok hd hp g
      rw [hb]
      simp only [bind, Except.bind]
      split
      next => exact ⟨_, rfl⟩
      next => exact ih _ _
    next => exact ⟨_, rfl⟩

theorem bread_bounds {d : Disk} {b : Nat} {blk : Nat → U8} (h : geom.bread d b = some blk) :
    0 < b ∧ b < geom.blocks := by
  rw [bread] at h
  split at h
  next => cases h
  next hb => omega

theorem firstData_lt {d : Disk} {gdt tab : Nat → U8} (hf : geom.firstData < 2 ^ 32) (hg : 0 < geom.groups)
    (h : geom.loadGdt d geom.groups 0 gdt = .ok (some tab)) : geom.firstData < geom.blocks ∧ 0 < geom.per := by
  obtain ⟨n, hn⟩ := Nat.exists_eq_add_of_lt hg
  rw [hn, loadGdt, if_pos hg] at h
  cases hb : geom.gdBlock 0 with
  | error f => rw [hb] at h; cases h
  | ok b =>
    rw [hb] at h
    simp only [bind, Except.bind] at h
    split at h
    next => cases h
    next blk hr =>
      have hbounds := bread_bounds hr
      rw [gdBlock] at hb
      split at hb
      next => cases hb
      next hper =>
        refine ⟨?_, by omega⟩
        simp only [Nat.zero_div, Nat.zero_mul, Nat.add_zero] at hb
        split at hb
        next =>
          cases hb
          omega
        next =>
          rw [hasSuper, groupFirst] at hb
          simp only [Nat.zero_le, decide_true, Bool.or_true, Bool.true_or, if_true] at hb
          cases hb
          omega

theorem fieldsOk_iff : geom.fieldsOk = true ↔
    geom.bpg ≠ 0 ∧ geom.ipg ≠ 0 ∧ 32 ≤ geom.descSize ∧ 128 ≤ geom.inodeSize ∧ geom.inodeSize ≤ geom.bs := by
  simp [fieldsOk]

end Geom

theorem blocks_ofSb_lt (sb : Nat → U8) : (ofSb sb).blocks < 2 ^ 64 := by
  have h1 : leGet sb 4 4 < 2 ^ 32 := leGet_lt sb 4 4
  have h2 : leGet sb 0x150 4 < 2 ^ 32 := leGet_lt sb 0x150 4
  rw [ofSb]
  simp only
  split <;> omega

theorem groupFirst_last_lt (sb : Nat → U8) (hg : 0 < (ofSb sb).groups)
    (hf : (ofSb sb).firstData < (ofSb sb).blocks) :
    (ofSb sb).groupFirst ((ofSb sb).groups - 1) < (ofSb sb).blocks := by
  have hb : (ofSb sb).bpg < 2 ^ 32 := leGet_lt sb 0x20 4
  have hblocks := blocks_ofSb_lt sb
  have hgroups : (ofSb sb).groups =
      ((ofSb sb).blocks + (2 ^ 64 - (ofSb sb).firstData) + (ofSb sb).bpg - 1) % 2 ^ 64 / (ofSb sb).bpg
        % 2 ^ 32 := rfl
  generalize ofSb sb = geom at *
  rw [Geom.groupFirst]
  have hpos : 0 < geom.bpg := by
    rcases Nat.eq_zero_or_pos geom.bpg with h | h
    · rw [h, Nat.div_zero] at hgroups
      omega
    · exact h
  have hsum : geom.blocks + (2 ^ 64 - geom.firstData) + geom.bpg - 1 =
      2 ^ 64 + (geom.blocks - geom.firstData + geom.bpg - 1) := by omega
  rw [hsum, Nat.add_mod_left] at hgroups
  by_cases hwrap : geom.blocks - geom.firstData + geom.bpg - 1 < 2 ^ 64
  · rw [Nat.mod_eq_of_lt hwrap] at hgroups
    have hle : geom.groups ≤ (geom.blocks - geom.firstData + geom.bpg - 1) / geom.bpg := by
      rw [hgroups]
      exact Nat.mod_le _ _
    have hmul := (Nat.le_div_iff_mul_le hpos).mp hle
    have : (geom.groups - 1) * geom.bpg + geom.bpg = geom.groups * geom.bpg := by
      rw [← Nat.succ_mul, Nat.succ_eq_add_one, Nat.sub_add_cancel hg]
    omega
  · have hsmall : (geom.blocks - geom.firstData + geom.bpg - 1) % 2 ^ 64 < geom.bpg := by
      rw [Nat.mod_eq_sub_mod (by omega), Nat.mod_eq_of_lt (by omega)]
      omega
    rw [Nat.div_eq_of_lt hsmall] at hgroups
    omega

variable {d : Disk} {ro writable : Bool}

theorem mount_cases (h : mount d ro writable ≠ .ok none) :
    mount d ro writable = .error .shift ∧ 32 ≤ logBlockSize (superblock d) ∨
    logBlockSize (superblock d) < 32 ∧ (ofSb (superblock d)).fieldsOk = true ∧ (ofSb (superblock d)).bs ≤ 65536 ∧
      0 < (ofSb (superblock d)).groups ∧
      (ofSb (superblock d)).groups * (ofSb (superblock d)).descSize ≤ heapSize ∧
      ((∃ f, (ofSb (superblock d)).loadGdt d (ofSb (superblock d)).groups 0 (fun _ => 0) = .error f ∧
          mount d ro writable = .error f) ∨
        ∃ fs : Ext4, fs.toGeom = ofSb (superblock d) ∧
          fs.loadGdt d fs.groups 0 (fun _ => 0) = .ok (some fs.gdt) ∧
          ((∃ f, fs.iread d 2 = .error f ∧ mount d ro writable = .error f) ∨
            mount d ro writable = .ok (some fs))) := by
  generalize hm : mount d ro writable = r at *
  rw [mount] at hm
  simp only at hm
  split at hm
  · exact absurd hm.symm h
  split at hm
  · exact absurd hm.symm h
  split at hm
  next hlog => exact .inl ⟨hm.symm, hlog⟩
  next hlog =>
    refine .inr ⟨by omega, ?_⟩
    split at hm
    · exact absurd hm.symm h
    next hfields =>
      split at hm
      · exact absurd hm.symm h
      next hgroups =>
        have hok : (ofSb (superblock d)).fieldsOk = true := by
          cases hc : (ofSb (superblock d)).fieldsOk with
          | false => exact absurd (.inr (by rw [hc]; rfl)) hfields
          | true => rfl
        refine ⟨hok, by omega, by omega, by omega, ?_⟩
        cases hl : (ofSb (superblock d)).loadGdt d (ofSb (superblock d)).groups 0 (fun _ => 0) with
        | error f =>
          rw [hl] at hm
          exact .inl ⟨f, rfl, hm.symm⟩
        | ok o =>
          rw [hl] at hm
          cases o with
          | none => exact absurd hm.symm h
          | some gdt =>
            refine .inr ⟨⟨ofSb (superblock d), gdt, (ofSb (superblock d)).mayWrite ro writable⟩, rfl, hl, ?_⟩
            simp only [bind, Except.bind] at hm
            cases hi : iread ⟨ofSb (superblock d), gdt, (ofSb (superblock d)).mayWrite ro writable⟩ d 2 with
            | error f =>
              rw [hi] at hm
              exact .inl ⟨f, rfl, hm.symm⟩
            | ok o =>
              rw [hi] at hm
              cases o with
              | none => exact absurd hm.symm h
              | some x => exact .inr hm.symm

theorem defined_of_loaded {sb : Nat → U8} (heq : fs.toGeom = ofSb sb) (hok : fs.fieldsOk = true)
    (hg : 0 < fs.groups) (hl : fs.loadGdt d fs.groups 0 (fun _ => 0) = .ok (some fs.gdt))
    (hc : fs.inodesCount ≤ fs.groups * fs.ipg) (hs : fs.SlotsFit) : fs.Defined := by
  have hf : fs.firstData < 2 ^ 32 := by rw [heq]; exact leGet_lt _ 0x14 4
  have hb : fs.bpg < 2 ^ 32 := by rw [heq]; exact leGet_lt _ 0x20 4
  have h64 : fs.blocks < 2 ^ 64 := by rw [heq]; exact blocks_ofSb_lt sb
  obtain ⟨hlt, hper⟩ := Geom.firstData_lt hf hg hl
  have hlast : fs.groupFirst (fs.groups - 1) < fs.blocks := by
    rw [heq] at hg hlt ⊢
    exact groupFirst_last_lt sb hg hlt
  obtain ⟨h1, h2, h3, h4, h5⟩ := Geom.fieldsOk_iff.mp hok
  have hgroup := (Geom.group_lt_iff (Nat.pos_of_ne_zero h2)).mpr hc
  have hslots := (Geom.slotsFit_iff (Nat.pos_of_ne_zero h2) (by omega) (by omega)).mpr hs
  have hblocks := Geom.groupBlocks_eq hb hlast h64
  exact {
    bs_pos := by omega
    bpg_pos := Nat.pos_of_ne_zero h1
    ipg_pos := Nat.pos_of_ne_zero h2
    groups_pos := hg
    descSize_pos := by omega
    per_pos := hper
    gdBlock_ok := fun g => Geom.gdBlock_ok (by omega) hper g
    inode_ok := fun ino hi hle => by
      obtain ⟨b, hloc⟩ := inodeLoc_ok h3 (Nat.pos_of_ne_zero h2) (by omega) hi hle (hgroup ino hi hle)
      exact ⟨hgroup ino hi hle, Nat.mul_le_mul_right _ (hgroup ino hi hle), b, _, hloc, hslots ino hi hle⟩
    last_group := by
      have hb1 := Nat.pos_of_ne_zero h1
      rw [hblocks]
      omega }

theorem iread_ok (hdef : fs.Defined) (d : Disk) (ino : Nat) : ∃ r, fs.iread d ino = .ok r := by
  rw [iread]
  by_cases h : ino = 0 ∨ fs.inodesCount < ino
  · rw [inodeLoc, if_pos h]
    exact ⟨_, rfl⟩
  obtain ⟨-, -, b, off, hloc, hoff⟩ := hdef.inode_ok ino (by omega) (by omega)
  rw [hloc]
  simp only [bind, Except.bind, if_pos hoff]
  split <;> exact ⟨_, rfl⟩

/-- A volume that the mount does not turn down is free of undefined arithmetic if and only if four things
hold that are not checked: the shift for the block size is below 32, a descriptor fits in a block, the
groups have room for all inodes, and no inode crosses the end of a block. -/
theorem mount_sound_iff (d : Disk) (ro writable : Bool) (h : mount d ro writable ≠ .ok none) :
    Sound d ro writable ↔ Sane (superblock d) := by
  obtain ⟨hm, hlog⟩ | ⟨hlog, hok, -, hg, -, hrest⟩ := mount_cases h
  · rw [Sound, hm]
    constructor
    · rintro ⟨hf, -⟩
      cases hf
    · rintro ⟨hlt, -⟩
      omega
  obtain ⟨f, hl, hm⟩ | ⟨fs, heq, hl, hrest⟩ := hrest
  · rw [Sound, hm]
    constructor
    · rintro ⟨hf, -⟩
      cases hf
    · rintro ⟨-, hd, -⟩
      have hd32 := (Geom.fieldsOk_iff.mp hok).2.2.1
      obtain ⟨r, hr⟩ := Geom.loadGdt_ok (by omega) (Nat.div_pos hd (by omega)) d (ofSb (superblock d)).groups 0
        (fun _ => 0)
      rw [hr] at hl
      cases hl
  rw [Sane, ← heq]
  rw [← heq] at hok hg
  obtain ⟨-, hi, hdesc, hsize, -⟩ := Geom.fieldsOk_iff.mp hok
  have hper : fs.descSize ≤ fs.bs := by
    have := (Geom.firstData_lt (by rw [heq]; exact leGet_lt _ 0x14 4) hg hl).2
    exact Nat.le_of_not_lt fun hlt => absurd (Nat.div_eq_of_lt hlt) (Nat.ne_of_gt this)
  obtain ⟨f, hr, hm⟩ | hm := hrest
  · rw [Sound, hm]
    constructor
    · rintro ⟨hf, -⟩
      cases hf
    · rintro ⟨-, -, hc, hs⟩
      obtain ⟨r, hr'⟩ := iread_ok (defined_of_loaded heq hok hg hl hc hs) d 2
      rw [hr'] at hr
      cases hr
  · rw [Sound, hm]
    constructor
    · rintro ⟨-, hdef⟩
      have hd := hdef _ rfl
      have hi' := Nat.pos_of_ne_zero hi
      refine ⟨hlog, hper, (Geom.group_lt_iff hi').mp fun ino h1 hc => (hd.inode_ok ino h1 hc).1,
        (Geom.slotsFit_iff hi' (by omega) hd.bs_pos).mp fun ino h1 hc => ?_⟩
      obtain ⟨hlt, -, b, off, hloc, hoff⟩ := hd.inode_ok ino h1 hc
      obtain ⟨b', hloc'⟩ := inodeLoc_ok hdesc hi' hd.bs_pos h1 hc hlt
      rw [hloc] at hloc'
      cases hloc'
      exact hoff
    · rintro ⟨-, -, hc, hs⟩
      refine ⟨rfl, fun fs' hfs => ?_⟩
      cases hfs
      exact defined_of_loaded heq hok hg hl hc hs

structure Geom.Usable (fs : Geom) : Prop where
  bs_pos : 0 < fs.bs
  bs_le : fs.bs ≤ 65536
  blocks_lt : fs.blocks < 2 ^ 64

theorem sampleSector_pos : 0 < 1024 := by decide

/-- Eight blocks of 1024 bytes: the superblock, the descriptors of one group of 16 inodes, and its inode table
from block 4 on with a root of 4096 bytes. -/
def sampleDisk (sb : Nat → U8) : Disk where
  sectors := 8
  sectorSize := 1024
  sector := fun lba =>
    if lba < 8 then
      some (if lba = 1 then sb else if lba = 2 then lePut (fun _ => 0) 0x08 4 4
        else if lba = 4 then lePut (fun _ => 0) (128 + 0x04) 4 4096 else fun _ => 0)
    else none
  sectorSize_pos := sampleSector_pos
  addressable := by decide
  sector_past := fun lba h => if_neg (by omega)

def sampleSb (inodes blocks incompat descSize : Nat) : Nat → U8 :=
  let sb := lePut (lePut (fun _ => 0) 0x00 4 inodes) 0x04 4 blocks
  let sb := lePut (lePut (lePut sb 0x14 4 1) 0x20 4 8192) 0x28 4 16
  let sb := lePut (lePut (lePut sb 0x38 2 0xef53) 0x4c 4 1) 0x58 2 128
  lePut (lePut sb 0x60 4 incompat) 0xfe 2 descSize

/-- Of 32 inodes in one group of 16 the 17th has no descriptor, a descriptor of 2048 bytes makes the mount divide
by zero, and the second inode of 1000 bytes goes past the block that was read. -/
theorem mount_unsound :
    ((mount (sampleDisk (sampleSb 32 8 0 0)) false false).toOption.join.map fun fs => fault? (fs.inodeLoc 17)) =
        some (some .outside) ∧
      fault? (mount (sampleDisk (sampleSb 16 8 0x80 2048)) false false) = some .divZero ∧
      fault? (mount (sampleDisk (lePut (sampleSb 16 8 0 0) 0x58 2 1000)) false false) = some .outside := by
  decide +kernel

theorem mount_sample : ∃ fs, mount (sampleDisk (sampleSb 16 8 0 0)) false false = .ok (some fs) := by
  have hsome : (mount (sampleDisk (sampleSb 16 8 0 0)) false false).toOption.join.isSome = true := by
    decide +kernel
  cases hm : mount (sampleDisk (sampleSb 16 8 0 0)) false false with
  | error f =>
    rw [hm] at hsome
    cases hsome
  | ok o =>
    rw [hm] at hsome
    cases o with
    | none => cases hsome
    | some fs => exact ⟨fs, rfl⟩

theorem mount_sound_sample : Sound (sampleDisk (sampleSb 16 8 0 0)) false false := by
  obtain ⟨fs, hm⟩ := mount_sample
  have hne : mount (sampleDisk (sampleSb 16 8 0 0)) false false ≠ .ok none := by
    rw [hm]
    nofun
  exact (mount_sound_iff (sampleDisk (sampleSb 16 8 0 0)) false false hne).mpr
    ⟨by decide +kernel, by decide +kernel, by decide +kernel, .inl (by decide +kernel)⟩

def sampleFs : Ext4 := ⟨ofSb (sampleSb 16 8 0 0), lePut (fun _ => 0) 0x08 4 4, false⟩

theorem sampleFs_usable : sampleFs.Usable := ⟨by decide +kernel, by decide +kernel, by decide +kernel⟩

end Ext4

end Sic.Fs
