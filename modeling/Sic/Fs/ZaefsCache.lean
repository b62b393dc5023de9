import Sic.Lib.Bytes
import Sic.Lib.Run

/-! The block cache of zaefs over a device whose transfers may fail. -/

namespace Sic.Fs.BlockCache

structure CacheSlot where
  block : U64 := 0
  valid : Bool := false
  data : Bytes := []

structure Vol where
  totalBlocks : U64
  sectorsPerBlock : U32
  cache : Nat → CacheSlot := fun _ => {}
  dev : U64 → Bytes

/-- How a transfer goes. One that fails leaves something where it was to go: in the buffer, or on the device. -/
inductive Transfer
  | ok
  | failed (left : Bytes)
deriving DecidableEq

def slotFor (block : U64) : Nat := block.toNat % 64

def Vol.sector (fs : Vol) (block : U64) : U64 := block * fs.sectorsPerBlock.setWidth 64

def Vol.setSlot (fs : Vol) (block : U64) (s : CacheSlot) : Vol :=
  { fs with cache := Function.update fs.cache (slotFor block) s }

def Vol.hit (fs : Vol) (block : U64) : Bool :=
  (fs.cache (slotFor block)).valid ∧ (fs.cache (slotFor block)).block = block

def Vol.past (fs : Vol) (block : U64) : Bool := fs.totalBlocks ≠ 0 ∧ fs.totalBlocks ≤ block

def readBlock (fs : Vol) (block : U64) (t : Transfer) : Vol × Option Bytes :=
  if fs.past block then (fs, none)
  else if fs.hit block then (fs, some (fs.cache (slotFor block)).data)
  else
    match t with
    | .failed left => (fs.setSlot block { fs.cache (slotFor block) with data := left }, none)
    | .ok => (fs.setSlot block ⟨block, true, fs.dev (fs.sector block)⟩, some (fs.dev (fs.sector block)))

def writeBlock (fs : Vol) (block : U64) (buf : Bytes) (t : Transfer) : Vol × Bool :=
  let fs := fs.setSlot block ⟨block, true, buf⟩
  match t with
  | .failed left => ({ fs with dev := Function.update fs.dev (fs.sector block) left }, false)
  | .ok => ({ fs with dev := Function.update fs.dev (fs.sector block) buf }, true)

inductive Event
  | read (block : U64) (t : Transfer)
  | write (block : U64) (buf : Bytes) (t : Transfer)

/-- Beside the cache: what each block was last written with success, and the slots into which a transfer has
failed since they were last filled by one that did not. -/
structure State where
  fs : Vol
  last : U64 → Bytes
  spoilt : Nat → Bool := fun _ => false

def start (totalBlocks : U64) (sectorsPerBlock : U32) (dev : U64 → Bytes) : State :=
  let fs : Vol := { totalBlocks := totalBlocks, sectorsPerBlock := sectorsPerBlock, dev := dev }
  { fs := fs, last := fun b => dev (fs.sector b) }

def spoiltBy (s : State) (block : U64) : Transfer → Nat → Bool
  | .ok => Function.update s.spoilt (slotFor block) false
  | .failed left =>
    if left = (s.fs.cache (slotFor block)).data then s.spoilt else Function.update s.spoilt (slotFor block) true

def step (s : State) : Event → State
  | .read block t =>
    { s with
      fs := (readBlock s.fs block t).1
      spoilt := if s.fs.past block ∨ s.fs.hit block then s.spoilt else spoiltBy s block t }
  | .write block buf t =>
    { fs := (writeBlock s.fs block buf t).1
      last := if t = .ok then Function.update s.last block buf else s.last
      spoilt := Function.update s.spoilt (slotFor block) (t ≠ .ok) }

def Fits (fs : Vol) (block : U64) : Prop := block.toNat * fs.sectorsPerBlock.toNat < 2 ^ 64

/-- No slot is hit into which a transfer has failed, and a write that fails leaves the device as it was. -/
def Sound (s : State) : Event → Prop
  | .read block _ => Fits s.fs block ∧ (s.fs.hit block = true → s.spoilt (slotFor block) = false)
  | .write block _ t => Fits s.fs block ∧ ∀ left, t = .failed left → left = s.fs.dev (s.fs.sector block)

/-! ### The invariant -/

structure Inv (s : State) : Prop where
  sectors : 0 < s.fs.sectorsPerBlock.toNat
  dev : ∀ b, Fits s.fs b → s.fs.dev (s.fs.sector b) = s.last b
  slot : ∀ b, Fits s.fs b → s.fs.hit b = true → s.spoilt (slotFor b) = false →
    (s.fs.cache (slotFor b)).data = s.last b

variable {s : State} {fs : Vol} {b c : U64} {t : Transfer} {x : CacheSlot}

theorem toNat_sector (h : Fits fs b) : (fs.sector b).toNat = b.toNat * fs.sectorsPerBlock.toNat := by
  have hw : (fs.sectorsPerBlock.setWidth 64).toNat = fs.sectorsPerBlock.toNat := by
    rw [BitVec.toNat_setWidth]
    have := fs.sectorsPerBlock.isLt
    omega
  rw [Vol.sector, BitVec.toNat_mul, hw]
  exact Nat.mod_eq_of_lt h

theorem sector_injective (hpos : 0 < fs.sectorsPerBlock.toNat) (hb : Fits fs b) (hc : Fits fs c)
    (h : fs.sector b = fs.sector c) :
    b = c := by
  have hn := congrArg BitVec.toNat h
  rw [toNat_sector hb, toNat_sector hc] at hn
  exact BitVec.eq_of_toNat_eq (Nat.eq_of_mul_eq_mul_right hpos hn)

theorem hit_iff : fs.hit b = true ↔ (fs.cache (slotFor b)).valid = true ∧ (fs.cache (slotFor b)).block = b := by
  simp [Vol.hit]

@[simp] theorem setSlot_self : (fs.setSlot b x).cache (slotFor b) = x := Function.update_self ..

theorem setSlot_of_ne (h : slotFor c ≠ slotFor b) : (fs.setSlot b x).cache (slotFor c) = fs.cache (slotFor c) :=
  Function.update_of_ne h ..

theorem hit_setSlot {d : Bytes} (h : (fs.setSlot b ⟨b, true, d⟩).hit c = true) :
    c = b ∨ (slotFor c ≠ slotFor b ∧ fs.hit c = true) := by
  rw [hit_iff] at h
  by_cases hs : slotFor c = slotFor b
  · rw [hs, setSlot_self] at h
    exact .inl h.2.symm
  · rw [setSlot_of_ne hs] at h
    exact .inr ⟨hs, hit_iff.mpr h⟩

theorem Inv.fill (h : Inv s) (hb : Fits s.fs b) :
    Inv { s with
      fs := s.fs.setSlot b ⟨b, true, s.fs.dev (s.fs.sector b)⟩
      spoilt := Function.update s.spoilt (slotFor b) false } := by
  refine ⟨h.sectors, h.dev, fun c hc hhit hsp => ?_⟩
  rcases hit_setSlot hhit with rfl | ⟨hne, hhit⟩
  · rw [setSlot_self]
    exact h.dev c hb
  · rw [setSlot_of_ne hne]
    exact h.slot c hc hhit (by simpa [Function.update_of_ne hne] using hsp)

theorem Inv.fail (h : Inv s) (left : Bytes) :
    Inv { s with
      fs := s.fs.setSlot b { s.fs.cache (slotFor b) with data := left }
      spoilt := spoiltBy s b (.failed left) } := by
  refine ⟨h.sectors, h.dev, fun c hc hhit hsp => ?_⟩
  by_cases hs : slotFor c = slotFor b
  · rw [hit_iff, hs, setSlot_self] at hhit
    dsimp only [spoiltBy] at hsp ⊢
    split at hsp
    · next hleft =>
      rw [hs, setSlot_self, hleft, ← hs]
      exact h.slot c hc (hit_iff.mpr (hs ▸ hhit)) hsp
    · rw [hs, Function.update_self] at hsp
      cases hsp
  · rw [hit_iff, setSlot_of_ne hs] at hhit
    dsimp only [spoiltBy] at hsp ⊢
    rw [setSlot_of_ne hs]
    refine h.slot c hc (hit_iff.mpr hhit) ?_
    split at hsp
    · exact hsp
    · rwa [Function.update_of_ne hs] at hsp

theorem Inv.write (h : Inv s) {buf : Bytes} (hok : Sound s (.write b buf t)) : Inv (step s (.write b buf t)) := by
  obtain ⟨hb, hleft⟩ := hok
  have hother (c : U64) (hc : Fits s.fs c) (hne : c ≠ b) (v : Bytes) :
      Function.update s.fs.dev (s.fs.sector b) v (s.fs.sector c) = s.last c := by
    rw [Function.update_of_ne fun heq => hne (sector_injective h.sectors hc hb heq)]
    exact h.dev c hc
  cases t with
  | ok =>
    refine ⟨h.sectors, fun c hc => ?_, fun c hc hhit hsp => ?_⟩
    · by_cases hcb : c = b
      · subst hcb
        exact (Function.update_self ..).trans (by simp [step])
      · exact (hother c hc hcb buf).trans (by simp [step, hcb])
    · rcases hit_setSlot hhit with rfl | ⟨hne, hhit⟩
      · simp [step, writeBlock]
      · have hcb : c ≠ b := fun heq => hne (heq ▸ rfl)
        have hslot := h.slot c hc hhit (by simpa [step, Function.update_of_ne hne] using hsp)
        simpa [step, writeBlock, setSlot_of_ne hne, hcb] using hslot
  | failed left =>
    refine ⟨h.sectors, fun c hc => ?_, fun c hc hhit hsp => ?_⟩
    · by_cases hcb : c = b
      · subst hcb
        change Function.update s.fs.dev (s.fs.sector c) left (s.fs.sector c) = s.last c
        rw [Function.update_self, hleft left rfl]
        exact h.dev c hc
      · exact hother c hc hcb left
    · rcases hit_setSlot hhit with rfl | ⟨hne, hhit⟩
      · simp [step] at hsp
      · have hslot := h.slot c hc hhit (by simpa [step, Function.update_of_ne hne] using hsp)
        simpa [step, writeBlock, setSlot_of_ne hne] using hslot

theorem step_inv (h : Inv s) {e : Event} (hok : Sound s e) : Inv (step s e) := by
  cases e with
  | read b t =>
    by_cases hpast : s.fs.past b = true
    · rw [step, readBlock.eq_def, if_pos hpast, if_pos (.inl hpast)]
      exact h
    by_cases hhit : s.fs.hit b = true
    · rw [step, readBlock.eq_def, if_neg hpast, if_pos hhit, if_pos (.inr hhit)]
      exact h
    rw [step, readBlock.eq_def, if_neg hpast, if_neg hhit, if_neg (not_or.mpr ⟨hpast, hhit⟩)]
    cases t with
    | ok => exact h.fill hok.1
    | failed left => exact h.fail left
  | write b buf t => exact h.write hok

variable {totalBlocks : U64} {sectorsPerBlock : U32} {dev : U64 → Bytes}

theorem start_inv (hpos : 0 < sectorsPerBlock.toNat) : Inv (start totalBlocks sectorsPerBlock dev) := by
  refine ⟨hpos, fun _ _ => rfl, fun c _ hhit _ => ?_⟩
  cases (hit_iff.mp hhit).1

/-- What a read returns is what the block was last written with success. -/
theorem readBlock_last (totalBlocks : U64) {sectorsPerBlock : U32} (hpos : 0 < sectorsPerBlock.toNat)
    (dev : U64 → Bytes) {es : List Event}
    (hes : Along Sound step (start totalBlocks sectorsPerBlock dev) (es ++ [.read b t])) {d : Bytes}
    (hread : (readBlock (run step (start totalBlocks sectorsPerBlock dev) es).fs b t).2 = some d) :
    d = (run step (start totalBlocks sectorsPerBlock dev) es).last b := by
  obtain ⟨hpre, ⟨hfits, hclean⟩, -⟩ := hes.split
  have hinv := invariant_run (P := Inv) (fun _ _ h ho => step_inv h ho) (start_inv hpos) hpre
  unfold readBlock at hread
  split at hread
  · cases hread
  split at hread
  · next hhit =>
    cases hread
    exact hinv.slot b hfits hhit (hclean hhit)
  · split at hread
    · cases hread
    · cases hread
      exact hinv.dev b hfits

/-! ### Transfers that fail -/

instance (s : State) : ∀ e, Decidable (Sound s e)
  | .read b _ => inferInstanceAs (Decidable (b.toNat * s.fs.sectorsPerBlock.toNat < 2 ^ 64 ∧ _))
  | .write b _ .ok =>
    decidable_of_iff (b.toNat * s.fs.sectorsPerBlock.toNat < 2 ^ 64) ⟨fun h => ⟨h, nofun⟩, fun h => h.1⟩
  | .write b _ (.failed left) =>
    decidable_of_iff (b.toNat * s.fs.sectorsPerBlock.toNat < 2 ^ 64 ∧ left = s.fs.dev (s.fs.sector b))
      ⟨fun h => ⟨h.1, fun l hl => by cases hl; exact h.2⟩, fun h => ⟨h.1, h.2 left rfl⟩⟩

def blank : State := start 128 8 fun _ => [0]

def failures : List Event :=
  [.write 1 [7] .ok, .read 65 (.failed [9]), .read 65 .ok, .write 1 [8] (.failed [7]), .read 65 .ok]

theorem readBlock_last_failures :
    (readBlock (run step blank failures).fs 1 .ok).2 = some [7] ∧ [7] = (run step blank failures).last 1 :=
  ⟨by decide +kernel, readBlock_last (t := .ok) 128 (by decide : 0 < (8 : U32).toNat) (fun _ => [0])
    (show Along Sound step blank (failures ++ _) by
    decide +kernel) (by decide +kernel)⟩

/-- The data of a write that failed is read back; and so is what a read that failed left in the slot of another
block. -/
theorem readBlock_spoilt :
    (readBlock (run step blank [.write 1 [7] (.failed [0])]).fs 1 .ok).2 = some [7] ∧
      (run step blank [.write 1 [7] (.failed [0])]).last 1 = [0] ∧
    (readBlock (run step blank [.write 1 [7] .ok, .read 65 (.failed [9])]).fs 1 .ok).2 = some [9] ∧
      (run step blank [.write 1 [7] .ok, .read 65 (.failed [9])]).last 1 = [7] := by
  decide +kernel

end Sic.Fs.BlockCache
