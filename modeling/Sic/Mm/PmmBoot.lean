import Sic.Lib.Run
import Sic.Mm.Pmm

/-! The frames at boot: what the firmware reports usable is given out, and what the loader and the firmware
leave behind is reclaimed later. An address is the number of its byte; `w` is the width of the mask of
`PAGE_ALIGN_DOWN`, 32 or 64 bits. -/

namespace Sic.Pmm

inductive MemType where
  | usable
  | reserved
  | acpiReclaimable
  | acpiNvs
  | bootloader
  | bad
  | bootServices
  deriving DecidableEq

structure Region where
  base : Nat
  length : Nat
  type : MemType

def alignDown (w x : Nat) : Nat := x % 2 ^ w / 4096 * 4096

def alignUp (w x : Nat) : Nat := alignDown w ((x + 4095) % 2 ^ 64)

def markFrame (used : Bool) (p : Pmm) (i : Nat) : Pmm :=
  if used then
    if p.bitmap i then p
    else
      { p with bitmap := Function.update p.bitmap i true
               refcounts := Function.update p.refcounts i 1
               usedPages := p.usedPages + 1 }
  else if p.bitmap i then
    { p with bitmap := Function.update p.bitmap i false
             refcounts := Function.update p.refcounts i 0
             usedPages := p.usedPages - 1
             searchHint := min i p.searchHint }
  else p

def rangeFrames (w pages base len : Nat) (used : Bool) : List Nat :=
  let stop := (base + len) % 2 ^ 64
  let first := if used then alignDown w base else alignUp w base
  let last := if used then alignUp w stop else alignDown w stop
  List.range' (first / 4096) (min last (pages * 4096) / 4096 - first / 4096)

def markRange (w : Nat) (p : Pmm) (base len : Nat) (used : Bool) : Pmm :=
  (rangeFrames w p.bitmapPages base len used).foldl (markFrame used) p

/-- Where the linker and the loader put the kernel, and the width of a long. -/
structure Image where
  w : Nat
  start : Nat
  stop : Nat
  width : w = 32 ∨ w = 64
  order : start ≤ stop
  room : stop + 4095 < 2 ^ w

def Image.kstart (k : Image) : Nat := alignDown k.w k.start

def Image.kend (k : Image) : Nat := alignUp k.w k.stop

def MAX_REGIONS : Nat := 128

def Region.stop (r : Region) : Nat := (r.base + r.length) % 2 ^ 64

def highestAddr (regions : List Region) : Nat :=
  regions.foldl (fun h r => if r.type = .usable ∧ h < r.stop then r.stop else h) 0

def bitmapBytes (w pages : Nat) : Nat := alignUp w ((pages + 7) / 8)

def refcountBytes (w pages : Nat) : Nat := alignUp w (pages * 2)

def metaIn (k : Image) (total : Nat) (r : Region) : Option Nat :=
  if r.type = .usable then
    let base := alignUp k.w r.base
    let stop := alignDown k.w r.stop
    let base := if base < 0x100000 then 0x100000 else base
    let base := if base < k.kend ∧ k.kstart < stop then k.kend else base
    if base < stop ∧ total ≤ stop - base then some base else none
  else none

structure Boot where
  pmm : Pmm
  regions : List Region
  keep : List (Nat × Nat)
  bitmapPhys : Nat
  metaBytes : Nat

/-- `none` if the machine halts. -/
def pmmInit (k : Image) (map : List Region) : Option Boot :=
  let regions := map.take MAX_REGIONS
  let pages := highestAddr regions / 4096
  let total := bitmapBytes k.w pages + refcountBytes k.w pages
  match regions.findSome? (metaIn k total) with
  | none => none
  | some phys =>
    let p : Pmm :=
      { bitmap := fun _ => true, refcounts := fun _ => 0, bitmapPages := pages, usedPages := pages,
        searchHint := pages }
    let p := regions.foldl (fun p r => if r.type = .usable then markRange k.w p r.base r.length false else p) p
    let p := markRange k.w p 0 0x100000 true
    let p := markRange k.w p k.kstart (k.kend - k.kstart) true
    let p := markRange k.w p phys total true
    some { pmm := p, regions := regions, keep := [], bitmapPhys := phys, metaBytes := total }

def pmmKeep (b : Boot) (base len : Nat) : Boot :=
  if b.keep.length < 8 then { b with keep := b.keep ++ [(base, len)] } else b

def reclaimable (r : Region) : Bool := r.type = .bootloader ∨ r.type = .bootServices

def reclaimRegion (k : Image) (p : Pmm) (r : Region) : Pmm :=
  if reclaimable r then
    if r.base < k.kend ∧ k.kstart < r.stop then
      let p := if r.base < k.kstart then markRange k.w p r.base (k.kstart - r.base) false else p
      if k.kend < r.stop then markRange k.w p k.kend (r.stop - k.kend) false else p
    else markRange k.w p r.base ((r.stop + 2 ^ 64 - r.base) % 2 ^ 64) false
  else p

def pmmReclaimBootMemory (k : Image) (b : Boot) : Boot :=
  let p := b.regions.foldl (reclaimRegion k) b.pmm
  let p := markRange k.w p 0 0x100000 true
  let p := b.keep.foldl (fun p r => markRange k.w p r.1 r.2 true) p
  { b with pmm := p
           regions := b.regions.map fun r => if reclaimable r then { r with type := .usable } else r }

section

variable {p : Pmm} {used : Bool} {w pages base len f : Nat} {k : Image} {b : Boot} {map : List Region}

theorem mem_rangeFrames : f ∈ rangeFrames w pages base len used ↔
    (if used then alignDown w base else alignUp w base) / 4096 ≤ f ∧
      f < (if used then alignUp w ((base + len) % 2 ^ 64) else alignDown w ((base + len) % 2 ^ 64)) / 4096 ∧
        f < pages := by
  rw [rangeFrames, List.mem_range'_1]
  generalize (if used then alignDown w base else alignUp w base) = first
  generalize (if used then alignUp w ((base + len) % 2 ^ 64) else alignDown w ((base + len) % 2 ^ 64)) = last
  omega

theorem markFrame_bitmap (used : Bool) (p : Pmm) (i f : Nat) :
    (markFrame used p i).bitmap f = if f = i then used else p.bitmap f := by
  cases used with
  | true =>
    rw [markFrame, if_pos rfl]
    split
    · grind
    · exact Function.update_apply ..
  | false =>
    rw [markFrame, if_neg (by decide)]
    split
    · exact Function.update_apply ..
    · grind

theorem markFrame_pages (used : Bool) (p : Pmm) (i : Nat) : (markFrame used p i).bitmapPages = p.bitmapPages := by
  rw [markFrame]
  split
  · split <;> rfl
  · split <;> rfl

theorem markFrames_bitmap (l : List Nat) (p : Pmm) :
    (l.foldl (markFrame used) p).bitmap f = if f ∈ l then used else p.bitmap f := by
  induction l generalizing p with
  | nil => simp
  | cons i l ih =>
    rw [List.foldl_cons, ih, markFrame_bitmap]
    grind

theorem markFrames_pages (l : List Nat) (p : Pmm) : (l.foldl (markFrame used) p).bitmapPages = p.bitmapPages := by
  induction l generalizing p with
  | nil => rfl
  | cons i l ih => rw [List.foldl_cons, ih, markFrame_pages]

theorem markRange_bitmap (w : Nat) (p : Pmm) (base len : Nat) (used : Bool) (f : Nat) :
    (markRange w p base len used).bitmap f =
      if f ∈ rangeFrames w p.bitmapPages base len used then used else p.bitmap f := markFrames_bitmap _ p

@[simp]
theorem markRange_pages (w : Nat) (p : Pmm) (base len : Nat) (used : Bool) :
    (markRange w p base len used).bitmapPages = p.bitmapPages := markFrames_pages _ p

def GivenBy (w pages : Nat) (regions : List Region) (f : Nat) : Prop :=
  ∃ r ∈ regions, r.type = .usable ∧ f ∈ rangeFrames w pages r.base r.length false

theorem giveAll_spec (w : Nat) (regions : List Region) (p : Pmm) :
    let q := regions.foldl (fun p r => if r.type = .usable then markRange w p r.base r.length false else p) p
    q.bitmapPages = p.bitmapPages ∧
      ∀ f, q.bitmap f = false ↔ p.bitmap f = false ∨ GivenBy w p.bitmapPages regions f := by
  induction regions generalizing p with
  | nil => exact ⟨rfl, fun f => by simp [GivenBy]⟩
  | cons r regions ih =>
    obtain ⟨h1, h2⟩ := ih (if r.type = .usable then markRange w p r.base r.length false else p)
    have hpages : (if r.type = .usable then markRange w p r.base r.length false else p).bitmapPages =
      p.bitmapPages := by
      split
      · exact markRange_pages ..
      · rfl
    rw [hpages] at h1
    refine ⟨h1, fun f => (h2 f).trans ?_⟩
    rw [hpages]
    simp only [GivenBy, List.exists_mem_cons_iff]
    by_cases hr : r.type = .usable
    · rw [if_pos hr, markRange_bitmap]
      grind
    · rw [if_neg hr]
      grind

def lowFrames (k : Image) (pages : Nat) : List Nat := rangeFrames k.w pages 0 0x100000 true

def kernelFrames (k : Image) (pages : Nat) : List Nat := rangeFrames k.w pages k.kstart (k.kend - k.kstart) true

def metaFrames (k : Image) (b : Boot) : List Nat :=
  rangeFrames k.w b.pmm.bitmapPages b.bitmapPhys b.metaBytes true

theorem pmmInit_spec (h : pmmInit k map = some b) :
    b.regions = map.take MAX_REGIONS ∧ b.pmm.bitmapPages = highestAddr b.regions / 4096 ∧ b.keep = [] ∧
      b.metaBytes = bitmapBytes k.w b.pmm.bitmapPages + refcountBytes k.w b.pmm.bitmapPages ∧
      b.regions.findSome? (metaIn k b.metaBytes) = some b.bitmapPhys ∧
      ∀ f, b.pmm.bitmap f = false ↔ GivenBy k.w b.pmm.bitmapPages b.regions f ∧
        f ∉ lowFrames k b.pmm.bitmapPages ∧ f ∉ kernelFrames k b.pmm.bitmapPages ∧ f ∉ metaFrames k b := by
  rw [pmmInit] at h
  simp only at h
  split at h
  · cases h
  next phys hphys =>
    obtain ⟨hpages, hgive⟩ := giveAll_spec k.w (map.take MAX_REGIONS)
      { bitmap := fun _ => true
        refcounts := fun _ => 0
        bitmapPages := highestAddr (map.take MAX_REGIONS) / 4096,
        usedPages := highestAddr (map.take MAX_REGIONS) / 4096,
        searchHint := highestAddr (map.take MAX_REGIONS) / 4096 }
    generalize (map.take MAX_REGIONS).foldl _ _ = q at h hpages hgive
    cases h
    simp only [markRange_pages, hpages]
    refine ⟨trivial, trivial, trivial, trivial, hphys, fun f => ?_⟩
    simp only [metaFrames, lowFrames, kernelFrames, markRange_bitmap, markRange_pages, hpages]
    have hq := hgive f
    simp only [Bool.true_eq_false, false_or] at hq
    grind

end

end Sic.Pmm
