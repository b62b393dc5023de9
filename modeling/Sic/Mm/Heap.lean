import Sic.Mm.HeapPages

/-! Slabs, large allocations and the calls of `kernel/mm/heap.c`. A slab's
header lies in its first page; its free objects are threaded through their own
first words. Addresses are numbers, 0 being `NULL`; a `size_t` is a number below `2 ^ L.bits`. -/

namespace Sic.Heap

def slabPages : Nat := 4

def slabBytes : Nat := slabPages * pageSize

def slabMagic : U32 := 0x534C4142

def largeMagic : U32 := 0x4C52474C

def maxSmall : Nat := 2048

/-- `sizeof(struct slab)`, 48 or with pointers of 32 bits 32, rounded up to 64. -/
def slabHdrSize : Nat := 64

def largeHdrSize : Nat := 32

def classSizes : List Nat := [16, 32, 64, 128, 256, 512, 1024, 2048]

structure Slab where
  magic : U32 := 0
  objSize : Nat := 0
  freeCount : Nat := 0
  total : Nat := 0
  freelist : Nat := 0
  cache : Nat := 0

structure LargeHdr where
  magic : U32 := 0
  pages : Nat := 0
  size : Nat := 0

structure State where
  pages : Pages := {}
  /-- The header in a page. -/
  slab : Nat → Slab := fun _ => {}
  large : Nat → LargeHdr := fun _ => {}
  /-- The words of the objects, each as wide as a pointer. -/
  word : Nat → Nat := fun _ => 0
  /-- `caches[i].partial`, the slabs with a free object. -/
  partials : Nat → List Nat := fun _ => []

def cacheFor (size : Nat) : Option Nat := classSizes.findIdx? fun c => size ≤ c

def partialPush (h : State) (c s : Nat) : State :=
  { h with partials := Function.update h.partials c (s :: h.partials c) }

def partialRemove (h : State) (c s : Nat) : State :=
  { h with partials := Function.update h.partials c ((h.partials c).erase s) }

def objAddr (L : Layout) (s objSize i : Nat) : Nat := L.pageAddr s + slabHdrSize + i * objSize

def thread (L : Layout) (w : Nat → Nat) (s objSize total : Nat) : Nat → Nat :=
  (List.range total).foldl (fun w i => Function.update w (objAddr L s objSize i)
    (if i + 1 < total then objAddr L s objSize (i + 1) else 0)) w

def slabCreate (L : Layout) (h : State) (c : Nat) (frames : List U64) : State × Option Nat :=
  match allocPages L h.pages slabPages frames with
  | (g, none) => ({ h with pages := g }, none)
  | (g, some s) =>
    let objSize := classSizes.getD c 0
    let total := (slabBytes - slabHdrSize) / objSize
    (partialPush
      { h with pages := g.setOwner s slabPages (.slab s)
               slab := Function.update h.slab s ⟨slabMagic, objSize, total, total, objAddr L s objSize 0, c⟩
               word := thread L h.word s objSize total } c s, some s)

def slabDestroy (h : State) (s : Nat) : State :=
  let h := partialRemove h (h.slab s).cache s
  { h with slab := Function.update h.slab s { h.slab s with magic := 0 }
           pages := freePages h.pages s slabPages }

def slabTake (h : State) (c s : Nat) : State × Option Nat :=
  let hdr := h.slab s
  let obj := hdr.freelist
  let h := { h with slab := Function.update h.slab s
                      { hdr with freelist := h.word obj, freeCount := hdr.freeCount - 1 } }
  (if hdr.freeCount - 1 = 0 then partialRemove h c s else h, some obj)

def slabAlloc (L : Layout) (h : State) (c : Nat) (frames : List U64) : State × Option Nat :=
  match h.partials c with
  | s :: _ => slabTake h c s
  | [] =>
    match slabCreate L h c frames with
    | (h, none) => (h, none)
    | (h, some s) => slabTake h c s

inductive Complaint where
  | notHeapPointer
  | pageNotAllocated
  | badLargeHeader
  | badSlabMagic
  | notObjectBoundary
deriving DecidableEq, Repr

def slabFree (L : Layout) (h : State) (s ptr : Nat) : State × Option Complaint :=
  let hdr := h.slab s
  let off := (ptr + 2 ^ 64 - (L.pageAddr s + slabHdrSize)) % 2 ^ 64
  if off % hdr.objSize ≠ 0 ∨ hdr.total ≤ off / hdr.objSize then (h, some .notObjectBoundary)
  else
    let h := { h with word := Function.update h.word ptr hdr.freelist
                      slab := Function.update h.slab s
                        { hdr with freelist := ptr, freeCount := hdr.freeCount + 1 } }
    let h := if hdr.freeCount = 0 then partialPush h hdr.cache s else h
    -- a fully free slab is kept while it is alone on the list
    (if hdr.freeCount + 1 = hdr.total ∧ h.partials hdr.cache ≠ [s] then slabDestroy h s else h, none)

def largeAlloc (L : Layout) (h : State) (size : Nat) (frames : List U64) : State × Option Nat :=
  let pages := L.pageAlignUp ((size + largeHdrSize) % 2 ^ L.bits) / pageSize
  match allocPages L h.pages pages frames with
  | (g, none) => ({ h with pages := g }, none)
  | (g, some first) =>
    ({ h with pages := g, large := Function.update h.large first ⟨largeMagic, pages, size⟩ },
      some (L.pageAddr first + largeHdrSize))

def kmallocLocked (L : Layout) (h : State) (size : Nat) (frames : List U64) : State × Option Nat :=
  if maxSmall < size then largeAlloc L h size frames
  else
    match cacheFor size with
    | none => (h, none)
    | some c => slabAlloc L h c frames

def kmalloc (L : Layout) (h : State) (size : Nat) (frames : List U64) : State × Option Nat :=
  if size = 0 then (h, none) else kmallocLocked L h size frames

/-- Copy or clear `len` bytes at `dst`, of which the last word may take only a
part. The new value of the word at `a` is `src a`. -/
def writeWords (L : Layout) (w : Nat → Nat) (dst len : Nat) (src : Nat → Nat) : Nat → Nat := fun a =>
  if dst ≤ a ∧ a < dst + len then
    let k := min L.wordBytes (dst + len - a)
    w a / 256 ^ k * 256 ^ k + src a % 256 ^ k
  else w a

def kzalloc (L : Layout) (h : State) (size : Nat) (frames : List U64) : State × Option Nat :=
  match kmalloc L h size frames with
  | (h, none) => (h, none)
  | (h, some p) => ({ h with word := writeWords L h.word p size fun _ => 0 }, some p)

def usableSize (L : Layout) (h : State) (ptr : Nat) : Nat × Nat :=
  match h.pages.owner (L.pageIndex ptr) with
  | .unmapped => (0, 0)
  | .slab s => ((h.slab s).objSize, (h.slab s).objSize)
  | .large =>
    let hdr := h.large (L.pageIndex (ptr - largeHdrSize))
    (hdr.pages * pageSize - largeHdrSize, hdr.size)

def kfreeLocked (L : Layout) (h : State) (ptr : Nat) : State × Option Complaint :=
  if ptr < L.base ∨ L.base + L.pages * pageSize ≤ ptr then (h, some .notHeapPointer)
  else
    match h.pages.owner (L.pageIndex ptr) with
    | .unmapped => (h, some .pageNotAllocated)
    | .large =>
      let first := L.pageIndex (ptr - largeHdrSize)
      let hdr := h.large first
      if (ptr - largeHdrSize) % pageSize ≠ 0 ∨ hdr.magic ≠ largeMagic then (h, some .badLargeHeader)
      else
        ({ h with large := Function.update h.large first { hdr with magic := 0 }
                  pages := freePages h.pages first hdr.pages }, none)
    | .slab s => if (h.slab s).magic ≠ slabMagic then (h, some .badSlabMagic) else slabFree L h s ptr

def kfree (L : Layout) (h : State) (ptr : Option Nat) : State :=
  match ptr with
  | none => h
  | some p => (kfreeLocked L h p).1

def krealloc (L : Layout) (h : State) (ptr : Option Nat) (size : Nat) (frames : List U64) :
    State × Option Nat :=
  match ptr with
  | none => kmalloc L h size frames
  | some p =>
    if size = 0 then ((kfreeLocked L h p).1, none)
    else
      let (cap, requested) := usableSize L h p
      if size ≤ cap ∧ (maxSmall < size ↔ maxSmall < cap) then (h, some p)
      else
        match kmallocLocked L h size frames with
        | (h, none) => (h, none)
        | (h, some n) =>
          let h := { h with word := writeWords L h.word n (min requested size) fun a => h.word (a - n + p) }
          ((kfreeLocked L h p).1, some n)

end Sic.Heap
