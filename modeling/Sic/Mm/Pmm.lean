import Sic.Lib.Word

/-! The frame allocator of `kernel/mm/pmm.c`. A frame is named by its number,
`phys >> PAGE_SHIFT`; as in the source, the number 0 stands for failure. -/

namespace Sic

structure Pmm where
  bitmap : Nat → Bool
  refcounts : Nat → BitVec 16
  bitmapPages : Nat
  usedPages : Nat
  searchHint : Nat

namespace Pmm

def setFrame (p : Pmm) (i : Nat) : Pmm :=
  { p with bitmap := Function.update p.bitmap i true
           refcounts := Function.update p.refcounts i 1 }

def freeRun (bitmap : Nat → Bool) (i count run : Nat) : Nat :=
  if run < count ∧ bitmap (i + run) = false then freeRun bitmap i count (run + 1) else run
termination_by count - run

theorem le_freeRun (bitmap : Nat → Bool) (i count run : Nat) :
    run ≤ freeRun bitmap i count run := by
  fun_induction freeRun bitmap i count run with
  | case1 run h ih => omega
  | case2 run h => exact le_rfl

def allocSearch (p : Pmm) (count maxPages i : Nat) : Option Nat :=
  if i + count ≤ maxPages then
    if p.bitmap i then allocSearch p count maxPages (i + 1)
    else
      let run := freeRun p.bitmap i count 1
      if run < count then allocSearch p count maxPages (i + run + 1) else some i
  else none
termination_by maxPages + 1 - i

def pmmAllocPagesBelow (p : Pmm) (count limit : Nat) : Nat × Pmm :=
  if count = 0 then (0, p)
  else
    match allocSearch p count (min (limit / 4096) p.bitmapPages) p.searchHint with
    | none => (0, p)
    | some i =>
      let q := (List.range count).foldl (fun q k => q.setFrame (i + k)) p
      (i, { q with usedPages := p.usedPages + count
                   searchHint := if count = 1 ∨ i = p.searchHint then i + count else p.searchHint })

def pmmAllocPages (p : Pmm) (count : Nat) : Nat × Pmm := pmmAllocPagesBelow p count (2 ^ 64 - 1)

def pmmAllocPage (p : Pmm) : Nat × Pmm := pmmAllocPages p 1

/-- One turn of the loop of `pmm_free_pages`: a frame that is not allocated is
reported and skipped, a shared one loses a reference. -/
def freeFrame (p : Pmm) (i : Nat) : Pmm :=
  if p.bitmapPages ≤ i ∨ p.bitmap i = false then p
  else if 1 < p.refcounts i then
    { p with refcounts := Function.update p.refcounts i (p.refcounts i - 1) }
  else
    { p with bitmap := Function.update p.bitmap i false
             refcounts := Function.update p.refcounts i 0
             usedPages := p.usedPages - 1 }

def pmmFreePages (p : Pmm) (i count : Nat) : Pmm :=
  let q := (List.range count).foldl (fun q k => q.freeFrame (i + k)) p
  { q with searchHint := min i q.searchHint }

def pmmFreePage (p : Pmm) (i : Nat) : Pmm := pmmFreePages p i 1

def pmmPageIncRef (p : Pmm) (i : Nat) : Pmm :=
  if i < p.bitmapPages then
    { p with refcounts := Function.update p.refcounts i (p.refcounts i + 1) }
  else p

def pmmPageGetRef (p : Pmm) (i : Nat) : BitVec 16 :=
  if i < p.bitmapPages then p.refcounts i else 1

/-- The references left. The last one gives the frame back, whatever its bit says. -/
def pmmPageDecRef (p : Pmm) (i : Nat) : Nat × Pmm :=
  if i < p.bitmapPages then
    if 1 < p.refcounts i then
      let r := p.refcounts i - 1
      (r.toNat, { p with refcounts := Function.update p.refcounts i r })
    else
      (0, { p with bitmap := Function.update p.bitmap i false
                   refcounts := Function.update p.refcounts i 0
                   usedPages := p.usedPages - 1
                   searchHint := min i p.searchHint })
  else (0, p)

end Pmm

end Sic
