import Sic.Lib.Extent
import Sic.Lib.Table
import Sic.Lib.Word

/-! The page layer of `kernel/mm/heap.c`: a bump pointer and a table of free runs
over the heap's virtual range. Pages are named by their index in the range. -/

namespace Sic.Heap

def pageSize : Nat := 4096

def maxFreeRuns : Nat := 4096

/-- The width of a `size_t` and of a pointer, and the heap's range, as each architecture has them. -/
structure Layout where
  bits : Nat
  base : Nat
  pages : Nat
  width : bits = 64 ∨ bits = 32
  aligned : base % pageSize = 0
  notNull : 0 < base
  fits : base + pages * pageSize ≤ 2 ^ bits

def x86_64 : Layout :=
  ⟨64, 0xFFFFC00000000000, 1024 * 1024 * 1024 / 4096, .inl rfl, by decide, by decide, by decide⟩

def aarch64 : Layout :=
  ⟨64, 0xFFFF001000000000, 1024 * 1024 * 1024 / 4096, .inl rfl, by decide, by decide, by decide⟩

def powerpc : Layout := ⟨32, 0xF0000000, 128 * 1024 * 1024 / 4096, .inr rfl, by decide, by decide, by decide⟩

def Layout.wordBytes (L : Layout) : Nat := L.bits / 8

theorem Layout.wordBytes_eq (L : Layout) : L.wordBytes = 4 ∨ L.wordBytes = 8 := by
  have := L.width
  rw [Layout.wordBytes]
  omega

def Layout.wordOf (L : Layout) (x : Nat) : Nat := x / L.wordBytes * L.wordBytes

theorem Layout.wordOf_add_mod (L : Layout) (x : Nat) : L.wordOf x + x % L.wordBytes = x := Nat.div_add_mod' x _

theorem Layout.mod_word_lt (L : Layout) (x : Nat) : x % L.wordBytes < L.wordBytes :=
  Nat.mod_lt _ (by have := L.wordBytes_eq; omega)

theorem Layout.le_wordOf (L : Layout) {a x : Nat} (ha : a % 16 = 0) (hx : a ≤ x) : a ≤ L.wordOf x := by
  rw [Layout.wordOf]
  rcases L.wordBytes_eq with h | h <;> rw [h] <;> omega

theorem Layout.wordOf_shift (L : Layout) {n p : Nat} (hn : n % 16 = 0) (hp : p % 16 = 0) (j : Nat) :
    L.wordOf (n + j) - n + p = L.wordOf (p + j) ∧ (n + j) % L.wordBytes = (p + j) % L.wordBytes := by
  rw [Layout.wordOf, Layout.wordOf]
  rcases L.wordBytes_eq with h | h <;> rw [h] <;> omega

def Layout.pageAlignUp (L : Layout) (x : Nat) : Nat := (x + (pageSize - 1)) % 2 ^ L.bits / pageSize * pageSize

def Layout.pageAddr (L : Layout) (i : Nat) : Nat := L.base + i * pageSize

def Layout.pageIndex (L : Layout) (v : Nat) : Nat := (v - L.base) / pageSize

inductive Owner where
  | unmapped
  | large
  | slab (page : Nat)
deriving DecidableEq, Repr

structure Pages where
  bump : Nat := 0
  freeRuns : List Extent := []
  owner : Nat → Owner := fun _ => .unmapped
  /-- The frame behind a page. -/
  vmm : Nat → Option U64 := fun _ => none

def bestFit (count : Nat) : List Extent → Nat → Option Nat → Nat → Option Nat
  | [], _, best, _ => best
  | r :: rest, i, best, bestCount =>
    if count ≤ r.len ∧ r.len < bestCount then
      if r.len = count then some i else bestFit count rest (i + 1) (some i) r.len
    else bestFit count rest (i + 1) best bestCount

def takeVirtualPages (L : Layout) (g : Pages) (count : Nat) : Option (Nat × Pages) :=
  match bestFit count g.freeRuns 0 none (2 ^ 64 - 1) with
  | some k =>
    let r := g.freeRuns.getD k ⟨0, 0⟩
    let runs := g.freeRuns.set k ⟨r.start + count, r.len - count⟩
    some (r.start, { g with freeRuns := if r.len - count = 0 then swapRemove runs k else runs })
  | none =>
    if L.pages < g.bump + count then none else some (g.bump, { g with bump := g.bump + count })

/-- The joining loop of `give_virtual_pages`; it starts over after each join, and
each join shortens the table. -/
def joinRuns : Nat → Extent → List Extent → Extent × List Extent
  | 0, r, runs => (r, runs)
  | fuel + 1, r, runs =>
    match runs.findIdx? fun f => f.stop == r.start || r.stop == f.start with
    | none => (r, runs)
    | some i =>
      let f := runs.getD i r
      joinRuns fuel (if f.stop = r.start then ⟨f.start, r.len + f.len⟩ else ⟨r.start, r.len + f.len⟩)
        (swapRemove runs i)

def shrinkBump : Nat → Nat → List Extent → Nat × List Extent
  | 0, bump, runs => (bump, runs)
  | fuel + 1, bump, runs =>
    match runs.findIdx? fun f => f.stop == bump with
    | none => (bump, runs)
    | some i => shrinkBump fuel (runs.getD i ⟨bump, 0⟩).start (swapRemove runs i)

def giveVirtualPages (g : Pages) (page count : Nat) : Pages :=
  let (r, runs) := joinRuns g.freeRuns.length ⟨page, count⟩ g.freeRuns
  if r.stop = g.bump then
    let (bump, runs) := shrinkBump runs.length r.start runs
    { g with bump := bump, freeRuns := runs }
  else if runs.length < maxFreeRuns then { g with freeRuns := runs ++ [r] }
  else { g with freeRuns := runs }

def Pages.setOwner (g : Pages) (first count : Nat) (o : Owner) : Pages :=
  { g with owner := fun p => if first ≤ p ∧ p < first + count then o else g.owner p }

def Pages.unmap (g : Pages) (first count : Nat) : Pages :=
  { g.setOwner first count .unmapped with
      vmm := fun p => if first ≤ p ∧ p < first + count then none else g.vmm p }

def Pages.map (g : Pages) (first : Nat) (frames : List U64) : Pages :=
  { g.setOwner first frames.length .large with
      vmm := fun p => if first ≤ p ∧ p < first + frames.length then frames[p - first]? else g.vmm p }

def freePages (g : Pages) (first count : Nat) : Pages :=
  if count = 0 then g else giveVirtualPages (g.unmap first count) first count

/-- `frames` are those the physical allocator hands out and `vmm_map_page` maps;
the call fails when there are not enough of them. -/
def allocPages (L : Layout) (g : Pages) (count : Nat) (frames : List U64) : Pages × Option Nat :=
  if count = 0 then (g, none)
  else
    match takeVirtualPages L g count with
    | none => (g, none)
    | some (first, g) =>
      if count ≤ frames.length then (g.map first (frames.take count), some first)
      else
        let i := frames.length
        let g := freePages (g.map first frames) first i
        (if i = 0 then giveVirtualPages g first count else giveVirtualPages g (first + i) (count - i), none)

/-! ### The runs stay apart -/

variable {L : Layout} {g : Pages} {used : List Extent}

structure PagesOk (L : Layout) (g : Pages) (used : List Extent) : Prop where
  tiled : Tiled g.bump (used ++ g.freeRuns)
  bump : g.bump ≤ L.pages

variable {count first : Nat} {runs : List Extent} {g' : Pages} {d : Extent}

theorem bestFit_some {i : Nat} {best : Option Nat} {bestCount k : Nat}
    (h : bestFit count runs i best bestCount = some k) :
    best = some k ∨ ∃ j r, k = i + j ∧ runs[j]? = some r ∧ count ≤ r.len := by
  induction runs generalizing i best bestCount with
  | nil => exact .inl h
  | cons r rest ih =>
    have later {best' : Option Nat} {c : Nat} (h : bestFit count rest (i + 1) best' c = some k) :
        best' = some k ∨ ∃ j x, k = i + j ∧ (r :: rest)[j]? = some x ∧ count ≤ x.len := by
      rcases ih h with hb | ⟨j, x, hk, hx, hc⟩
      · exact .inl hb
      · exact .inr ⟨j + 1, x, by omega, hx, hc⟩
    unfold bestFit at h
    split at h
    · next hfit =>
      split at h
      · exact .inr ⟨0, r, by simpa using h.symm, rfl, hfit.1⟩
      rcases later h with hb | hr
      · exact .inr ⟨0, r, by simpa using hb.symm, rfl, hfit.1⟩
      · exact .inr hr
    · exact later h

theorem takeVirtualPages_ok (h : PagesOk L g used) (hc : 0 < count)
    (ht : takeVirtualPages L g count = some (first, g')) :
    PagesOk L g' (⟨first, count⟩ :: used) ∧ g'.owner = g.owner ∧ g'.vmm = g.vmm := by
  unfold takeVirtualPages at ht
  split at ht
  · next k hk =>
    obtain ⟨r, hr, hfit⟩ : ∃ r, g.freeRuns[k]? = some r ∧ count ≤ r.len := by
      rcases bestFit_some hk with hn | ⟨j, r, rfl, hr, hc⟩
      · simp at hn
      · exact ⟨r, by simpa using hr, hc⟩
    have hlt := (List.getElem?_eq_some_iff.mp hr).1
    have hget : g.freeRuns.getD k ⟨0, 0⟩ = r := by rw [List.getD_eq_getElem?_getD, hr]; rfl
    dsimp only at ht
    rw [hget] at ht
    simp only [Option.some.injEq, Prod.mk.injEq] at ht
    obtain ⟨rfl, rfl⟩ := ht
    refine ⟨⟨?_, h.bump⟩, rfl, rfl⟩
    dsimp only
    -- the run in front of everything else, then cut in two
    have hfront : Tiled g.bump (r :: (used ++ g.freeRuns.eraseIdx k)) := by
      refine h.tiled.perm ?_
      have hp := (List.getElem_cons_eraseIdx_perm hlt).symm
      rw [(List.getElem?_eq_some_iff.mp hr).2] at hp
      exact (hp.append_left used).trans List.perm_middle
    have hset := List.set_perm_cons_eraseIdx hlt ⟨r.start + count, r.len - count⟩
    split
    · next hz =>
      have hlen : r = ⟨r.start, count⟩ := by
        cases r
        simp only [Extent.mk.injEq, true_and]
        simp only at hz hfit
        omega
      rw [hlen] at hfront
      refine hfront.perm (List.Perm.cons _ (List.Perm.append_left _ ?_))
      have hs : (g.freeRuns.set k ⟨r.start + count, r.len - count⟩)[k]? =
          some ⟨r.start + count, r.len - count⟩ := List.getElem?_set_self hlt
      exact (List.perm_cons _).mp (hset.symm.trans (swapRemove_perm hs))
    · next hz =>
      have hlen : r = ⟨r.start, count + (r.len - count)⟩ := by
        cases r
        simp only [Extent.mk.injEq, true_and]
        simp only at hz hfit
        omega
      rw [hlen] at hfront
      refine (hfront.split hc (by omega)).perm (List.Perm.cons _ ?_)
      exact List.perm_middle.symm.trans (hset.symm.append_left used)
  · split at ht
    · simp at ht
    · next hle =>
      simp only [Option.some.injEq, Prod.mk.injEq] at ht
      obtain ⟨rfl, rfl⟩ := ht
      exact ⟨⟨h.tiled.grow hc, by simp only; omega⟩, rfl, rfl⟩

theorem findIdx?_perm {p : Extent → Bool} {i : Nat} (h : runs.findIdx? p = some i)
    (d : Extent) : p (runs.getD i d) = true ∧ runs.Perm (runs.getD i d :: swapRemove runs i) := by
  obtain ⟨hlt, hp, -⟩ := List.findIdx?_eq_some_iff_getElem.mp h
  have hget : runs[i]? = some (runs.getD i d) := by
    rw [List.getD_eq_getElem?_getD, List.getElem?_eq_getElem hlt]
    rfl
  refine ⟨?_, swapRemove_perm hget⟩
  rwa [List.getD_eq_getElem?_getD, List.getElem?_eq_getElem hlt]

theorem joinRuns_tiled (fuel : Nat) {top : Nat} {r : Extent} (h : Tiled top (r :: (used ++ runs))) :
    Tiled top ((joinRuns fuel r runs).1 :: (used ++ (joinRuns fuel r runs).2)) := by
  induction fuel generalizing r runs with
  | zero => exact h
  | succ fuel ih =>
    unfold joinRuns
    split
    · exact h
    next i hi =>
    obtain ⟨hp, hperm⟩ := findIdx?_perm hi r
    generalize runs.getD i r = f at hp hperm
    apply ih
    have hf : Tiled top (r :: f :: (used ++ swapRemove runs i)) :=
      h.perm (((hperm.append_left used).trans List.perm_middle).cons r)
    have hnext : f.stop = r.start ∨ r.stop = f.start := by simpa using hp
    by_cases hlow : f.stop = r.start
    · rw [if_pos hlow]
      obtain ⟨rs, rl⟩ := r
      obtain ⟨fs, fl⟩ := f
      obtain rfl : fs + fl = rs := hlow
      rw [Nat.add_comm rl fl]
      exact (hf.perm (.swap ..)).join
    · rw [if_neg hlow]
      obtain ⟨rs, rl⟩ := r
      obtain ⟨fs, fl⟩ := f
      obtain rfl : rs + rl = fs := hnext.resolve_left hlow
      exact hf.join

theorem shrinkBump_tiled (fuel : Nat) {bump : Nat} (h : Tiled bump (used ++ runs)) :
    Tiled (shrinkBump fuel bump runs).1 (used ++ (shrinkBump fuel bump runs).2) ∧
      (shrinkBump fuel bump runs).1 ≤ bump := by
  induction fuel generalizing bump runs with
  | zero => exact ⟨h, Nat.le_refl _⟩
  | succ fuel ih =>
    unfold shrinkBump
    split
    · exact ⟨h, Nat.le_refl _⟩
    next i hi =>
    obtain ⟨hp, hperm⟩ := findIdx?_perm hi ⟨bump, 0⟩
    generalize runs.getD i ⟨bump, 0⟩ = f at hp hperm
    have hstop : f.stop = bump := by simpa using hp
    obtain ⟨ht, hle⟩ := ih ((h.perm ((hperm.append_left used).trans List.perm_middle)).shrink hstop)
    refine ⟨ht, hle.trans ?_⟩
    rw [← hstop]
    exact Nat.le_add_right ..

theorem giveVirtualPages_ok {page : Nat} (h : PagesOk L g (⟨page, count⟩ :: used)) :
    PagesOk L (giveVirtualPages g page count) used := by
  have hj := joinRuns_tiled g.freeRuns.length
    (show Tiled g.bump (⟨page, count⟩ :: (used ++ g.freeRuns)) from h.tiled)
  unfold giveVirtualPages
  generalize joinRuns g.freeRuns.length ⟨page, count⟩ g.freeRuns = x at hj
  obtain ⟨r, runs⟩ := x
  dsimp only at hj ⊢
  split
  · next hstop =>
    have hr : r.start ≤ g.bump := by
      rw [← hstop]
      exact Nat.le_add_right ..
    obtain ⟨ht, hle⟩ := shrinkBump_tiled runs.length (hj.shrink hstop)
    exact ⟨ht, (hle.trans hr).trans h.bump⟩
  split
  · refine ⟨hj.perm ?_, h.bump⟩
    exact List.perm_middle.symm.trans ((List.perm_append_singleton r runs).symm.append_left used)
  · exact ⟨hj.tail, h.bump⟩

theorem giveVirtualPages_maps (g : Pages) (page count : Nat) :
    (giveVirtualPages g page count).owner = g.owner ∧ (giveVirtualPages g page count).vmm = g.vmm := by
  unfold giveVirtualPages
  dsimp only
  split
  · exact ⟨rfl, rfl⟩
  split <;> exact ⟨rfl, rfl⟩

structure SamePages (used : List Extent) (g g' : Pages) : Prop where
  same : ∀ e ∈ used, ∀ p, e.Has p → g'.owner p = g.owner p ∧ g'.vmm p = g.vmm p
  slab : ∀ p s, g'.owner p = .slab s → g.owner p = .slab s

theorem SamePages.trans {g'' : Pages} (h : SamePages used g g') (h' : SamePages used g' g'') :
    SamePages used g g'' :=
  ⟨fun e he p hp => ⟨(h'.same e he p hp).1.trans (h.same e he p hp).1,
    (h'.same e he p hp).2.trans (h.same e he p hp).2⟩, fun p s hs => h.slab p s (h'.slab p s hs)⟩

theorem SamePages.tail (h : SamePages (d :: used) g g') : SamePages used g g' :=
  ⟨fun e he => h.same e (List.mem_cons_of_mem _ he), h.slab⟩

theorem samePages_of_eq (ho : g'.owner = g.owner) (hv : g'.vmm = g.vmm) : SamePages used g g' :=
  ⟨fun _ _ p _ => ⟨congrFun ho p, congrFun hv p⟩, fun p s hs => by rwa [ho] at hs⟩

theorem samePages_of_apart (hd : ∀ e ∈ used, d.Apart e)
    (ho : ∀ p, ¬ d.Has p → g'.owner p = g.owner p ∧ g'.vmm p = g.vmm p)
    (hs : ∀ p s, d.Has p → g'.owner p ≠ .slab s) : SamePages used g g' := by
  refine ⟨fun e he p hp => ho p ((hd e he).symm.not_has hp), fun p s hp => ?_⟩
  rw [← (ho p fun hin => hs p s hin hp).1]
  exact hp

theorem PagesOk.head_apart (h : PagesOk L g (d :: used)) : ∀ e ∈ used, d.Apart e :=
  fun e he => h.tiled.head_apart e (List.mem_append_left _ he)

theorem freePages_ok (h : PagesOk L g (⟨first, count⟩ :: used)) :
    PagesOk L (freePages g first count) used ∧ SamePages used g (freePages g first count) := by
  have hpos : count ≠ 0 := Nat.pos_iff_ne_zero.mp (h.tiled.pos ⟨first, count⟩ (List.mem_cons_self ..))
  have hunmap : SamePages used g (g.unmap first count) :=
    samePages_of_apart h.head_apart (fun p hp => ⟨if_neg hp, if_neg hp⟩) fun p s hp => by
      rw [show (g.unmap first count).owner p = .unmapped from if_pos hp]
      intro hx
      cases hx
  have hu : PagesOk L (g.unmap first count) (⟨first, count⟩ :: used) := ⟨h.tiled, h.bump⟩
  obtain ⟨ho, hv⟩ := giveVirtualPages_maps (g.unmap first count) first count
  rw [freePages, if_neg hpos]
  exact ⟨giveVirtualPages_ok hu, hunmap.trans (samePages_of_eq ho hv)⟩

theorem freePages_unmapped {p : Nat} (hp : Extent.Has ⟨first, count⟩ p) :
    (freePages g first count).owner p = .unmapped := by
  have hpos : count ≠ 0 := by
    unfold Extent.Has Extent.stop at hp
    simp only at hp
    omega
  rw [freePages, if_neg hpos, (giveVirtualPages_maps ..).1]
  exact if_pos hp

theorem allocPages_ok (count : Nat) (frames : List U64) (h : PagesOk L g used) :
    SamePages used g (allocPages L g count frames).1 ∧
      match (allocPages L g count frames).2 with
      | none => PagesOk L (allocPages L g count frames).1 used
      | some first => PagesOk L (allocPages L g count frames).1 (⟨first, count⟩ :: used) ∧
          ∀ p, Extent.Has ⟨first, count⟩ p → ((allocPages L g count frames).1.vmm p).isSome = true ∧
            (allocPages L g count frames).1.owner p = .large := by
  unfold allocPages
  by_cases hc : count = 0
  · rw [if_pos hc]
    exact ⟨samePages_of_eq rfl rfl, h⟩
  rw [if_neg hc]
  split
  · exact ⟨samePages_of_eq rfl rfl, h⟩
  next first g' ht =>
  obtain ⟨hok, ho, hv⟩ := takeVirtualPages_ok h (Nat.pos_of_ne_zero hc) ht
  have hsame : SamePages used g g' := samePages_of_eq ho hv
  have hmap (fs : List U64) (hle : fs.length ≤ count) : SamePages used g' (g'.map first fs) := by
    have hsub : ∀ e ∈ used, Extent.Apart ⟨first, fs.length⟩ e := fun e he => by
      have := hok.head_apart e he
      simp only [Extent.Apart, Extent.stop] at this ⊢
      omega
    refine samePages_of_apart hsub (fun p hp => ⟨if_neg hp, if_neg hp⟩) fun p s hp => ?_
    rw [show (g'.map first fs).owner p = .large from if_pos hp]
    intro hx
    cases hx
  split
  · next hle =>
    have hlen : (frames.take count).length = count := by
      rw [List.length_take]
      omega
    refine ⟨hsame.trans (hmap _ hlen.le), ⟨hok.tiled, hok.bump⟩, ?_⟩
    intro p hp
    have hin : first ≤ p ∧ p < first + (frames.take count).length := by
      rw [hlen]
      exact hp
    refine ⟨?_, if_pos hin⟩
    simp only [Pages.map, if_pos hin]
    rw [List.getElem?_eq_getElem (by omega)]
    rfl
  · next hshort =>
    have hlt : frames.length < count := Nat.not_le.mp hshort
    have hm : PagesOk L (g'.map first frames) (⟨first, count⟩ :: used) := ⟨hok.tiled, hok.bump⟩
    dsimp only
    by_cases hz : frames.length = 0
    · rw [if_pos hz, freePages, if_pos hz]
      obtain ⟨ho₁, hv₁⟩ := giveVirtualPages_maps (g'.map first frames) first count
      exact ⟨(hsame.trans (hmap frames (by omega))).trans (samePages_of_eq ho₁ hv₁), giveVirtualPages_ok hm⟩
    · rw [if_neg hz]
      -- the mapped part and the rest are given back one after the other
      have hcut : PagesOk L (g'.map first frames)
          (⟨first, frames.length⟩ :: ⟨first + frames.length, count - frames.length⟩ :: used) := by
        refine ⟨?_, hm.bump⟩
        refine Tiled.split (l := used ++ _) ?_ (by omega) (by omega)
        rw [show frames.length + (count - frames.length) = count by omega]
        exact hm.tiled
      obtain ⟨hf, hfs⟩ := freePages_ok hcut
      obtain ⟨ho₁, hv₁⟩ := giveVirtualPages_maps (freePages (g'.map first frames) first frames.length)
        (first + frames.length) (count - frames.length)
      exact ⟨((hsame.trans (hmap frames hlt.le)).trans hfs.tail).trans (samePages_of_eq ho₁ hv₁),
        giveVirtualPages_ok hf⟩

end Sic.Heap
