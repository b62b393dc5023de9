import Sic.Mm.PmmRun

/-! What is not given out at boot: the low memory, the kernel, the allocator's own tables and the ranges that
are to be kept. -/

namespace Sic.Pmm

def Touches (f base len : Nat) : Prop := ∃ a, base ≤ a ∧ a < base + len ∧ a / 4096 = f

def Region.Holds (r : Region) (f : Nat) : Prop := r.base ≤ f * 4096 ∧ (f + 1) * 4096 ≤ r.base + r.length

def Region.Spare (r : Region) : Prop := r.type = .usable ∨ reclaimable r = true

/-- A range whose end, rounded up, is an address. -/
def Straight (w base len : Nat) : Prop := base + len + 4095 < 2 ^ w

def Reclaimed (k : Image) (pages : Nat) (r : Region) (f : Nat) : Prop :=
  reclaimable r = true ∧
    if r.base < k.kend ∧ k.kstart < r.stop then
      (r.base < k.kstart ∧ f ∈ rangeFrames k.w pages r.base (k.kstart - r.base) false) ∨
        (k.kend < r.stop ∧ f ∈ rangeFrames k.w pages k.kend (r.stop - k.kend) false)
    else f ∈ rangeFrames k.w pages r.base ((r.stop + 2 ^ 64 - r.base) % 2 ^ 64) false

/-- What no free frame may be, and where it has to be. -/
structure Spared (k : Image) (map : List Region) (b : Boot) (keeps : List (Nat × Nat)) (f : Nat) : Prop where
  low : 0x100 ≤ f
  kernel : ¬ Touches f k.start (k.stop - k.start)
  tables : ¬ Touches f b.bitmapPhys b.metaBytes
  kept : ∀ r ∈ keeps, ¬ Touches f r.1 r.2
  region : ∃ r ∈ map, r.Spare ∧ r.Holds f

def AllSpared (k : Image) (map : List Region) (b : Boot) (keeps : List (Nat × Nat)) (p : Pmm) : Prop :=
  ∀ f, f < p.bitmapPages → p.bitmap f = false → Spared k map b keeps f

def keepAll (b : Boot) (keeps : List (Nat × Nat)) : Boot := keeps.foldl (fun b r => pmmKeep b r.1 r.2) b

section

variable {p : Pmm} {used : Bool} {w pages base len f : Nat} {k : Image} {b : Boot} {map : List Region}
  {keeps : List (Nat × Nat)} {r : Region}

theorem alignDown_of_lt {x : Nat} (h : x < 2 ^ w) : alignDown w x = x / 4096 * 4096 := by
  rw [alignDown, Nat.mod_eq_of_lt h]

theorem Image.le_pow (k : Image) : 2 ^ k.w ≤ 2 ^ 64 := by
  rcases k.width with h | h
  · rw [h]; decide
  · rw [h]

theorem Image.page_room (k : Image) {x : Nat} (h : x < 2 ^ k.w) : x / 4096 * 4096 + 4095 < 2 ^ k.w := by
  rcases k.width with hw | hw <;> rw [hw] at h ⊢ <;> omega

theorem alignUp_of_lt (k : Image) {x : Nat} (h : x + 4095 < 2 ^ k.w) :
    alignUp k.w x = (x + 4095) / 4096 * 4096 := by
  have := k.le_pow
  rw [alignUp, Nat.mod_eq_of_lt (Nat.lt_of_lt_of_le h this), alignDown_of_lt h]

theorem mem_used_iff (h : Straight k.w base len) (hf : f < pages) :
    (f ∈ rangeFrames k.w pages base len true ↔ base / 4096 ≤ f ∧ f * 4096 < base + len) := by
  have hle := k.le_pow
  rw [Straight] at h
  rw [mem_rangeFrames]
  simp only [if_true]
  rw [Nat.mod_eq_of_lt (show base + len < 2 ^ 64 by omega), alignDown_of_lt (by omega), alignUp_of_lt k h]
  omega

theorem touches_iff : Touches f base len ↔ 0 < len ∧ base / 4096 ≤ f ∧ f * 4096 < base + len := by
  constructor
  · rintro ⟨a, h1, h2, rfl⟩
    exact ⟨by omega, Nat.div_le_div_right h1, by omega⟩
  · rintro ⟨h1, h2, h3⟩
    by_cases h : base ≤ f * 4096
    · exact ⟨f * 4096, h, h3, by omega⟩
    · exact ⟨base, le_rfl, by omega, by omega⟩

theorem mem_used_of_touches (h : Straight k.w base len) (hf : f < pages) (ht : Touches f base len) :
    f ∈ rangeFrames k.w pages base len true :=
  (mem_used_iff h hf).mpr (touches_iff.mp ht).2

theorem mem_free_iff (h : Straight k.w base len) :
    f ∈ rangeFrames k.w pages base len false ↔ base ≤ f * 4096 ∧ (f + 1) * 4096 ≤ base + len ∧ f < pages := by
  have hle := k.le_pow
  rw [Straight] at h
  rw [mem_rangeFrames]
  simp only [Bool.false_eq_true, if_false]
  rw [Nat.mod_eq_of_lt (show base + len < 2 ^ 64 by omega), alignDown_of_lt (by omega),
    alignUp_of_lt k (by omega)]
  omega

theorem Image.width_le (k : Image) : 2 ^ 32 ≤ 2 ^ k.w := by
  rcases k.width with h | h
  · rw [h]
  · rw [h]; decide

theorem low_iff (hf : f < pages) : f ∈ lowFrames k pages ↔ f < 0x100 := by
  have := k.width_le
  rw [lowFrames, mem_used_iff (by rw [Straight]; omega) hf]
  omega

theorem Image.kstart_eq (k : Image) : k.kstart = k.start / 4096 * 4096 := by
  have := k.order
  have := k.room
  exact alignDown_of_lt (by omega)

theorem Image.kend_eq (k : Image) : k.kend = (k.stop + 4095) / 4096 * 4096 := alignUp_of_lt k k.room

theorem Image.le (k : Image) : k.kstart ≤ k.kend := by
  have := k.order
  rw [k.kstart_eq, k.kend_eq]
  omega

theorem Image.straight (k : Image) : Straight k.w k.kstart (k.kend - k.kstart) := by
  have h := k.page_room k.room
  have := k.le
  rw [Straight, show k.kstart + (k.kend - k.kstart) = k.kend by omega, k.kend_eq]
  exact h

theorem kernel_iff (hf : f < pages) :
    f ∈ kernelFrames k pages ↔ k.kstart ≤ f * 4096 ∧ (f + 1) * 4096 ≤ k.kend := by
  have := k.le
  rw [kernelFrames, mem_used_iff k.straight hf, k.kstart_eq, k.kend_eq]
  omega

theorem not_touches_kernel (h : f * 4096 < k.kstart ∨ k.kend < (f + 1) * 4096) :
    ¬ Touches f k.start (k.stop - k.start) := by
  have := k.order
  rw [k.kstart_eq, k.kend_eq] at h
  rw [touches_iff]
  omega

theorem metaIn_straight {total base : Nat} (h : metaIn k total r = some base) : Straight k.w base total := by
  rw [metaIn] at h
  split at h
  · simp only at h
    generalize (if (if alignUp k.w r.base < 0x100000 then 0x100000 else alignUp k.w r.base) < k.kend ∧
        k.kstart < alignDown k.w r.stop then k.kend
      else if alignUp k.w r.base < 0x100000 then 0x100000 else alignUp k.w r.base) = start at h
    split at h
    next hroom =>
      cases h
      have hdown := k.page_room (Nat.mod_lt r.stop (show 0 < 2 ^ k.w from Nat.two_pow_pos k.w))
      rw [← alignDown] at hdown
      rw [Straight]
      omega
    next => cases h
  · cases h

theorem pmmInit_straight (h : pmmInit k map = some b) : Straight k.w b.bitmapPhys b.metaBytes := by
  obtain ⟨-, -, -, -, hm, -⟩ := pmmInit_spec h
  obtain ⟨r, -, hr⟩ := List.exists_of_findSome?_eq_some hm
  exact metaIn_straight hr

theorem keepAll_spec (b : Boot) (keeps : List (Nat × Nat)) :
    (keepAll b keeps).pmm = b.pmm ∧ (keepAll b keeps).regions = b.regions ∧
      (keepAll b keeps).keep = b.keep ++ keeps.take (8 - b.keep.length) := by
  induction keeps generalizing b with
  | nil => simp [keepAll]
  | cons r keeps ih =>
    rw [keepAll, List.foldl_cons, ← keepAll]
    obtain ⟨h1, h2, h3⟩ := ih (pmmKeep b r.1 r.2)
    rw [h1, h2, h3, pmmKeep]
    split
    next hlt =>
      refine ⟨rfl, rfl, ?_⟩
      rw [List.length_append, List.length_singleton, List.append_assoc, List.singleton_append,
        show 8 - b.keep.length = 8 - (b.keep.length + 1) + 1 by omega, List.take_succ_cons]
    next hge => exact ⟨rfl, rfl, by rw [show 8 - b.keep.length = 0 by omega, List.take_zero, List.take_zero]⟩

theorem foldl_clears {α : Type} {step : Pmm → α → Pmm} {S : Nat → α → Nat → Prop}
    (hstep : ∀ p a, (step p a).bitmapPages = p.bitmapPages ∧
      ∀ f, (step p a).bitmap f = false ↔ p.bitmap f = false ∨ S p.bitmapPages a f) (l : List α) (p : Pmm) :
    (l.foldl step p).bitmapPages = p.bitmapPages ∧
      ∀ f, (l.foldl step p).bitmap f = false ↔ p.bitmap f = false ∨ ∃ a ∈ l, S p.bitmapPages a f := by
  induction l generalizing p with
  | nil => simp
  | cons a l ih =>
    obtain ⟨h1, h2⟩ := ih (step p a)
    obtain ⟨h3, h4⟩ := hstep p a
    rw [h3] at h1
    refine ⟨h1, fun f => ?_⟩
    rw [List.foldl_cons, h2, h3, h4, List.exists_mem_cons_iff, or_assoc]

theorem markRange_free (w : Nat) (p : Pmm) (base len f : Nat) :
    (markRange w p base len false).bitmap f = false ↔
      p.bitmap f = false ∨ f ∈ rangeFrames w p.bitmapPages base len false := by
  rw [markRange_bitmap]
  split
  next h => exact iff_of_true rfl (.inr h)
  next h => exact ⟨.inl, fun hor => hor.resolve_right h⟩

theorem markRange_used (w : Nat) (p : Pmm) (base len f : Nat) :
    (markRange w p base len true).bitmap f = false ↔
      p.bitmap f = false ∧ f ∉ rangeFrames w p.bitmapPages base len true := by
  rw [markRange_bitmap]
  split
  next h => exact iff_of_false (by simp) fun hn => hn.2 h
  next h => exact ⟨fun hb => ⟨hb, h⟩, And.left⟩

theorem reclaimRegion_spec (k : Image) (p : Pmm) (r : Region) :
    (reclaimRegion k p r).bitmapPages = p.bitmapPages ∧
      ∀ f, (reclaimRegion k p r).bitmap f = false ↔ p.bitmap f = false ∨ Reclaimed k p.bitmapPages r f := by
  rw [reclaimRegion]
  simp only [Reclaimed]
  split
  next hr =>
    split
    next hk =>
      by_cases h1 : r.base < k.kstart
      · by_cases h2 : k.kend < r.stop
        · simp only [h1, h2, hr, if_true, markRange_pages, markRange_free, true_and, or_assoc, implies_true]
        · simp only [h1, h2, hr, if_true, if_false, markRange_pages, markRange_free, true_and, false_and,
            or_false, implies_true]
      · by_cases h2 : k.kend < r.stop
        · simp only [h1, h2, hr, if_true, if_false, markRange_pages, markRange_free, true_and, false_and,
            false_or, implies_true]
        · simp only [h1, h2, if_false, false_and, or_false, and_false, implies_true, and_self]
    next hk =>
      simp only [hr, markRange_pages, markRange_free, true_and, implies_true]
  next hr => simp [hr]

def Open (k : Image) (pages : Nat) (stored : List (Nat × Nat)) (f : Nat) : Prop :=
  f ∉ lowFrames k pages ∧ ∀ r ∈ stored, f ∉ rangeFrames k.w pages r.1 r.2 true

theorem keepRanges_spec (w : Nat) (stored : List (Nat × Nat)) (p : Pmm) :
    (stored.foldl (fun p r => markRange w p r.1 r.2 true) p).bitmapPages = p.bitmapPages ∧
      ∀ f, (stored.foldl (fun p r => markRange w p r.1 r.2 true) p).bitmap f = false ↔
        p.bitmap f = false ∧ ∀ r ∈ stored, f ∉ rangeFrames w p.bitmapPages r.1 r.2 true := by
  induction stored generalizing p with
  | nil => simp
  | cons r stored ih =>
    obtain ⟨h1, h2⟩ := ih (markRange w p r.1 r.2 true)
    rw [markRange_pages] at h1
    refine ⟨h1, fun f => ?_⟩
    rw [List.foldl_cons, h2, markRange_pages, markRange_used, List.forall_mem_cons, and_assoc]

theorem pmmReclaim_spec (k : Image) (b : Boot) :
    (pmmReclaimBootMemory k b).pmm.bitmapPages = b.pmm.bitmapPages ∧
      ∀ f, (pmmReclaimBootMemory k b).pmm.bitmap f = false ↔
        (b.pmm.bitmap f = false ∨ ∃ r ∈ b.regions, Reclaimed k b.pmm.bitmapPages r f) ∧
          Open k b.pmm.bitmapPages b.keep f := by
  rw [pmmReclaimBootMemory]
  obtain ⟨h1, h2⟩ := foldl_clears (reclaimRegion_spec k) b.regions b.pmm
  simp only
  generalize b.regions.foldl (reclaimRegion k) b.pmm = q at *
  obtain ⟨h3, h4⟩ := keepRanges_spec k.w b.keep (markRange k.w q 0 0x100000 true)
  rw [markRange_pages, h1] at h3
  refine ⟨h3, fun f => ?_⟩
  rw [h4, markRange_pages, h1, markRange_used, h1, Open, lowFrames, ← h2, and_assoc]

theorem Reclaimed.lt (h : Reclaimed k pages r f) : f < pages := by
  obtain ⟨-, h⟩ := h
  split at h
  · rcases h with ⟨-, h⟩ | ⟨-, h⟩
    · exact (mem_rangeFrames.mp h).2.2
    · exact (mem_rangeFrames.mp h).2.2
  · exact (mem_rangeFrames.mp h).2.2

theorem Reclaimed.holds (h : Reclaimed k pages r f) (hs : Straight k.w r.base r.length) :
    r.Holds f ∧ (f * 4096 < k.kstart ∨ k.kend < (f + 1) * 4096) := by
  have hle := k.le_pow
  have hord := k.le
  have hks := k.straight
  rw [Straight] at hs hks
  have hstop : r.stop = r.base + r.length := by rw [Region.stop, Nat.mod_eq_of_lt (by omega)]
  obtain ⟨-, h⟩ := h
  rw [Region.Holds]
  split at h
  next hk =>
    rcases h with ⟨hlt, h⟩ | ⟨hlt, h⟩
    · obtain ⟨h1, h2, -⟩ := (mem_free_iff (by rw [Straight]; omega)).mp h
      omega
    · obtain ⟨h1, h2, -⟩ := (mem_free_iff (by rw [Straight]; omega)).mp h
      omega
  next hk =>
    have hlen : (r.stop + 2 ^ 64 - r.base) % 2 ^ 64 = r.length := by
      rw [hstop]
      omega
    rw [hlen] at h
    obtain ⟨h1, h2, -⟩ := (mem_free_iff (by rw [Straight]; omega)).mp h
    omega

/-- A frame that a usable region of the map gives out and the boot does not take. -/
def Gives (k : Image) (b : Boot) (f : Nat) : Prop :=
  GivenBy k.w b.pmm.bitmapPages b.regions f ∧ f ∉ lowFrames k b.pmm.bitmapPages ∧
    f ∉ kernelFrames k b.pmm.bitmapPages ∧ f ∉ metaFrames k b

/-- The ways in which a boot can go wrong do not arise: entries of the map that run past the address space,
entries that may be reclaimed over the allocator's tables, and ranges that there was no room to note. -/
structure Harmless (k : Image) (map : List Region) (b : Boot) (keeps : List (Nat × Nat)) : Prop where
  given : ∀ r ∈ b.regions, r.type = .usable → ¬ Straight k.w r.base r.length →
    ∀ f, f ∈ rangeFrames k.w b.pmm.bitmapPages r.base r.length false → Gives k b f →
      ∃ r' ∈ map, r'.Spare ∧ r'.Holds f
  reclaimed : ∀ r ∈ b.regions, ¬ Straight k.w r.base r.length →
    ∀ f, Reclaimed k b.pmm.bitmapPages r f → Open k b.pmm.bitmapPages (keeps.take 8) f →
      ¬ Touches f k.start (k.stop - k.start) ∧ ∃ r' ∈ map, r'.Spare ∧ r'.Holds f
  tables : ∀ r ∈ b.regions, ∀ f, Reclaimed k b.pmm.bitmapPages r f →
    Open k b.pmm.bitmapPages (keeps.take 8) f → ¬ Touches f b.bitmapPhys b.metaBytes
  kept : ∀ q, q ∈ keeps.drop 8 ∨ q ∈ keeps ∧ ¬ Straight k.w q.1 q.2 →
    ∀ f, f < b.pmm.bitmapPages → Touches f q.1 q.2 → Open k b.pmm.bitmapPages (keeps.take 8) f →
      ¬ Gives k b f ∧ ∀ r ∈ b.regions, ¬ Reclaimed k b.pmm.bitmapPages r f

theorem mem_map_of_regions (h : pmmInit k map = some b) (hr : r ∈ b.regions) : r ∈ map := by
  rw [(pmmInit_spec h).1] at hr
  exact List.mem_of_mem_take hr

theorem gives_iff (h : pmmInit k map = some b) : b.pmm.bitmap f = false ↔ Gives k b f :=
  (pmmInit_spec h).2.2.2.2.2 f

theorem init_spared (h : pmmInit k map = some b) (hg : Harmless k map b keeps) : AllSpared k map b [] b.pmm := by
  intro f hf hfree
  obtain ⟨⟨r, hr, hu, hin⟩, hlow, hker, hmeta⟩ := (gives_iff h).mp hfree
  rw [low_iff hf] at hlow
  rw [kernel_iff hf] at hker
  have hord := k.kstart_eq
  have hend := k.kend_eq
  refine ⟨by omega, not_touches_kernel (by omega), fun ht => hmeta ?_, fun _ hq => absurd hq List.not_mem_nil, ?_⟩
  · exact mem_used_of_touches (pmmInit_straight h) hf ht
  by_cases hs : Straight k.w r.base r.length
  · obtain ⟨h1, h2, -⟩ := (mem_free_iff hs).mp hin
    exact ⟨r, mem_map_of_regions h hr, .inl hu, h1, h2⟩
  · exact hg.given r hr hu hs f hin ((gives_iff h).mp hfree)

theorem reclaim_spec (h : pmmInit k map = some b) (keeps : List (Nat × Nat)) :
    (pmmReclaimBootMemory k (keepAll b keeps)).pmm.bitmapPages = b.pmm.bitmapPages ∧
    ∀ f, (pmmReclaimBootMemory k (keepAll b keeps)).pmm.bitmap f = false ↔
      (b.pmm.bitmap f = false ∨ ∃ r ∈ b.regions, Reclaimed k b.pmm.bitmapPages r f) ∧
        Open k b.pmm.bitmapPages (keeps.take 8) f := by
  obtain ⟨hk1, hk2, hk3⟩ := keepAll_spec b keeps
  have hspec := pmmReclaim_spec k (keepAll b keeps)
  rw [(pmmInit_spec h).2.2.1, List.nil_append, List.length_nil, Nat.sub_zero] at hk3
  rw [hk1, hk2, hk3] at hspec
  exact hspec

theorem reclaim_spared (h : pmmInit k map = some b) (hg : Harmless k map b keeps) :
    AllSpared k map b keeps (pmmReclaimBootMemory k (keepAll b keeps)).pmm := by
  obtain ⟨hpages, hbit⟩ := reclaim_spec h keeps
  intro f hf hfree
  rw [hpages] at hf
  obtain ⟨hwhy, hopen⟩ := (hbit f).mp hfree
  have hlow := hopen.1
  rw [low_iff hf] at hlow
  have hnot : ¬ (¬ Gives k b f ∧ ∀ r ∈ b.regions, ¬ Reclaimed k b.pmm.bitmapPages r f) := by
    rintro ⟨hused, hrec⟩
    rcases hwhy with hb | ⟨r, hr, hrf⟩
    · exact hused ((gives_iff h).mp hb)
    · exact hrec r hr hrf
  have hkept : ∀ q ∈ keeps, ¬ Touches f q.1 q.2 := by
    intro q hq ht
    by_cases hs : Straight k.w q.1 q.2
    · rcases List.mem_append.mp (List.take_append_drop 8 keeps ▸ hq) with hq' | hq'
      · exact hopen.2 q hq' (mem_used_of_touches hs hf ht)
      · exact hnot (hg.kept q (.inl hq') f hf ht hopen)
    · exact hnot (hg.kept q (.inr ⟨hq, hs⟩) f hf ht hopen)
  rcases hwhy with hb | ⟨r, hr, hrf⟩
  · have hinit := init_spared h hg f hf hb
    exact ⟨hinit.low, hinit.kernel, hinit.tables, hkept, hinit.region⟩
  refine ⟨by omega, ?_, hg.tables r hr f hrf hopen, hkept, ?_⟩
  · by_cases hs : Straight k.w r.base r.length
    · exact not_touches_kernel (hrf.holds hs).2
    · exact (hg.reclaimed r hr hs f hrf hopen).1
  · by_cases hs : Straight k.w r.base r.length
    · exact ⟨r, mem_map_of_regions h hr, .inr hrf.1, (hrf.holds hs).1⟩
    · exact (hg.reclaimed r hr hs f hrf hopen).2

/-- After `pmm_init` and after the reclamation, what must not be free is not, and free frames lie in regions
that may be given out, exactly if the map and the ranges to keep are harmless. -/
theorem boot_memory_iff (h : pmmInit k map = some b) (keeps : List (Nat × Nat)) :
    (AllSpared k map b [] b.pmm ∧ AllSpared k map b keeps (pmmReclaimBootMemory k (keepAll b keeps)).pmm) ↔
      Harmless k map b keeps := by
  refine ⟨fun ⟨hinit, hrec⟩ => ?_, fun hg => ⟨init_spared h hg, reclaim_spared h hg⟩⟩
  obtain ⟨hpages, hbit⟩ := reclaim_spec h keeps
  have hfreed : ∀ r ∈ b.regions, ∀ f, Reclaimed k b.pmm.bitmapPages r f →
      Open k b.pmm.bitmapPages (keeps.take 8) f → Spared k map b keeps f := fun r hr f hrf hopen =>
    hrec f (hpages ▸ hrf.lt) ((hbit f).mpr ⟨.inr ⟨r, hr, hrf⟩, hopen⟩)
  refine ⟨fun r hr hu hs f hin hfree => ?_, fun r hr hs f hrf hopen => ?_, fun r hr f hrf hopen => ?_,
    fun q hq f hf ht hopen => ?_⟩
  · exact (hinit f (mem_rangeFrames.mp hin).2.2 ((gives_iff h).mpr hfree)).region
  · have hsp := hfreed r hr f hrf hopen
    exact ⟨hsp.kernel, hsp.region⟩
  · exact (hfreed r hr f hrf hopen).tables
  have hq' : q ∈ keeps := hq.elim (fun hd => List.mem_of_mem_drop hd) And.left
  refine ⟨?_, fun r hr hrf => (hfreed r hr f hrf hopen).kept q hq' ht⟩
  intro hgives
  have hsp := hrec f (hpages ▸ hf) ((hbit f).mpr ⟨.inl ((gives_iff h).mpr hgives), hopen⟩)
  exact hsp.kept q hq' ht

theorem smallBoot_harmless : Harmless smallImage smallMap smallBoot [(0x110000, 0x1000)] := by
  have hregs : smallBoot.regions = smallMap := (pmmInit_spec smallBoot_eq).1
  have hs : ∀ r ∈ smallBoot.regions, Straight smallImage.w r.base r.length := by
    rw [hregs]
    unfold Straight
    decide
  have hbase : ∀ r ∈ smallMap, reclaimable r = true → 0x110000 ≤ r.base := by decide
  have htables : smallBoot.bitmapPhys + smallBoot.metaBytes ≤ 0x110000 := by decide +kernel
  refine ⟨fun r hr _ hn => absurd (hs r hr) hn, fun r hr hn => absurd (hs r hr) hn, fun r hr f hrf _ ht => ?_,
    fun q hq => ?_⟩
  · have hlow := (hrf.holds (hs r hr)).1.1
    have := hbase r (hregs ▸ hr) hrf.1
    have := (touches_iff.mp ht).2.2
    omega
  · rcases hq with hq | ⟨hq, hn⟩
    · cases hq
    · rw [List.mem_singleton.mp hq] at hn
      exact absurd (show 0x110000 + 0x1000 + 4095 < 2 ^ 64 by decide) hn

theorem boot_memory_small :
    Harmless smallImage smallMap smallBoot [(0x110000, 0x1000)] ∧
      AllSpared smallImage smallMap smallBoot [] smallBoot.pmm ∧
      AllSpared smallImage smallMap smallBoot [(0x110000, 0x1000)]
        (pmmReclaimBootMemory smallImage (keepAll smallBoot [(0x110000, 0x1000)])).pmm :=
  ⟨smallBoot_harmless, (boot_memory_iff smallBoot_eq _).mpr smallBoot_harmless⟩

def nineMap : List Region :=
  [⟨0x100000, 0x10000, .usable⟩, ⟨0x110000, 0x4000, .bootloader⟩, ⟨0x114000, 0x4000, .usable⟩]

def nineKeeps : List (Nat × Nat) := List.replicate 8 (0x111000, 0x1000) ++ [(0x110000, 0x1000)]

theorem nineBoot_isSome : (pmmInit smallImage nineMap).isSome = true := by decide +kernel

def nineBoot : Boot := (pmmInit smallImage nineMap).get nineBoot_isSome

/-- The ninth range to keep is given out. -/
theorem ninth_keep_lost :
    pmmInit smallImage nineMap = some nineBoot ∧ (0x110000, 0x1000) ∈ nineKeeps ∧
      (pmmReclaimBootMemory smallImage (keepAll nineBoot nineKeeps)).pmm.bitmap 0x110 = false ∧
      ¬ AllSpared smallImage nineMap nineBoot nineKeeps
        (pmmReclaimBootMemory smallImage (keepAll nineBoot nineKeeps)).pmm := by
  have hmem : (0x110000, 0x1000) ∈ nineKeeps := List.mem_append_right _ (List.mem_singleton_self _)
  have hfree : 0x110 < (pmmReclaimBootMemory smallImage (keepAll nineBoot nineKeeps)).pmm.bitmapPages ∧
      (pmmReclaimBootMemory smallImage (keepAll nineBoot nineKeeps)).pmm.bitmap 0x110 = false := by decide +kernel
  refine ⟨(Option.some_get nineBoot_isSome).symm, hmem, hfree.2, fun hall => ?_⟩
  exact (hall 0x110 hfree.1 hfree.2).kept _ hmem ⟨0x110000, by decide, by decide, by decide⟩

end

end Sic.Pmm
