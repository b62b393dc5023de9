import Sic.Lib.Count
import Sic.Mm.PmmBoot

/-! The allocator over whole runs: what it counts, and that its search misses no run of free frames. -/

namespace Sic.Pmm

structure Counted (p : Pmm) : Prop where
  used : p.usedPages + clearCount p.bitmap p.bitmapPages = p.bitmapPages
  hint : ∀ i, i < p.searchHint → p.bitmap i = true

variable {p q : Pmm} {i n count m : Nat}

theorem used_eq_count (h : Counted p) : p.usedPages = Nat.count (fun i => p.bitmap i = true) p.bitmapPages := by
  have hsum : ∀ n, Nat.count (fun i => p.bitmap i = true) n + clearCount p.bitmap n = n := by
    intro n
    induction n with
    | zero => rfl
    | succ n ih =>
      rw [clearCount] at ih ⊢
      rw [Nat.count_succ, Nat.count_succ]
      cases p.bitmap n <;> simp <;> omega
  have := hsum p.bitmapPages
  have := h.used
  omega

theorem freeRun_free (bitmap : Nat → Bool) (i count run : Nat) :
    ∀ k, run ≤ k → k < freeRun bitmap i count run → bitmap (i + k) = false := by
  fun_induction freeRun bitmap i count run with
  | case1 run hr ih =>
    intro k hk hlt
    by_cases he : k = run
    · exact he ▸ hr.2
    · exact ih k (by omega) hlt
  | case2 run hr =>
    intro k hk hlt
    omega

theorem freeRun_end (bitmap : Nat → Bool) (i count run : Nat) (h : freeRun bitmap i count run < count) :
    bitmap (i + freeRun bitmap i count run) = true := by
  fun_induction freeRun bitmap i count run with
  | case1 run hr ih => exact ih h
  | case2 run hr =>
    rw [not_and, Bool.not_eq_false] at hr
    exact hr h

def FreeAt (p : Pmm) (count m i : Nat) : Prop := i + count ≤ m ∧ ∀ k, k < count → p.bitmap (i + k) = false

theorem allocSearch_some {first : Nat} (h : p.allocSearch count m first = some i) :
    first ≤ i ∧ FreeAt p count m i ∧ (count = 1 → ∀ f, first ≤ f → f < i → p.bitmap f = true) := by
  fun_induction allocSearch p count m first with
  | case1 j hle hb ih =>
    obtain ⟨hge, hfree, hfirst⟩ := ih h
    refine ⟨by omega, hfree, fun h1 f hf hlt => ?_⟩
    by_cases he : f = j
    · exact he ▸ hb
    · exact hfirst h1 f (by omega) hlt
  | case2 j hle hb run hrun ih =>
    obtain ⟨hge, hfree, hfirst⟩ := ih h
    have hpos : 1 ≤ run := le_freeRun p.bitmap j count 1
    exact ⟨by omega, hfree, fun h1 => by omega⟩
  | case3 j hle hb run hrun =>
    obtain rfl := Option.some.inj h
    refine ⟨le_rfl, ⟨hle, fun k hk => ?_⟩, fun _ f hf hlt => by omega⟩
    by_cases h0 : k = 0
    · simpa [h0] using hb
    · exact freeRun_free p.bitmap j count 1 k (by omega) (by omega)
  | case4 => cases h

theorem allocSearch_none {first : Nat} (hc : 0 < count) (h : p.allocSearch count m first = none)
    (hi : first ≤ i) :
    ¬ FreeAt p count m i := by
  fun_induction allocSearch p count m first with
  | case1 j hle hb ih =>
    by_cases he : i = j
    · intro hf
      have hfree := hf.2 0 hc
      rw [he, Nat.add_zero, hb] at hfree
      cases hfree
    · exact ih h (by omega)
  | case2 j hle hb run hrun ih =>
    by_cases he : i ≤ j + run
    · -- the run at `i` would take in the used frame that the run at `j` ended at
      intro hf
      have hend : p.bitmap (j + run) = true := freeRun_end p.bitmap j count 1 hrun
      have hfree := hf.2 (j + run - i) (by omega)
      rw [show i + (j + run - i) = j + run by omega, hend] at hfree
      cases hfree
    · exact ih h (by omega)
  | case3 => cases h
  | case4 j hle =>
    intro hf
    have := hf.1
    omega

theorem setFrame_bitmap (p : Pmm) (i : Nat) : (p.setFrame i).bitmap = Function.update p.bitmap i true := rfl

theorem setFrame_refcounts (p : Pmm) (i : Nat) : (p.setFrame i).refcounts = Function.update p.refcounts i 1 := rfl

theorem setFrames_spec (p : Pmm) (i n : Nat) :
    let q := (List.range n).foldl (fun q k => q.setFrame (i + k)) p
    q.bitmapPages = p.bitmapPages ∧ q.usedPages = p.usedPages ∧ q.searchHint = p.searchHint ∧
      (∀ f, q.bitmap f = if i ≤ f ∧ f < i + n then true else p.bitmap f) ∧
      ∀ f, q.refcounts f = if i ≤ f ∧ f < i + n then 1 else p.refcounts f := by
  induction n with
  | zero => simp
  | succ n ih =>
    rw [List.range_succ, List.foldl_append, List.foldl_cons, List.foldl_nil]
    simp only at ih ⊢
    generalize (List.range n).foldl (fun q k => q.setFrame (i + k)) p = q at ih ⊢
    obtain ⟨h1, h2, h3, h4, h5⟩ := ih
    refine ⟨h1, h2, h3, fun f => ?_, fun f => ?_⟩
    · rw [setFrame_bitmap, Function.update_apply, h4]
      grind
    · rw [setFrame_refcounts, Function.update_apply, h5]
      grind

theorem clear_setRun {b b' : Nat → Bool} (hb : ∀ f, b' f = if i ≤ f ∧ f < i + n then true else b f)
    (hfree : ∀ k, k < n → b (i + k) = false) (hm : i + n ≤ m) : clearCount b' m + n = clearCount b m := by
  induction n generalizing b' with
  | zero =>
    have he : b' = b := funext fun f => (hb f).trans (if_neg (by omega))
    rw [he, Nat.add_zero]
  | succ n ih =>
    have hstep : b' = Function.update (fun f => if i ≤ f ∧ f < i + n then true else b f) (i + n) true := by
      funext f
      by_cases he : f = i + n
      · rw [he, Function.update_self, hb, if_pos (by omega)]
      · rw [Function.update_of_ne he, hb]
        exact if_congr (by omega) rfl rfl
    have hlast : (if i ≤ i + n ∧ i + n < i + n then true else b (i + n)) = false := by
      rw [if_neg (by omega), hfree n (by omega)]
    have hset := @clear_set (fun f => if i ≤ f ∧ f < i + n then true else b f) (i + n) m (by omega) hlast
    have hrest := @ih (fun f => if i ≤ f ∧ f < i + n then true else b f) (fun _ => rfl)
      (fun k hk => hfree k (by omega)) (by omega)
    rw [hstep]
    omega

def limitPages (p : Pmm) (limit : Nat) : Nat := min (limit / 4096) p.bitmapPages

structure Given (p q : Pmm) (count m i : Nat) : Prop where
  free : FreeAt p count m i
  hint : p.searchHint ≤ i
  bitmap : ∀ f, q.bitmap f = if i ≤ f ∧ f < i + count then true else p.bitmap f
  refs : ∀ f, q.refcounts f = if i ≤ f ∧ f < i + count then 1 else p.refcounts f
  pages : q.bitmapPages = p.bitmapPages
  used : q.usedPages = p.usedPages + count
  below : ∀ f, f < q.searchHint → f < p.searchHint ∨ q.bitmap f = true

theorem pmmAllocPagesBelow_cases (p : Pmm) (limit : Nat) (hc : 0 < count) :
    (p.pmmAllocPagesBelow count limit = (0, p) ∧
        ∀ i, p.searchHint ≤ i → ¬ FreeAt p count (limitPages p limit) i) ∨
      ∃ i q, p.pmmAllocPagesBelow count limit = (i, q) ∧ Given p q count (limitPages p limit) i := by
  rw [pmmAllocPagesBelow, if_neg (by omega)]
  cases hs : p.allocSearch count (min (limit / 4096) p.bitmapPages) p.searchHint with
  | none => exact .inl ⟨rfl, fun i hi => allocSearch_none hc hs hi⟩
  | some i =>
    obtain ⟨hge, hfree, hfirst⟩ := allocSearch_some hs
    obtain ⟨h1, h2, h3, h4, h5⟩ := setFrames_spec p i count
    refine .inr ⟨i, _, rfl, hfree, hge, h4, h5, h1, rfl, fun f hf => ?_⟩
    simp only at hf ⊢
    rw [h4]
    split at hf
    next hcond =>
      by_cases hlt : f < i
      · by_cases hh : f < p.searchHint
        · exact .inl hh
        · right
          rcases hcond with h1 | h1
          · rw [if_neg (by omega)]
            exact hfirst h1 f (by omega) hlt
          · omega
      · exact .inr (if_pos ⟨by omega, hf⟩)
    next => exact .inl hf

theorem Given.counted (h : Given p q count (limitPages p m) i) (hp : Counted p) : Counted q := by
  have hlim : limitPages p m ≤ p.bitmapPages := Nat.min_le_right _ _
  have hclear := clear_setRun h.bitmap h.free.2 (Nat.le_trans h.free.1 hlim)
  refine ⟨?_, fun f hf => ?_⟩
  · have := hp.used
    rw [h.used, h.pages]
    omega
  · rcases h.below f hf with hlt | hb
    · rw [h.bitmap]
      split
      · rfl
      · exact hp.hint f hlt
    · exact hb

theorem clear_lt (h : i < n) {b : Nat → Bool} (hb : b i = true) : clearCount b n < n := by
  have := clear_unset h hb
  have := clear_le (Function.update b i false) n
  omega

theorem freeFrame_used (h : p.usedPages + clearCount p.bitmap p.bitmapPages = p.bitmapPages) (i : Nat) :
    (p.freeFrame i).usedPages + clearCount (p.freeFrame i).bitmap (p.freeFrame i).bitmapPages =
      (p.freeFrame i).bitmapPages := by
  rw [freeFrame]
  split
  · exact h
  next hi =>
  rw [not_or, Bool.not_eq_false] at hi
  split
  · exact h
  have hlt := clear_lt (show i < p.bitmapPages by omega) hi.2
  have := clear_unset (show i < p.bitmapPages by omega) hi.2
  simp only
  omega

theorem freeFrame_hint (p : Pmm) (i : Nat) : (p.freeFrame i).searchHint = p.searchHint := by
  rw [freeFrame]
  split
  · rfl
  · split <;> rfl

theorem freeFrame_bitmap_of_ne (p : Pmm) {f : Nat} (h : f ≠ i) : (p.freeFrame i).bitmap f = p.bitmap f := by
  rw [freeFrame]
  split
  · rfl
  split
  · rfl
  · exact Function.update_of_ne h _ _

theorem freeFrames_spec (hp : p.usedPages + clearCount p.bitmap p.bitmapPages = p.bitmapPages) (i n : Nat) :
    let q := (List.range n).foldl (fun q k => q.freeFrame (i + k)) p
    q.usedPages + clearCount q.bitmap q.bitmapPages = q.bitmapPages ∧ q.searchHint = p.searchHint ∧
      ∀ f, f < i → q.bitmap f = p.bitmap f := by
  induction n with
  | zero => exact ⟨hp, rfl, fun _ _ => rfl⟩
  | succ n ih =>
    rw [List.range_succ, List.foldl_append, List.foldl_cons, List.foldl_nil]
    obtain ⟨h1, h2, h3⟩ := ih
    refine ⟨freeFrame_used h1 _, (freeFrame_hint _ _).trans h2, fun f hf => ?_⟩
    rw [freeFrame_bitmap_of_ne _ (by omega), h3 f hf]

theorem Counted.freePages (hp : Counted p) (i n : Nat) : Counted (p.pmmFreePages i n) := by
  obtain ⟨h1, h2, h3⟩ := freeFrames_spec hp.used i n
  refine ⟨h1, fun f hf => ?_⟩
  have hf' : f < min i p.searchHint := h2 ▸ hf
  exact (h3 f (by omega)).trans (hp.hint f (by omega))

theorem Counted.decRef (hp : Counted p) (hb : p.bitmap i = true) : Counted (p.pmmPageDecRef i).2 := by
  rw [pmmPageDecRef]
  split
  next hi =>
    split
    · exact ⟨hp.used, hp.hint⟩
    have hlt := clear_lt hi hb
    have hone := clear_unset hi hb
    have := hp.used
    refine ⟨by simp only; omega, fun f hf => ?_⟩
    have hf' : f < min i p.searchHint := hf
    exact (Function.update_of_ne (by omega) _ _).trans (hp.hint f (by omega))
  next => exact hp

theorem Counted.incRef (hp : Counted p) (i : Nat) : Counted (p.pmmPageIncRef i) := by
  rw [pmmPageIncRef]
  split
  · exact ⟨hp.used, hp.hint⟩
  · exact hp

theorem Counted.markFrame (hp : Counted p) (used : Bool) (hi : i < p.bitmapPages) :
    Counted (markFrame used p i) := by
  have h := hp.used
  cases used with
  | true =>
    rw [Pmm.markFrame, if_pos rfl]
    split
    · exact hp
    next hb =>
    have := clear_set hi (Bool.not_eq_true _ ▸ hb : p.bitmap i = false)
    refine ⟨by simp only; omega, fun f hf => ?_⟩
    by_cases he : f = i
    · exact he ▸ Function.update_self ..
    · exact (Function.update_of_ne he _ _).trans (hp.hint f hf)
  | false =>
    rw [Pmm.markFrame, if_neg (by decide)]
    split
    · next hb =>
      have := clear_unset hi hb
      have := clear_lt hi hb
      refine ⟨by simp only; omega, fun f hf => ?_⟩
      have hf' : f < min i p.searchHint := hf
      exact (Function.update_of_ne (by omega) _ _).trans (hp.hint f (by omega))
    · exact hp

theorem Counted.markFrames (hp : Counted p) (used : Bool) {l : List Nat} (hl : ∀ i ∈ l, i < p.bitmapPages) :
    Counted (l.foldl (Pmm.markFrame used) p) := by
  induction l generalizing p with
  | nil => exact hp
  | cons i l ih =>
    refine ih (hp.markFrame used (hl i List.mem_cons_self)) fun j hj => ?_
    rw [markFrame_pages]
    exact hl j (List.mem_cons_of_mem i hj)

theorem Counted.markRange (hp : Counted p) (w base len : Nat) (used : Bool) :
    Counted (Pmm.markRange w p base len used) :=
  hp.markFrames used fun _ hi => (mem_rangeFrames.mp hi).2.2

theorem clear_all (n : Nat) : clearCount (fun _ => true) n = 0 := by
  induction n with
  | zero => rfl
  | succ n ih =>
    rw [clearCount] at ih ⊢
    rw [Nat.count_succ, ih]
    rfl

theorem Counted.init {k : Image} {map : List Region} {b : Boot} (h : pmmInit k map = some b) : Counted b.pmm := by
  rw [pmmInit] at h
  simp only at h
  split at h
  · cases h
  cases h
  refine Counted.markRange (Counted.markRange
    (Counted.markRange (invariant_foldl (fun p r hp => ?_) _ ?_) ..) ..) ..
  · split
    · exact hp.markRange ..
    · exact hp
  · exact ⟨by rw [clear_all, Nat.add_zero], fun _ _ => rfl⟩

theorem null_used {k : Image} {map : List Region} {b : Boot} (h : pmmInit k map = some b) :
    b.pmm.bitmap 0 = true := by
  by_contra hn
  obtain ⟨-, -, -, -, -, hb⟩ := pmmInit_spec h
  obtain ⟨⟨r, -, -, hr⟩, hlow, -, -⟩ := (hb 0).mp (Bool.not_eq_true _ ▸ hn)
  refine hlow (mem_rangeFrames.mpr ⟨?_, ?_, (mem_rangeFrames.mp hr).2.2⟩)
  · simp [alignDown]
  · simp only [if_true, alignUp, alignDown]
    rcases k.width with hw | hw <;> rw [hw] <;> decide

inductive Call where
  | alloc (count limit : Nat)
  | free (i count : Nat)
  | incRef (i : Nat)
  | decRef (i : Nat)

def call (p : Pmm) : Call → Pmm
  | .alloc count limit => (p.pmmAllocPagesBelow count limit).2
  | .free i count => p.pmmFreePages i count
  | .incRef i => p.pmmPageIncRef i
  | .decRef i => (p.pmmPageDecRef i).2

/-- Fewer than 2^32 frames are asked for, and only frames that are in use are given back. -/
def CallOk (p : Pmm) : Call → Prop
  | .alloc count _ => count < 2 ^ 32
  | .free i count => 0 < i ∧ ∀ k, k < count → p.bitmap (i + k) = true
  | .incRef _ => True
  | .decRef i => 0 < i ∧ p.bitmap i = true

instance (p : Pmm) : (c : Call) → Decidable (CallOk p c)
  | .alloc count _ => inferInstanceAs (Decidable (count < 2 ^ 32))
  | .free i count => inferInstanceAs (Decidable (0 < i ∧ ∀ k, k < count → p.bitmap (i + k) = true))
  | .incRef _ => .isTrue trivial
  | .decRef i => inferInstanceAs (Decidable (0 < i ∧ p.bitmap i = true))

theorem call_counted (hp : Counted p ∧ p.bitmap 0 = true) {c : Call} (hc : CallOk p c) :
    Counted (call p c) ∧ (call p c).bitmap 0 = true := by
  obtain ⟨hp, h0⟩ := hp
  cases c with
  | alloc count limit =>
    by_cases hz : count = 0
    · rw [call, pmmAllocPagesBelow, if_pos hz]
      exact ⟨hp, h0⟩
    rcases pmmAllocPagesBelow_cases p limit (Nat.pos_of_ne_zero hz) with ⟨he, -⟩ | ⟨i, q, he, hg⟩
    · rw [call, he]
      exact ⟨hp, h0⟩
    rw [call, he]
    refine ⟨hg.counted hp, ?_⟩
    rw [hg.bitmap]
    split
    · rfl
    · exact h0
  | free i count =>
    refine ⟨hp.freePages i count, ?_⟩
    exact ((freeFrames_spec hp.used i count).2.2 0 hc.1).trans h0
  | incRef i =>
    refine ⟨hp.incRef i, ?_⟩
    rw [call, pmmPageIncRef]
    split <;> exact h0
  | decRef i =>
    refine ⟨hp.decRef hc.2, ?_⟩
    rw [call, pmmPageDecRef]
    split
    · split
      · exact h0
      · exact (Function.update_of_ne (Nat.ne_of_lt hc.1) _ _).trans h0
    · exact h0

def FreeBelow (p : Pmm) (count limit i : Nat) : Prop :=
  (i + count) * 4096 ≤ limit ∧ i + count ≤ p.bitmapPages ∧ ∀ k, k < count → p.bitmap (i + k) = false

theorem freeAt_iff (limit : Nat) : FreeAt p count (limitPages p limit) i ↔ FreeBelow p count limit i := by
  rw [FreeAt, FreeBelow, limitPages, Nat.le_min, Nat.le_div_iff_mul_le (by decide), and_assoc]

structure AllocOk (p : Pmm) (count limit : Nat) : Prop where
  given : (p.pmmAllocPagesBelow count limit).1 ≠ 0 →
    FreeBelow p count limit (p.pmmAllocPagesBelow count limit).1 ∧
      ∀ k, k < count →
        (p.pmmAllocPagesBelow count limit).2.bitmap ((p.pmmAllocPagesBelow count limit).1 + k) = true ∧
        (p.pmmAllocPagesBelow count limit).2.refcounts ((p.pmmAllocPagesBelow count limit).1 + k) = 1
  failed : (p.pmmAllocPagesBelow count limit).1 = 0 →
    (p.pmmAllocPagesBelow count limit).2 = p ∧ ∀ i, ¬ FreeBelow p count limit i

theorem Counted.allocOk (hp : Counted p) (h0 : p.bitmap 0 = true) (limit : Nat) (hc : 0 < count) :
    AllocOk p count limit := by
  rcases pmmAllocPagesBelow_cases p limit hc with ⟨he, hnone⟩ | ⟨i, q, he, hg⟩
  · refine ⟨fun hne => absurd (congrArg Prod.fst he) hne, fun _ => ⟨congrArg Prod.snd he, fun i hf => ?_⟩⟩
    by_cases hi : p.searchHint ≤ i
    · exact hnone i hi ((freeAt_iff limit).mpr hf)
    have hused := hp.hint i (by omega)
    rw [← Nat.add_zero i, hf.2.2 0 hc] at hused
    cases hused
  · have hfirst : p.bitmap i = false := hg.free.2 0 hc
    have hne : i ≠ 0 := by
      rintro rfl
      rw [h0] at hfirst
      cases hfirst
    refine ⟨fun _ => ?_, fun hz => ?_⟩
    · rw [he]
      refine ⟨(freeAt_iff limit).mp hg.free, fun k hk => ⟨?_, ?_⟩⟩
      · rw [hg.bitmap, if_pos ⟨Nat.le_add_right i k, by omega⟩]
      · rw [hg.refs, if_pos ⟨Nat.le_add_right i k, by omega⟩]
    · rw [he] at hz
      exact absurd hz hne

/-- The allocator in every state that calls lead to: it counts what is in use, keeps its hint below the
free frames, hands out free runs below the limit, and fails only if there is none. -/
theorem pmm_first_fit {k : Image} {map : List Region} {b : Boot} (hb : pmmInit k map = some b) {cs : List Call}
    (hcs : Along CallOk call b.pmm cs) :
    let p := run call b.pmm cs
    p.usedPages = Nat.count (fun i => p.bitmap i = true) p.bitmapPages ∧
      (∀ i, i < p.searchHint → p.bitmap i = true) ∧
      ∀ count limit, 0 < count → count < 2 ^ 32 → limit < 2 ^ 64 → AllocOk p count limit := by
  have hinv := invariant_run (P := fun p => Counted p ∧ p.bitmap 0 = true) (fun _ _ hp hc => call_counted hp hc)
    ⟨Counted.init hb, null_used hb⟩ hcs
  exact ⟨used_eq_count hinv.1, hinv.1.hint, fun count limit hc _ _ => hinv.1.allocOk hinv.2 limit hc⟩

def smallImage : Image where
  w := 64
  start := 0x100000
  stop := 0x100800
  width := .inr rfl
  order := by decide
  room := by decide

def smallMap : List Region := [⟨0x100000, 0x10000, .usable⟩, ⟨0x110000, 0x4000, .bootloader⟩]

theorem smallBoot_isSome : (pmmInit smallImage smallMap).isSome = true := by decide +kernel

def smallBoot : Boot := (pmmInit smallImage smallMap).get smallBoot_isSome

theorem smallBoot_eq : pmmInit smallImage smallMap = some smallBoot := (Option.some_get smallBoot_isSome).symm

theorem pmm_first_fit_small :
    let cs := [.alloc 2 (2 ^ 64 - 1), .incRef 259, .decRef 259, .free 259 2]
    Along CallOk call smallBoot.pmm cs ∧
      (run call smallBoot.pmm cs).usedPages = Nat.count (fun i => (run call smallBoot.pmm cs).bitmap i = true)
        (run call smallBoot.pmm cs).bitmapPages := by
  have h : Along CallOk call smallBoot.pmm [.alloc 2 (2 ^ 64 - 1), .incRef 259, .decRef 259, .free 259 2] := by
    decide +kernel
  exact ⟨h, (pmm_first_fit smallBoot_eq h).1⟩

end Sic.Pmm
