import Sic.Mm.PmmRun

/-! The references to frames: how many were taken and dropped, against the counts of 16 bits. -/

namespace Sic.Pmm

structure Ledger where
  pmm : Pmm
  taken : Nat → Nat
  dropped : Nat → Nat

def inRun (i n f : Nat) : Nat := if i ≤ f ∧ f < i + n then 1 else 0

def Ledger.call (l : Ledger) (c : Call) : Ledger where
  pmm := Pmm.call l.pmm c
  taken :=
    match c with
    | .alloc count limit =>
      let i := (l.pmm.pmmAllocPagesBelow count limit).1
      if i = 0 then l.taken else fun f => l.taken f + inRun i count f
    | .incRef i => fun f => l.taken f + inRun i 1 f
    | _ => l.taken
  dropped :=
    match c with
    | .free i count => fun f => l.dropped f + inRun i count f
    | .decRef i => fun f => l.dropped f + inRun i 1 f
    | _ => l.dropped

def Ledger.refs (l : Ledger) (f : Nat) : Nat := l.taken f - l.dropped f

/-- Only references that are held are dropped or taken again, and a count does not pass 65535. -/
def Ledger.Ok (l : Ledger) : Call → Prop
  | .alloc _ _ => True
  | .free i count => ∀ k, k < count → 0 < l.refs (i + k)
  | .incRef i => 0 < l.refs i ∧ l.refs i + 1 < 2 ^ 16
  | .decRef i => 0 < l.refs i

instance (l : Ledger) : (c : Call) → Decidable (l.Ok c)
  | .alloc _ _ => .isTrue trivial
  | .free i count => inferInstanceAs (Decidable (∀ k, k < count → 0 < l.refs (i + k)))
  | .incRef i => inferInstanceAs (Decidable (0 < l.refs i ∧ l.refs i + 1 < 2 ^ 16))
  | .decRef i => inferInstanceAs (Decidable (0 < l.refs i))

structure Ledger.Exact (l : Ledger) : Prop where
  null : l.pmm.bitmap 0 = true ∧ l.taken 0 = 0
  le : ∀ f, l.dropped f ≤ l.taken f
  held : ∀ f, 0 < l.refs f →
    f < l.pmm.bitmapPages ∧ l.pmm.bitmap f = true ∧ (l.pmm.refcounts f).toNat = l.refs f
  free : ∀ f, 0 < l.taken f → l.refs f = 0 → l.pmm.bitmap f = false

variable {p q : Pmm} {i n f : Nat} {l : Ledger}

theorem Ledger.Exact.idle (h : l.Exact) (hf : l.pmm.bitmap f = false) : l.refs f = 0 := by
  by_contra hne
  rw [(h.held f (Nat.pos_of_ne_zero hne)).2.1] at hf
  cases hf

structure Dropped (p q : Pmm) (i : Nat) : Prop where
  pages : q.bitmapPages = p.bitmapPages
  other : ∀ f, f ≠ i → q.bitmap f = p.bitmap f ∧ q.refcounts f = p.refcounts f
  last : (p.refcounts i).toNat ≤ 1 → q.bitmap i = false
  more : 1 < (p.refcounts i).toNat → q.bitmap i = p.bitmap i ∧ (q.refcounts i).toNat + 1 = (p.refcounts i).toNat

theorem one_lt_iff {r : BitVec 16} : 1 < r ↔ 1 < r.toNat := by
  rw [BitVec.lt_def]
  rfl

theorem toNat_pred {r : BitVec 16} (h : 1 < r.toNat) : (r - 1).toNat + 1 = r.toNat := by
  rw [BitVec.toNat_sub, show (1 : BitVec 16).toNat = 1 from rfl]
  have := r.isLt
  omega

theorem freeFrame_dropped (hi : i < p.bitmapPages) (hb : p.bitmap i = true) : Dropped p (p.freeFrame i) i := by
  have hin : ¬ (p.bitmapPages ≤ i ∨ p.bitmap i = false) := by
    rw [hb]
    simp
    omega
  rw [freeFrame, if_neg hin]
  split
  next hr =>
    rw [one_lt_iff] at hr
    refine ⟨rfl, fun f hf => ⟨rfl, Function.update_of_ne hf _ _⟩, fun h => by omega, fun _ => ⟨rfl, ?_⟩⟩
    simp only [Function.update_self]
    exact toNat_pred hr
  next hr =>
    rw [one_lt_iff] at hr
    exact ⟨rfl, fun f hf => ⟨Function.update_of_ne hf _ _, Function.update_of_ne hf _ _⟩,
      fun _ => Function.update_self .., fun h => absurd h hr⟩

theorem decRef_dropped (hi : i < p.bitmapPages) : Dropped p (p.pmmPageDecRef i).2 i := by
  rw [pmmPageDecRef, if_pos hi]
  split
  next hr =>
    rw [one_lt_iff] at hr
    refine ⟨rfl, fun f hf => ⟨rfl, Function.update_of_ne hf _ _⟩, fun h => by omega, fun _ => ⟨rfl, ?_⟩⟩
    simp only [Function.update_self]
    exact toNat_pred hr
  next hr =>
    rw [one_lt_iff] at hr
    exact ⟨rfl, fun f hf => ⟨Function.update_of_ne hf _ _, Function.update_of_ne hf _ _⟩,
      fun _ => Function.update_self .., fun h => absurd h hr⟩

theorem inRun_one (i f : Nat) : inRun i 1 f = if f = i then 1 else 0 := by
  rw [inRun]
  exact if_congr (by omega) rfl rfl

theorem inRun_succ (i n f : Nat) : inRun i (n + 1) f = inRun i n f + inRun (i + n) 1 f := by
  rw [inRun, inRun, inRun_one]
  grind

theorem Ledger.Exact.drop (h : l.Exact) (hr : 0 < l.refs i) (hq : Dropped l.pmm q i) :
    Exact ⟨q, l.taken, fun f => l.dropped f + inRun i 1 f⟩ := by
  obtain ⟨hlt, hb, hcount⟩ := h.held i hr
  have hle := h.le
  have hrefs : ∀ f, Ledger.refs ⟨q, l.taken, fun f => l.dropped f + inRun i 1 f⟩ f =
      if f = i then l.refs i - 1 else l.refs f := fun f => by
    simp only [Ledger.refs, inRun_one]
    split
    · next he =>
      subst he
      omega
    · rfl
  have hi0 : i ≠ 0 := by
    rintro rfl
    rw [Ledger.refs, h.null.2] at hr
    omega
  refine ⟨⟨(hq.other 0 (Ne.symm hi0)).1.trans h.null.1, h.null.2⟩, fun f => ?_, fun f hf => ?_, fun f ht hf => ?_⟩
  · simp only [inRun_one]
    split
    · next he =>
      subst he
      rw [Ledger.refs] at hr
      omega
    · exact hle f
  · rw [hrefs] at hf ⊢
    simp only [hq.pages]
    by_cases he : f = i
    · subst he
      rw [if_pos rfl] at hf ⊢
      obtain ⟨hb', hc'⟩ := hq.more (by omega)
      exact ⟨hlt, hb'.trans hb, by omega⟩
    · rw [if_neg he] at hf ⊢
      obtain ⟨hb', hc'⟩ := hq.other f he
      rw [hb', hc']
      exact h.held f hf
  · rw [hrefs] at hf
    by_cases he : f = i
    · subst he
      rw [if_pos rfl] at hf
      exact hq.last (by omega)
    · rw [if_neg he] at hf
      exact (hq.other f he).1.trans (h.free f ht hf)

theorem Ledger.Exact.dropRun (h : l.Exact) (i n : Nat) (hr : ∀ k, k < n → 0 < l.refs (i + k)) :
    Exact ⟨(List.range n).foldl (fun q k => q.freeFrame (i + k)) l.pmm, l.taken,
      fun f => l.dropped f + inRun i n f⟩ := by
  induction n with
  | zero =>
    have hzero : (fun f => l.dropped f + inRun i 0 f) = l.dropped := by
      funext f
      rw [inRun, if_neg (by omega), Nat.add_zero]
    rw [hzero]
    exact h
  | succ n ih =>
    have hprev := ih fun k hk => hr k (by omega)
    rw [List.range_succ, List.foldl_append, List.foldl_cons, List.foldl_nil]
    generalize (List.range n).foldl (fun q k => q.freeFrame (i + k)) l.pmm = q at hprev
    have hlast : 0 < Ledger.refs ⟨q, l.taken, fun f => l.dropped f + inRun i n f⟩ (i + n) := by
      have := hr n (by omega)
      simp only [Ledger.refs, inRun] at this ⊢
      rw [if_neg (by omega)]
      exact this
    obtain ⟨hlt, hb, -⟩ := hprev.held (i + n) hlast
    have hdrop := hprev.drop hlast (freeFrame_dropped hlt hb)
    simp only [Nat.add_assoc, ← inRun_succ] at hdrop
    exact hdrop

theorem Ledger.Exact.setHint (h : l.Exact) (x : Nat) :
    Exact ⟨{ l.pmm with searchHint := x }, l.taken, l.dropped⟩ := ⟨h.null, h.le, h.held, h.free⟩

theorem Ledger.Exact.alloc (h : l.Exact) {count m : Nat} (hg : Given l.pmm q count m i)
    (hm : m ≤ l.pmm.bitmapPages) :
    Exact ⟨q, fun f => l.taken f + inRun i count f, l.dropped⟩ := by
  have hrefs : ∀ f, Ledger.refs ⟨q, fun f => l.taken f + inRun i count f, l.dropped⟩ f =
    l.refs f + inRun i count f :=
    fun f => by
      have := h.le f
      simp only [Ledger.refs]
      omega
  have hidle : ∀ f, i ≤ f → f < i + count → l.refs f = 0 := fun f h1 h2 => by
    have hfree := hg.free.2 (f - i) (by omega)
    rw [show i + (f - i) = f by omega] at hfree
    exact h.idle hfree
  have hi0 : ¬ (i ≤ 0 ∧ 0 < i + count) := fun hz => by
    have hfree := hg.free.2 0 (by omega)
    rw [show i + 0 = 0 by omega, h.null.1] at hfree
    cases hfree
  refine ⟨⟨?_, ?_⟩, fun f => ?_, fun f hf => ?_, fun f ht hf => ?_⟩
  · rw [hg.bitmap, if_neg hi0]
    exact h.null.1
  · simp only [inRun, if_neg hi0]
    exact h.null.2
  · exact Nat.le_add_right_of_le (h.le f)
  · rw [hrefs] at hf ⊢
    simp only [hg.pages, hg.bitmap, hg.refs]
    by_cases hin : i ≤ f ∧ f < i + count
    · have hidle := hidle f hin.1 hin.2
      have := hg.free.1
      simp only [inRun, if_pos hin, hidle]
      exact ⟨by omega, trivial, rfl⟩
    · simp only [inRun, if_neg hin, Nat.add_zero] at hf ⊢
      exact h.held f hf
  · rw [hrefs] at hf
    simp only [inRun] at ht hf
    rw [hg.bitmap]
    split at hf
    · omega
    next hin =>
    rw [if_neg hin] at ht ⊢
    exact h.free f ht hf

theorem Ledger.Exact.inc (h : l.Exact) (hr : 0 < l.refs i) (hroom : l.refs i + 1 < 2 ^ 16) :
    Exact ⟨l.pmm.pmmPageIncRef i, fun f => l.taken f + inRun i 1 f, l.dropped⟩ := by
  obtain ⟨hlt, hb, hcount⟩ := h.held i hr
  have hrefs : ∀ f, Ledger.refs ⟨l.pmm.pmmPageIncRef i, fun f => l.taken f + inRun i 1 f, l.dropped⟩ f =
      if f = i then l.refs i + 1 else l.refs f := fun f => by
    have := h.le f
    simp only [Ledger.refs, inRun_one]
    split
    · next he =>
      subst he
      omega
    · rfl
  have hi0 : i ≠ 0 := by
    rintro rfl
    rw [Ledger.refs, h.null.2] at hr
    omega
  refine ⟨⟨?_, ?_⟩, fun f => Nat.le_add_right_of_le (h.le f), fun f hf => ?_, fun f ht hf => ?_⟩
  · rw [pmmPageIncRef, if_pos hlt]
    exact h.null.1
  · simp only [inRun_one, if_neg (Ne.symm hi0), Nat.add_zero]
    exact h.null.2
  · rw [hrefs] at hf ⊢
    rw [pmmPageIncRef, if_pos hlt]
    by_cases he : f = i
    · subst he
      simp only [if_true, Function.update_self]
      refine ⟨hlt, hb, ?_⟩
      rw [BitVec.toNat_add, hcount]
      exact Nat.mod_eq_of_lt hroom
    · rw [if_neg he] at hf ⊢
      simp only [Function.update_of_ne he]
      exact h.held f hf
  · rw [hrefs] at hf
    rw [pmmPageIncRef, if_pos hlt]
    by_cases he : f = i
    · rw [if_pos he] at hf
      cases hf
    rw [if_neg he] at hf
    simp only [inRun_one, if_neg he] at ht
    exact h.free f ht hf

theorem Ledger.Exact.call (h : l.Exact) {c : Call} (hc : l.Ok c) : (l.call c).Exact := by
  cases c with
  | alloc count limit =>
    by_cases hz : count = 0
    · have he : l.pmm.pmmAllocPagesBelow count limit = (0, l.pmm) := by rw [pmmAllocPagesBelow, if_pos hz]
      simp only [Ledger.call, Pmm.call, he, if_true]
      exact h
    · rcases pmmAllocPagesBelow_cases l.pmm limit (Nat.pos_of_ne_zero hz) with ⟨he, -⟩ | ⟨i, q, he, hg⟩
      · simp only [Ledger.call, Pmm.call, he, if_true]
        exact h
      · have hi0 : i ≠ 0 := by
          rintro rfl
          have hfree := hg.free.2 0 (Nat.pos_of_ne_zero hz)
          rw [Nat.add_zero, h.null.1] at hfree
          cases hfree
        simp only [Ledger.call, Pmm.call, he, if_neg hi0]
        exact h.alloc hg (Nat.min_le_right _ _)
  | free i count => exact (h.dropRun i count hc).setHint _
  | incRef i => exact h.inc hc.1 hc.2
  | decRef i => exact h.drop hc (decRef_dropped (h.held i hc).1)

def Ledger.fresh (p : Pmm) : Ledger := ⟨p, fun _ => 0, fun _ => 0⟩

theorem Ledger.fresh_exact (h : p.bitmap 0 = true) : (Ledger.fresh p).Exact :=
  ⟨⟨h, rfl⟩, fun _ => le_rfl, fun _ hf => absurd hf (Nat.lt_irrefl 0), fun _ hf => absurd hf (Nat.lt_irrefl 0)⟩

def incs (p : Pmm) (i : Nat) : Nat → Pmm
  | 0 => p
  | n + 1 => (incs p i n).pmmPageIncRef i

def drops (p : Pmm) (i : Nat) : Nat → Pmm
  | 0 => p
  | n + 1 => (drops p i n |>.pmmPageDecRef i).2

theorem incs_spec (p : Pmm) (hi : i < p.bitmapPages) (n : Nat) :
    (incs p i n).bitmapPages = p.bitmapPages ∧ (incs p i n).bitmap = p.bitmap ∧
      ((incs p i n).refcounts i).toNat = ((p.refcounts i).toNat + n) % 2 ^ 16 := by
  induction n with
  | zero => exact ⟨rfl, rfl, (Nat.mod_eq_of_lt (p.refcounts i).isLt).symm⟩
  | succ n ih =>
    obtain ⟨h1, h2, h3⟩ := ih
    rw [incs, pmmPageIncRef, if_pos (by omega)]
    refine ⟨h1, h2, ?_⟩
    simp only [Function.update_self]
    rw [BitVec.toNat_add, h3, show (1 : BitVec 16).toNat = 1 from rfl]
    omega

theorem drops_spec (p : Pmm) (hi : i < p.bitmapPages) (n : Nat) :
    (drops p i n).bitmapPages = p.bitmapPages ∧
      (if n < max (p.refcounts i).toNat 1 then
        (drops p i n).bitmap i = p.bitmap i ∧ ((drops p i n).refcounts i).toNat + n = (p.refcounts i).toNat
      else (drops p i n).bitmap i = false ∧ ((drops p i n).refcounts i).toNat = 0) := by
  induction n with
  | zero => exact ⟨rfl, by rw [if_pos (by omega)]; exact ⟨rfl, rfl⟩⟩
  | succ n ih =>
    obtain ⟨h1, h2⟩ := ih
    rw [drops]
    generalize drops p i n = r at *
    rw [pmmPageDecRef, if_pos (by omega)]
    by_cases hr : 1 < (r.refcounts i).toNat
    · rw [if_pos (one_lt_iff.mpr hr)]
      refine ⟨h1, ?_⟩
      split at h2
      next hn =>
        have := toNat_pred hr
        rw [if_pos (by omega)]
        simp only [Function.update_self]
        exact ⟨h2.1, by omega⟩
      next => omega
    · rw [if_neg (fun h => hr (one_lt_iff.mp h))]
      refine ⟨h1, ?_⟩
      simp only [Function.update_self]
      split at h2
      · rw [if_neg (by omega)]
        exact ⟨trivial, rfl⟩
      · rw [if_neg (by omega)]
        exact ⟨trivial, rfl⟩

theorem shared_iff (p : Pmm) (hi : i < p.bitmapPages) (hb : p.bitmap i = true) (hr : p.refcounts i = 1)
    (hn : 0 < n) :
    (∀ k, k ≤ n → ((drops (incs p i (n - 1)) i k).bitmap i = false ↔ k = n)) ↔ n < 2 ^ 16 := by
  obtain ⟨h1, h2, h3⟩ := incs_spec p hi (n - 1)
  have hspec := drops_spec (incs p i (n - 1)) (h1 ▸ hi)
  rw [hr, show (1 : BitVec 16).toNat = 1 from rfl, show 1 + (n - 1) = n by omega] at h3
  rw [h2, hb, h3] at hspec
  constructor
  · intro h
    by_contra hge
    have hlt := Nat.mod_lt n (show 0 < 2 ^ 16 by decide)
    -- the count has wrapped, and the frame is gone when it is used up
    have hearly := (hspec (max (n % 2 ^ 16) 1)).2
    rw [if_neg (Nat.lt_irrefl _)] at hearly
    have := (h _ (by omega)).mp hearly.1
    omega
  · intro hlt k hk
    have hk' := (hspec k).2
    rw [Nat.mod_eq_of_lt hlt, Nat.max_eq_left hn] at hk'
    by_cases he : k = n
    · rw [if_neg (by omega)] at hk'
      exact iff_of_true hk'.1 he
    · rw [if_pos (by omega)] at hk'
      exact iff_of_false (by rw [hk'.1]; simp) he

/-- Every frame that was handed out is free exactly if all references to it were dropped, in every run in which
no frame gets more than 65535 of them; and as many it can have. -/
theorem frame_references {k : Image} {map : List Region} {b : Boot} (hb : pmmInit k map = some b) :
    (∀ cs, Along Ledger.Ok Ledger.call (.fresh b.pmm) cs → ∀ f, 0 < (run Ledger.call (.fresh b.pmm) cs).taken f →
      ((run Ledger.call (.fresh b.pmm) cs).pmm.bitmap f = false ↔
        (run Ledger.call (.fresh b.pmm) cs).dropped f = (run Ledger.call (.fresh b.pmm) cs).taken f)) ∧
      ∀ (p : Pmm) (i n : Nat), i < p.bitmapPages → p.bitmap i = true → p.refcounts i = 1 → 0 < n →
        ((∀ k, k ≤ n → ((drops (incs p i (n - 1)) i k).bitmap i = false ↔ k = n)) ↔ n < 2 ^ 16) := by
  refine ⟨fun cs hcs f hf => ?_, fun p i n hi hbit hr hn => shared_iff p hi hbit hr hn⟩
  have hx := invariant_run (P := Ledger.Exact) (fun l c hl hc => hl.call hc)
    (Ledger.fresh_exact (null_used hb)) hcs
  generalize run Ledger.call (.fresh b.pmm) cs = l at *
  have hle := hx.le f
  constructor
  · intro hfree
    have := hx.idle hfree
    rw [Ledger.refs] at this
    omega
  · intro he
    exact hx.free f hf (by rw [Ledger.refs]; omega)

theorem frame_references_small :
    let cs := [.alloc 2 (2 ^ 64 - 1), .incRef 259, .decRef 259, .free 259 2]
    Along Ledger.Ok Ledger.call (.fresh smallBoot.pmm) cs ∧
      0 < (run Ledger.call (.fresh smallBoot.pmm) cs).taken 259 ∧
      ((run Ledger.call (.fresh smallBoot.pmm) cs).pmm.bitmap 259 = false ↔
        (run Ledger.call (.fresh smallBoot.pmm) cs).dropped 259 =
          (run Ledger.call (.fresh smallBoot.pmm) cs).taken 259) := by
  have h : Along Ledger.Ok Ledger.call (.fresh smallBoot.pmm)
      [.alloc 2 (2 ^ 64 - 1), .incRef 259, .decRef 259, .free 259 2] := by decide +kernel
  have ht : 0 < (run Ledger.call (.fresh smallBoot.pmm)
      [.alloc 2 (2 ^ 64 - 1), .incRef 259, .decRef 259, .free 259 2]).taken 259 := by decide +kernel
  exact ⟨h, ht, (frame_references smallBoot_eq).1 _ h 259 ht⟩

def oneFrame : Pmm := call smallBoot.pmm (.alloc 1 (2 ^ 64 - 1))

/-- The frame of 65536 sharers is free after the first of them lets go. -/
theorem shared_too_often :
    oneFrame.bitmap 259 = true ∧ oneFrame.refcounts 259 = 1 ∧
      (drops (incs oneFrame 259 65535) 259 1).bitmap 259 = false := by
  have hp : 259 < oneFrame.bitmapPages ∧ oneFrame.bitmap 259 = true ∧ oneFrame.refcounts 259 = 1 := by
    decide +kernel
  obtain ⟨hi, hb, hr⟩ := hp
  obtain ⟨h1, -, h3⟩ := incs_spec oneFrame hi 65535
  have hwrapped : ((incs oneFrame 259 65535).refcounts 259).toNat = 0 := by
    rw [h3, hr]
    decide
  generalize incs oneFrame 259 65535 = q at *
  have hdrop := (drops_spec q (h1 ▸ hi) 1).2
  rw [hwrapped, if_neg (by decide)] at hdrop
  exact ⟨hb, hr, hdrop.1⟩

end Sic.Pmm
