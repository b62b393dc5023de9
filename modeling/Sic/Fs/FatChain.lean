import Sic.Fs.FatTable
import Sic.Lib.Threaded

/-! Chains of clusters: a chain is a list that the table links together. Allocation takes the next free
entry, and puts clusters behind a chain. -/

namespace Sic.Fs.Fat

open Threaded (Seg)

/-- The parts of a volume lie apart, and every cluster has an entry whose value fits. -/
structure Volume (g : Geo) : Prop extends Layout g where
  inFat : ∀ c, 2 ≤ c → c < g.clusters + 2 → InFat g c
  clusters_le : g.clusters + 2 ≤ match g.kind with
    | .fat12 => 0xFF8
    | .fat16 => 0xFFF8
    | .fat32 => 0x0FFFFFF8
  spc_pos : 0 < g.sectorsPerCluster
  clusterSize_lt : g.clusterSize < 2 ^ 32
  data_above : g.fatStart + g.fats * g.fatSectors ≤ g.dataStart
  data_room : g.dataStart + g.clusters * g.sectorsPerCluster ≤ 2 ^ 32

def InRange (g : Geo) (c : Nat) : Prop := 2 ≤ c ∧ c < g.clusters + 2

def fatOf (g : Geo) (s : State) (c : Nat) : Nat := entry g.kind (table g s) c

def next (F : Nat → Nat) (c : Nat) : Option Nat := if isEoc (F c) ∨ F c < 2 then none else some (F c)

structure Chain (g : Geo) (F : Nat → Nat) (l : List Nat) : Prop where
  seg : Seg (next F) l.head? l none
  used : ∀ x ∈ l, F x ≠ 0
  range : ∀ x ∈ l, InRange g x
  nodup : l.Nodup

/-- The entries that cannot be set are links already. -/
def Settled (g : Geo) (F : Nat → Nat) : Prop := ∀ c, InRange g c → Straddles g c → ∃ d, next F c = some d

structure Steady (g : Geo) (s : State) : Prop where
  ready : Ready g s
  settled : Settled g (fatOf g s)
  nextFree : InRange g s.nextFree ∨ s.nextFree = g.clusters + 2

def Outside (g : Geo) (a : Nat) : Prop := ∀ k, IsFat g k → a ∉ copies g k

def InCluster (g : Geo) (c a : Nat) : Prop :=
  clusterSector g c ≤ a ∧ a < clusterSector g c + g.sectorsPerCluster

def candidate (g : Geo) (nextFree n : Nat) : Nat := 2 + (nextFree - 2 + n) % g.clusters

def pick (g : Geo) (F : Nat → Nat) (nextFree : Nat) : Option Nat :=
  ((List.range g.clusters).map (candidate g nextFree)).find? fun c => F c = 0

def fresh (g : Geo) : Nat → (Nat → Nat) → Nat → List Nat
  | 0, _, _ => []
  | k + 1, F, nextFree =>
    match pick g F nextFree with
    | none => []
    | some c => c :: fresh g k (Function.update F c 0x0FFFFFFF) (c + 1)

section

variable {g : Geo} {s s' s₁ : State} {c : Nat} {F F' : Nat → Nat} {l ns : List Nat}

theorem Volume.clusters_lt (hv : Volume g) : g.clusters + 2 ≤ 0x0FFFFFF8 := by
  have h := hv.clusters_le
  split at h <;> omega

theorem Volume.norm_eq (hv : Volume g) (hc : InRange g c) : norm g.kind c = c := by
  have h := hv.clusters_le
  have hlt := hc.2
  cases hk : g.kind <;> simp only [hk] at h <;> simp only [norm]
  · rw [Nat.mod_eq_of_lt (by omega), if_neg (by omega)]
  · rw [Nat.mod_eq_of_lt (by omega), if_neg (by omega)]
  · rw [Nat.mod_eq_of_lt (by omega), if_neg (by omega)]

theorem norm_eoc (g : Geo) : norm g.kind g.eoc = 0x0FFFFFFF := by
  rw [Geo.eoc]
  cases g.kind <;> rfl

theorem norm_zero (k : Kind) : norm k 0 = 0 := by
  cases k <;> rfl

theorem Volume.inFat_of (hv : Volume g) (hc : InRange g c) : InFat g c := hv.inFat c hc.1 hc.2

theorem Volume.clusterSector_eq (hv : Volume g) (hc : InRange g c) :
    clusterSector g c = g.dataStart + (c - 2) * g.sectorsPerCluster ∧
      clusterSector g c + g.sectorsPerCluster ≤ g.dataStart + g.clusters * g.sectorsPerCluster := by
  have hlt := hv.clusters_lt
  obtain ⟨hc1, hc2⟩ := hc
  have h := Nat.mul_le_mul_right g.sectorsPerCluster (show c - 2 + 1 ≤ g.clusters by omega)
  rw [Nat.succ_mul] at h
  have hroom := hv.data_room
  have hspc := hv.spc_pos
  have he : clusterSector g c = g.dataStart + (c - 2) * g.sectorsPerCluster := by
    rw [clusterSector, show (c + 2 ^ 32 - 2) % 2 ^ 32 = c - 2 by omega,
      Nat.mod_eq_of_lt (by omega)]
  exact ⟨he, by omega⟩

theorem Layout.outside_of_le (hl : Layout g) {a : Nat} (h : g.fatStart + g.fats * g.fatSectors ≤ a) :
    Outside g a := by
  intro k hk ha
  obtain ⟨i, hi, rfl⟩ := (hl.mem_copies hk).mp ha
  have := copy_lt hk hi
  omega

theorem InCluster.outside (hv : Volume g) (hc : InRange g c) {a : Nat} (h : InCluster g c a) : Outside g a := by
  have := (hv.clusterSector_eq hc).1
  have := hv.data_above
  exact hv.toLayout.outside_of_le (by have := h.1; omega)

theorem InCluster.unique (hv : Volume g) {d a : Nat} (hc : InRange g c) (hd : InRange g d)
    (h : InCluster g c a) (h' : InCluster g d a) : c = d := by
  have h1 := (hv.clusterSector_eq hc).1
  have h2 := (hv.clusterSector_eq hd).1
  obtain ⟨hle, hlt⟩ := h
  obtain ⟨hle', hlt'⟩ := h'
  rw [h1] at hle hlt
  rw [h2] at hle' hlt'
  have hq : (a - g.dataStart) / g.sectorsPerCluster = c - 2 :=
    Nat.div_eq_of_lt_le (by omega) (by rw [Nat.succ_mul]; omega)
  have hq' : (a - g.dataStart) / g.sectorsPerCluster = d - 2 :=
    Nat.div_eq_of_lt_le (by omega) (by rw [Nat.succ_mul]; omega)
  have := hc.1
  have := hd.1
  omega

theorem Left.fatOf {t : Nat → U8} (h : Left g s s' t) (x : Nat) : fatOf g s' x = entry g.kind t x := by
  rw [Fat.fatOf, h.table]

theorem Left.fatOf_same (h : Left g s s' (Fat.table g s)) : Fat.fatOf g s' = Fat.fatOf g s :=
  funext h.fatOf

theorem Left.steady (h : Left g s s' (Fat.table g s)) (hs : Steady g s) : Steady g s' :=
  ⟨h.ready, h.fatOf_same ▸ hs.settled, h.nextFree ▸ hs.nextFree⟩

theorem Steady.get (hv : Volume g) (hs : Steady g s) (c : Nat) :
    Left g s (fatGet g s c).1 (table g s) := fatGet_left hv.toLayout hs.ready

theorem Steady.get_value (hv : Volume g) (hs : Steady g s) (hc : InRange g c) :
    (fatGet g s c).2 = fatOf g s c := fatGet_value hv.toLayout hs.ready (hv.inFat_of hc)

theorem fatSet_fatOf (hv : Volume g) (hr : Ready g s) (hc : InRange g c) (hn : ¬ Straddles g c) (value : Nat) :
    fatOf g (fatSet g s c value).1 = Function.update (fatOf g s) c (norm g.kind value) := by
  funext x
  rw [(fatSet_left hv.toLayout hr (hv.inFat_of hc) hn value).fatOf, entry_setEntry, Function.update_apply]
  rfl

theorem candidate_range (hpos : 0 < g.clusters) (nextFree n : Nat) : InRange g (candidate g nextFree n) := by
  have := Nat.mod_lt (nextFree - 2 + n) hpos
  exact ⟨Nat.le_add_right _ _, by rw [candidate]; omega⟩

theorem candidate_surj (hc : InRange g c) (nextFree : Nat) :
    ∃ n, n < g.clusters ∧ candidate g nextFree n = c := by
  obtain ⟨hc1, hc2⟩ := hc
  have hlt := Nat.mod_lt (nextFree - 2) (show 0 < g.clusters by omega)
  have hdiv := Nat.div_add_mod (nextFree - 2) g.clusters
  generalize (nextFree - 2) / g.clusters = q at hdiv
  generalize (nextFree - 2) % g.clusters = r at hlt hdiv
  by_cases hge : r ≤ c - 2
  · refine ⟨c - 2 - r, by omega, ?_⟩
    rw [candidate, ← hdiv, Nat.add_assoc, Nat.mul_add_mod, Nat.mod_eq_of_lt (by omega)]
    omega
  · refine ⟨g.clusters + (c - 2) - r, by omega, ?_⟩
    rw [candidate, ← hdiv, Nat.add_assoc, Nat.mul_add_mod,
      show r + (g.clusters + (c - 2) - r) = c - 2 + g.clusters by omega, Nat.add_mod_right,
      Nat.mod_eq_of_lt (by omega)]
    omega

theorem pick_some {nextFree : Nat} (h : pick g F nextFree = some c) : InRange g c ∧ F c = 0 := by
  have hmem := List.mem_of_find?_eq_some h
  obtain ⟨n, hn, rfl⟩ := List.mem_map.mp hmem
  refine ⟨candidate_range ?_ _ _, by simpa using List.find?_some h⟩
  have := List.mem_range.mp hn
  omega

theorem pick_none {nextFree : Nat} (h : pick g F nextFree = none) (hc : InRange g c) : F c ≠ 0 := by
  obtain ⟨n, hn, he⟩ := candidate_surj hc nextFree
  have hf := List.find?_eq_none.mp h c (List.mem_map.mpr ⟨n, List.mem_range.mpr hn, he⟩)
  simpa using hf

theorem pick_congr (h : ∀ x, InRange g x → (F x = 0 ↔ F' x = 0)) (nextFree : Nat) :
    pick g F nextFree = pick g F' nextFree := by
  rw [pick, pick, ← List.head?_filter, ← List.head?_filter]
  congr 1
  refine List.filter_congr fun x hx => ?_
  obtain ⟨n, hn, rfl⟩ := List.mem_map.mp hx
  have hpos : 0 < g.clusters := by have := List.mem_range.mp hn; omega
  exact decide_eq_decide.mpr (h _ (candidate_range hpos _ _))

theorem fresh_congr (k : Nat) (h : ∀ x, InRange g x → (F x = 0 ↔ F' x = 0)) (nextFree : Nat) :
    fresh g k F nextFree = fresh g k F' nextFree := by
  induction k generalizing F F' nextFree with
  | zero => rfl
  | succ k ih =>
    rw [fresh, fresh, pick_congr h]
    cases hp : pick g F' nextFree with
    | none => rfl
    | some c =>
      refine congrArg (c :: ·) (ih (fun x hx => ?_) _)
      by_cases hxc : x = c
      · rw [hxc, Function.update_self, Function.update_self]
      · rw [Function.update_of_ne hxc, Function.update_of_ne hxc]
        exact h x hx

structure Taken (g : Geo) (s s' : State) (c : Nat) : Prop where
  ready : Ready g s'
  fat : fatOf g s' = Function.update (fatOf g s) c 0x0FFFFFFF
  zeroed : s.noZero = false → ∀ a, InCluster g c a → s'.io.dev a = fun _ => 0
  kept : ∀ a, Outside g a → s.noZero = true ∨ ¬ InCluster g c a → s'.io.dev a = s.io.dev a
  batch : s'.batch = s.batch
  noZero : s'.noZero = s.noZero
  nextFree : s'.nextFree = c + 1

theorem view_writeSectors {lba k : Nat} {buf : Nat → Sector} (s : State)
    (h : ∀ a, lba ≤ a → a < lba + k → Outside g a) (hl : Layout g) {x : Nat} (hx : IsFat g x) :
    (writeSectors s lba k buf).io.view x = s.io.view x := by
  have hout : ¬ (lba ≤ x ∧ x < lba + k) := fun ha => h x ha.1 ha.2 x hx (hl.apart.self x hx)
  simp only [writeSectors, WriteBack.view, if_neg hout]

section Fields

variable (s : State) (lba k : Nat) (buf : Nat → Sector)

theorem writeSectors_batch : (writeSectors s lba k buf).batch = s.batch := rfl

theorem writeSectors_noZero : (writeSectors s lba k buf).noZero = s.noZero := rfl

theorem writeSectors_nextFree : (writeSectors s lba k buf).nextFree = s.nextFree := rfl

theorem writeSectors_dev_in {a : Nat} (h : lba ≤ a ∧ a < lba + k) :
    (writeSectors s lba k buf).io.dev a = buf (a - lba) := if_pos h

theorem writeSectors_dev_out {a : Nat} (h : ¬ (lba ≤ a ∧ a < lba + k)) :
    (writeSectors s lba k buf).io.dev a = s.io.dev a := if_neg h

end Fields

theorem writeSectors_left {lba k : Nat} (buf : Nat → Sector) (hl : Layout g) (hr : Ready g s)
    (h : ∀ a, lba ≤ a → a < lba + k → Outside g a) :
    Ready g (writeSectors s lba k buf) ∧ table g (writeSectors s lba k buf) = table g s := by
  have hview := fun x hx => @view_writeSectors g lba k buf s h hl x hx
  refine ⟨⟨⟨fun x hx hd a ha => ?_, hr.mirrored.inside⟩, hr.batched⟩, table_congr hview hl⟩
  rw [hview x hx, ← hr.mirrored.clean x hx hd a ha]
  exact if_neg fun hin => h a hin.1 hin.2 x hx ha

theorem Left.trans {t t' : Nat → U8} (h : Left g s s₁ t) (h' : Left g s₁ s' t') : Left g s s' t' :=
  ⟨h'.ready, h'.table, fun a ha => (h'.data a ha).trans (h.data a ha), h'.batch.trans h.batch,
    h'.noZero.trans h.noZero, h'.nextFree.trans h.nextFree⟩

theorem Taken.of_left (h : Left g s s₁ (table g s)) (h' : Taken g s₁ s' c) : Taken g s s' c where
  ready := h'.ready
  fat := by rw [h'.fat, h.fatOf_same]
  zeroed hz a ha := h'.zeroed (h.noZero.trans hz) a ha
  kept a ha hz := by rw [h'.kept a ha (by rwa [h.noZero]), h.data a ha]
  batch := h'.batch.trans h.batch
  noZero := h'.noZero.trans h.noZero
  nextFree := h'.nextFree

theorem Settled.not_straddles (h : Settled g F) (hc : InRange g c) (hn : next F c = none) : ¬ Straddles g c := by
  intro hst
  obtain ⟨d, hd⟩ := h c hc hst
  rw [hn] at hd
  cases hd

theorem next_eq_none_of_zero (h : F c = 0) : next F c = none := by
  rw [next, if_pos (by rw [h]; exact .inr (by decide))]

theorem table_io (h : s'.io = s.io) : table g s' = table g s := by
  funext o
  rw [table, table, h]

theorem taken_of_fat (hv : Volume g) (hc : InRange g c) {m : State} (hm : Ready g m)
    (hfat : fatOf g m = Function.update (fatOf g s) c 0x0FFFFFFF)
    (hdata : ∀ a, Outside g a → m.io.dev a = s.io.dev a) (hb : m.batch = s.batch) (hz : m.noZero = s.noZero)
    (hf : m.nextFree = c + 1) :
    Taken g s (if m.noZero then m
      else writeSectors m (clusterSector g c) g.sectorsPerCluster fun _ _ => 0) c := by
  by_cases h : m.noZero = true
  · rw [if_pos h]
    refine ⟨hm, hfat, fun h' => ?_, fun a ha _ => hdata a ha, hb, hz, hf⟩
    rw [hz, h'] at h
    cases h
  · rw [if_neg h]
    obtain ⟨hr', ht'⟩ := writeSectors_left (fun _ _ => 0) hv.toLayout hm
      fun a (h1 : clusterSector g c ≤ a) (h2 : a < clusterSector g c + g.sectorsPerCluster) =>
        InCluster.outside hv hc ⟨h1, h2⟩
    refine ⟨hr', ?_, fun _ a ha => writeSectors_dev_in _ _ _ _ ha, fun a ha hor => ?_,
      (writeSectors_batch _ _ _ _).trans hb, (writeSectors_noZero _ _ _ _).trans hz,
      (writeSectors_nextFree _ _ _ _).trans hf⟩
    · rw [← hfat]
      funext x
      rw [fatOf, fatOf, ht']
    · rcases hor with h' | h'
      · exact absurd (hz.trans h') h
      · exact (writeSectors_dev_out _ _ _ _ h').trans (hdata a ha)

theorem taken_of_set (hv : Volume g) (hr : Ready g s) (hc : InRange g c) (hn : ¬ Straddles g c)
    {m : State} (hio : m.io = (fatSet g s c g.eoc).1.io) (hb : m.batch = s.batch) (hz : m.noZero = s.noZero)
    (hf : m.nextFree = c + 1) :
    Taken g s (if m.noZero then m
      else writeSectors m (clusterSector g c) g.sectorsPerCluster fun _ _ => 0) c := by
  have hset := fatSet_left hv.toLayout hr (hv.inFat_of hc) hn g.eoc
  refine taken_of_fat hv hc ⟨hio ▸ hset.ready.mirrored, fun hd => ?_⟩ ?_ (fun a ha => ?_) hb hz hf
  · rw [hb, ← hset.batch]
    exact hset.ready.batched (hio ▸ hd)
  · rw [← norm_eoc g, ← fatSet_fatOf hv hr hc hn g.eoc]
    funext x
    rw [fatOf, fatOf, table_io hio]
  · rw [hio]
    exact hset.data a ha

theorem allocLoop_cases (hv : Volume g) {left n nf : Nat} (hn : n + left = g.clusters) (hr : Ready g s)
    (hnf : s.nextFree = nf) (hrange : InRange g nf ∨ nf = g.clusters + 2) :
    ((allocLoop g left n s).2 = 0 ∧ Left g s (allocLoop g left n s).1 (table g s) ∧
        ∀ c, ((List.range' n left).map (candidate g nf)).find? (fun c => fatOf g s c = 0) = some c →
          Straddles g c) ∨
      ∃ c, ((List.range' n left).map (candidate g nf)).find? (fun c => fatOf g s c = 0) = some c ∧
        ¬ Straddles g c ∧ (allocLoop g left n s).2 = c ∧ Taken g s (allocLoop g left n s).1 c := by
  induction left generalizing n s with
  | zero => exact .inl ⟨rfl, ⟨hr, rfl, fun _ _ => rfl, rfl, rfl, rfl⟩, fun c hc => by cases hc⟩
  | succ left ih =>
    have hpos : 0 < g.clusters := by omega
    have hlt := hv.clusters_lt
    -- the search wraps at the number of clusters, far below the word size
    have hcand : (2 + (s.nextFree + 2 ^ 32 - 2 + n) % 2 ^ 32 % g.clusters) % 2 ^ 32 = candidate g nf n := by
      have hin := (candidate_range hpos nf n).2
      have h2 : 2 ≤ nf ∧ nf ≤ g.clusters + 2 := by
        rcases hrange with h | h
        · exact ⟨h.1, Nat.le_of_lt h.2⟩
        · omega
      rw [hnf, show (nf + 2 ^ 32 - 2 + n) % 2 ^ 32 = nf - 2 + n by omega]
      exact Nat.mod_eq_of_lt (by rw [candidate] at hin; omega)
    have hc := candidate_range hpos nf n
    rw [List.range'_succ, List.map_cons, List.find?_cons, allocLoop]
    simp only [hcand]
    generalize candidate g nf n = c at hc ⊢
    have hleft : Left g s (fatGet g s c).1 (table g s) := fatGet_left hv.toLayout hr
    rw [fatGet_value hv.toLayout hr (hv.inFat_of hc), ← fatOf]
    by_cases h0 : fatOf g s c = 0
    · simp only [if_pos h0, decide_eq_true h0]
      by_cases hst : Straddles g c
      · left
        simp only [fatSet_ok, decide_eq_true hst, Bool.not_true, Bool.false_eq_true, if_false]
        refine ⟨trivial, ?_, fun d hd => Option.some.inj hd ▸ hst⟩
        rw [fatSet_straddles hst]
        have hload := hleft.ready.load hv.toLayout (sectorOf g c)
        rw [hleft.table] at hload
        exact hleft.trans hload
      · right
        have hnorm : (c + 1) % 2 ^ 32 = c + 1 := Nat.mod_eq_of_lt (by have := hc.2; omega)
        simp only [fatSet_ok, decide_eq_false hst, Bool.not_false, if_true, hnorm]
        refine ⟨c, rfl, hst, rfl, ?_⟩
        have hset := fatSet_left hv.toLayout hleft.ready (hv.inFat_of hc) hst g.eoc
        refine Taken.of_left hleft ?_
        exact taken_of_set (m := { (fatSet g (fatGet g s c).1 c g.eoc).1 with nextFree := c + 1 }) hv hleft.ready
          hc hst rfl hset.batch hset.noZero rfl
    · simp only [if_neg h0, decide_eq_false h0]
      rcases ih (n := n + 1) (by omega) hleft.ready
        (hleft.nextFree.trans hnf) with ⟨h1, h2, h3⟩ | ⟨d, h1, h2, h3, h4⟩
      · rw [hleft.fatOf_same] at h3
        rw [hleft.table] at h2
        exact .inl ⟨h1, hleft.trans h2, h3⟩
      · rw [hleft.fatOf_same] at h1
        exact .inr ⟨d, h1, h2, h3, h4.of_left hleft⟩

theorem allocCluster_spec (hv : Volume g) (hr : Ready g s)
    (hrange : InRange g s.nextFree ∨ s.nextFree = g.clusters + 2) :
    ((allocCluster g s).2 = 0 ∧ Left g s (allocCluster g s).1 (table g s) ∧
        ∀ c, pick g (fatOf g s) s.nextFree = some c → Straddles g c) ∨
      ∃ c, pick g (fatOf g s) s.nextFree = some c ∧ ¬ Straddles g c ∧ (allocCluster g s).2 = c ∧
        Taken g s (allocCluster g s).1 c := by
  have h := allocLoop_cases hv (Nat.zero_add g.clusters) hr rfl hrange
  rwa [← List.range_eq_range'] at h

theorem allocCluster_cases (hv : Volume g) (hs : Steady g s) :
    (pick g (fatOf g s) s.nextFree = none ∧ (allocCluster g s).2 = 0 ∧
        Left g s (allocCluster g s).1 (table g s)) ∨
      ∃ c, pick g (fatOf g s) s.nextFree = some c ∧ (allocCluster g s).2 = c ∧
        Taken g s (allocCluster g s).1 c := by
  rcases allocCluster_spec hv hs.ready hs.nextFree with ⟨h1, h2, h3⟩ | ⟨c, hp, -, hc⟩
  · refine .inl ⟨?_, h1, h2⟩
    cases hp : pick g (fatOf g s) s.nextFree with
    | none => rfl
    | some c =>
      obtain ⟨hr, h0⟩ := pick_some hp
      exact absurd (h3 c hp) (hs.settled.not_straddles hr (next_eq_none_of_zero h0))
  · exact .inr ⟨c, hp, hc⟩

theorem Taken.settled (h : Taken g s s' c) (hs : Settled g (fatOf g s)) (h0 : fatOf g s c = 0) :
    Settled g (fatOf g s') := by
  intro x hx hst
  obtain ⟨d, hd⟩ := hs x hx hst
  have hne : x ≠ c := by
    rintro rfl
    rw [next_eq_none_of_zero h0] at hd
    cases hd
  refine ⟨d, ?_⟩
  rw [← hd, next, next, h.fat, Function.update_of_ne hne]

theorem Taken.steady (h : Taken g s s' c) (hs : Steady g s) (hc : InRange g c) (h0 : fatOf g s c = 0) :
    Steady g s' := by
  refine ⟨h.ready, h.settled hs.settled h0, ?_⟩
  rw [h.nextFree]
  by_cases hlast : c + 1 = g.clusters + 2
  · exact .inr hlast
  · obtain ⟨hc1, hc2⟩ := hc
    exact .inl ⟨by omega, by omega⟩

structure Longer (g : Geo) (s s' : State) (l ns : List Nat) : Prop where
  steady : Steady g s'
  chain : Chain g (fatOf g s') (l ++ ns)
  free : ∀ x ∈ ns, fatOf g s x = 0
  other : ∀ x, x ∉ ns → l.getLast? ≠ some x → fatOf g s' x = fatOf g s x

theorem Longer.trans {ns' : List Nat} (h : Longer g s s₁ l ns) (h' : Longer g s₁ s' (l ++ ns) ns') :
    Longer g s s' l (ns ++ ns') := by
  have hout : ∀ x ∈ ns', x ∉ l ++ ns :=
    fun x hx hm => (List.nodup_append.mp h'.chain.nodup).2.2 x hm x hx rfl
  refine ⟨h'.steady, List.append_assoc l ns ns' ▸ h'.chain, fun x hx => ?_, fun x hx hl => ?_⟩
  · rcases List.mem_append.mp hx with hx | hx
    · exact h.free x hx
    · have hx' := hout x hx
      rw [← h'.free x hx, h.other x (fun hm => hx' (List.mem_append_right l hm)) fun hl =>
        hx' (List.mem_append_left ns (List.mem_of_getLast? hl))]
  · rw [List.mem_append, not_or] at hx
    rw [h'.other x hx.2 fun hlast => ?_, h.other x hx.1 hl]
    cases ns with
    | nil => exact hl (by rwa [List.append_nil] at hlast)
    | cons y ys =>
      rw [List.getLast?_append_of_ne_nil _ (List.cons_ne_nil y ys)] at hlast
      exact hx.1 (List.mem_of_getLast? hlast)

theorem Longer.of_same (hs : Steady g s') (hfat : fatOf g s' = fatOf g s) (hc : Chain g (fatOf g s) l) :
    Longer g s s' l [] :=
  ⟨hs, by rwa [List.append_nil, hfat], fun _ hx => absurd hx List.not_mem_nil, fun x _ _ => congrFun hfat x⟩

structure Grown (g : Geo) (s s' : State) (l ns : List Nat) : Prop extends Longer g s s' l ns where
  zeroed : s.noZero = false → ∀ x ∈ ns, ∀ a, InCluster g x a → s'.io.dev a = fun _ => 0
  kept : ∀ a, Outside g a → s.noZero = true ∨ (∀ x ∈ ns, ¬ InCluster g x a) → s'.io.dev a = s.io.dev a
  batch : s'.batch = s.batch
  noZero : s'.noZero = s.noZero

theorem Grown.of_left (h : Left g s s' (table g s)) (hs : Steady g s) (hc : Chain g (fatOf g s) l) :
    Grown g s s' l [] where
  toLonger := .of_same (h.steady hs) h.fatOf_same hc
  zeroed _ _ hx := absurd hx List.not_mem_nil
  kept a ha _ := h.data a ha
  batch := h.batch
  noZero := h.noZero

theorem Grown.before (h : Left g s s₁ (table g s)) (h' : Grown g s₁ s' l ns) : Grown g s s' l ns where
  steady := h'.steady
  chain := h'.chain
  free x hx := by rw [← h.fatOf_same]; exact h'.free x hx
  other x hx hl := (h'.other x hx hl).trans (congrFun h.fatOf_same x)
  zeroed hz := h'.zeroed (h.noZero.trans hz)
  kept a ha hz := (h'.kept a ha (by rwa [h.noZero])).trans (h.data a ha)
  batch := h'.batch.trans h.batch
  noZero := h'.noZero.trans h.noZero

theorem Grown.trans (hv : Volume g) {ns' : List Nat} (h : Grown g s s₁ l ns) (h' : Grown g s₁ s' (l ++ ns) ns') :
    Grown g s s' l (ns ++ ns') := by
  have hchain := h'.chain
  refine ⟨h.toLonger.trans h'.toLonger, fun hz x hx a ha => ?_, fun a ha hz => ?_, h'.batch.trans h.batch,
    h'.noZero.trans h.noZero⟩
  · rcases List.mem_append.mp hx with hx | hx
    · have hxl : x ∈ l ++ ns := List.mem_append_right l hx
      have hrange := h.chain.range x hxl
      rw [h'.kept a (ha.outside hv hrange) (.inr fun y hy hya => ?_), h.zeroed hz x hx a ha]
      obtain rfl := InCluster.unique hv hrange (hchain.range y (List.mem_append_right _ hy)) ha hya
      exact (List.nodup_append.mp hchain.nodup).2.2 x hxl x hy rfl
    · exact h'.zeroed (h.noZero.trans hz) x hx a ha
  · rw [h'.kept a ha ?_, h.kept a ha ?_]
    · exact hz.imp id fun hn x hx => hn x (List.mem_append_left ns' hx)
    · rw [h.noZero]
      exact hz.imp id fun hn x hx => hn x (List.mem_append_right ns hx)

end

end Sic.Fs.Fat
