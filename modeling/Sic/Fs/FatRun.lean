import Sic.Fs.FatData

/-! Files of one volume, under lookups, writes and truncations in any order. -/

namespace Sic.Fs.Fat

variable {g : Geo} {s s' : State} {c : Nat} {l ns : List Nat}

theorem Steady.of_table (hs : Steady g s) (hr : Ready g s') (ht : table g s' = table g s)
    (hn : s'.nextFree = s.nextFree) : Steady g s' ∧ fatOf g s' = fatOf g s := by
  have hfat : fatOf g s' = fatOf g s := by
    funext x
    rw [fatOf, fatOf, ht]
  exact ⟨⟨hr, hfat ▸ hs.settled, hn ▸ hs.nextFree⟩, hfat⟩

theorem Steady.setNoZero (hs : Steady g s) (b : Bool) :
    Steady g { s with noZero := b } ∧ fatOf g { s with noZero := b } = fatOf g s :=
  ⟨⟨⟨hs.ready.mirrored, hs.ready.batched⟩, hs.settled, hs.nextFree⟩, rfl⟩

theorem Steady.batchBegin (hs : Steady g s) :
    Steady g (batchBegin s) ∧ fatOf g (batchBegin s) = fatOf g s :=
  ⟨⟨⟨hs.ready.mirrored, fun _ => rfl⟩, hs.settled, hs.nextFree⟩, rfl⟩

theorem Steady.batchEnd (hl : Layout g) (hs : Steady g s) :
    Steady g (batchEnd g s) ∧ fatOf g (batchEnd g s) = fatOf g s := by
  obtain ⟨hr, ht, -⟩ := batchEnd_left hl hs.ready
  exact hs.of_table hr ht rfl

theorem writeAt_nextFree (g : Geo) (s : State) (c p left : Nat) (data : Nat → U8) :
    (writeAt g s c p left data).nextFree = s.nextFree := by
  rw [writeAt]
  split <;> exact writeSectors_nextFree _ _ _ _

theorem Steady.writeAt (hv : Volume g) (hs : Steady g s) (hc : InRange g c) (p left : Nat) (data : Nat → U8) :
    Steady g (writeAt g s c p left data) ∧ fatOf g (Fat.writeAt g s c p left data) = fatOf g s := by
  obtain ⟨hr, ht⟩ := writeAt_ready hv hc hs.ready p left data
  exact hs.of_table hr ht (writeAt_nextFree g s c p left data)

theorem Steady.writeDirent (hl : Layout g) (hs : Steady g s) {n : Vnode} (hn : Outside g n.fn.direntSector) :
    Steady g (writeDirent s n) ∧ fatOf g (Fat.writeDirent s n) = fatOf g s := by
  rw [Fat.writeDirent]
  split
  · exact ⟨hs, rfl⟩
  have hout : ∀ a, n.fn.direntSector ≤ a → a < n.fn.direntSector + 1 → Outside g a := fun a h1 h2 => by
    rw [show a = n.fn.direntSector by omega]
    exact hn
  obtain ⟨hr, ht⟩ := writeSectors_left _ hl hs.ready hout
  exact hs.of_table hr ht (writeSectors_nextFree _ _ _ _)

theorem Longer.congr {s₀ s₁ : State} (h : Longer g s s₁ l ns) (h0 : fatOf g s₀ = fatOf g s) (hs : Steady g s')
    (h1 : fatOf g s' = fatOf g s₁) : Longer g s₀ s' l ns :=
  ⟨hs, h1 ▸ h.chain, h0 ▸ h.free, h1 ▸ h0 ▸ h.other⟩

structure FileOk (g : Geo) (s : State) (fn : Fnode) (l : List Nat) : Prop where
  chain : ChainOf g s fn.cluster l
  hint : HintOk fn l

theorem FileOk.congr {fn : Fnode} (h : FileOk g s fn l) (hfat : fatOf g s' = fatOf g s) : FileOk g s' fn l :=
  ⟨⟨hfat ▸ h.chain.toChain, h.chain.head⟩, h.hint⟩

theorem writeLoop_rule {pos : Nat} {buf : Bytes} {P : State → Fnode → Nat → Prop}
    (stop : ∀ s fn done, P s fn done → done < buf.length →
      P (writeLookup g pos buf s fn done).1 (writeLookup g pos buf s fn done).2.1 done)
    (step : ∀ s fn done c, P s fn done → done < buf.length → (writeLookup g pos buf s fn done).2.2 = c → c ≠ 0 →
      P (writeAt g (writeLookup g pos buf s fn done).1 c ((pos + done) % 2 ^ 64) (buf.length - done)
          fun j => buf.getD (done + j) 0)
        (writeLookup g pos buf s fn done).2.1 (done + moved g ((pos + done) % 2 ^ 64) (buf.length - done)))
    {fuel done : Nat} {fn : Fnode} (h : P s fn done) :
    P (writeLoop g pos buf fuel s fn done).1 (writeLoop g pos buf fuel s fn done).2.1
      (writeLoop g pos buf fuel s fn done).2.2 := by
  induction fuel generalizing s fn done with
  | zero => exact h
  | succ fuel ih =>
    rw [writeLoop]
    split
    next hd =>
      simp only
      split
      next h0 => exact stop s fn done h hd
      next h0 => exact ih (step s fn done _ h hd rfl h0)
    next hd => exact h

structure Looked (g : Geo) (s s' : State) (skip : Bool) (l ns : List Nat) : Prop extends Longer g s s' l ns where
  zeroed : skip = false → ∀ x ∈ ns, ∀ a, InCluster g x a → s'.io.dev a = fun _ => 0
  kept : ∀ a, Outside g a → skip = true ∨ (∀ x ∈ ns, ¬ InCluster g x a) → s'.io.dev a = s.io.dev a

theorem writeLookup_spec (hv : Volume g) {pos : Nat} {buf : Bytes} {fn : Fnode} {done : Nat} (hs : Steady g s)
    (hf : FileOk g s fn l) :
    let p := (pos + done) % 2 ^ 64
    let r := writeLookup g pos buf s fn done
    let ns := reach g s true (p / g.clusterSize % 2 ^ 32 + 1 - l.length)
    Looked g s r.1 (fills g p (buf.length - done)) l ns ∧ r.2.2 = (l ++ ns).getD (p / g.clusterSize % 2 ^ 32) 0 ∧
      FileOk g r.1 r.2.1 (l ++ ns) ∧ r.2.1.direntSector = fn.direntSector := by
  simp only [writeLookup]
  generalize (pos + done) % 2 ^ 64 = p
  generalize fills g p (buf.length - done) = b
  generalize p / g.clusterSize % 2 ^ 32 = idx
  obtain ⟨hs0, hfat⟩ := hs.setNoZero b
  have hf0 := hf.congr hfat
  have hfield := (chainAt_fields g { s with noZero := b } fn idx true).1
  have hreach : reach g { s with noZero := b } true (idx + 1 - l.length) = reach g s true (idx + 1 - l.length) :=
    rfl
  obtain ⟨hgrown, hres, hchain, hhint⟩ := @chainAt_spec g _ l hv true fn idx hs0 hf0.chain hf0.hint
  rw [hreach] at hgrown hres hchain hhint
  generalize chainAt g { s with noZero := b } fn idx true = r at *
  exact ⟨⟨⟨(hgrown.steady.setNoZero false).1, hgrown.chain, hgrown.free, hgrown.other⟩, hgrown.zeroed,
    hgrown.kept⟩, hres, ⟨⟨hchain.toChain, hchain.head⟩, hhint⟩, hfield⟩

theorem writeLoop_longer (hv : Volume g) {pos : Nat} {buf : Bytes} {fuel done : Nat} {fn : Fnode}
    (hs : Steady g s)
    (hf : FileOk g s fn l) :
    ∃ ns, Longer g s (writeLoop g pos buf fuel s fn done).1 l ns ∧
      FileOk g (writeLoop g pos buf fuel s fn done).1 (writeLoop g pos buf fuel s fn done).2.1 (l ++ ns) ∧
      (writeLoop g pos buf fuel s fn done).2.1.direntSector = fn.direntSector := by
  let P : State → Fnode → Nat → Prop := fun s' fn' _ =>
    ∃ ns, Longer g s s' l ns ∧ FileOk g s' fn' (l ++ ns) ∧ fn'.direntSector = fn.direntSector
  have hround : ∀ s' fn' done, P s' fn' done →
      P (writeLookup g pos buf s' fn' done).1 (writeLookup g pos buf s' fn' done).2.1 done := by
    rintro s' fn' done ⟨ns, hlonger, hf', hfield⟩
    obtain ⟨hlooked, -, hf₁, hfield'⟩ := @writeLookup_spec g s' _ hv pos buf fn' done hlonger.steady hf'
    refine ⟨_, hlonger.trans hlooked.toLonger, ?_, hfield'.trans hfield⟩
    rwa [← List.append_assoc]
  refine writeLoop_rule (P := P) (fun s' fn' done h _ => hround s' fn' done h) ?_
    ⟨[], .of_same hs rfl hf.chain.toChain, by rwa [List.append_nil], rfl⟩
  rintro s' fn' done c ⟨ns, hlonger, hf', hfield⟩ - hc hc0
  obtain ⟨hlooked, hres, hf₁, hfield'⟩ := @writeLookup_spec g s' _ hv pos buf fn' done hlonger.steady hf'
  rw [hc] at hres
  have hcr : InRange g c := hlooked.chain.range c (hres ▸ getD_mem (hres ▸ hc0))
  have hw := hlooked.steady.writeAt hv hcr ((pos + done) % 2 ^ 64) (buf.length - done) fun j =>
    buf.getD (done + j) 0
  refine ⟨_, (hlonger.trans hlooked.toLonger).congr rfl hw.1 hw.2, ?_, hfield'.trans hfield⟩
  rw [← List.append_assoc]
  exact hf₁.congr hw.2

structure Sys (ι : Type) where
  st : State
  file : ι → Vnode

inductive FileOp (ι : Type) where
  | lookup (i : ι) (idx : Nat) (alloc : Bool)
  | write (i : ι) (pos : Nat) (buf : Bytes)
  | truncate (i : ι)

variable {ι : Type}

structure Sound (g : Geo) (y : Sys ι) (chains : ι → List Nat) : Prop where
  steady : Steady g y.st
  file : ∀ i, FileOk g y.st (y.file i).fn (chains i)
  apart : ∀ i j, i ≠ j → ∀ x ∈ chains i, x ∉ chains j
  dirent : ∀ i, Outside g (y.file i).fn.direntSector

variable {y : Sys ι} {chains : ι → List Nat}

def walkOf (g : Geo) (y : Sys ι) (i : ι) (idx : Nat) : Nat :=
  (chainWalk g y.st (y.file i).fn.cluster idx false).2.1

theorem walkOf_eq (hv : Volume g) (h : Sound g y chains) (i : ι) (idx : Nat) :
    walkOf g y i idx = (chains i).getD idx 0 := by
  have hw := (@chainWalk_spec g _ _ hv false _ idx h.steady (h.file i).chain).2.1
  simpa only [walkOf, reach, List.append_nil, Bool.false_eq_true, if_false] using hw

variable [DecidableEq ι]

def fileStep (g : Geo) (y : Sys ι) : FileOp ι → Sys ι
  | .lookup i idx alloc =>
    let r := chainAt g y.st (y.file i).fn idx alloc
    { st := r.1, file := Function.update y.file i { y.file i with fn := r.2.1 } }
  | .write i pos buf =>
    let r := fatWrite g y.st (y.file i) pos buf
    { st := r.1, file := Function.update y.file i r.2.1 }
  | .truncate i =>
    match fatTruncate g g.clusters y.st (y.file i) 0 with
    | none => y
    | some r => { st := r.1, file := Function.update y.file i r.2.1 }

theorem Sound.longer (h : Sound g y chains) (i : ι) {n : Vnode} (hl : Longer g y.st s' (chains i) ns)
    (hf : FileOk g s' n.fn (chains i ++ ns)) (hd : n.fn.direntSector = (y.file i).fn.direntSector) :
    Sound g { st := s', file := Function.update y.file i n } (Function.update chains i (chains i ++ ns)) := by
  have hout : ∀ j, j ≠ i → ∀ x ∈ chains j, x ∉ chains i ++ ns := by
    intro j hj x hx hm
    rcases List.mem_append.mp hm with hm | hm
    · exact h.apart j i hj x hx hm
    · exact (h.file j).chain.used x hx (hl.free x hm)
  refine ⟨hl.steady, fun j => ?_, fun j k hjk x hx hx' => ?_, fun j => ?_⟩
  · by_cases hj : j = i
    · subst hj
      simpa only [Function.update_self] using hf
    · simp only [Function.update_of_ne hj]
      refine ⟨⟨(h.file j).chain.toChain.congr fun x hx => ?_, (h.file j).chain.head⟩, (h.file j).hint⟩
      have hx' := hout j hj x hx
      exact hl.other x (fun hm => hx' (List.mem_append_right _ hm)) fun hlast =>
        hx' (List.mem_append_left _ (List.mem_of_getLast? hlast))
  · by_cases hj : j = i
    · have hk : k ≠ i := fun hk => hjk (hj.trans hk.symm)
      rw [hj, Function.update_self] at hx
      rw [Function.update_of_ne hk] at hx'
      exact hout k hk x hx' hx
    · rw [Function.update_of_ne hj] at hx
      by_cases hk : k = i
      · rw [hk, Function.update_self] at hx'
        exact hout j hj x hx hx'
      · rw [Function.update_of_ne hk] at hx'
        exact h.apart j k hjk x hx hx'
  · by_cases hj : j = i
    · subst hj
      simp only [Function.update_self, hd]
      exact h.dirent j
    · simp only [Function.update_of_ne hj]
      exact h.dirent j

theorem lookup_sound (hv : Volume g) (h : Sound g y chains) (i : ι) (idx : Nat) (alloc : Bool) :
    Sound g (fileStep g y (.lookup i idx alloc))
      (Function.update chains i (chains i ++ reach g y.st alloc (idx + 1 - (chains i).length))) := by
  obtain ⟨hgrown, -, hchain, hhint⟩ :=
    @chainAt_spec g _ _ hv alloc _ idx h.steady (h.file i).chain (h.file i).hint
  exact h.longer i hgrown.toLonger ⟨hchain, hhint⟩ (chainAt_fields g _ _ idx alloc).1

theorem write_sound (hv : Volume g) (h : Sound g y chains) (i : ι) (pos : Nat) (buf : Bytes) :
    ∃ ns, Sound g (fileStep g y (.write i pos buf)) (Function.update chains i (chains i ++ ns)) := by
  have hbegin := h.steady.batchBegin
  obtain ⟨ns, hlonger, hf, hfield⟩ :=
    @writeLoop_longer g _ (chains i) hv pos buf buf.length 0 (y.file i).fn hbegin.1
    ((h.file i).congr hbegin.2)
  have hend := hlonger.steady.batchEnd hv.toLayout
  refine ⟨ns, ?_⟩
  simp only [fileStep, fatWrite]
  generalize writeLoop g pos buf buf.length (batchBegin y.st) (y.file i).fn 0 = r at *
  generalize hn : ({ y.file i with fn := r.2.1, size := _ } : Vnode) = n
  have hfn : n.fn = r.2.1 := by rw [← hn]
  have hdir : n.fn.direntSector = (y.file i).fn.direntSector := by rw [hfn, hfield]
  have hw := hend.1.writeDirent hv.toLayout (show Outside g n.fn.direntSector from hdir ▸ h.dirent i)
  refine h.longer i (hlonger.congr hbegin.2.symm hw.1 (hw.2.trans hend.2)) ?_ hdir
  rw [hfn]
  exact hf.congr (hw.2.trans hend.2)

theorem truncate_sound (hv : Volume g) (h : Sound g y chains) (i : ι) :
    (fatTruncate g g.clusters y.st (y.file i) 0).isSome = true ∧
      Sound g (fileStep g y (.truncate i)) (Function.update chains i []) := by
  obtain ⟨s₁, he, hfreed⟩ := freeChain_spec hv h.steady (h.file i).chain (h.file i).chain.length_le
  simp only [fileStep, fatTruncate, he, ne_eq, not_true_eq_false, if_false, Option.map_some, Option.isSome_some,
    true_and]
  generalize hn :
    ({ y.file i with fn := { (y.file i).fn with cluster := 0, hintCluster := 0 }, size := 0 } : Vnode) = n
  have hdir : n.fn.direntSector = (y.file i).fn.direntSector := by rw [← hn]
  have hw := hfreed.steady.writeDirent hv.toLayout (show Outside g n.fn.direntSector from hdir ▸ h.dirent i)
  refine ⟨hw.1, fun j => ?_, fun j k hjk x hx hx' => ?_, fun j => ?_⟩
  · by_cases hj : j = i
    · subst hj
      simp only [Function.update_self]
      refine ⟨⟨.nil _ _, ?_⟩, fun h0 => absurd ?_ h0⟩ <;> rw [← hn]
      rfl
    · simp only [Function.update_of_ne hj]
      refine ⟨⟨(h.file j).chain.toChain.congr fun x hx => ?_, (h.file j).chain.head⟩, (h.file j).hint⟩
      rw [hw.2, hfreed.other x (.inl fun hm => h.apart j i hj x hx hm)]
  · have hne : ∀ k, x ∈ Function.update chains i [] k → x ∈ chains k := by
      intro k hk
      by_cases hki : k = i
      · rw [hki, Function.update_self] at hk
        cases hk
      · rwa [Function.update_of_ne hki] at hk
    exact h.apart j k hjk x (hne j hx) (hne k hx')
  · by_cases hj : j = i
    · subst hj
      simp only [Function.update_self, hdir]
      exact h.dirent j
    · simp only [Function.update_of_ne hj]
      exact h.dirent j

theorem fileStep_sound (hv : Volume g) (h : Sound g y chains) (op : FileOp ι) :
    ∃ chains', Sound g (fileStep g y op) chains' ∧
      ∀ i, op ≠ .truncate i → chains i <+: chains' i := by
  have hgrow : ∀ i ns j, chains j <+: Function.update chains i (chains i ++ ns) j := by
    intro i ns j
    by_cases hj : j = i
    · subst hj
      rw [Function.update_self]
      exact List.prefix_append _ _
    · exact Eq.subst (motive := (chains j <+: ·)) (Function.update_of_ne hj _ _).symm List.prefix_rfl
  cases op with
  | lookup i idx alloc => exact ⟨_, lookup_sound hv h i idx alloc, fun j _ => hgrow i _ j⟩
  | write i pos buf =>
    obtain ⟨ns, hns⟩ := write_sound hv h i pos buf
    exact ⟨_, hns, fun j _ => hgrow i ns j⟩
  | truncate i =>
    refine ⟨_, (truncate_sound hv h i).2, fun j hj => ?_⟩
    have hne : j ≠ i := fun he => hj (by rw [he])
    exact Eq.subst (motive := (chains j <+: ·)) (Function.update_of_ne hne _ _).symm List.prefix_rfl

theorem run_sound (hv : Volume g) (h : Sound g y chains) (ops : List (FileOp ι)) :
    ∃ chains', Sound g (run (fileStep g) y ops) chains' ∧
      ∀ i, (∀ op ∈ ops, op ≠ .truncate i) → chains i <+: chains' i := by
  induction ops generalizing y chains with
  | nil => exact ⟨chains, h, fun _ _ => List.prefix_rfl⟩
  | cons op ops ih =>
    obtain ⟨c₁, h₁, hp₁⟩ := fileStep_sound hv h op
    obtain ⟨c₂, h₂, hp₂⟩ := ih h₁
    refine ⟨c₂, h₂, fun i hi => (hp₁ i (hi op List.mem_cons_self)).trans (hp₂ i fun o ho => ?_)⟩
    exact hi o (List.mem_cons_of_mem op ho)

/-- In every run the hint does not show, what was found is found again until the file is truncated, no
cluster is found in two files, and an allocation fails only on a full volume. -/
theorem fat_chains (hv : Volume g) (h : ∃ chains, Sound g y chains) (ops : List (FileOp ι)) :
    let y' := run (fileStep g) y ops
    (∀ i idx alloc, (chainAt g y'.st (y'.file i).fn idx alloc).2.2 =
        (chainWalk g y'.st (y'.file i).fn.cluster idx alloc).2.1) ∧
      (∀ i idx alloc c, (chainAt g y'.st (y'.file i).fn idx alloc).2.2 = c → c ≠ 0 →
        walkOf g (fileStep g y' (.lookup i idx alloc)) i idx = c) ∧
      (∀ i idx c, walkOf g y' i idx = c → c ≠ 0 → ∀ ops', (∀ op ∈ ops', op ≠ .truncate i) →
        walkOf g (run (fileStep g) y' ops') i idx = c) ∧
      (∀ i j idx idx', i ≠ j → walkOf g y' i idx ≠ 0 → walkOf g y' i idx ≠ walkOf g y' j idx') ∧
      ((allocCluster g y'.st).2 = 0 → ∀ c, InRange g c → (fatGet g y'.st c).2 ≠ 0) ∧
      ∀ i, (fatTruncate g g.clusters y'.st (y'.file i) 0).isSome = true := by
  obtain ⟨chains₀, h₀⟩ := h
  obtain ⟨chains, h, -⟩ := run_sound hv h₀ ops
  generalize run (fileStep g) y ops = y' at *
  have hat := fun i idx alloc =>
    (@chainAt_spec g _ _ hv alloc _ idx h.steady (h.file i).chain (h.file i).hint).2.1
  refine ⟨fun i idx alloc => ?_, fun i idx alloc c hc hc0 => ?_, fun i idx c hc hc0 ops' hops => ?_,
    fun i j idx idx' hij h0 he => ?_, fun h0 c hc => ?_, fun i => (truncate_sound hv h i).1⟩
  · rw [hat, (@chainWalk_spec g _ _ hv alloc _ idx h.steady (h.file i).chain).2.1]
  · rw [walkOf_eq hv (lookup_sound hv h i idx alloc), Function.update_self, ← hat, hc]
  · obtain ⟨chains', h', hp⟩ := run_sound hv h ops'
    obtain ⟨rest, hrest⟩ := hp i hops
    rw [walkOf_eq hv h] at hc
    rw [walkOf_eq hv h', ← hrest, List.getD_append _ _ _ _ ?_, hc]
    by_contra hge
    rw [List.getD_eq_default _ _ (by omega)] at hc
    exact hc0 hc.symm
  · rw [walkOf_eq hv h] at h0 he
    rw [walkOf_eq hv h] at he
    have hi := getD_mem h0
    rw [he] at h0 hi
    exact h.apart i j hij _ hi (getD_mem h0)
  · rcases allocCluster_cases hv h.steady with ⟨hp, -, -⟩ | ⟨d, hp, hres, -⟩
    · rw [h.steady.get_value hv hc]
      exact pick_none hp hc
    · have := (pick_some hp).1.1
      omega

def wideGeo : Geo where
  kind := .fat16
  sectorSize := 512
  sectorsPerCluster := 2
  fatStart := 1
  fatSectors := 1
  fats := 2
  rootStart := 3
  rootSectors := 1
  rootCluster := 0
  dataStart := 4
  clusters := 20

theorem wideGeo_volume : Volume wideGeo where
  fatStart_pos := by decide
  fats_pos := by decide
  sectorSize_pos := by decide
  aligned := by decide
  room := by decide
  inFat c h1 h2 := by
    simp only [wideGeo] at h2
    exact ⟨by simp only [wideGeo, entryOff, width]; omega, by simp only [wideGeo, entryOff]; omega⟩
  clusters_le := by decide
  spc_pos := by decide
  clusterSize_lt := by decide
  data_above := by decide
  data_room := by decide

def emptyFile : Vnode where
  fn := { cluster := 0, direntSector := 3, direntOff := 0, fixedRoot := false, hintIdx := 0, hintCluster := 0 }
  size := 0
  dir := false

theorem wide_sound : Sound wideGeo ({ st := blank, file := fun _ => emptyFile } : Sys Bool) fun _ => [] where
  steady := ⟨blank_ready _ (by decide), fun c _ h => absurd h.1 (by decide), .inl ⟨by decide, by decide⟩⟩
  file _ := ⟨⟨.nil _ _, rfl⟩, fun h => absurd rfl h⟩
  apart _ _ _ _ hx := absurd hx List.not_mem_nil
  dirent _ := wideGeo_volume.toLayout.outside_of_le
    (show wideGeo.fatStart + wideGeo.fats * wideGeo.fatSectors ≤ 3 by decide)

theorem fat_chains_two_files :
    let y := run (fileStep wideGeo) ({ st := blank, file := fun _ => emptyFile } : Sys Bool)
      [.write true 0 [1, 2, 3], .lookup false 3 true, .write true 3000 [4], .truncate false]
    ∀ i j idx idx', i ≠ j → walkOf wideGeo y i idx ≠ 0 → walkOf wideGeo y i idx ≠ walkOf wideGeo y j idx' :=
  (fat_chains wideGeo_volume ⟨_, wide_sound⟩ _).2.2.2.1

def halfFull : State :=
  { blank with io := { blank.io with dev := fun sector j =>
      if sector = 1 ∨ sector = 3 then if j < 511 then 0xFF else 0x0F else 0 } }

/-- An allocation fails with free entries behind the one that cannot be set. -/
theorem alloc_stuck :
    (chainAt smallGeo halfFull emptyFile.fn 0 true).2.2 = 0 ∧ (fatGet smallGeo halfFull 342).2 = 0 ∧
      InRange smallGeo 342 := by
  refine ⟨?_, ?_, ?_⟩
  · decide +kernel
  · decide +kernel
  · exact ⟨by decide, by decide⟩

end Sic.Fs.Fat
