import Mathlib.Data.List.GetD
import Sic.Fs.FatChain

/-! Walking a chain and freeing one. Looking up with a hint, with or without allocation, is looking up in
the list, made longer by free clusters if need be. -/

namespace Sic.Fs.Fat

open Threaded (Seg)

section

variable {g : Geo} {s s' s₁ : State} {c : Nat} {F F' : Nat → Nat} {l ns : List Nat}

theorem Chain.nil (g : Geo) (F : Nat → Nat) : Chain g F [] :=
  ⟨rfl, fun _ hx => absurd hx List.not_mem_nil, fun _ hx => absurd hx List.not_mem_nil, List.nodup_nil⟩

theorem next_end (h : F c = 0x0FFFFFFF) : next F c = none := by
  rw [next, if_pos (by rw [h]; exact .inl (by decide))]

theorem grown_first (h : Taken g s s' c) (hs : Steady g s) (hc : InRange g c) (h0 : fatOf g s c = 0) :
    Grown g s s' [] [c] where
  steady := h.steady hs hc h0
  chain := by
    have hself : fatOf g s' c = 0x0FFFFFFF := by rw [h.fat, Function.update_self]
    refine ⟨⟨rfl, next_end hself⟩, fun x hx => ?_, fun x hx => ?_, List.nodup_singleton c⟩
    · rw [List.mem_singleton.mp hx, hself]
      decide
    · exact List.mem_singleton.mp hx ▸ hc
  free x hx := List.mem_singleton.mp hx ▸ h0
  other x hx _ := by rw [h.fat, Function.update_of_ne (fun he => hx (List.mem_singleton.mpr he))]
  zeroed hz x hx a ha := h.zeroed hz a (List.mem_singleton.mp hx ▸ ha)
  kept a ha hz := h.kept a ha (hz.imp id fun hn => hn c (List.mem_singleton_self c))
  batch := h.batch
  noZero := h.noZero

theorem Chain.congr (h : Chain g F l) (he : ∀ x ∈ l, F' x = F x) : Chain g F' l :=
  ⟨h.seg.congr fun x hx => by rw [next, next, he x hx], fun x hx => he x hx ▸ h.used x hx, h.range, h.nodup⟩

theorem Chain.concat {x : Nat} (h : Chain g F (l ++ [x])) (hc : InRange g c) (hout : c ∉ l ++ [x])
    (hF : F' = Function.update (Function.update F c 0x0FFFFFFF) x c) (hend : c < 0x0FFFFFF8) :
    Chain g F' (l ++ [x] ++ [c]) := by
  have hxc : c ≠ x := fun he => hout (by simp [he])
  have hx : F' x = c := by rw [hF, Function.update_self]
  have hc' : F' c = 0x0FFFFFFF := by rw [hF, Function.update_of_ne hxc, Function.update_self]
  have hother : ∀ y ∈ l, F' y = F y := fun y hy => by
    have hyx : y ≠ x := by
      rintro rfl
      exact (List.nodup_append.mp h.nodup).2.2 y hy y (List.mem_singleton_self y) rfl
    have hyc : y ≠ c := fun he => hout (List.mem_append_left _ (he ▸ hy))
    rw [hF, Function.update_of_ne hyx, Function.update_of_ne hyc]
  refine ⟨?_, fun y hy => ?_, fun y hy => ?_, ?_⟩
  · obtain ⟨m, hl, hm, -⟩ := Seg.append.mp h.seg
    rw [List.append_assoc]
    refine Seg.append.mpr ⟨some x, ?_, rfl, ?_, next_end hc'⟩
    · rw [← hm]
      have hhead : (l ++ ([x] ++ [c])).head? = (l ++ [x]).head? := by cases l <;> rfl
      rw [hhead]
      exact hl.congr fun y hy => by rw [next, next, hother y hy]
    · obtain ⟨hc1, -⟩ := hc
      rw [next, hx, if_neg (by rw [isEoc]; omega)]
  · rcases List.mem_append.mp hy with hy | hy
    · rcases List.mem_append.mp hy with hy | hy
      · rw [hother y hy]
        exact h.used y (List.mem_append_left _ hy)
      · rw [List.mem_singleton.mp hy, hx]
        have := hc.1
        omega
    · rw [List.mem_singleton.mp hy, hc']
      decide
  · rcases List.mem_append.mp hy with hy | hy
    · exact h.range y hy
    · exact List.mem_singleton.mp hy ▸ hc
  · refine List.nodup_append.mpr ⟨h.nodup, List.nodup_singleton c, fun y hy z hz => ?_⟩
    rintro rfl
    exact hout (List.mem_singleton.mp hz ▸ hy)

theorem grown_last (hv : Volume g) {x : Nat} (h : Taken g s s₁ c) (hs : Steady g s) (hc : InRange g c)
    (h0 : fatOf g s c = 0) (hl : Chain g (fatOf g s) (l ++ [x])) :
    Grown g s (fatSet g s₁ x c).1 (l ++ [x]) [c] := by
  have hxmem : x ∈ l ++ [x] := List.mem_append_right l (List.mem_singleton_self x)
  have hxr := hl.range x hxmem
  have hout : c ∉ l ++ [x] := fun hm => hl.used c hm h0
  have hxc : x ≠ c := fun he => hout (he ▸ hxmem)
  have hsteady := h.steady hs hc h0
  have hnext : next (fatOf g s) x = none := by
    obtain ⟨m, -, -, he⟩ := Seg.append.mp hl.seg
    exact he
  have hn : ¬ Straddles g x := hs.settled.not_straddles hxr hnext
  have hset := fatSet_left hv.toLayout hsteady.ready (hv.inFat_of hxr) hn c
  have hfat : fatOf g (fatSet g s₁ x c).1 = Function.update (Function.update (fatOf g s) c 0x0FFFFFFF) x c := by
    rw [fatSet_fatOf hv hsteady.ready hxr hn, hv.norm_eq hc, h.fat]
  have hlt := hv.clusters_lt
  have hc2 := hc.2
  refine ⟨⟨⟨hset.ready, fun y hy hst => ?_, hset.nextFree ▸ hsteady.nextFree⟩, hl.concat hc hout hfat (by omega),
      fun y hy => List.mem_singleton.mp hy ▸ h0, fun y hy hlast => ?_⟩, fun hz y hy a ha => ?_, fun a ha hz => ?_,
    hset.batch.trans h.batch, hset.noZero.trans h.noZero⟩
  · have hyx : y ≠ x := fun he => hn (he ▸ hst)
    obtain ⟨d, hd⟩ := hsteady.settled y hy hst
    refine ⟨d, ?_⟩
    rw [← hd, next, next, hfat, Function.update_of_ne hyx, h.fat]
  · have hyx : y ≠ x := fun he => hlast (by rw [he, List.getLast?_concat])
    rw [hfat, Function.update_of_ne hyx, Function.update_of_ne fun he => hy (List.mem_singleton.mpr he)]
  · rw [List.mem_singleton.mp hy] at ha
    rw [hset.data a (ha.outside hv hc), h.zeroed hz a ha]
  · rw [hset.data a ha, h.kept a ha (hz.imp id fun hn => hn c (List.mem_singleton_self c))]

def reach (g : Geo) (s : State) (alloc : Bool) (k : Nat) : List Nat :=
  if alloc then fresh g k (fatOf g s) s.nextFree else []

theorem reach_zero (g : Geo) (s : State) (alloc : Bool) : reach g s alloc 0 = [] := by
  cases alloc <;> rfl

theorem Left.reach (h : Left g s s' (Fat.table g s)) (alloc : Bool) (k : Nat) :
    reach g s' alloc k = reach g s alloc k := by
  rw [Fat.reach, Fat.reach, h.fatOf_same, h.nextFree]

theorem Left.refl (hr : Ready g s) : Left g s s (Fat.table g s) := ⟨hr, rfl, fun _ _ => rfl, rfl, rfl, rfl⟩

theorem next_eq_some {y : Nat} (h : next F c = some y) : F c = y ∧ ¬ (isEoc (F c) ∨ F c < 2) := by
  rw [next] at h
  split at h
  · cases h
  · exact ⟨Option.some.inj h, ‹_›⟩

theorem next_eq_none (h : next F c = none) : isEoc (F c) ∨ F c < 2 := by
  by_contra hn
  rw [next, if_neg hn] at h
  cases h

theorem fatSet_nextFree (s : State) (c value : Nat) : (fatSet g s c value).1.nextFree = s.nextFree := by
  rw [fatSet]
  split
  · rfl
  · simp only
    split <;> rfl

theorem reach_succ (k : Nat) (h : Taken g s s₁ c) (hp : pick g (fatOf g s) s.nextFree = some c)
    (hl : Chain g (fatOf g s) l) (hgrown : Grown g s s' l [c]) (hnf : s'.nextFree = s₁.nextFree) :
    reach g s true (k + 1) = c :: reach g s' true k := by
  have hzero : ∀ x, InRange g x → (fatOf g s₁ x = 0 ↔ fatOf g s' x = 0) := by
    intro x _
    rw [h.fat]
    by_cases hxc : x = c
    · subst hxc
      rw [Function.update_self]
      exact iff_of_false (by decide) (hgrown.chain.used x (List.mem_append_right l (List.mem_singleton_self x)))
    · rw [Function.update_of_ne hxc]
      by_cases hx : l.getLast? = some x
      · have hm := List.mem_of_getLast? hx
        exact iff_of_false (hl.used x hm) (hgrown.chain.used x (List.mem_append_left _ hm))
      · rw [hgrown.other x (fun hm => hxc (List.mem_singleton.mp hm)) hx]
  simp only [reach, if_true, fresh, hp]
  rw [hnf, h.nextFree, ← h.fat]
  exact congrArg (c :: ·) (fresh_congr k hzero _)

theorem walkLoop_spec (hv : Volume g) (alloc : Bool) {i : Nat} {pre rest : List Nat} (hs : Steady g s)
    (hl : Chain g (fatOf g s) (pre ++ c :: rest)) :
    Grown g s (walkLoop g alloc i s c).1 (pre ++ c :: rest) (reach g s alloc (i - rest.length)) ∧
      (walkLoop g alloc i s c).2 = (c :: rest ++ reach g s alloc (i - rest.length)).getD i 0 := by
  induction i generalizing s c pre rest with
  | zero =>
    rw [Nat.zero_sub, reach_zero]
    exact ⟨.of_left (.refl hs.ready) hs hl, rfl⟩
  | succ i ih =>
    have hcr : InRange g c := hl.range c (by simp)
    have hget := hs.get hv c
    have hsteady := hget.steady hs
    obtain ⟨m, -, -, hrest⟩ := Seg.append.mp hl.seg
    rw [walkLoop]
    simp only [hs.get_value hv hcr]
    cases rest with
    | cons y r =>
      obtain ⟨hy, hn⟩ := next_eq_some hrest.1
      rw [if_neg hn, hy, List.length_cons, Nat.add_sub_add_right, ← hget.reach]
      have hl' : Chain g (fatOf g (fatGet g s c).1) ((pre ++ [c]) ++ y :: r) := by
        rw [hget.fatOf_same, List.append_assoc]
        exact hl
      obtain ⟨hgrown, hres⟩ := ih hsteady hl'
      rw [List.append_assoc] at hgrown
      exact ⟨hgrown.before hget, hres⟩
    | nil =>
      rw [if_pos (next_eq_none hrest)]
      cases alloc with
      | false => exact ⟨.of_left hget hs hl, rfl⟩
      | true =>
        have hlast : Chain g (fatOf g (fatGet g s c).1) (pre ++ [c]) := by rwa [hget.fatOf_same]
        rw [List.length_nil, Nat.sub_zero, ← hget.reach]
        rcases allocCluster_cases hv hsteady with ⟨hp, hres, hleft⟩ | ⟨d, hp, hres, htaken⟩
        · have hnil : reach g (fatGet g s c).1 true (i + 1) = [] := by simp only [reach, if_true, fresh, hp]
          rw [hget.table] at hleft
          simp only [hres, if_true, hnil]
          exact ⟨.of_left (hget.trans hleft) hs hl, rfl⟩
        · obtain ⟨hdr, hd0⟩ := pick_some hp
          have hdne : d ≠ 0 := by have := hdr.1; omega
          simp only [hres, if_true, if_neg hdne]
          have hone := grown_last hv htaken hsteady hdr hd0 hlast
          obtain ⟨hgrown, hres'⟩ := @ih _ d (pre ++ [c]) [] hone.steady hone.chain
          rw [reach_succ i htaken hp hlast hone (fatSet_nextFree _ _ _)]
          exact ⟨(hone.trans hv hgrown).before hget, hres'⟩

structure ChainOf (g : Geo) (s : State) (first : Nat) (l : List Nat) : Prop extends Chain g (fatOf g s) l where
  head : first = l.headD 0

theorem chainWalk_spec (hv : Volume g) (alloc : Bool) {first idx : Nat} (hs : Steady g s)
    (hl : ChainOf g s first l) :
    let r := chainWalk g s first idx alloc
    let ns := reach g s alloc (idx + 1 - l.length)
    Grown g s r.1 l ns ∧ r.2.1 = (l ++ ns).getD idx 0 ∧ r.2.2 = (l ++ ns).headD 0 := by
  have hhead := hl.head
  cases l with
  | cons c rest =>
    have hc : c ≠ 0 := by have := (hl.range c List.mem_cons_self).1; omega
    obtain ⟨hgrown, hres⟩ := @walkLoop_spec g s c hv alloc idx [] rest hs hl.toChain
    rw [List.headD_cons] at hhead
    simp only [chainWalk, hhead, if_neg hc, List.length_cons, Nat.add_sub_add_right]
    exact ⟨hgrown, hres, rfl⟩
  | nil =>
    rw [List.headD_nil] at hhead
    simp only [chainWalk, hhead, if_true, List.length_nil, Nat.sub_zero]
    cases alloc with
    | false => exact ⟨.of_left (.refl hs.ready) hs hl.toChain, rfl, rfl⟩
    | true =>
      rcases allocCluster_cases hv hs with ⟨hp, hres, hleft⟩ | ⟨d, hp, hres, htaken⟩
      · have hnil : reach g s true (idx + 1) = [] := by simp only [reach, if_true, fresh, hp]
        simp only [if_true, hres, hnil]
        exact ⟨.of_left hleft hs hl.toChain, rfl, rfl⟩
      · obtain ⟨hdr, hd0⟩ := pick_some hp
        have hd : d ≠ 0 := by have := hdr.1; omega
        have hone := grown_first htaken hs hdr hd0
        obtain ⟨hgrown, hres'⟩ := @walkLoop_spec g _ d hv true idx [] [] hone.steady hone.chain
        simp only [if_true, hres, if_neg hd, reach_succ idx htaken hp hl.toChain hone rfl]
        exact ⟨hone.trans hv hgrown, hres', rfl⟩

def HintOk (fn : Fnode) (l : List Nat) : Prop := fn.hintCluster ≠ 0 → l[fn.hintIdx]? = some fn.hintCluster

theorem chainWalk_hint (hv : Volume g) (alloc : Bool) {h i idx : Nat} (hs : Steady g s)
    (hl : Chain g (fatOf g s) l) (hh : l[i]? = some h) (hi : i ≤ idx) :
    let r := chainWalk g s h (idx - i) alloc
    let ns := reach g s alloc (idx + 1 - l.length)
    Grown g s r.1 l ns ∧ r.2.1 = (l ++ ns).getD idx 0 := by
  obtain ⟨hlt, hget⟩ := List.getElem?_eq_some_iff.mp hh
  have hsplit : l = l.take i ++ h :: l.drop (i + 1) := by
    rw [← hget, List.getElem_cons_drop, List.take_append_drop]
  have hne : h ≠ 0 := by have := (hl.range h (List.mem_of_getElem? hh)).1; omega
  have hpre : (l.take i).length = i := by rw [List.length_take]; omega
  have hrest : (l.drop (i + 1)).length = l.length - (i + 1) := List.length_drop
  generalize l.take i = pre at *
  generalize l.drop (i + 1) = rest at *
  rw [hsplit] at hl
  obtain ⟨hgrown, hres⟩ := @walkLoop_spec g s h hv alloc (idx - i) pre rest hs hl
  rw [show idx - i - rest.length = idx + 1 - l.length by omega] at hgrown hres
  simp only [chainWalk, if_neg hne]
  rw [← hsplit] at hgrown
  refine ⟨hgrown, ?_⟩
  rw [hres]
  nth_rewrite 2 [hsplit]
  have happ := fun ns => List.getD_append_right pre (h :: rest ++ ns) 0 idx (by omega)
  rw [List.append_assoc, happ, hpre]

theorem chainAt_spec (hv : Volume g) (alloc : Bool) {fn : Fnode} {idx : Nat} (hs : Steady g s)
    (hl : ChainOf g s fn.cluster l) (hh : HintOk fn l) :
    let r := chainAt g s fn idx alloc
    let ns := reach g s alloc (idx + 1 - l.length)
    Grown g s r.1 l ns ∧ r.2.2 = (l ++ ns).getD idx 0 ∧ ChainOf g r.1 r.2.1.cluster (l ++ ns) ∧
      HintOk r.2.1 (l ++ ns) := by
  generalize hns : reach g s alloc (idx + 1 - l.length) = ns
  -- both ways of walking give the same cluster
  have hwalk : ∃ s' c first, (if fn.hintCluster ≠ 0 ∧ fn.cluster ≠ 0 ∧ fn.hintIdx ≤ idx then
        ((chainWalk g s fn.hintCluster (idx - fn.hintIdx) alloc).1,
          (chainWalk g s fn.hintCluster (idx - fn.hintIdx) alloc).2.1, fn.cluster)
      else chainWalk g s fn.cluster idx alloc) = (s', c, first) ∧
      Grown g s s' l ns ∧ c = (l ++ ns).getD idx 0 ∧ first = (l ++ ns).headD 0 := by
    split
    next h =>
      obtain ⟨hgrown, hres⟩ := chainWalk_hint hv alloc hs hl.toChain (hh h.1) h.2.2
      rw [hns] at hgrown hres
      refine ⟨_, _, _, rfl, hgrown, hres, ?_⟩
      have hhead := hl.head
      cases l with
      | nil => exact absurd hhead h.2.1
      | cons x r => exact hhead
    next h =>
      have hspec := @chainWalk_spec g s l hv alloc _ idx hs hl
      rw [hns] at hspec
      exact ⟨_, _, _, rfl, hspec⟩
  obtain ⟨s', c, first, he, hgrown, hres, hfirst⟩ := hwalk
  have hr : chainAt g s fn idx alloc =
      (s', if c ≠ 0 then { fn with cluster := first, hintIdx := idx, hintCluster := c }
        else { fn with cluster := first }, c) := by
    simp only [chainAt]
    rw [he]
  simp only [hr]
  refine ⟨hgrown, hres, ⟨hgrown.chain, ?_⟩, ?_⟩
  · split <;> exact hfirst
  split
  next hc =>
    intro _
    show (l ++ ns)[idx]? = some c
    rw [hres, List.getD_eq_getElem?_getD] at hc ⊢
    cases hi : (l ++ ns)[idx]? with
    | none => rw [hi] at hc; exact absurd rfl hc
    | some x => rfl
  next hc =>
    intro h0
    have hold := hh h0
    rw [← hold]
    exact List.getElem?_append_left (List.getElem?_eq_some_iff.mp hold).1

structure Freed (g : Geo) (s s' : State) (l : List Nat) : Prop where
  steady : Steady g s'
  inside : ∀ x ∈ l, ¬ Straddles g x → fatOf g s' x = 0
  other : ∀ x, x ∉ l ∨ Straddles g x → fatOf g s' x = fatOf g s x
  data : ∀ a, Outside g a → s'.io.dev a = s.io.dev a
  batch : s'.batch = s.batch
  noZero : s'.noZero = s.noZero

theorem Freed.setNextFree (h : Freed g s s' l) (hc : InRange g c) : Freed g s { s' with nextFree := c } l := by
  have hfat : fatOf g { s' with nextFree := c } = fatOf g s' := rfl
  exact ⟨⟨⟨h.steady.ready.mirrored, h.steady.ready.batched⟩, hfat ▸ h.steady.settled, .inl hc⟩, hfat ▸ h.inside,
    hfat ▸ h.other, h.data, h.batch, h.noZero⟩

theorem freeRound_spec (hv : Volume g) (hs : Steady g s) (hc : InRange g c) :
    Freed g s
      (let s₂ := (fatSet g (fatGet g s c).1 c 0).1
      if c < s₂.nextFree then { s₂ with nextFree := c } else s₂) [c] := by
  have hget := hs.get hv c
  have hsteady := hget.steady hs
  have hput := fatSet_put hv.toLayout hsteady.ready (hv.inFat_of hc) 0
  have hfat : ∀ x, fatOf g (fatSet g (fatGet g s c).1 c 0).1 x =
      if x = c ∧ ¬ Straddles g c then 0 else fatOf g s x := fun x => by
    rw [hput.fatOf, entry_put, norm_zero, ← hget.fatOf_same]
    rfl
  have hnf : InRange g (fatSet g (fatGet g s c).1 c 0).1.nextFree ∨
      (fatSet g (fatGet g s c).1 c 0).1.nextFree = g.clusters + 2 := hput.nextFree ▸ hsteady.nextFree
  have hsettled : Settled g (fatOf g (fatSet g (fatGet g s c).1 c 0).1) := by
    intro x hx hst
    obtain ⟨d, hd⟩ := hs.settled x hx hst
    have hkeep : ¬ (x = c ∧ ¬ Straddles g c) := fun h => h.2 (h.1 ▸ hst)
    refine ⟨d, ?_⟩
    rw [← hd, next, next, hfat, if_neg hkeep]
  have hfreed : Freed g s (fatSet g (fatGet g s c).1 c 0).1 [c] := by
    refine ⟨⟨hput.ready, hsettled, hnf⟩, fun x hx hn => ?_, fun x hx => ?_,
      fun a ha => (hput.data a ha).trans (hget.data a ha), hput.batch.trans hget.batch,
      hput.noZero.trans hget.noZero⟩
    · rw [List.mem_singleton.mp hx] at hn ⊢
      rw [hfat, if_pos ⟨rfl, hn⟩]
    rw [hfat, if_neg]
    rintro ⟨rfl, hn⟩
    rcases hx with hx | hx
    · exact hx (List.mem_singleton_self x)
    · exact hn hx
  simp only
  split
  · exact hfreed.setNextFree hc
  · exact hfreed

theorem Freed.trans {l' : List Nat} (h : Freed g s s₁ l) (h' : Freed g s₁ s' l') : Freed g s s' (l ++ l') where
  steady := h'.steady
  inside x hx hn := by
    by_cases hx' : x ∈ l'
    · exact h'.inside x hx' hn
    · have hxl : x ∈ l := (List.mem_append.mp hx).resolve_right hx'
      rw [h'.other x (.inl hx'), h.inside x hxl hn]
  other x hx := by
    rw [List.mem_append, not_or] at hx
    rw [h'.other x (hx.imp And.right id), h.other x (hx.imp And.left id)]
  data a ha := (h'.data a ha).trans (h.data a ha)
  batch := h'.batch.trans h.batch
  noZero := h'.noZero.trans h.noZero

def start (c : Nat) : Option Nat := if isEoc c ∨ c < 2 then none else some c

theorem freeChain_seg (hv : Volume g) {fuel : Nat} (hs : Steady g s)
    (hl : Seg (next (fatOf g s)) (start c) l none) (hrange : ∀ x ∈ l, InRange g x) (hnodup : l.Nodup)
    (hf : l.length ≤ fuel) : ∃ s', freeChain g fuel s c = some s' ∧ Freed g s s' l := by
  induction l generalizing s c fuel with
  | nil =>
    have hend : ¬ (2 ≤ c ∧ ¬ isEoc c) := by
      have hn : start c = none := hl
      intro h
      rw [start, if_neg (by have := h.1; exact fun ho => ho.elim h.2 (by omega))] at hn
      cases hn
    refine ⟨s, by cases fuel <;> exact if_neg hend, hs, ?_, fun _ _ => rfl, fun _ _ => rfl, rfl, rfl⟩
    intro x hx
    cases hx
  | cons x r ih =>
    obtain ⟨fuel, rfl⟩ : ∃ f, fuel = f + 1 := ⟨fuel - 1, by rw [List.length_cons] at hf; omega⟩
    obtain ⟨hx, hr⟩ := hl
    have hcx : c = x ∧ 2 ≤ c ∧ ¬ isEoc c := by
      rw [start] at hx
      split at hx
      · cases hx
      rename_i hn
      rw [not_or] at hn
      exact ⟨Option.some.inj hx, by omega, hn.1⟩
    obtain ⟨rfl, hin⟩ := hcx
    have hcr := hrange c List.mem_cons_self
    have hround := freeRound_spec hv hs hcr
    rw [freeChain]
    simp only [if_pos hin, hs.get_value hv hcr]
    simp only at hround
    obtain ⟨hout, hnodup'⟩ := List.nodup_cons.mp hnodup
    have hrest : Seg (next (fatOf g (if c < (fatSet g (fatGet g s c).1 c 0).1.nextFree then
        { (fatSet g (fatGet g s c).1 c 0).1 with nextFree := c } else (fatSet g (fatGet g s c).1 c 0).1)))
        (start (fatOf g s c)) r none := by
      refine Seg.congr hr fun y hy => ?_
      rw [next, next, hround.other y (.inl fun hm => hout (List.mem_singleton.mp hm ▸ hy))]
    have hf' : r.length ≤ fuel := Nat.le_of_succ_le_succ hf
    obtain ⟨s', he, hfreed⟩ := ih hround.steady hrest
      (fun y hy => hrange y (List.mem_cons_of_mem c hy)) hnodup' hf'
    exact ⟨s', he, hround.trans hfreed⟩

theorem freeChain_spec (hv : Volume g) {fuel first : Nat} (hs : Steady g s) (hl : ChainOf g s first l)
    (hf : l.length ≤ fuel) : ∃ s', freeChain g fuel s first = some s' ∧ Freed g s s' l := by
  refine freeChain_seg hv hs ?_ hl.range hl.nodup hf
  have hseg := hl.seg
  rw [hl.head]
  cases l with
  | nil => exact hseg
  | cons x r =>
    have hx := hl.range x List.mem_cons_self
    have hlt := hv.clusters_lt
    obtain ⟨h1, h2⟩ := hx
    rwa [List.headD_cons, start, if_neg (by rw [isEoc]; omega)]

theorem chainAt_fields (g : Geo) (s : State) (fn : Fnode) (idx : Nat) (alloc : Bool) :
    (chainAt g s fn idx alloc).2.1.direntSector = fn.direntSector ∧
      (chainAt g s fn idx alloc).2.1.direntOff = fn.direntOff ∧
      (chainAt g s fn idx alloc).2.1.fixedRoot = fn.fixedRoot := by
  simp only [chainAt]
  split <;> split <;> exact ⟨rfl, rfl, rfl⟩

theorem getD_mem {idx : Nat} (h : l.getD idx 0 ≠ 0) : l.getD idx 0 ∈ l := by
  rw [List.getD_eq_getElem?_getD] at h ⊢
  cases hi : l[idx]? with
  | none => rw [hi] at h; exact absurd rfl h
  | some x => exact List.mem_of_getElem? hi

theorem Chain.length_le {F : Nat → Nat} (h : Chain g F l) : l.length ≤ g.clusters := by
  have hsub : l ⊆ List.range' 2 g.clusters := fun x hx => by
    obtain ⟨h1, h2⟩ := h.range x hx
    exact List.mem_range'_1.mpr ⟨h1, by omega⟩
  have hle := (List.subperm_of_subset h.nodup hsub).length_le
  rwa [List.length_range'] at hle

end

end Sic.Fs.Fat
