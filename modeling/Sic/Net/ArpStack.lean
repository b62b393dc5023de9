import Sic.Net.Arp
import Sic.Net.Stack

/-! The cache of the stack, whose entries hold packets, is the one of `Sic.Arp`, whose entries hold their
numbers. -/

namespace Sic.Net

structure Linked (s s' : Stack) : Prop where
  cache : s'.cache = s.cache
  devs : s'.devs = s.devs
  now : s'.now = s.now

theorem Linked.trans {s s' s'' : Stack} (h : Linked s s') (h' : Linked s' s'') : Linked s s'' :=
  ⟨h'.cache.trans h.cache, h'.devs.trans h.devs, h'.now.trans h.now⟩

theorem xmit_linked (s : Stack) (i : Nat) (p : Pkt) : Linked s (xmit s i p).1 := by
  rw [xmit]
  split
  · exact ⟨rfl, rfl, rfl⟩
  dsimp only
  split
  · exact ⟨rfl, rfl, rfl⟩
  · split <;> exact ⟨rfl, rfl, rfl⟩

theorem padFrame_linked (s : Stack) (p : Pkt) : Linked s (padFrame s p).1 := by
  rw [padFrame]
  split <;> exact ⟨rfl, rfl, rfl⟩

theorem ethSend_linked (s : Stack) (i : Nat) (dst : Mac) (proto : U16) (p : Pkt) :
    Linked s (ethSend s i dst proto p).1 := by
  have hpush : Linked s (s.pushed p 14) := ⟨rfl, rfl, rfl⟩
  rw [ethSend]
  split
  · exact xmit_linked s i _
  · exact (hpush.trans (padFrame_linked _ _)).trans (xmit_linked _ i _)

theorem arpSend_linked (s : Stack) (i : Nat) (op : U16) (dst tha : Mac) (tpa : U32) :
    Linked s (arpSend s i op dst tha tpa) := by
  have hs : Linked s (pktAlloc s).1 := by
    rw [pktAlloc]
    split <;> exact ⟨rfl, rfl, rfl⟩
  rw [arpSend]
  generalize pktAlloc s = r at hs ⊢
  obtain ⟨s₁, _ | p⟩ := r
  · exact hs
  · have hpush : Linked s₁ (s₁.pushed p 28) := ⟨rfl, rfl, rfl⟩
    exact (hs.trans hpush).trans (ethSend_linked _ i _ _ _)

variable (f : Nat → Pkt)

@[simps]
def named (e : Arp.ArpEntry) : ArpEntry :=
  ⟨e.dev, e.ip, e.mac, e.valid, e.updated, e.lastRequest, e.pending.map f⟩

/-- The two caches are the same, `f` giving the packets of the numbers; an entry with a packet has a device. -/
structure Caches (s : Stack) (a : Arp.State) : Prop where
  cache : s.cache = List.ofFn fun k => named f (a.cache k)
  devs : ∀ i < s.devs.length, a.devs i = ⟨(s.dev i).ip, (s.dev i).mask⟩
  bound : ∀ k, (a.cache k).pending.isSome → (a.cache k).dev.isSome

variable {f} {s s' : Stack} {a a' : Arp.State} {k : Arp.Slot} {e : Arp.ArpEntry} {d : Nat} {ip : U32}

theorem Caches.linked (h : Caches f s a) (hl : Linked s s') : Caches f s' a := by
  refine ⟨hl.cache.trans h.cache, fun i hi => ?_, h.bound⟩
  rw [h.devs i (hl.devs ▸ hi), Stack.dev, Stack.dev, hl.devs]

theorem Caches.of_eq (h : Caches f s a) (hc : a'.cache = a.cache) (hd : a'.devs = a.devs) : Caches f s a' :=
  ⟨hc ▸ h.cache, hd ▸ h.devs, hc ▸ h.bound⟩

theorem setEntry_now (s : Stack) (k : Nat) (g : ArpEntry → ArpEntry) : (s.setEntry k g).now = s.now := rfl

theorem edit_self (a : Arp.State) (k : Arp.Slot) (e : Arp.ArpEntry) (l : List (Nat × Arp.Fate)) :
    (a.edit k e l).cache k = e :=
  Function.update_self ..

theorem Caches.entry (h : Caches f s a) (k : Arp.Slot) : s.entry k = named f (a.cache k) := by
  simp [Stack.entry, h.cache, List.getD_eq_getElem?_getD]

theorem Caches.edit (h : Caches f s a) (he : e.pending.isSome → e.dev.isSome) (l : List (Nat × Arp.Fate)) :
    Caches f { s with cache := s.cache.set k (named f e) } (a.edit k e l) := by
  refine ⟨?_, h.devs, fun j => ?_⟩
  · refine List.ext_getElem (by simp [h.cache]) fun j hj hj' => ?_
    simp only [h.cache, List.getElem_set, List.getElem_ofFn, Arp.State.edit, Function.update_apply, Fin.ext_iff]
    by_cases hjk : k.val = j
    · simp [hjk]
    · simp [hjk, Ne.symm hjk]
  · dsimp only [Arp.State.edit]
    by_cases hjk : j = k
    · rw [hjk, Function.update_self]
      exact he
    · rw [Function.update_of_ne hjk]
      exact h.bound j

theorem Caches.setEntry (h : Caches f s a) {g : ArpEntry → ArpEntry} (hg : g (named f (a.cache k)) = named f e)
    (he : e.pending.isSome → e.dev.isSome) (l : List (Nat × Arp.Fate)) :
    Caches f (s.setEntry k g) (a.edit k e l) := by
  rw [Stack.setEntry, h.entry, hg]
  exact h.edit he l

theorem Caches.setEntry_edit {e' : Arp.ArpEntry} {l l' : List (Nat × Arp.Fate)} (h : Caches f s (a.edit k e l))
    {g : ArpEntry → ArpEntry} (hg : g (named f e) = named f e') (he : e'.pending.isSome → e'.dev.isSome) :
    Caches f (s.setEntry k g) (a.edit k e' l') := by
  refine (h.setEntry (e := e') ?_ he []).of_eq (Function.update_idem ..).symm rfl
  rw [edit_self, hg]

/-! ### The slot for an address -/

theorem used_named (e : Arp.ArpEntry) : (named f e).used = e.used := by
  rw [ArpEntry.used, Arp.ArpEntry.used, named, Option.isSome_map]

theorem findIdx?_finRange {n : Nat} (p : Fin n → Bool) :
    (List.finRange n).findIdx? p = ((List.finRange n).find? p).map Fin.val := by
  cases hf : (List.finRange n).find? p with
  | none =>
    rw [Option.map_none, List.findIdx?_eq_none_iff]
    simpa using hf
  | some k =>
    obtain ⟨hk, i, hi, rfl, hlt⟩ := List.find?_eq_some_iff_getElem.mp hf
    have hval : ((List.finRange n)[i]).val = i := by simp
    rw [Option.map_some, hval, List.findIdx?_eq_some_iff_getElem]
    exact ⟨hi, hk, fun j hj => by simpa using hlt j hj⟩

theorem Caches.arpFind (h : Caches f s a) : Net.arpFind s d ip = (Arp.arpFind a d ip).map Fin.val := by
  rw [Net.arpFind, Arp.arpFind, h.cache, List.ofFn_eq_map, List.findIdx?_map, ← findIdx?_finRange]
  congr 1
  funext k
  rw [Function.comp_apply, used_named]
  rfl

theorem arpOldest_eq (cache : Arp.Slot → Arp.ArpEntry) {ks : List Arp.Slot} {n : Nat}
    (hks : ks.map Fin.val = List.range' n ks.length) (best : Arp.Slot) :
    arpOldest (ks.map fun k => named f (cache k)) n best (cache best).updated =
      (Arp.oldestLoop cache ks best).val := by
  induction ks generalizing n best with
  | nil => rfl
  | cons k ks ih =>
    rw [List.map_cons, List.length_cons, List.range'_succ, List.cons.injEq] at hks
    obtain ⟨rfl, hks⟩ := hks
    rw [List.map_cons, arpOldest, Arp.oldestLoop, used_named]
    split
    · rfl
    · change (if (cache k).updated < (cache best).updated then _ else _) = _
      split
      · exact ih hks k
      · exact ih hks best

theorem Caches.arpSlot (h : Caches f s a) (d : Nat) (ip : U32) :
    Net.arpSlot s d ip = ((Net.arpSlot s d ip).1, ((Arp.arpSlot a d ip).2 : Nat)) ∧
      (Net.arpSlot s d ip).1.now = s.now ∧ Caches f (Net.arpSlot s d ip).1 (Arp.arpSlot a d ip).1 ∧
      ((Arp.arpSlot a d ip).1.cache (Arp.arpSlot a d ip).2).dev = some d := by
  rw [Net.arpSlot, Arp.arpSlot, h.arpFind]
  cases hf : Arp.arpFind a d ip with
  | some k =>
    refine ⟨rfl, rfl, h, ?_⟩
    have := List.find?_some hf
    simp only [Bool.and_eq_true, beq_iff_eq] at this
    exact this.1.1
  | none =>
    have hk := arpOldest_eq (f := f) a.cache (n := 0)
      (by decide : (List.finRange 32).map Fin.val = _) Arp.firstSlot
    have hfirst : (s.cache.getD 0 {}).updated = (a.cache Arp.firstSlot).updated :=
      congrArg ArpEntry.updated (h.entry Arp.firstSlot)
    have hcache : s.cache = (List.finRange 32).map fun k => named f (a.cache k) :=
      h.cache.trans (List.ofFn_eq_map ..)
    rw [← hcache, ← hfirst] at hk
    dsimp only [Option.map_none]
    refine ⟨congrArg _ hk, rfl, ?_, ?_⟩
    · rw [show arpOldest s.cache 0 0 _ = _ from hk]
      exact h.edit (e := { dev := some d, ip := ip }) nofun _
    · rw [edit_self]

/-! ### The calls -/

theorem Caches.output (h : Caches f s a) (hd : d < s.devs.length) (nexthop : U32) (x : Nat) :
    Caches f (arpOutput s d nexthop (f x)).1 (Arp.arpOutput a s.now d nexthop x) := by
  have hbcast : arpBroadcast (s.dev d) nexthop = true ↔
      nexthop = 0xFFFFFFFF ∨ ((a.devs d).mask ≠ 0 ∧ nexthop = (a.devs d).bcast) := by
    simp [arpBroadcast, h.devs d hd, Netdev.bcast, Arp.Netdev.bcast]
  rw [arpOutput, Arp.arpOutput]
  split
  · next hb =>
    rw [if_pos (hbcast.mp hb)]
    exact (h.linked (ethSend_linked ..)).of_eq rfl rfl
  next hb =>
  rw [if_neg (mt hbcast.mpr hb)]
  obtain ⟨hk, hnow, hs, hdev⟩ := h.arpSlot d nexthop
  rw [hk, ← hnow]
  generalize (Net.arpSlot s d nexthop).1 = s₁ at hs ⊢
  generalize Arp.arpSlot a d nexthop = r at hs hdev ⊢
  obtain ⟨a₁, k⟩ := r
  dsimp only at hs hdev ⊢
  rw [hs.entry, named_valid, named_lastRequest]
  split
  · exact (hs.linked (ethSend_linked ..)).of_eq rfl rfl
  have hpark : Caches f (s₁.setEntry k fun e => { e with pending := some (f x) })
      (a₁.edit k { a₁.cache k with pending := some x } []) := hs.setEntry rfl (fun _ => by simp [hdev]) _
  rw [setEntry_now, show Arp.arpRetryMs = arpRetryMs from rfl]
  split
  · exact (hpark.setEntry_edit rfl fun _ => by simp [hdev]).linked (arpSend_linked ..)
  · exact hpark.of_eq rfl rfl

theorem Caches.learn (h : Caches f s a) (d : Nat) (ip : U32) (mac : Mac) :
    Caches f (arpLearn s d ip mac) (Arp.arpLearn a s.now d ip mac) := by
  obtain ⟨hk, hnow, hs, hdev⟩ := h.arpSlot d ip
  rw [arpLearn, Arp.arpLearn, hk, ← hnow]
  generalize (Net.arpSlot s d ip).1 = s₁ at hs ⊢
  generalize Arp.arpSlot a d ip = r at hs hdev ⊢
  obtain ⟨a₁, k⟩ := r
  dsimp only at hs hdev ⊢
  have hset : Caches f (s₁.setEntry k fun e => { e with mac := mac, valid := true, updated := s₁.now })
      (a₁.edit k { a₁.cache k with mac := mac, valid := true, updated := s₁.now } []) :=
    hs.setEntry rfl (fun _ => by simp [hdev]) _
  rw [hset.entry k, edit_self, named_pending]
  dsimp only
  cases hp : (a₁.cache k).pending with
  | none =>
    refine hset.of_eq ?_ rfl
    simp only [Arp.State.edit, hp]
  | some x => exact (hset.setEntry_edit rfl (by simp)).linked (ethSend_linked ..)

def arpHdr (p : Pkt) : Arp.ArpHdr :=
  ⟨p.len.toNat, p.be16 0, p.be16 2, p.byte 4, p.byte 5, p.mac 8, p.be32 14, p.be32 24⟩

theorem Caches.rx (h : Caches f s a) (hd : d < s.devs.length) (p : Pkt) :
    Caches f (arpRx s d p) (Arp.arpRx a s.now d (arpHdr p)) := by
  have hnote : Caches f (s.note (.read p.off.toNat 28)) a := h.linked ⟨rfl, rfl, rfl⟩
  rw [arpRx, Arp.arpRx]
  split
  · next hl =>
    rw [if_pos (.inl hl)]
    exact h
  next hl =>
  dsimp only
  by_cases hf : p.be16 0 ≠ 1 ∨ p.be16 2 ≠ ethPIp ∨ p.byte 4 ≠ 6 ∨ p.byte 5 ≠ 4
  · rw [if_pos hf, if_pos (.inr hf)]
    exact hnote
  have hok : ¬((arpHdr p).len < 28 ∨ (arpHdr p).htype ≠ 1 ∨ (arpHdr p).ptype ≠ 0x0800 ∨ (arpHdr p).hlen ≠ 6 ∨
    (arpHdr p).plen ≠ 4) := not_or.mpr ⟨hl, hf⟩
  rw [if_neg hf, if_neg hok]
  have hlearn : Caches f
      (if (s.dev d).ip != 0 && p.be32 24 == (s.dev d).ip || (Net.arpFind s d (p.be32 14)).isSome then
        arpLearn (s.note (.read p.off.toNat 28)) d (p.be32 14) (p.mac 8) else s.note (.read p.off.toNat 28))
      (if (a.devs d).ip != 0 && p.be32 24 == (a.devs d).ip || (Arp.arpFind a d (p.be32 14)).isSome then
        Arp.arpLearn a s.now d (p.be32 14) (p.mac 8) else a) := by
    rw [h.devs d hd, h.arpFind, Option.isSome_map]
    split
    · exact hnote.learn d _ _
    · exact hnote
  split
  · exact hlearn.linked (arpSend_linked ..)
  · exact hlearn

theorem Caches.timerEntry (h : Caches f s a) (k : Arp.Slot) :
    Caches f (arpTimerEntry s k) (Arp.arpTimerEntry s.now a k) ∧ (arpTimerEntry s k).now = s.now := by
  rw [arpTimerEntry, Arp.arpTimerEntry, Arp.ArpEntry.tick, h.entry, named_valid, named_updated,
    show Arp.arpTtlMs = arpTtlMs from rfl, show Arp.arpRetryMs = arpRetryMs from rfl]
  generalize hs₁ : (if (a.cache k).valid ∧ arpTtlMs < s.now - (a.cache k).updated then
    s.setEntry k fun e => { e with valid := false } else s) = s₁
  generalize he₁ : (if (a.cache k).valid ∧ arpTtlMs < s.now - (a.cache k).updated then
    { a.cache k with valid := false } else a.cache k) = e₁
  obtain ⟨h₁, hnow⟩ : Caches f s₁ (a.edit k e₁ []) ∧ s₁.now = s.now := by
    rw [← hs₁, ← he₁]
    split
    · exact ⟨h.setEntry rfl (by exact h.bound k) _, rfl⟩
    · exact ⟨h.of_eq (Function.update_eq_self ..) rfl, rfl⟩
  have hbound := h₁.bound k
  rw [edit_self] at hbound
  rw [← hnow, h₁.entry, edit_self, named_lastRequest, named_pending, Option.isSome_map, named_dev, named_ip]
  split
  · exact ⟨h₁.setEntry_edit rfl (by simp), rfl⟩
  split
  · next hp =>
    split
    · exact ⟨(h₁.setEntry_edit rfl (by exact hbound)).linked (arpSend_linked ..), (arpSend_linked ..).now⟩
    · next hn =>
      have hdev := hbound hp.1
      simp [hn] at hdev
  · exact ⟨h₁.of_eq rfl rfl, rfl⟩

theorem Caches.timer (h : Caches f s a) : Caches f (arpTimer s) (Arp.arpTimer a s.now) := by
  have hfold : ∀ (ks : List Arp.Slot) {s a}, Caches f s a →
      Caches f ((ks.map Fin.val).foldl arpTimerEntry s) (ks.foldl (Arp.arpTimerEntry s.now) a) := by
    intro ks
    induction ks with
    | nil => exact fun h => h
    | cons k ks ih =>
      intro s a h
      obtain ⟨hk, hnow⟩ := h.timerEntry k
      have := ih hk
      rwa [hnow] at this
  have := hfold (List.finRange Arp.arpEntries) h
  rwa [show (List.finRange Arp.arpEntries).map Fin.val = List.range arpEntries by decide] at this

theorem boot_caches : Caches f boot (Arp.step Arp.boot (.config 0 loDev.ip loDev.mask)) := by
  refine ⟨?_, fun i hi => ?_, nofun⟩
  · exact (List.ofFn_const 32 _).symm
  · obtain rfl : i = 0 := by simpa [boot] using hi
    rfl

/-- What a call does to the cache of the stack is the step of `Sic.Arp` for that call. -/
theorem arp_step (h : Caches f s a) :
    (∀ d < s.devs.length, ∀ nexthop x,
      Caches f (arpOutput s d nexthop (f x)).1 (Arp.step a (.output s.now d nexthop x))) ∧
    (∀ d < s.devs.length, ∀ p, Caches f (arpRx s d p) (Arp.step a (.rx s.now d (arpHdr p)))) ∧
    Caches f (arpTimer s) (Arp.step a (.timer s.now)) :=
  ⟨fun _ hd nexthop x => h.output hd nexthop x, fun _ hd p => h.rx hd p, h.timer⟩

end Sic.Net
