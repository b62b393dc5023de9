import Sic.Lib.Run
import Sic.Net.Stack

/-! What every function of the stack leaves alone: the devices, the packets that
already wait on the loopback device, and the record of those given to `ip_rx`. -/

namespace Sic.Net

structure Grows (s s' : Stack) : Prop where
  devs : s'.devs = s.devs
  lo : s.lo <+: s'.lo
  handed : s.handed <:+ s'.handed

section

variable {s s' s'' : Stack}

theorem Grows.refl (s : Stack) : Grows s s := ⟨rfl, List.prefix_rfl, List.suffix_rfl⟩

theorem Grows.same (hd : s'.devs = s.devs) (hl : s'.lo = s.lo) (hh : s'.handed = s.handed) : Grows s s' :=
  ⟨hd, hl ▸ List.prefix_rfl, hh ▸ List.suffix_rfl⟩

theorem Grows.trans (h : Grows s s') (h' : Grows s' s'') : Grows s s'' :=
  ⟨h'.devs.trans h.devs, h.lo.trans h'.lo, h.handed.trans h'.handed⟩

theorem Grows.after (h : Grows s' s'') (hd : s'.devs = s.devs) (hl : s'.lo = s.lo)
    (hh : s'.handed = s.handed) : Grows s s'' := (Grows.same hd hl hh).trans h

theorem Grows.dev (h : Grows s s') (i : Nat) : s'.dev i = s.dev i := by
  rw [Stack.dev, Stack.dev, h.devs]

theorem Grows.foldl {α : Type} {f : Stack → α → Stack} (hf : ∀ s a, Grows s (f s a)) (l : List α)
    (s : Stack) : Grows s (l.foldl f s) :=
  invariant_foldl (P := Grows s) (fun x a hx => hx.trans (hf x a)) l (.refl s)

theorem note_grows (s : Stack) (a : Act) : Grows s (s.note a) := .same rfl rfl rfl

theorem pushed_grows (s : Stack) (p : Pkt) (n : U32) : Grows s (s.pushed p n) := .same rfl rfl rfl

theorem pktAlloc_grows (s : Stack) : Grows s (pktAlloc s).1 := by
  rw [pktAlloc]
  split <;> exact .same rfl rfl rfl

theorem xmit_grows (s : Stack) (i : Nat) (p : Pkt) : Grows s (xmit s i p).1 := by
  rw [xmit]
  split
  · exact ⟨rfl, List.prefix_append _ _, List.suffix_rfl⟩
  dsimp only
  split
  · exact .same rfl rfl rfl
  · split <;> exact .same rfl rfl rfl

theorem padFrame_grows (s : Stack) (p : Pkt) : Grows s (padFrame s p).1 := by
  rw [padFrame]
  split <;> exact .same rfl rfl rfl

theorem ethSend_grows (s : Stack) (i : Nat) (dst : Mac) (proto : U16) (p : Pkt) :
    Grows s (ethSend s i dst proto p).1 := by
  rw [ethSend]
  split
  · exact xmit_grows s i _
  · exact ((pushed_grows s p 14).trans (padFrame_grows _ _)).trans (xmit_grows _ i _)

theorem setEntry_grows (s : Stack) (k : Nat) (f : ArpEntry → ArpEntry) : Grows s (s.setEntry k f) :=
  .same rfl rfl rfl

theorem arpSlot_grows (s : Stack) (i : Nat) (ip : U32) : Grows s (arpSlot s i ip).1 := by
  rw [arpSlot]
  split <;> exact .same rfl rfl rfl

theorem arpSend_grows (s : Stack) (i : Nat) (op : U16) (dst tha : Mac) (tpa : U32) :
    Grows s (arpSend s i op dst tha tpa) := by
  have hs := pktAlloc_grows s
  rw [arpSend]
  generalize pktAlloc s = r at hs ⊢
  obtain ⟨s₁, _ | p⟩ := r
  · exact hs
  · exact (hs.trans (pushed_grows s₁ p 28)).trans (ethSend_grows _ i _ _ _)

theorem arpOutput_grows (s : Stack) (i : Nat) (nexthop : U32) (p : Pkt) :
    Grows s (arpOutput s i nexthop p).1 := by
  rw [arpOutput]
  split
  · exact ethSend_grows s i _ _ p
  have hs := arpSlot_grows s i nexthop
  generalize arpSlot s i nexthop = r at hs ⊢
  obtain ⟨s₁, k⟩ := r
  dsimp only at hs ⊢
  split
  · exact hs.trans (ethSend_grows s₁ i _ _ p)
  split
  · exact (hs.trans ((setEntry_grows s₁ k _).trans (setEntry_grows _ k _))).trans (arpSend_grows _ i _ _ _ _)
  · exact hs.trans (.same rfl rfl rfl)

theorem arpLearn_grows (s : Stack) (i : Nat) (ip : U32) (mac : Mac) : Grows s (arpLearn s i ip mac) := by
  have hs := arpSlot_grows s i ip
  rw [arpLearn]
  generalize arpSlot s i ip = r at hs ⊢
  obtain ⟨s₁, k⟩ := r
  dsimp only at hs ⊢
  split
  · exact hs.trans (setEntry_grows s₁ k _)
  · exact (hs.trans ((setEntry_grows s₁ k _).trans (setEntry_grows _ k _))).trans (ethSend_grows _ i _ _ _)

theorem arpRx_grows (s : Stack) (i : Nat) (p : Pkt) : Grows s (arpRx s i p) := by
  rw [arpRx]
  split
  · exact .same rfl rfl rfl
  dsimp only
  split
  · exact .same rfl rfl rfl
  have hlearn (c : Bool) : Grows s (if c then arpLearn (s.note (.read p.off.toNat 28)) i (p.be32 14) (p.mac 8)
      else s.note (.read p.off.toNat 28)) := by
    split
    · exact (note_grows s _).trans (arpLearn_grows _ i _ _)
    · exact note_grows s _
  split
  · exact (hlearn _).trans (arpSend_grows _ i _ _ _ _)
  · exact hlearn _

theorem arpTimerEntry_grows (s : Stack) (k : Nat) : Grows s (arpTimerEntry s k) := by
  rw [arpTimerEntry]
  generalize hs₁ : (if (s.entry k).valid ∧ arpTtlMs < s.now - (s.entry k).updated then
    s.setEntry k fun e => { e with valid := false } else s) = s₁
  have h₁ : Grows s s₁ := by
    rw [← hs₁]
    split <;> exact .same rfl rfl rfl
  split
  · exact h₁.trans (setEntry_grows s₁ k _)
  split
  · split
    · exact (h₁.trans (setEntry_grows s₁ k _)).trans (arpSend_grows _ _ _ _ _ _)
    · exact h₁
  · exact h₁

theorem arpTimer_grows (s : Stack) : Grows s (arpTimer s) := .foldl arpTimerEntry_grows _ s

theorem ipSend_grows (s : Stack) (src dst : U32) (proto : U8) (p : Pkt) :
    Grows s (ipSend s src dst proto p).1 := by
  rw [ipSend]
  split
  · exact .same rfl rfl rfl
  dsimp only
  split
  · exact .same rfl rfl rfl
  · have hid (x : U16) : Grows s { s.pushed p 20 with ident := x } := .same rfl rfl rfl
    exact (hid _).trans (arpOutput_grows _ _ _ _)

theorem rawCopy_grows (p : Pkt) (s : Stack) (k : Nat) : Grows s (rawCopy p s k) := by
  have hs := pktAlloc_grows s
  rw [rawCopy]
  split
  · exact .same rfl rfl rfl
  split
  · exact .same rfl rfl rfl
  generalize pktAlloc s = r at hs ⊢
  obtain ⟨s₁, _ | c⟩ := r
  · exact hs
  · exact hs.trans (.same rfl rfl rfl)

theorem icmpRx_grows (s : Stack) (p : Pkt) : Grows s (icmpRx s p) := by
  rw [icmpRx]
  split
  · exact .same rfl rfl rfl
  dsimp only
  split
  · exact .same rfl rfl rfl
  have hcopies := (note_grows s (.read p.off.toNat p.len.toNat)).trans
    (Grows.foldl (rawCopy_grows p) (List.range (s.note (.read p.off.toNat p.len.toNat)).raw.length) _)
  split
  · exact hcopies.trans (ipSend_grows _ _ _ _ _)
  · exact hcopies

theorem udpRx_grows (s : Stack) (p : Pkt) : Grows s (udpRx s p) := by
  rw [udpRx]
  dsimp only
  split
  · exact .same rfl rfl rfl
  split
  · exact .same rfl rfl rfl
  split
  · exact .same rfl rfl rfl
  split
  · exact .same rfl rfl rfl
  · split <;> exact .same rfl rfl rfl

theorem tcpRx_grows (s : Stack) (p : Pkt) : Grows s (tcpRx s p) := by
  rw [tcpRx]
  dsimp only
  split
  · exact .same rfl rfl rfl
  split
  · exact .same rfl rfl rfl
  split <;> exact .same rfl rfl rfl

theorem ipRx_grows (s : Stack) (i : Nat) (p : Pkt) :
    Grows { s with handed := (i, p) :: s.handed } (ipRx s i p) := by
  rw [ipRx]
  dsimp only
  iterate 5
    split
    · exact .same rfl rfl rfl
  split
  · exact Grows.after (icmpRx_grows _ _) rfl rfl rfl
  split
  · exact Grows.after (udpRx_grows _ _) rfl rfl rfl
  split
  · exact Grows.after (tcpRx_grows _ _) rfl rfl rfl
  · exact .same rfl rfl rfl

theorem handed_grows (s : Stack) (x : Nat × Pkt) : Grows s { s with handed := x :: s.handed } :=
  ⟨rfl, List.prefix_rfl, List.suffix_cons _ _⟩

theorem netRx_grows (s : Stack) (i : Nat) (p : Pkt) : Grows s (netRx s i p) := by
  have hip (s : Stack) (p : Pkt) : Grows s (ipRx s i p) := (handed_grows s _).trans (ipRx_grows s i p)
  rw [netRx]
  dsimp only
  split
  · split
    · exact hip s _
    split
    · exact arpRx_grows s i _
    · exact .same rfl rfl rfl
  split
  · exact .same rfl rfl rfl
  split
  · exact Grows.after (hip _ _) rfl rfl rfl
  split
  · exact Grows.after (arpRx_grows _ i _) rfl rfl rfl
  · exact .same rfl rfl rfl

theorem payload_grows (s : Stack) (bs : List U8) : Grows s (payload s bs).1 := by
  have hs := pktAlloc_grows s
  rw [payload]
  generalize pktAlloc s = r at hs ⊢
  obtain ⟨s₁, _ | p⟩ := r
  · exact hs
  · exact hs.trans (.same rfl rfl rfl)

theorem rxFrame_grows (s : Stack) (i : Nat) (frame : List U8) : Grows s (rxFrame s i frame) := by
  rw [rxFrame]
  split
  · exact .same rfl rfl rfl
  split
  · have hs := payload_grows s frame
    generalize payload s frame = r at hs ⊢
    obtain ⟨s₁, _ | p⟩ := r
    · exact hs
    · exact hs.trans (netRx_grows s₁ i p)
  · exact .same rfl rfl rfl

theorem udpSend_grows (s : Stack) (q : Sock) (dst : U32) (port : U16) (p : Pkt) :
    Grows s (udpSend s q dst port p).1 := by
  rw [udpSend]
  dsimp only
  split
  · exact pushed_grows s p 8
  · exact (pushed_grows s p 8).trans (ipSend_grows _ _ _ _ _)

theorem sendUdp_grows (s : Stack) (k : Nat) (addr : Option (U32 × U16)) (port : Option U16) (buf : List U8) :
    Grows s (sendUdp s k addr port buf).1 := by
  have hs := payload_grows s buf
  rw [sendUdp]
  iterate 3
    split
    · exact .same rfl rfl rfl
  generalize payload s buf = r at hs ⊢
  obtain ⟨s₁, _ | p⟩ := r
  · exact hs
  dsimp only at hs ⊢
  split
  · exact hs
  split
  · exact hs.trans (.same rfl rfl rfl)
  · exact hs.trans ((udpSend_grows _ _ _ _ _).after rfl rfl rfl)

theorem sendRaw_grows (s : Stack) (k : Nat) (addr : Option (U32 × U16)) (buf : List U8) :
    Grows s (sendRaw s k addr buf).1 := by
  have hs := payload_grows s buf
  rw [sendRaw]
  iterate 3
    split
    · exact .same rfl rfl rfl
  generalize payload s buf = r at hs ⊢
  obtain ⟨s₁, _ | p⟩ := r
  · exact hs
  · exact hs.trans (ipSend_grows s₁ _ _ _ p)

theorem tcpEmit_grows (s : Stack) (g : Segment) : Grows s (tcpEmit s g).1 := by
  have hs : Grows s (if g.data = [] then pktAlloc s else payload s g.data).1 := by
    split
    · exact pktAlloc_grows s
    · exact payload_grows s _
  rw [tcpEmit]
  generalize (if g.data = [] then pktAlloc s else payload s g.data) = r at hs ⊢
  obtain ⟨s₁, _ | p⟩ := r
  · exact hs
  · exact (hs.trans (pushed_grows s₁ p _)).trans (ipSend_grows _ _ _ _ _)

theorem recvfrom_grows (s : Stack) (q : Sock) (len : Nat) (peek : Bool) :
    Grows s (recvfrom s q len peek).1 := by
  rw [recvfrom]
  split
  · exact .same rfl rfl rfl
  · dsimp only
    split <;> exact .same rfl rfl rfl

theorem apply_grows (s : Stack) (op : Op) : (∃ nic mac, op = .register nic mac) ∨ (∃ i req, op = .ioctl i req) ∨
    op = .loTurn ∨ Grows s (s.apply op) := by
  cases op with
  | register nic mac => exact .inl ⟨nic, mac, rfl⟩
  | ioctl i req => exact .inr (.inl ⟨i, req, rfl⟩)
  | loTurn => exact .inr (.inr (.inl rfl))
  | frame i bytes => exact .inr (.inr (.inr (rxFrame_grows s i bytes)))
  | arpTimer => exact .inr (.inr (.inr (arpTimer_grows s)))
  | emit g => exact .inr (.inr (.inr (tcpEmit_grows s g)))
  | openUdp conf => exact .inr (.inr (.inr (.same rfl rfl rfl)))
  | openRaw conf => exact .inr (.inr (.inr (.same rfl rfl rfl)))
  | setUdp k conf => exact .inr (.inr (.inr (.same rfl rfl rfl)))
  | setRaw k conf => exact .inr (.inr (.inr (.same rfl rfl rfl)))
  | closeUdp k => exact .inr (.inr (.inr (.same rfl rfl rfl)))
  | closeRaw k => exact .inr (.inr (.inr (.same rfl rfl rfl)))
  | sendUdp k addr port buf => exact .inr (.inr (.inr (sendUdp_grows s k addr port buf)))
  | sendRaw k addr buf => exact .inr (.inr (.inr (sendRaw_grows s k addr buf)))
  | recvUdp k len peek =>
    refine .inr (.inr (.inr ?_))
    rw [Stack.apply]
    split
    · exact .same rfl rfl rfl
    · exact (recvfrom_grows s _ len peek).trans (.same rfl rfl rfl)
  | recvRaw k len peek =>
    refine .inr (.inr (.inr ?_))
    rw [Stack.apply]
    split
    · exact .same rfl rfl rfl
    · exact (recvfrom_grows s _ len peek).trans (.same rfl rfl rfl)

end

structure LoFirst (s : Stack) : Prop where
  first : ∃ d ds, s.devs = d :: ds ∧ d.loopback = true ∧ d.nic = none ∧ d.mtu = 65535

theorem LoFirst.dev {s : Stack} (h : LoFirst s) :
    (s.dev 0).loopback = true ∧ (s.dev 0).nic = none ∧ (s.dev 0).mtu = 65535 := by
  obtain ⟨d, ds, heq, hd⟩ := h.first
  rw [Stack.dev, heq]
  exact hd

theorem boot_loFirst : LoFirst boot := ⟨loDev, [], rfl, rfl, rfl, rfl⟩

theorem LoFirst.grows {s s' : Stack} (h : LoFirst s) (hg : Grows s s') : LoFirst s' :=
  ⟨hg.devs ▸ h.first⟩

theorem loTurn_devs (s : Stack) : (loTurn s).devs = s.devs := by
  rw [loTurn]
  split
  · rfl
  · exact (netRx_grows _ 0 _).devs

theorem apply_loFirst {s : Stack} (h : LoFirst s) (op : Op) : LoFirst (s.apply op) := by
  rcases apply_grows s op with ⟨nic, mac, rfl⟩ | ⟨i, req, rfl⟩ | rfl | hg
  · obtain ⟨d, ds, heq, hd⟩ := h.first
    refine ⟨d, ds ++ [{ nic := nic, mac := mac, mtu := 1500, up := true, loopback := false }], ?_, hd⟩
    rw [Stack.apply, heq]
    rfl
  · obtain ⟨d, ds, heq, hloop, hnic, hmtu⟩ := h.first
    cases i with
    | zero =>
      refine ⟨d.ioctl req, ds, ?_, ?_⟩
      · rw [Stack.apply, heq]
        rfl
      · cases req <;> exact ⟨hloop, hnic, hmtu⟩
    | succ i =>
      refine ⟨d, ds.modify i fun d => d.ioctl req, ?_, hloop, hnic, hmtu⟩
      rw [Stack.apply, heq]
      rfl
  · exact ⟨loTurn_devs s ▸ h.first⟩
  · exact h.grows hg

theorem LoFirst.armed {s : Stack} (h : LoFirst s) (e : Event) : LoFirst (s.armed e) := ⟨h.first⟩

theorem step_loFirst {s : Stack} (h : LoFirst s) (e : Event) : LoFirst (step s e) :=
  apply_loFirst (h.armed e) e.op

end Sic.Net
