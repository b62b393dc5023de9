import Sic.Net.StackGrows

/-! What becomes of a packet sent to one of this host's own addresses. The route is
the loopback device, but the packet still has to pass address resolution. -/

namespace Sic.Net

section

variable {s : Stack} {p q : Pkt}

def loPkt (s : Stack) (src dst : U32) (proto : U8) (p : Pkt) : Pkt :=
  { ipHeader s.ident (if src = 0 then (s.dev 0).ip else src) dst proto (p.push 20) with proto := ethPIp }

/-- Address resolution on the loopback device answers at once. -/
def Resolved (s : Stack) (dst : U32) : Prop :=
  arpBroadcast (s.dev 0) dst = true ∨ ∃ k, arpFind s 0 dst = some k ∧ (s.entry k).valid = true

instance (s : Stack) (dst : U32) : Decidable (Resolved s dst) :=
  inferInstanceAs (Decidable (_ ∨ ∃ k, arpFind s 0 dst = some k ∧ (s.entry k).valid = true))

theorem ethSend_lo (h : LoFirst s) (dst : Mac) (proto : U16) (p : Pkt) :
    (ethSend s 0 dst proto p).1.lo = s.lo ++ [{ p with proto := proto }] := by
  obtain ⟨hl, hn, -⟩ := h.dev
  rw [ethSend, if_pos hl, xmit, hn]

theorem arpOutput_resolved (h : LoFirst s) {nexthop : U32} (hr : Resolved s nexthop) (p : Pkt) :
    (arpOutput s 0 nexthop p).1.lo = s.lo ++ [{ p with proto := ethPIp }] := by
  rw [arpOutput]
  split
  · exact ethSend_lo h _ _ p
  next hb =>
  obtain ⟨k, hk, hv⟩ := hr.resolve_left hb
  rw [arpSlot, hk]
  dsimp only
  rw [if_pos hv]
  exact ethSend_lo h _ _ p

theorem arpSlot_not_valid {i : Nat} {ip : U32} (h : ∀ k, arpFind s i ip = some k → (s.entry k).valid = false) :
    ((arpSlot s i ip).1.entry (arpSlot s i ip).2).valid = false := by
  rw [arpSlot]
  split
  · next k hk => exact h k hk
  dsimp only [Stack.entry]
  rw [List.getD_eq_getElem?_getD, List.getElem?_set]
  split
  · split <;> rfl
  · next hne => exact absurd rfl hne

theorem arpSend_lo (h : LoFirst s) (op : U16) (dst tha : Mac) (tpa : U32) :
    ∃ l, (arpSend s 0 op dst tha tpa).lo = s.lo ++ l ∧ ∀ q ∈ l, q.proto = ethPArp := by
  have hg := pktAlloc_grows s
  have hs : (pktAlloc s).1.lo = s.lo := by
    rw [pktAlloc]
    split <;> rfl
  rw [arpSend]
  generalize pktAlloc s = r at hg hs ⊢
  obtain ⟨s₁, _ | p⟩ := r
  · exact ⟨[], by rw [hs, List.append_nil], fun _ hq => (List.not_mem_nil hq).elim⟩
  · have hl : LoFirst (s₁.pushed p 28) := h.grows (hg.trans (pushed_grows s₁ p 28))
    refine ⟨_, (ethSend_lo hl dst ethPArp _).trans (congrArg (· ++ _) hs), fun q hq => ?_⟩
    cases List.mem_singleton.mp hq
    rfl

theorem arpOutput_unresolved (h : LoFirst s) {nexthop : U32} (hr : ¬ Resolved s nexthop) (p : Pkt) :
    ∃ l, (arpOutput s 0 nexthop p).1.lo = s.lo ++ l ∧ ∀ q ∈ l, q.proto = ethPArp := by
  rw [Resolved, not_or] at hr
  obtain ⟨hb, hf⟩ := hr
  have hv : ((arpSlot s 0 nexthop).1.entry (arpSlot s 0 nexthop).2).valid = false := by
    refine arpSlot_not_valid fun k hk => ?_
    rw [← Bool.not_eq_true]
    exact fun hval => hf ⟨k, hk, hval⟩
  have hlo : (arpSlot s 0 nexthop).1.lo = s.lo := by
    rw [arpSlot]
    split <;> rfl
  have hg := arpSlot_grows s 0 nexthop
  rw [arpOutput, if_neg hb]
  generalize arpSlot s 0 nexthop = r at hv hlo hg ⊢
  obtain ⟨s₁, k⟩ := r
  dsimp only at hv hlo hg ⊢
  rw [if_neg (by rw [hv]; decide)]
  split
  · have hl := h.grows (hg.trans ((setEntry_grows s₁ k fun e => { e with pending := some p }).trans
      (setEntry_grows _ k fun e => { e with lastRequest := s₁.now })))
    obtain ⟨l, heq, hl⟩ := arpSend_lo hl arpRequest ethBroadcast 0 nexthop
    exact ⟨l, heq.trans (congrArg (· ++ l) hlo), hl⟩
  · exact ⟨[], by rw [List.append_nil]; exact hlo, fun _ hq => (List.not_mem_nil hq).elim⟩

def Stack.headed (s : Stack) (p : Pkt) : Stack := { s.pushed p 20 with ident := s.ident + 1 }

theorem ipSend_local (h : LoFirst s) (hp : p.len.toNat + 20 ≤ 65535) {dst : U32} (hd : ipLocal s dst = true)
    (src : U32) (proto : U8) : ipSend s src dst proto p = arpOutput (s.headed p) 0 dst
      (ipHeader s.ident (if src = 0 then (s.dev 0).ip else src) dst proto (p.push 20)) := by
  rw [ipSend, ipRoute, if_pos hd]
  dsimp only
  rw [if_neg]
  · rfl
  · rw [h.dev.2.2]
    exact Nat.not_lt.mpr hp

theorem ipSend_local_broadcast (h : LoFirst s) (hp : p.len.toNat + 20 ≤ 65535) {dst : U32}
    (hd : ipLocal s dst = true) (hb : arpBroadcast (s.dev 0) dst = true) (src : U32) (proto : U8) :
    (ipSend s src dst proto p).1 = { s.headed p with lo := s.lo ++ [loPkt s src dst proto p] } := by
  have hs : LoFirst (s.headed p) := ⟨h.first⟩
  obtain ⟨hl, hn, -⟩ := hs.dev
  have hb' : arpBroadcast ((s.headed p).dev 0) dst = true := hb
  rw [ipSend_local h hp hd, arpOutput, if_pos hb', ethSend, if_pos hl, xmit, hn]
  rfl

theorem ipSend_local_lo (h : LoFirst s) (hp : p.len.toNat + 20 ≤ 65535) {dst : U32} (hd : ipLocal s dst = true)
    (src : U32) (proto : U8) :
    (ipSend s src dst proto p).1.lo = s.lo ++ [loPkt s src dst proto p] ↔ Resolved s dst := by
  have hs : LoFirst (s.headed p) := ⟨h.first⟩
  rw [ipSend_local h hp hd]
  constructor
  · intro hq
    by_contra hr
    obtain ⟨l, hl, harp⟩ := arpOutput_unresolved hs hr
      (ipHeader s.ident (if src = 0 then (s.dev 0).ip else src) dst proto (p.push 20))
    rw [hl] at hq
    have hmem := harp (loPkt s src dst proto p) (List.append_cancel_left hq ▸ List.mem_singleton_self _)
    exact absurd hmem (by decide : ethPIp ≠ ethPArp)
  · intro hr
    exact arpOutput_resolved hs hr _

/-! ### The loopback queue -/

def loTurns (es : List Event) : Nat := es.countP fun e => match e.op with | .loTurn => true | _ => false

theorem loTurn_cons {lo : List Pkt} (h : s.lo = q :: lo) : loTurn s = netRx { s with lo := lo } 0 q := by
  rw [loTurn, h]

theorem netRx_ip (h : (s.dev 0).loopback = true) (hq : q.proto = ethPIp) :
    netRx s 0 q = ipRx s 0 (q.arrived 0) := by
  rw [netRx, if_pos h]
  exact if_pos hq

theorem apply_handed (s : Stack) (op : Op) : s.handed <:+ (s.apply op).handed := by
  rcases apply_grows s op with ⟨nic, mac, rfl⟩ | ⟨i, req, rfl⟩ | rfl | hg
  · exact List.suffix_rfl
  · exact List.suffix_rfl
  · change s.handed <:+ (loTurn s).handed
    rw [loTurn]
    split
    · exact List.suffix_rfl
    · next p lo _ => exact (netRx_grows { s with lo := lo } 0 p).handed
  · exact hg.handed

theorem run_handed (s : Stack) (es : List Event) : s.handed <:+ (run step s es).handed := by
  induction es generalizing s with
  | nil => exact List.suffix_rfl
  | cons e es ih =>
    have hstep : s.handed <:+ (step s e).handed := apply_handed (s.armed e) e.op
    exact hstep.trans (ih (step s e))

theorem apply_lo {op : Op} (h : op ≠ .loTurn) (s : Stack) : s.lo <+: (s.apply op).lo := by
  rcases apply_grows s op with ⟨nic, mac, rfl⟩ | ⟨i, req, rfl⟩ | rfl | hg
  · exact List.prefix_rfl
  · exact List.prefix_rfl
  · exact absurd rfl h
  · exact hg.lo

end

/-- A packet on the loopback queue is handed to `ip_rx` once the turns of `lo_poll` have
come to it, whatever else happens. -/
theorem lo_handed {s : Stack} {q : Pkt} {pre post : List Pkt} (h : LoFirst s) (hlo : s.lo = pre ++ q :: post)
    (hq : q.proto = ethPIp) {es : List Event} (hes : pre.length < loTurns es) :
    (0, q.arrived 0) ∈ (run step s es).handed := by
  induction es generalizing s pre post with
  | nil => exact absurd hes (Nat.not_lt_zero _)
  | cons e es ih =>
    have hnext := step_loFirst h e
    have hlo' : (s.armed e).lo = pre ++ q :: post := hlo
    by_cases hop : e.op = .loTurn
    · have hturn : step s e = loTurn (s.armed e) := by rw [step, hop, Stack.apply]
      rw [loTurns, List.countP_cons_of_pos (by rw [hop])] at hes
      cases pre with
      | nil =>
        -- the packet is at the head: this turn hands it over, and the record only grows
        refine (run_handed _ es).subset ?_
        have hl : LoFirst { s.armed e with lo := post } := ⟨h.first⟩
        rw [hturn, loTurn_cons hlo', netRx_ip hl.dev.1 hq]
        exact (ipRx_grows _ 0 _).handed.subset (List.mem_cons_self ..)
      | cons x pre =>
        obtain ⟨l, hl⟩ := (netRx_grows { s.armed e with lo := pre ++ q :: post } 0 x).lo
        have heq : (step s e).lo = pre ++ q :: (post ++ l) := by
          rw [hturn, loTurn_cons hlo']
          exact hl.symm.trans (by simp)
        exact ih hnext heq (Nat.lt_of_succ_lt_succ hes)
    · have hcount : loTurns (e :: es) = loTurns es := by
        refine List.countP_cons_of_neg ?_
        split
        · next hturn => exact absurd hturn hop
        · exact Bool.false_ne_true
      obtain ⟨l, hl⟩ := apply_lo hop (s.armed e)
      have heq : (step s e).lo = pre ++ q :: (post ++ l) := by
        rw [step, ← hl, hlo']
        simp
      exact ih hnext heq (hcount ▸ hes)

theorem run_loFirst (es : List Event) : LoFirst (run step boot es) :=
  invariant_foldl (P := LoFirst) (fun _ e h => step_loFirst h e) es boot_loFirst

/-- In every state the stack reaches, a packet for one of this host's addresses goes to
the loopback queue in the same call if and only if the address resolution of the loopback
device has an answer, and from there to `ip_rx`. -/
theorem local_delivery_iff (es : List Event) (src dst : U32) (proto : U8) (p : Pkt)
    (hlen : p.len.toNat ≤ bufSize) (hd : ipLocal (run step boot es) dst = true) :
    ((ipSend (run step boot es) src dst proto p).1.lo =
        (run step boot es).lo ++ [loPkt (run step boot es) src dst proto p] ↔
      Resolved (run step boot es) dst) ∧
    (Resolved (run step boot es) dst → ∀ es', (run step boot es).lo.length < loTurns es' →
      (0, (loPkt (run step boot es) src dst proto p).arrived 0) ∈
        (run step (ipSend (run step boot es) src dst proto p).1 es').handed) := by
  have hl := run_loFirst es
  have hp : p.len.toNat + 20 ≤ 65535 := Nat.le_trans (Nat.add_le_add_right hlen 20) (by decide)
  have hiff := ipSend_local_lo hl hp hd src proto
  refine ⟨hiff, fun hr es' hes' => ?_⟩
  exact lo_handed (hl.grows (ipSend_grows _ src dst proto p)) (hiff.mpr hr) rfl hes'

def eth0Up : List Event :=
  [{ op := .register .e1000 0x525400123456 }, { op := .ioctl 1 (.addr 0x0A00020F) }]

theorem local_delivery_iff_loopback_broadcast :
    ipLocal (run step boot eth0Up) 0x7FFFFFFF = true ∧ Resolved (run step boot eth0Up) 0x7FFFFFFF ∧
      (ipSend (run step boot eth0Up) 0 0x7FFFFFFF 17 { buf := fun _ => 0 }).1.lo =
        (run step boot eth0Up).lo ++ [loPkt (run step boot eth0Up) 0 0x7FFFFFFF 17 { buf := fun _ => 0 }] := by
  have hd : ipLocal (run step boot eth0Up) 0x7FFFFFFF = true := by decide
  have hr : Resolved (run step boot eth0Up) 0x7FFFFFFF := .inl (by decide)
  exact ⟨hd, hr, (local_delivery_iff eth0Up 0 0x7FFFFFFF 17 { buf := fun _ => 0 } (by decide) hd).1.mpr hr⟩

def twoSeconds : List Event :=
  [{ op := .loTurn, now := 20 }, { op := .arpTimer, now := 1000 }, { op := .loTurn, now := 1020 },
    { op := .arpTimer, now := 2000 }, { op := .loTurn, now := 2020 }]

/-- A packet for the device's own address waits for an answer to a request that only the
loopback device hears, and that is not for the loopback device's own address. -/
theorem own_address_not_delivered :
    ¬ ∀ (es : List Event) (src dst : U32) (proto : U8) (p : Pkt), p.len.toNat ≤ bufSize →
      ipLocal (run step boot es) dst = true →
      ∀ es', (run step boot es).lo.length < loTurns es' →
        (0, (loPkt (run step boot es) src dst proto p).arrived 0) ∈
          (run step (ipSend (run step boot es) src dst proto p).1 es').handed := by
  intro h
  have hmem := h eth0Up 0 0x0A00020F 17 { buf := fun _ => 0 } (by decide) (by decide) twoSeconds (by decide)
  have hnone : (run step (ipSend (run step boot eth0Up) 0 0x0A00020F 17 { buf := fun _ => 0 }).1
      twoSeconds).handed.isEmpty = true := by decide +kernel
  rw [List.isEmpty_iff.mp hnone] at hmem
  exact List.not_mem_nil hmem

end Sic.Net
