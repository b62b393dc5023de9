import Sic.Net.Checksum

/-! What each sender of the stack hands to `arp_output`. The checksum of a TCP segment covers the source address
that `tcp_emit` is given; `ip_send` puts another into the header if that is 0. -/

namespace Sic.Net

def Sent (P : Nat → Pkt → Prop) (s r : Stack) : Prop :=
  (r.lo = s.lo ∧ r.wire = s.wire ∧ r.cache = s.cache) ∨
    ∃ s' i nexthop p, s'.lo = s.lo ∧ s'.wire = s.wire ∧ s'.cache = s.cache ∧ s'.devs = s.devs ∧
      r = (arpOutput s' i nexthop p).1 ∧ P i p

variable {P Q : Nat → Pkt → Prop} {s s' r : Stack}

structure Still (s s' : Stack) : Prop where
  lo : s'.lo = s.lo
  wire : s'.wire = s.wire
  cache : s'.cache = s.cache
  devs : s'.devs = s.devs

theorem Still.refl (s : Stack) : Still s s := ⟨rfl, rfl, rfl, rfl⟩

theorem Still.trans {s'' : Stack} (h : Still s s') (h' : Still s' s'') : Still s s'' :=
  ⟨h'.lo.trans h.lo, h'.wire.trans h.wire, h'.cache.trans h.cache, h'.devs.trans h.devs⟩

theorem Still.sent (h : Still s s') : Sent P s s' := .inl ⟨h.lo, h.wire, h.cache⟩

theorem Still.setUdp (h : Still s s') (k : Nat) (q : Sock) : Still s (s'.setUdp k q) :=
  ⟨h.lo, h.wire, h.cache, h.devs⟩

theorem Still.dev (h : Still s s') (i : Nat) : s'.dev i = s.dev i := by rw [Stack.dev, Stack.dev, h.devs]

theorem Sent.after (h : Still s s') (hr : Sent P s' r) : Sent P s r := by
  rcases hr with ⟨hlo, hwire, hcache⟩ | ⟨t, i, nexthop, p, hlo, hwire, hcache, hdevs, hr, hp⟩
  · exact .inl ⟨hlo.trans h.lo, hwire.trans h.wire, hcache.trans h.cache⟩
  · exact .inr ⟨t, i, nexthop, p, hlo.trans h.lo, hwire.trans h.wire, hcache.trans h.cache, hdevs.trans h.devs,
      hr, hp⟩

theorem Sent.mono (h : Sent P s r) (hpq : ∀ i p, P i p → Q i p) : Sent Q s r := by
  rcases h with h | ⟨t, i, nexthop, p, hlo, hwire, hcache, hdevs, hr, hp⟩
  · exact .inl h
  · exact .inr ⟨t, i, nexthop, p, hlo, hwire, hcache, hdevs, hr, hpq i p hp⟩

theorem pktAlloc_still (s : Stack) : Still s (pktAlloc s).1 ∧ ∀ p ∈ (pktAlloc s).2, p.off = 128 ∧ p.len = 0 := by
  rw [pktAlloc]
  split
  · refine ⟨.refl s, fun p hp => ?_⟩
    cases hp
    exact ⟨rfl, rfl⟩
  · exact ⟨⟨rfl, rfl, rfl, rfl⟩, fun p hp => by cases hp⟩
  · refine ⟨⟨rfl, rfl, rfl, rfl⟩, fun p hp => ?_⟩
    cases hp
    exact ⟨rfl, rfl⟩

theorem payload_still (s : Stack) (bs : List U8) :
    Still s (payload s bs).1 ∧ ∀ p ∈ (payload s bs).2, p.off = 128 ∧ p.len = BitVec.ofNat 32 bs.length ∧
      p.bytes 0 bs.length = bs := by
  obtain ⟨hstill, halloc⟩ := pktAlloc_still s
  rw [payload]
  generalize pktAlloc s = x at hstill halloc ⊢
  obtain ⟨s₁, _ | p⟩ := x
  · exact ⟨hstill, fun p hp => by cases hp⟩
  · refine ⟨hstill.trans ⟨rfl, rfl, rfl, rfl⟩, fun q hq => ?_⟩
    cases hq
    exact ⟨(halloc p rfl).1, rfl, filled_bytes p bs⟩

def sourceOn (s : Stack) (src : U32) (i : Nat) : U32 := if src = 0 then (s.dev i).ip else src

variable {p f : Pkt} {i : Nat}

theorem ipSend_sent (s : Stack) (src dst : U32) (proto : U8) (hoff : 20 ≤ p.off.toNat) :
    Sent (fun i h => (∃ nexthop, ipRoute s dst = some (i, nexthop)) ∧ p.len.toNat + 20 ≤ 65535 ∧
      (h.Checks ↔ p.Carries (sourceOn s src i) dst proto)) s (ipSend s src dst proto p).1 := by
  rw [ipSend]
  cases hroute : ipRoute s dst with
  | none => exact (Still.refl s).sent
  | some x =>
    obtain ⟨i, nexthop⟩ := x
    dsimp only
    split
    · exact (Still.refl s).sent
    next hmtu =>
    have hlt := (s.dev i).mtu.isLt
    have hstill : Still s { s.pushed p 20 with ident := s.ident + 1 } := ⟨rfl, rfl, rfl, rfl⟩
    refine .inr ⟨{ s.pushed p 20 with ident := s.ident + 1 }, i, nexthop,
      ipHeader s.ident (sourceOn s src i) dst proto (p.push 20), hstill.lo, hstill.wire, hstill.cache,
        hstill.devs, rfl,
      ⟨nexthop, rfl⟩, by omega, ?_⟩
    exact ipHeader_checks _ _ _ _ hoff (by omega)

/-! ### The transports -/

theorem folded_verify_udp (n : Nat) :
    folded (n + if 65535 - folded n = 0 then 65535 else 65535 - folded n) = 65535 := by
  have hverify := folded_verify n
  split
  · next hzero =>
    rw [folded_eq_iff] at hzero
    rw [folded]
    split <;> omega
  · exact hverify

theorem words_field {n m : Nat} {c : U16} (hi : i % 2 = 0) (hn : i + 2 ≤ n) (hzero : f.be16 i = 0)
    (hc : c.toNat = m) : words ((f.put i (beBytes16 c)).bytes 0 n) = words (f.bytes 0 n) + m := by
  have hwords := f.words_put hi hn c
  rw [hzero, hc] at hwords
  exact hwords

theorem be16_zero (h0 : f.byte i = 0) (h1 : f.byte (i + 1) = 0) : f.be16 i = 0 := by
  rw [Pkt.be16, h0, h1]
  rfl

theorem udp_carries (src dst : U32) (hlen : f.len.toNat ≤ 65535) (hmin : 8 ≤ f.len.toNat)
    (hfield : f.be16 4 = f.len.setWidth 16) (hzero : f.be16 6 = 0) :
    let c := ipPseudoChecksum src dst ipprotoUdp (f.bytes 0 f.len.toNat)
    (f.put 6 (beBytes16 (if c = 0 then 0xFFFF else c))).Carries src dst ipprotoUdp := by
  intro c
  have hn : ((f.put 6 (beBytes16 (if c = 0 then 0xFFFF else c))).be16 4).toNat = f.len.toNat := by
    rw [Pkt.be16, Pkt.byte_put_of_lt (by decide), Pkt.byte_put_of_lt (by decide), ← Pkt.be16, hfield,
      BitVec.toNat_setWidth, Nat.mod_eq_of_lt (by omega)]
  have hbytes (q : Pkt) : (q.bytes 0 f.len.toNat).length ≤ 65535 := by rwa [Pkt.length_bytes]
  have hc := toNat_ipPseudoChecksum src dst ipprotoUdp (hbytes f)
  have hput : (if c = 0 then 0xFFFF else c : U16).toNat =
    if 65535 - folded (pseudo src dst ipprotoUdp f.len.toNat +
      words (f.bytes 0 f.len.toNat)) = 0 then 65535 else 65535 - folded (pseudo src dst ipprotoUdp f.len.toNat +
      words (f.bytes 0 f.len.toNat)) := by
    rw [Pkt.length_bytes] at hc
    rw [apply_ite BitVec.toNat, ← hc]
    exact if_congr BitVec.toNat_inj.symm rfl rfl
  refine ⟨fun h => absurd h (by decide), fun _ _ => ?_, fun h => absurd h (by decide)⟩
  rw [hn]
  refine eq_zero_of_folded (toNat_ipPseudoChecksum _ _ _ (hbytes _)) ?_
  rw [Pkt.length_bytes, words_field rfl (by omega) hzero hput, ← Nat.add_assoc]
  exact folded_verify_udp _

theorem tcp_carries_iff (src src' dst : U32) (hlen : f.len.toNat ≤ 65535) (hmin : 18 ≤ f.len.toNat)
    (hzero : f.be16 16 = 0) :
    (f.put 16 (beBytes16 (ipPseudoChecksum src dst ipprotoTcp (f.bytes 0 f.len.toNat)))).Carries src' dst
      ipprotoTcp ↔
      halfSum src' % 65535 = halfSum src % 65535 := by
  have hbytes (q : Pkt) : (q.bytes 0 f.len.toNat).length ≤ 65535 := by rwa [Pkt.length_bytes]
  have hc := toNat_ipPseudoChecksum src dst ipprotoTcp (hbytes f)
  rw [Pkt.length_bytes] at hc
  have hwords := words_field rfl hmin hzero hc
  have hcheck := toNat_ipPseudoChecksum src' dst ipprotoTcp (hbytes (f.put 16 (beBytes16
    (ipPseudoChecksum src dst ipprotoTcp (f.bytes 0 f.len.toNat)))))
  rw [Pkt.length_bytes, hwords] at hcheck
  have hiff :
      (f.put 16 (beBytes16 (ipPseudoChecksum src dst ipprotoTcp (f.bytes 0 f.len.toNat)))).Carries src' dst
      ipprotoTcp ↔ ipPseudoChecksum src' dst ipprotoTcp ((f.put 16 (beBytes16 (ipPseudoChecksum src dst ipprotoTcp
        (f.bytes 0 f.len.toNat)))).bytes 0 f.len.toNat) = 0 :=
    ⟨fun h => h.2.2 rfl, fun h => ⟨fun h => absurd h (by decide), fun h => absurd h (by decide), fun _ => h⟩⟩
  rw [hiff, ← BitVec.toNat_inj, hcheck]
  change 65535 - _ = 0 ↔ _
  have hn : 0 < f.len.toNat := by omega
  rw [folded_eq_iff, pseudo, pseudo, folded]
  split <;> omega

theorem icmp_carries (src dst : U32) (hlen : f.len.toNat ≤ 65535) (hmin : 4 ≤ f.len.toNat)
    (hzero : f.be16 2 = 0) :
    (f.put 2 (beBytes16 (ipChecksum (f.bytes 0 f.len.toNat)))).Carries src dst ipprotoIcmp := by
  have hbytes (q : Pkt) : (q.bytes 0 f.len.toNat).length ≤ 65535 := by rwa [Pkt.length_bytes]
  refine ⟨fun _ => ?_, fun h => absurd h (by decide), fun h => absurd h (by decide)⟩
  refine eq_zero_of_folded (toNat_ipChecksum (hbytes _)) ?_
  rw [Pkt.put_len, words_field rfl hmin hzero (toNat_ipChecksum (hbytes f))]
  exact folded_verify _

/-! ### The senders -/

theorem udpSend_sent (s : Stack) (q : Sock) (dst : U32) (port : U16) (hoff : p.off = 128)
    (hlen : p.len.toNat ≤ pktDataMax) : Sent (fun _ h => h.Checks) s (udpSend s q dst port p).1 := by
  rw [pktDataMax_eq] at hlen
  rw [udpSend]
  dsimp only
  have hstill : Still s (s.pushed p 8) := ⟨rfl, rfl, rfl, rfl⟩
  cases hroute : ipRoute (s.pushed p 8) dst with
  | none => exact hstill.sent
  | some x =>
    obtain ⟨i, nexthop⟩ := x
    dsimp only
    generalize hsrc : (if q.localIp = 0 then ((s.pushed p 8).dev i).ip else q.localIp) = src
    generalize hf : (p.push 8).put 0
      (beBytes16 q.localPort ++ beBytes16 port ++ beBytes16 ((p.push 8).len.setWidth 16) ++ beBytes16 0) = f
    have hflen : f.len = p.len + 8 := by
      rw [← hf]
      rfl
    have hfoff : f.off = p.off - 8 := by
      rw [← hf]
      rfl
    have hfbyte (k : Nat) (hk : k < 8) : f.byte k = (beBytes16 q.localPort ++ beBytes16 port ++
        beBytes16 ((p.push 8).len.setWidth 16) ++ beBytes16 0).getD k 0 := by
      rw [← hf, ← Nat.zero_add k, Pkt.byte_put_of_mem (show k < 8 by omega), Nat.zero_add]
    have hfield : f.be16 4 = f.len.setWidth 16 := by
      rw [Pkt.be16, hfbyte 4 (by decide), hfbyte 5 (by decide), hflen]
      exact halves16 _
    have hzero : f.be16 6 = 0 := be16_zero (hfbyte 6 (by decide)) (hfbyte 7 (by decide))
    have hcarries := udp_carries src dst (f := f) (by rw [hflen]; bv_omega) (by rw [hflen]; bv_omega) hfield hzero
    have hsent := ipSend_sent (s.pushed p 8) src dst ipprotoUdp
      (p := f.put 6 (beBytes16 (if ipPseudoChecksum src dst ipprotoUdp (f.bytes 0 f.len.toNat) = 0 then 0xFFFF
        else ipPseudoChecksum src dst ipprotoUdp (f.bytes 0 f.len.toNat))))
      (by rw [Pkt.put_off, hfoff, hoff]; decide)
    refine (hsent.mono fun j h hp => ?_).after hstill
    obtain ⟨⟨hop, hroute'⟩, -, hiff⟩ := hp
    obtain ⟨rfl, -⟩ : i = j ∧ nexthop = hop := Prod.mk.inj (Option.some.inj (hroute.symm.trans hroute'))
    rw [hiff]
    have hsame : sourceOn (s.pushed p 8) src i = src := by
      rw [sourceOn]
      split
      · next h0 =>
        split at hsrc
        · exact hsrc
        · next hne => exact absurd (hsrc.trans h0) hne
      · rfl
    rw [hsame]
    exact hcarries

theorem sendUdp_sent (s : Stack) (k : Nat) (addr : Option (U32 × U16)) (port : Option U16) (buf : List U8) :
    Sent (fun _ h => h.Checks) s (sendUdp s k addr port buf).1 := by
  rw [sendUdp]
  split
  · exact (Still.refl s).sent
  split
  · exact (Still.refl s).sent
  split
  · exact (Still.refl s).sent
  next hle =>
  obtain ⟨hstill, hpay⟩ := payload_still s buf
  generalize payload s buf = x at hstill hpay ⊢
  obtain ⟨s₁, _ | p⟩ := x
  · exact hstill.sent
  obtain ⟨hoff, hlen, -⟩ := hpay p rfl
  dsimp only at hstill ⊢
  split
  · exact hstill.sent
  split
  · exact (hstill.setUdp k _).sent
  refine (udpSend_sent _ _ _ _ hoff ?_).after (hstill.setUdp k _)
  rw [pktDataMax_eq] at hle ⊢
  rw [hlen, BitVec.toNat_ofNat]
  omega

theorem sendRaw_sent (s : Stack) (k : Nat) (addr : Option (U32 × U16)) (buf : List U8) :
    Sent (fun _ h => h.Checks ↔ ipChecksum buf = 0) s (sendRaw s k addr buf).1 := by
  rw [sendRaw]
  split
  · exact (Still.refl s).sent
  split
  · exact (Still.refl s).sent
  split
  · exact (Still.refl s).sent
  next hle =>
  obtain ⟨hstill, hpay⟩ := payload_still s buf
  generalize payload s buf = x at hstill hpay ⊢
  obtain ⟨s₁, _ | p⟩ := x
  · exact hstill.sent
  obtain ⟨hoff, hlen, hbytes⟩ := hpay p rfl
  have hnat : p.len.toNat = buf.length := by
    rw [pktDataMax_eq] at hle
    rw [hlen, BitVec.toNat_ofNat]
    omega
  refine ((ipSend_sent s₁ _ _ ipprotoIcmp (by rw [hoff]; decide)).mono fun i h hp => hp.2.2.trans ?_).after hstill
  rw [Pkt.Carries, hnat, hbytes]
  exact ⟨fun h => h.1 rfl, fun h => ⟨fun _ => h, fun h => absurd h (by decide), fun h => absurd h (by decide)⟩⟩

theorem rawCopy_still (p : Pkt) (s : Stack) (k : Nat) : Still s (rawCopy p s k) := by
  rw [rawCopy]
  split
  · exact .refl s
  split
  · exact .refl s
  have hstill := (pktAlloc_still s).1
  generalize pktAlloc s = x at hstill ⊢
  obtain ⟨s₁, _ | c⟩ := x
  · exact hstill
  · exact hstill.trans ⟨rfl, rfl, rfl, rfl⟩

theorem icmpRx_sent (s : Stack) (hoff : 20 ≤ p.off.toNat) : Sent (fun _ h => h.Checks) s (icmpRx s p) := by
  rw [icmpRx]
  split
  · exact (Still.refl s).sent
  next hmin =>
  dsimp only
  split
  · exact (⟨rfl, rfl, rfl, rfl⟩ : Still s (s.note (.read p.off.toNat p.len.toNat))).sent
  have hcopies (ks : List Nat) : Still s (ks.foldl (rawCopy p) (s.note (.read p.off.toNat p.len.toNat))) :=
    invariant_foldl (P := Still s) (fun t k ht => ht.trans (rawCopy_still p t k)) ks ⟨rfl, rfl, rfl, rfl⟩
  split
  · refine ((ipSend_sent _ _ _ ipprotoIcmp (p := p.echoReply) hoff).mono fun i h hp => ?_).after (hcopies _)
    obtain ⟨-, hlen, hiff⟩ := hp
    have hlen' : p.len.toNat + 20 ≤ 65535 := hlen
    rw [hiff]
    refine icmp_carries _ _ (f := (p.put 0 [0]).put 2 (beBytes16 0)) ?_ ?_ (Pkt.be16_put _ 2 0)
    · rw [Pkt.put_len, Pkt.put_len]
      omega
    · rw [Pkt.put_len, Pkt.put_len]
      omega
  · exact (hcopies _).sent

theorem tcpEmit_sent (s : Stack) (g : Segment) :
    Sent (fun i h => h.Checks ↔ g.src ≠ 0 ∨ halfSum (s.dev i).ip % 65535 = 0) s (tcpEmit s g).1 := by
  have hdata := g.data_le
  have hopts := g.opts_le
  rw [tcpEmit]
  have hpay : Still s (if g.data = [] then pktAlloc s else payload s g.data).1 ∧
      ∀ p ∈ (if g.data = [] then pktAlloc s else payload s g.data).2, p.off = 128 ∧ p.len.toNat ≤ 1460 := by
    split
    · obtain ⟨hstill, halloc⟩ := pktAlloc_still s
      refine ⟨hstill, fun p hp => ⟨(halloc p hp).1, ?_⟩⟩
      rw [(halloc p hp).2]
      decide
    · obtain ⟨hstill, hpay⟩ := payload_still s g.data
      refine ⟨hstill, fun p hp => ⟨(hpay p hp).1, ?_⟩⟩
      rw [(hpay p hp).2.1, BitVec.toNat_ofNat]
      omega
  obtain ⟨hstill, hpay⟩ := hpay
  generalize (if g.data = [] then pktAlloc s else payload s g.data) = x at hstill hpay ⊢
  obtain ⟨s₁, _ | p⟩ := x
  · exact hstill.sent
  obtain ⟨hoff, hlen⟩ := hpay p rfl
  dsimp only at hstill ⊢
  generalize hn : BitVec.ofNat 32 (20 + g.opts.length) = n
  have hnat : n.toNat = 20 + g.opts.length := by
    rw [← hn, BitVec.toNat_ofNat]
    omega
  generalize hf : (p.push n).put 0 (beBytes16 g.sport ++ beBytes16 g.dport ++ beBytes32 g.seq ++
    beBytes32 g.ack ++
    [BitVec.ofNat 8 ((20 + g.opts.length) / 4 * 16),
      g.flags] ++ beBytes16 g.wnd ++ beBytes16 0 ++ beBytes16 0 ++ g.opts) = f
  have hflen : f.len.toNat = p.len.toNat + n.toNat := by
    rw [← hf, Pkt.put_len, Pkt.push_len]
    bv_omega
  have hfoff : 20 ≤ f.off.toNat := by
    rw [← hf, Pkt.put_off, Pkt.push_off, hoff]
    bv_omega
  have hzero : f.be16 16 = 0 := by
    refine be16_zero ?_ ?_
    · rw [← hf]
      exact Pkt.byte_put_of_mem (i := 0) (k := 16) (by simp [beBytes16, beBytes32])
    · rw [← hf]
      exact Pkt.byte_put_of_mem (i := 0) (k := 17) (by simp [beBytes16, beBytes32])
  have hstill' : Still s (s₁.pushed p n) := hstill.trans ⟨rfl, rfl, rfl, rfl⟩
  have hsent := ipSend_sent (s₁.pushed p n) g.src g.dst ipprotoTcp
    (p := f.put 16 (beBytes16 (ipPseudoChecksum g.src g.dst ipprotoTcp (f.bytes 0 f.len.toNat)))) hfoff
  refine (hsent.mono fun i h hp => hp.2.2.trans ?_).after hstill'
  rw [tcp_carries_iff _ _ _ (by omega) (by omega) hzero, sourceOn]
  split
  · next h0 =>
    rw [h0, hstill'.dev]
    simp [halfSum]
  · next h0 => exact iff_of_true rfl (.inl h0)

theorem xmit_wire {s : Stack} {x : Nat × Pkt} (hx : x ∈ (xmit s i f).1.wire) : x ∈ s.wire ∨ x = (i, f) := by
  rw [xmit] at hx
  split at hx
  · exact .inl hx
  dsimp only at hx
  split at hx
  · exact (List.mem_cons.mp hx).symm
  split at hx
  · exact (List.mem_cons.mp hx).symm
  · exact .inl hx

theorem ethSend_frame (s : Stack) (i : Nat) (mac : Mac) (hnic : (s.dev i).loopback = false)
    (hoff : 14 ≤ p.off.toNat) (hfits : p.Fits) {x : Nat × Pkt} (hx : x ∈ (ethSend s i mac ethPIp p).1.wire) :
    x ∈ s.wire ∨ ∀ k, k < p.len.toNat → x.2.byte (14 + k) = p.byte k := by
  rw [ethSend, if_neg (by rw [hnic]; decide)] at hx
  dsimp only at hx
  generalize hf : (p.push 14).put 0 (macBytes mac ++ macBytes ((s.pushed p 14).dev i).mac ++ beBytes16 ethPIp) =
    f at hx
  obtain ⟨hpoff, hplen⟩ := Pkt.toNat_push (n := 14) hfits hoff
  have hfoff : f.off.toNat = p.off.toNat - 14 := by
    rw [← hf]
    exact hpoff
  have hflen : f.len.toNat = p.len.toNat + 14 := by
    rw [← hf]
    exact hplen
  have hfbyte (k : Nat) : f.byte (14 + k) = p.byte k := by
    rw [← hf, Pkt.byte_put_of_ge (show 0 + 14 ≤ _ by omega), Pkt.byte, Pkt.byte, Pkt.push_buf, hpoff]
    congr 1
    have : (14 : U32).toNat = 14 := rfl
    omega
  rcases xmit_wire hx with hx | rfl
  · refine .inl ?_
    rw [padFrame] at hx
    split at hx <;> exact hx
  · refine .inr fun k hk => ?_
    rw [padFrame]
    split
    · change (f.put f.len.toNat _).byte (14 + k) = _
      rw [Pkt.byte_put_of_lt (by omega), hfbyte]
    · exact hfbyte k

/-- Whatever the devices and sockets are, the packets of UDP and the replies of ICMP pass every check of the
receiving side; a segment of TCP passes exactly if it was given a source address or the address of its device
does not count in the sum; a packet from a raw socket exactly if its payload does; and frames carry the packets
unchanged. -/
theorem emitted_checksums (s : Stack) :
    (∀ k addr port buf, Sent (fun _ h => h.Checks) s (sendUdp s k addr port buf).1) ∧
    (∀ p : Pkt, 20 ≤ p.off.toNat → Sent (fun _ h => h.Checks) s (icmpRx s p)) ∧
    (∀ g, Sent (fun i h => h.Checks ↔ g.src ≠ 0 ∨ halfSum (s.dev i).ip % 65535 = 0) s (tcpEmit s g).1) ∧
    (∀ k addr buf, Sent (fun _ h => h.Checks ↔ ipChecksum buf = 0) s (sendRaw s k addr buf).1) ∧
    ∀ i mac (p : Pkt) x, (s.dev i).loopback = false → 14 ≤ p.off.toNat → p.Fits →
      x ∈ (ethSend s i mac ethPIp p).1.wire → x ∈ s.wire ∨ ∀ k, k < p.len.toNat → x.2.byte (14 + k) = p.byte k :=
  ⟨sendUdp_sent s, fun _ => icmpRx_sent s, tcpEmit_sent s, sendRaw_sent s,
    fun i mac _ _ hnic hoff hfits hx => ethSend_frame s i mac hnic hoff hfits hx⟩

def resetFromZero : Segment where
  src := 0
  dst := 0x7F000001
  sport := 80
  dport := 1024
  seq := 0
  ack := 1
  flags := 0x14
  wnd := 0
  data := []
  opts := []
  data_le := Nat.zero_le _
  opts_le := Nat.zero_le _

/-- Such a reset goes out with the address of the loopback device and fails the check of the receiver. -/
theorem reset_fails_check :
    ((tcpEmit boot resetFromZero).1.cache.filterMap (·.pending)).map
        (fun p => (p.be32 12, ipPseudoChecksum (p.be32 12) (p.be32 16) ipprotoTcp (p.bytes 20 20))) =
      [(0x7F000001, 0x80FE)] := by
  decide +kernel

end Sic.Net
