import Sic.Net.LocalDelivery

/-! Where the packets of the stack lie in their buffers, over whole runs. -/

namespace Sic.Net

def Pkt.Fits (p : Pkt) : Prop := p.off.toNat + p.len.toNat ≤ bufSize

theorem bufSize_eq : bufSize = 1984 := rfl

variable {p : Pkt} {n : U32}

theorem Pkt.toNat_push (hp : p.Fits) (hn : n.toNat ≤ p.off.toNat) :
    (p.push n).off.toNat = p.off.toNat - n.toNat ∧ (p.push n).len.toNat = p.len.toNat + n.toNat := by
  rw [Fits, bufSize_eq] at hp
  rw [push_off, push_len, BitVec.toNat_sub, BitVec.toNat_add]
  omega

theorem Pkt.Fits.push (hp : p.Fits) (hn : n.toNat ≤ p.off.toNat) : (p.push n).Fits := by
  obtain ⟨ho, hl⟩ := toNat_push hp hn
  rw [Fits] at hp ⊢
  omega

theorem Pkt.toNat_pull (hp : p.Fits) (hn : n.toNat ≤ p.len.toNat) :
    (p.pull n).off.toNat = p.off.toNat + n.toNat ∧ (p.pull n).len.toNat = p.len.toNat - n.toNat := by
  rw [Fits, bufSize_eq] at hp
  rw [pull_off, pull_len, BitVec.toNat_sub, BitVec.toNat_add]
  omega

theorem Pkt.Fits.pull (hp : p.Fits) (hn : n.toNat ≤ p.len.toNat) : (p.pull n).Fits := by
  obtain ⟨ho, hl⟩ := toNat_pull hp hn
  rw [Fits] at hp ⊢
  omega

theorem Pkt.Fits.put (hp : p.Fits) (i : Nat) (bs : List U8) : (p.put i bs).Fits := hp

structure Framed (p : Pkt) : Prop where
  low : 14 ≤ p.off.toNat
  high : p.off.toNat ≤ 182
  fits : p.Fits
  ver : p.byte 0 = 0x45
  icmp : p.byte 9 = ipprotoIcmp → p.len.toNat ≤ pktDataMax

structure Ok (s : Stack) : Prop where
  acts : ∀ a ∈ s.acts, a.Fits
  devs : ∀ d ∈ s.devs, d.loopback = d.nic.isNone
  lo : ∀ p ∈ s.lo, p.Fits ∧ (p.proto = ethPIp → Framed p)
  pending : ∀ e ∈ s.cache, ∀ p ∈ e.pending, Framed p
  udp : ∀ q ∈ s.udp, ∀ p ∈ q.rxq, p.Fits
  raw : ∀ q ∈ s.raw, ∀ p ∈ q.rxq, p.Fits

theorem boot_ok : Ok boot where
  acts := fun _ h => nomatch h
  devs := fun d h => by
    cases List.mem_singleton.mp h
    rfl
  lo := fun _ h => nomatch h
  pending := fun e h p hp => by
    cases List.eq_of_mem_replicate h
    cases hp
  udp := fun _ h => nomatch h
  raw := fun _ h => nomatch h

section

variable {s : Stack} {p : Pkt}

theorem Ok.dev (h : Ok s) (i : Nat) : (s.dev i).loopback = (s.dev i).nic.isNone := by
  rw [Stack.dev, List.getD_eq_getElem?_getD]
  cases hi : s.devs[i]? with
  | none => rfl
  | some d => exact h.devs d (List.mem_of_getElem? hi)

theorem Ok.note (h : Ok s) {a : Act} (ha : a.Fits) : Ok (s.note a) :=
  { h with acts := List.forall_mem_cons.mpr ⟨ha, h.acts⟩ }

theorem Ok.shape (h : Ok s) (hp : p.Fits) : Ok (s.shape p) := h.note hp

theorem Ok.read (h : Ok s) (hp : p.Fits) {n : Nat} (hn : n ≤ p.len.toNat) :
    Ok (s.note (.read p.off.toNat n)) := by
  refine h.note ⟨by omega, ?_⟩
  rw [Pkt.Fits] at hp
  omega

theorem Ok.push (h : Ok s) (hp : p.Fits) {n : U32} (hn : n.toNat ≤ p.off.toNat) : Ok (s.pushed p n) :=
  (h.note (a := .push p.off n) hn).shape (hp.push hn)

theorem Ok.pull (h : Ok s) (hp : p.Fits) {n : U32} (hn : n.toNat ≤ p.len.toNat) : Ok (s.pulled p n) :=
  h.shape (hp.pull hn)

theorem pktAlloc_ok (h : Ok s) :
    Ok (pktAlloc s).1 ∧ ∀ p ∈ (pktAlloc s).2, p.off.toNat = pktHeadroom ∧ p.len.toNat = 0 := by
  rw [pktAlloc]
  split
  · refine ⟨h, fun p hp => ?_⟩
    cases hp
    exact ⟨rfl, rfl⟩
  · refine ⟨{ h with }, fun p hp => ?_⟩
    cases hp
  · refine ⟨{ h with }, fun p hp => ?_⟩
    cases hp
    exact ⟨rfl, rfl⟩

/-! ### Link layer and ARP -/

theorem xmit_ok (h : Ok s) (hp : p.Fits) (i : Nat)
    (hlo : (s.dev i).nic = none → p.proto = ethPIp → Framed p) : Ok (xmit s i p).1 := by
  rw [xmit]
  split
  · next hnic =>
    refine { h with lo := fun x hx => ?_ }
    rcases List.mem_append.mp hx with hx | hx
    · exact h.lo x hx
    · cases List.mem_singleton.mp hx
      exact ⟨hp, hlo hnic⟩
  · have hr := h.read hp (le_refl p.len.toNat)
    dsimp only
    split
    · exact { hr with }
    split
    · exact { hr with }
    · exact { hr with }

theorem padFrame_ok (h : Ok s) (hp : p.Fits) (hoff : p.off.toNat + 60 ≤ bufSize) :
    Ok (padFrame s p).1 ∧ (padFrame s p).2.Fits := by
  rw [padFrame]
  split
  · next hlen =>
    have hfits : Pkt.Fits { p.put p.len.toNat (List.replicate (60 - p.len.toNat) 0) with len := 60 } := hoff
    refine ⟨(h.note ?_).shape hfits, hfits⟩
    change p.off.toNat + p.len.toNat + (60 - p.len.toNat) ≤ bufSize
    omega
  · exact ⟨h, hp⟩

theorem ethSend_ok (h : Ok s) (hp : p.Fits) (hlow : 14 ≤ p.off.toNat) (hhigh : p.off.toNat ≤ 182) (i : Nat)
    (dst : Mac) {proto : U16} (hip : proto = ethPIp → Framed p) : Ok (ethSend s i dst proto p).1 := by
  rw [ethSend]
  split
  · exact xmit_ok (p := { p with proto := proto }) h hp i fun _ hproto =>
      ⟨(hip hproto).low, (hip hproto).high, hp, (hip hproto).ver, (hip hproto).icmp⟩
  next hloop =>
  have hn : (14 : U32).toNat ≤ p.off.toNat := hlow
  have hoff := (Pkt.toNat_push hp hn).1
  obtain ⟨hok, hfits⟩ := padFrame_ok
    (p := (p.push 14).put 0 (macBytes dst ++ macBytes ((s.pushed p 14).dev i).mac ++ beBytes16 proto))
    (h.push hp hn) (hp.push hn) (by
      rw [Pkt.put_off, hoff, bufSize_eq]
      omega)
  refine xmit_ok hok hfits i fun hnic => ?_
  have hl := h.dev i
  rw [← ((pushed_grows s p 14).trans (padFrame_grows _ _)).dev i, hnic] at hl
  rw [← ((pushed_grows s p 14).trans (padFrame_grows _ _)).dev i] at hloop
  exact absurd hl hloop

theorem Framed.ethSend (hp : Framed p) (h : Ok s) (i : Nat) (dst : Mac) (proto : U16) :
    Ok (ethSend s i dst proto p).1 :=
  ethSend_ok h hp.fits hp.low hp.high i dst fun _ => hp

theorem Ok.setCache (h : Ok s) {cache : List ArpEntry} (hc : ∀ e ∈ cache, ∀ p ∈ e.pending, Framed p) :
    Ok { s with cache := cache } := { h with pending := hc }

theorem Ok.entry (h : Ok s) (k : Nat) : ∀ p ∈ (s.entry k).pending, Framed p := by
  rw [Stack.entry, List.getD_eq_getElem?_getD]
  cases hk : s.cache[k]? with
  | none => exact fun p hp => nomatch hp
  | some e => exact h.pending e (List.mem_of_getElem? hk)

theorem Ok.setEntry (h : Ok s) {k : Nat} {f : ArpEntry → ArpEntry}
    (hf : ∀ p ∈ (f (s.entry k)).pending, Framed p) : Ok (s.setEntry k f) := by
  refine h.setCache fun e he => ?_
  rcases List.mem_or_eq_of_mem_set he with he | rfl
  · exact h.pending e he
  · exact hf

theorem arpSlot_ok (h : Ok s) (i : Nat) (ip : U32) : Ok (arpSlot s i ip).1 := by
  rw [arpSlot]
  split
  · exact h
  refine h.setCache fun e he => ?_
  rcases List.mem_or_eq_of_mem_set he with he | rfl
  · exact h.pending e he
  · intro p hp
    cases hp

theorem arpSend_ok (h : Ok s) (i : Nat) (op : U16) (dst tha : Mac) (tpa : U32) :
    Ok (arpSend s i op dst tha tpa) := by
  obtain ⟨hs, hp⟩ := pktAlloc_ok h
  rw [arpSend]
  generalize pktAlloc s = r at hs hp ⊢
  obtain ⟨s₁, _ | p⟩ := r
  · exact hs
  · obtain ⟨hoff, hlen⟩ := hp p rfl
    have hfits : p.Fits := by
      rw [Pkt.Fits, hoff, hlen]
      decide
    have hn : (28 : U32).toNat ≤ p.off.toNat := by
      rw [hoff]
      decide
    have hpush : (p.push 28).off.toNat = 100 := by
      rw [(Pkt.toNat_push hfits hn).1, hoff]
      rfl
    refine ethSend_ok (hs.push hfits hn) ((hfits.push hn).put _ _) ?_ ?_ i dst
      fun hproto => absurd hproto (by decide)
    · rw [Pkt.put_off, hpush]
      decide
    · rw [Pkt.put_off, hpush]
      decide

theorem arpOutput_ok (h : Ok s) (hp : Framed p) (i : Nat) (nexthop : U32) :
    Ok (arpOutput s i nexthop p).1 := by
  rw [arpOutput]
  split
  · exact hp.ethSend h i _ _
  have hs := arpSlot_ok h i nexthop
  generalize arpSlot s i nexthop = r at hs ⊢
  obtain ⟨s₁, k⟩ := r
  dsimp only at hs ⊢
  split
  · exact hp.ethSend hs i _ _
  have hpark : Ok (s₁.setEntry k fun e => { e with pending := some p }) :=
    hs.setEntry fun q hq => by
      cases hq
      exact hp
  split
  · exact arpSend_ok (hpark.setEntry (hpark.entry k)) i _ _ _ _
  · exact hpark

theorem arpLearn_ok (h : Ok s) (i : Nat) (ip : U32) (mac : Mac) : Ok (arpLearn s i ip mac) := by
  have hs := arpSlot_ok h i ip
  rw [arpLearn]
  generalize arpSlot s i ip = r at hs ⊢
  obtain ⟨s₁, k⟩ := r
  have hset : Ok (s₁.setEntry k fun e => { e with mac := mac, valid := true, updated := s₁.now }) :=
    hs.setEntry (hs.entry k)
  dsimp only
  split
  · exact hset
  · next q hq =>
    exact Framed.ethSend (hset.entry k q hq) (hset.setEntry fun _ hx => (Option.not_mem_none _ hx).elim) i mac _

theorem arpRx_ok (h : Ok s) (hp : p.Fits) (i : Nat) : Ok (arpRx s i p) := by
  rw [arpRx]
  split
  · exact h
  next hlen =>
  have hr : Ok (s.note (.read p.off.toNat 28)) := h.read hp (n := 28) (by omega)
  dsimp only
  split
  · exact hr
  have hlearn (c : Bool) : Ok (if c then arpLearn (s.note (.read p.off.toNat 28)) i (p.be32 14) (p.mac 8)
      else s.note (.read p.off.toNat 28)) := by
    split
    · exact arpLearn_ok hr i _ _
    · exact hr
  split
  · exact arpSend_ok (hlearn _) i _ _ _ _
  · exact hlearn _

theorem arpTimerEntry_ok (h : Ok s) (k : Nat) : Ok (arpTimerEntry s k) := by
  rw [arpTimerEntry]
  generalize hs₁ : (if (s.entry k).valid ∧ arpTtlMs < s.now - (s.entry k).updated then
    s.setEntry k fun e => { e with valid := false } else s) = s₁
  have h₁ : Ok s₁ := by
    rw [← hs₁]
    split
    · exact h.setEntry (h.entry k)
    · exact h
  split
  · exact h₁.setEntry fun _ hx => (Option.not_mem_none _ hx).elim
  split
  · split
    · exact arpSend_ok (h₁.setEntry (h₁.entry k)) _ _ _ _ _
    · exact h₁
  · exact h₁

theorem arpTimer_ok (h : Ok s) : Ok (arpTimer s) :=
  invariant_foldl (P := Ok) (fun _ k hs => arpTimerEntry_ok hs k) _ h

/-! ### IPv4 -/

structure Outgoing (proto : U8) (p : Pkt) : Prop where
  low : 34 ≤ p.off.toNat
  high : p.off.toNat ≤ 202
  fits : p.Fits
  icmp : proto = ipprotoIcmp → p.len.toNat + 20 ≤ pktDataMax

theorem ipHeader_byte (ident : U16) (src dst : U32) (proto : U8) (p : Pkt) :
    (ipHeader ident src dst proto p).byte 0 = 0x45 ∧ (ipHeader ident src dst proto p).byte 9 = proto := by
  refine ⟨(Pkt.byte_put_of_lt (by decide)).trans ?_, (Pkt.byte_put_of_lt (by decide)).trans ?_⟩
  · exact Pkt.byte_put_of_mem (i := 0) (k := 0) (by simp)
  · exact Pkt.byte_put_of_mem (i := 0) (k := 9) (by simp [beBytes16])

theorem Outgoing.framed {proto : U8} (hp : Outgoing proto p) (ident : U16) (src dst : U32) :
    Framed (ipHeader ident src dst proto (p.push 20)) := by
  have hn : (20 : U32).toNat ≤ p.off.toNat := Nat.le_trans (by decide) hp.low
  obtain ⟨hver, hproto⟩ := ipHeader_byte ident src dst proto (p.push 20)
  obtain ⟨hoff, hlen⟩ := Pkt.toNat_push hp.fits hn
  have hoff' : (ipHeader ident src dst proto (p.push 20)).off.toNat = p.off.toNat - 20 := hoff
  have hlen' : (ipHeader ident src dst proto (p.push 20)).len.toNat = p.len.toNat + 20 := hlen
  have hlow := hp.low
  have hhigh := hp.high
  refine ⟨by omega, by omega, hp.fits.push hn, hver, fun hi => ?_⟩
  rw [hlen']
  exact hp.icmp (hproto.symm.trans hi)

theorem ipSend_ok {proto : U8} (h : Ok s) (hp : Outgoing proto p) (src dst : U32) :
    Ok (ipSend s src dst proto p).1 := by
  have hpush := h.push hp.fits (n := 20) (Nat.le_trans (by decide) hp.low)
  rw [ipSend]
  split
  · exact h
  dsimp only
  split
  · exact h
  · have hid (x : U16) : Ok { s.pushed p 20 with ident := x } := { hpush with }
    exact arpOutput_ok (hid _) (hp.framed _ _ _) _ _

/-! ### Delivery -/

variable {q : Sock}

theorem Ok.setRaw (h : Ok s) (hq : ∀ p ∈ q.rxq, p.Fits) (k : Nat) : Ok (s.setRaw k q) := by
  refine { h with raw := fun x hx => ?_ }
  rcases List.mem_or_eq_of_mem_set hx with hx | rfl
  · exact h.raw x hx
  · exact hq

theorem Ok.setUdp (h : Ok s) (hq : ∀ p ∈ q.rxq, p.Fits) (k : Nat) : Ok (s.setUdp k q) := by
  refine { h with udp := fun x hx => ?_ }
  rcases List.mem_or_eq_of_mem_set hx with hx | rfl
  · exact h.udp x hx
  · exact hq

theorem sockDeliver_fits (hq : ∀ p ∈ q.rxq, p.Fits) (hp : p.Fits) : ∀ x ∈ (sockDeliver q p).rxq, x.Fits := by
  rw [sockDeliver]
  split
  · exact hq
  intro x hx
  rcases List.mem_append.mp hx with hx | hx
  · exact hq x hx
  · cases List.mem_singleton.mp hx
    exact hp

structure Received (p : Pkt) : Prop where
  low : 34 ≤ p.off.toNat
  high : p.off.toNat ≤ 202
  fits : p.Fits
  ihl : 20 ≤ p.ihl.toNat
  header : p.ihl.toNat ≤ p.off.toNat
  len : p.len.toNat + p.ihl.toNat ≤ pktDataMax

theorem pktDataMax_eq : pktDataMax = 1856 := rfl

theorem Received.toNat_len (hp : Received p) (c : Pkt) : (c.sized p).len.toNat = p.len.toNat + p.ihl.toNat := by
  have hin := hp.len
  rw [pktDataMax_eq] at hin
  change (p.len + p.ihl.setWidth 32).toNat = _
  rw [BitVec.toNat_add, BitVec.toNat_setWidth]
  omega

theorem Received.sized_fits (hp : Received p) (c : Pkt) : (c.sized p).Fits := by
  have hin := hp.len
  rw [pktDataMax_eq] at hin
  rw [Pkt.Fits, hp.toNat_len, bufSize_eq]
  change 128 + _ ≤ _
  omega

theorem rawCopy_ok (hp : Received p) (h : Ok s) (k : Nat) : Ok (rawCopy p s k) := by
  rw [rawCopy]
  split
  · exact h
  next q hq =>
  split
  · exact h
  have hqf := h.raw q (List.mem_of_getElem? hq)
  obtain ⟨hs, -⟩ := pktAlloc_ok h
  generalize pktAlloc s = r at hs ⊢
  obtain ⟨s₁, _ | c⟩ := r
  · exact hs
  have hc := hp.sized_fits c
  have hsrc : (Act.read ((p.off.toNat : Int) - p.ihl.toNat) (c.sized p).len.toNat).Fits := by
    have hfits := hp.fits
    have hheader := hp.header
    rw [Pkt.Fits] at hfits
    rw [hp.toNat_len]
    refine ⟨by omega, ?_⟩
    omega
  have hcopied : (Pkt.copied (c.sized p) p).Fits := hc
  exact Ok.setRaw (((hs.shape hc).note hsrc).note (a := .write _ _) hc) (sockDeliver_fits hqf hcopied) k

theorem Received.echoReply (hp : Received p) : Outgoing ipprotoIcmp p.echoReply where
  low := hp.low
  high := hp.high
  fits := hp.fits
  icmp := fun _ => Nat.le_trans (Nat.add_le_add_left hp.ihl _) hp.len

theorem icmpRx_ok (h : Ok s) (hp : Received p) : Ok (icmpRx s p) := by
  rw [icmpRx]
  split
  · exact h
  have hr := h.read hp.fits (le_refl p.len.toNat)
  dsimp only
  split
  · exact hr
  have hcopies : Ok ((List.range (s.note (.read p.off.toNat p.len.toNat)).raw.length).foldl (rawCopy p)
      (s.note (.read p.off.toNat p.len.toNat))) :=
    invariant_foldl (P := Ok) (fun _ k hs => rawCopy_ok hp hs k) _ hr
  split
  · exact ipSend_ok hcopies hp.echoReply _ _
  · exact hcopies

theorem toNat_setWidth_32 (n : U16) : (n.setWidth 32 : U32).toNat = n.toNat := by
  rw [BitVec.toNat_setWidth]
  have := n.isLt
  omega

theorem udpRx_ok (h : Ok s) (hp : p.Fits) : Ok (udpRx s p) := by
  rw [udpRx]
  split
  · exact h
  dsimp only
  split
  · exact h
  next hn =>
  rw [not_or, Nat.not_lt, Nat.not_lt] at hn
  have hr := h.read hp hn.2
  split
  · exact hr
  have hlen : p.udpTrim.len.toNat = (p.be16 4).toNat := toNat_setWidth_32 _
  have htrim : p.udpTrim.Fits := by
    rw [Pkt.Fits, hlen]
    exact Nat.le_trans (Nat.add_le_add_left hn.2 _) hp
  have h8 : (8 : U32).toNat ≤ p.udpTrim.len.toNat := hlen.symm ▸ hn.1
  have hpull := (hr.shape htrim).pull htrim h8
  split
  · exact hpull
  split
  · exact hpull
  · next q hq =>
    exact hpull.setUdp (sockDeliver_fits (hpull.udp q (List.mem_of_getElem? hq)) (htrim.pull h8)) _

theorem tcpRx_ok (h : Ok s) (hp : p.Fits) : Ok (tcpRx s p) := by
  rw [tcpRx]
  split
  · exact h
  dsimp only
  split
  · exact h
  next hn =>
  rw [not_or, Nat.not_lt, Nat.not_lt] at hn
  have hr := h.read hp (le_refl p.len.toNat)
  split
  · exact hr
  refine hr.note ⟨by omega, ?_⟩
  have hlen := p.len.isLt
  rw [Pkt.Fits] at hp
  rw [BitVec.toNat_sub, BitVec.toNat_ofNat]
  omega

structure Incoming (p : Pkt) : Prop where
  low : 14 ≤ p.off.toNat
  high : p.off.toNat + p.hdrLen.toNat ≤ 202
  fits : p.Fits
  icmp : p.byte 9 = ipprotoIcmp → p.len.toNat ≤ pktDataMax

theorem Framed.incoming (hp : Framed p) : Incoming p := by
  refine ⟨hp.low, ?_, hp.fits, hp.icmp⟩
  have hhigh := hp.high
  rw [Pkt.hdrLen, hp.ver, show ((0x45 &&& 0xF#8).setWidth 32 * 4 : U32).toNat = 20 from rfl]
  omega

theorem Pkt.Fits.arrived (hp : p.Fits) (i : Nat) : (p.arrived i).Fits := hp

theorem Framed.arrived (hp : Framed p) (i : Nat) : Framed (p.arrived i) :=
  ⟨hp.low, hp.high, hp.fits, hp.ver, hp.icmp⟩

theorem Pkt.hdrLen_le (p : Pkt) : p.hdrLen.toNat ≤ 60 := by
  have hb : (p.byte 0 &&& 0xF#8).toNat ≤ 15 := by
    rw [BitVec.toNat_and]
    exact Nat.and_le_right
  rw [hdrLen, BitVec.toNat_mul, BitVec.toNat_setWidth]
  change _ % _ * 4 % _ ≤ _
  omega

theorem Incoming.received (hp : Incoming p) (hproto : p.byte 9 = ipprotoIcmp) (hmin : 20 ≤ p.hdrLen.toNat)
    (hihl : p.hdrLen.toNat ≤ p.ipTrim.len.toNat) (htotal : p.ipTrim.len.toNat ≤ p.len.toNat)
    (htrim : p.ipTrim.Fits) : Received (p.ipTrim.pull p.hdrLen) := by
  obtain ⟨hoff, hlen⟩ := Pkt.toNat_pull htrim hihl
  have hoff' : (p.ipTrim.pull p.hdrLen).off.toNat = p.off.toNat + p.hdrLen.toNat := hoff
  have h16 : (p.ipTrim.pull p.hdrLen).ihl.toNat = p.hdrLen.toNat := by
    change (p.hdrLen.setWidth 16).toNat = _
    have := p.hdrLen_le
    rw [BitVec.toNat_setWidth]
    omega
  have hlow := hp.low
  have hhigh := hp.high
  have hdata := hp.icmp hproto
  exact ⟨by omega, by omega, htrim.pull hihl, by omega, by omega, by omega⟩

theorem ipRx_ok (h : Ok s) (hp : Incoming p) (i : Nat) : Ok (ipRx s i p) := by
  have hh : Ok { s with handed := (i, p) :: s.handed } := { h with }
  rw [ipRx]
  dsimp only
  split
  · exact hh
  split
  · exact hh
  next hn =>
  rw [not_or, not_or, BitVec.not_lt, BitVec.not_lt, BitVec.not_lt, BitVec.le_def, BitVec.le_def,
    BitVec.le_def] at hn
  obtain ⟨hmin, hihl, htotal⟩ := hn
  have hr := hh.read hp.fits (Nat.le_trans hihl htotal)
  split
  · exact hr
  split
  · exact hr
  split
  · exact hr
  have htrim : p.ipTrim.Fits := Nat.le_trans (Nat.add_le_add_left htotal _) hp.fits
  have hpull := (hr.shape htrim).pull htrim hihl
  split
  · next hproto => exact icmpRx_ok hpull (hp.received hproto hmin hihl htotal htrim)
  split
  · exact udpRx_ok hpull (htrim.pull hihl)
  split
  · exact tcpRx_ok hpull (htrim.pull hihl)
  · exact hpull

theorem netRx_lo_ok (h : Ok s) (hp : p.Fits) (hip : p.proto = ethPIp → Framed p) {i : Nat}
    (hl : (s.dev i).loopback = true) : Ok (netRx s i p) := by
  rw [netRx, if_pos hl]
  split
  · next hproto => exact ipRx_ok h ((hip hproto).arrived i).incoming i
  split
  · exact arpRx_ok h (hp.arrived i) i
  · exact h

theorem netRx_nic_ok (h : Ok s) (hoff : p.off.toNat = pktHeadroom) (hlen : p.len.toNat ≤ pktDataMax) {i : Nat}
    (hl : (s.dev i).loopback = false) : Ok (netRx s i p) := by
  have hp : p.Fits := by
    rw [Pkt.Fits, hoff]
    exact Nat.add_le_add_left hlen 128
  rw [netRx, hl, if_neg Bool.false_ne_true]
  split
  · exact h
  next hmin =>
  have hdev := hp.arrived i
  have hn : (14 : U32).toNat ≤ (p.arrived i).len.toNat := Nat.le_of_not_lt hmin
  obtain ⟨hoff', hlen'⟩ := Pkt.toNat_pull hdev hn
  have hpull := (Ok.read h hdev (n := 14) hn).pull hdev hn
  dsimp only
  split
  · refine ipRx_ok hpull ⟨?_, ?_, hdev.pull hn, fun _ => ?_⟩ i
    · rw [hoff']
      exact Nat.le_add_left _ _
    · have := ((p.arrived i).pull 14).hdrLen_le
      rw [hoff', show (p.arrived i).off.toNat = 128 from hoff]
      change 128 + 14 + _ ≤ 202
      omega
    · rw [hlen']
      exact Nat.le_trans (Nat.sub_le _ _) hlen
  split
  · exact arpRx_ok hpull (hdev.pull hn) i
  · exact hpull

theorem loTurn_ok (h : Ok s) (hl : (s.dev 0).loopback = true) : Ok (loTurn s) := by
  rw [loTurn]
  split
  · exact h
  next p lo heq =>
  have hlo := h.lo
  rw [heq] at hlo
  obtain ⟨hp, hlo⟩ := List.forall_mem_cons.mp hlo
  have hrest : Ok { s with lo := lo } := { h with lo := hlo }
  exact netRx_lo_ok hrest hp.1 hp.2 hl

/-! ### Drivers and senders -/

theorem payload_ok (h : Ok s) {bs : List U8} (hbs : bs.length ≤ pktDataMax) :
    Ok (payload s bs).1 ∧
      ∀ p ∈ (payload s bs).2, p.off.toNat = pktHeadroom ∧ p.len.toNat = bs.length := by
  obtain ⟨hs, hp⟩ := pktAlloc_ok h
  rw [payload]
  generalize pktAlloc s = r at hs hp ⊢
  obtain ⟨s₁, _ | p⟩ := r
  · exact ⟨hs, fun p hp => (Option.not_mem_none _ hp).elim⟩
  obtain ⟨hoff, -⟩ := hp p rfl
  have hlen : (p.filled bs).len.toNat = bs.length := by
    rw [pktDataMax_eq] at hbs
    change (BitVec.ofNat 32 bs.length).toNat = _
    rw [BitVec.toNat_ofNat]
    omega
  have hw : (Act.write p.off.toNat bs.length).Fits := by
    change p.off.toNat + bs.length ≤ bufSize
    rw [hoff]
    exact Nat.add_le_add_left hbs 128
  have hfits : (p.filled bs).Fits := by
    rw [Pkt.Fits, hlen]
    exact hw
  refine ⟨(hs.note hw).shape hfits, fun q hq => ?_⟩
  cases hq
  exact ⟨hoff, hlen⟩

theorem rxFrame_ok (h : Ok s) {frame : List U8} (hlen : frame.length ≤ pktDataMax) (i : Nat) :
    Ok (rxFrame s i frame) := by
  rw [rxFrame]
  split
  · exact h
  next nic hnic =>
  split
  · obtain ⟨hs, hp⟩ := payload_ok h hlen
    have hl := h.dev i
    rw [hnic, ← (payload_grows s frame).dev i] at hl
    generalize payload s frame = r at hs hp hl ⊢
    obtain ⟨s₁, _ | p⟩ := r
    · exact hs
    · obtain ⟨hoff, hlen'⟩ := hp p rfl
      exact netRx_nic_ok hs hoff (hlen' ▸ hlen) hl
  · exact h

theorem udpSend_ok (h : Ok s) (hoff : p.off.toNat = pktHeadroom) (hp : p.Fits) (q : Sock) (dst : U32)
    (port : U16) :
    Ok (udpSend s q dst port p).1 := by
  have hn : (8 : U32).toNat ≤ p.off.toNat := by
    rw [hoff]
    decide
  have hpush := h.push hp hn
  have hoff' : (p.push 8).off.toNat = 120 := by
    rw [(Pkt.toNat_push hp hn).1, hoff]
    rfl
  rw [udpSend]
  split
  · exact hpush
  refine ipSend_ok hpush ⟨?_, ?_, ((hp.push hn).put _ _).put _ _, fun hproto => absurd hproto (by decide)⟩ _ _
  · rw [Pkt.put_off, Pkt.put_off, hoff']
    decide
  · rw [Pkt.put_off, Pkt.put_off, hoff']
    decide

theorem sendUdp_ok (h : Ok s) (k : Nat) (addr : Option (U32 × U16)) (port : Option U16) (buf : List U8) :
    Ok (sendUdp s k addr port buf).1 := by
  rw [sendUdp]
  split
  · exact h
  next q hq =>
  split
  · exact h
  split
  · exact h
  next hlen =>
  obtain ⟨hs, hp⟩ := payload_ok h (Nat.le_of_not_lt hlen)
  have hqf := h.udp q (List.mem_of_getElem? hq)
  generalize payload s buf = r at hs hp ⊢
  obtain ⟨s₁, _ | p⟩ := r
  · exact hs
  obtain ⟨hoff, hlen'⟩ := hp p rfl
  have hfits : p.Fits := by
    rw [Pkt.Fits, hoff, hlen']
    exact Nat.add_le_add_left (Nat.le_of_not_lt hlen) 128
  dsimp only at hs ⊢
  have hbound : ∀ x ∈ (if q.bound then some q else port.map fun x => { q with localPort := x, bound := true }),
      ∀ p ∈ x.rxq, p.Fits := by
    intro x hx
    split at hx
    · cases hx
      exact hqf
    · obtain ⟨y, -, rfl⟩ := Option.map_eq_some_iff.mp hx
      exact hqf
  split
  · exact hs
  next x hx =>
  have hset := hs.setUdp (hbound x hx) k
  split
  · exact hset
  · exact udpSend_ok hset hoff hfits _ _ _

theorem sendRaw_ok (h : Ok s) (k : Nat) (addr : Option (U32 × U16)) {buf : List U8}
    (hbuf : buf.length + 20 ≤ pktDataMax) : Ok (sendRaw s k addr buf).1 := by
  rw [sendRaw]
  split
  · exact h
  split
  · exact h
  split
  · exact h
  have hlen : buf.length ≤ pktDataMax := Nat.le_trans (Nat.le_add_right _ 20) hbuf
  obtain ⟨hs, hp⟩ := payload_ok h hlen
  generalize payload s buf = r at hs hp ⊢
  obtain ⟨s₁, _ | p⟩ := r
  · exact hs
  obtain ⟨hoff, hlen'⟩ := hp p rfl
  refine ipSend_ok hs ⟨?_, ?_, ?_, fun _ => hlen'.symm ▸ hbuf⟩ _ _
  · rw [hoff]
    decide
  · rw [hoff]
    decide
  · rw [Pkt.Fits, hoff, hlen']
    exact Nat.add_le_add_left hlen 128

theorem tcpEmit_ok (h : Ok s) (g : Segment) : Ok (tcpEmit s g).1 := by
  have hdata := g.data_le
  have hopts := g.opts_le
  have hfresh : Ok (if g.data = [] then pktAlloc s else payload s g.data).1 ∧
      ∀ p ∈ (if g.data = [] then pktAlloc s else payload s g.data).2,
        p.off.toNat = pktHeadroom ∧ p.len.toNat ≤ 1460 := by
    split
    · obtain ⟨hs, hp⟩ := pktAlloc_ok h
      exact ⟨hs, fun p hx => ⟨(hp p hx).1, (hp p hx).2 ▸ Nat.zero_le _⟩⟩
    · obtain ⟨hs, hp⟩ := payload_ok h (Nat.le_trans hdata (by decide))
      exact ⟨hs, fun p hx => ⟨(hp p hx).1, (hp p hx).2 ▸ hdata⟩⟩
  obtain ⟨hs, hp⟩ := hfresh
  rw [tcpEmit]
  generalize (if g.data = [] then pktAlloc s else payload s g.data) = r at hs hp ⊢
  obtain ⟨s₁, _ | p⟩ := r
  · exact hs
  obtain ⟨hoff, hlen⟩ := hp p rfl
  have hfits : p.Fits := by
    rw [Pkt.Fits, hoff]
    exact Nat.le_trans (Nat.add_le_add_left hlen 128) (by decide)
  have hopt : (BitVec.ofNat 32 (20 + g.opts.length)).toNat = 20 + g.opts.length := by
    rw [BitVec.toNat_ofNat]
    omega
  have hn : (BitVec.ofNat 32 (20 + g.opts.length)).toNat ≤ p.off.toNat := by
    rw [hopt, hoff]
    change _ ≤ 128
    omega
  have hoff' := (Pkt.toNat_push hfits hn).1
  rw [hopt, hoff] at hoff'
  change _ = 128 - _ at hoff'
  refine ipSend_ok (hs.push hfits hn)
    ⟨?_, ?_, ((hfits.push hn).put _ _).put _ _, fun hproto => absurd hproto (by decide)⟩ _ _
  · rw [Pkt.put_off, Pkt.put_off, hoff']
    omega
  · rw [Pkt.put_off, Pkt.put_off, hoff']
    omega

theorem recvfrom_ok (h : Ok s) (hq : ∀ p ∈ q.rxq, p.Fits) (len : Nat) (peek : Bool) :
    Ok (recvfrom s q len peek).1 ∧ ∀ p ∈ (recvfrom s q len peek).2.rxq, p.Fits := by
  rw [recvfrom]
  split
  · exact ⟨h, hq⟩
  next p rxq heq =>
  rw [heq] at hq
  obtain ⟨hp, hrest⟩ := List.forall_mem_cons.mp hq
  have hr := h.read hp (Nat.min_le_right len p.len.toNat)
  dsimp only
  split
  · exact ⟨hr, fun x hx => hq x (heq ▸ hx)⟩
  · exact ⟨hr, hrest⟩

/-! ### Runs -/

theorem forall_mem_modify {α : Type} {P : α → Prop} {l : List α} {f : α → α} (h : ∀ x ∈ l, P x)
    (hf : ∀ x ∈ l, P (f x)) (i : Nat) : ∀ x ∈ l.modify i f, P x := by
  intro x hx
  obtain ⟨k, hk⟩ := List.mem_iff_getElem?.mp hx
  rw [List.getElem?_modify] at hk
  obtain ⟨y, hy, rfl⟩ := Option.map_eq_some_iff.mp hk
  have hmem := List.mem_of_getElem? hy
  split
  · exact hf y hmem
  · exact h y hmem

/-- No device hands over a frame longer than a fresh packet's room, and no raw socket a
packet that has no room for its IP header as well. -/
def Op.Sized : Op → Prop
  | .frame _ bytes => bytes.length ≤ pktDataMax
  | .sendRaw _ _ buf => buf.length + 20 ≤ pktDataMax
  | _ => True

theorem apply_ok (h : Ok s) (hl : LoFirst s) {op : Op} (hop : op.Sized) : Ok (s.apply op) := by
  cases op with
  | register nic mac =>
    refine { h with devs := fun d hd => ?_ }
    rcases List.mem_append.mp hd with hd | hd
    · exact h.devs d hd
    · cases List.mem_singleton.mp hd
      rfl
  | ioctl i req =>
    refine { h with devs := forall_mem_modify h.devs (fun d hd => ?_) i }
    cases req <;> exact h.devs d hd
  | frame i bytes => exact rxFrame_ok h hop i
  | loTurn => exact loTurn_ok h hl.dev.1
  | arpTimer => exact arpTimer_ok h
  | emit g => exact tcpEmit_ok h g
  | openUdp conf =>
    exact { h with udp := List.forall_mem_cons.mpr ⟨fun _ hp => (List.not_mem_nil hp).elim, h.udp⟩ }
  | openRaw conf =>
    exact { h with raw := List.forall_mem_cons.mpr ⟨fun _ hp => (List.not_mem_nil hp).elim, h.raw⟩ }
  | setUdp k conf =>
    refine { h with udp := forall_mem_modify h.udp (fun q hq => ?_) k }
    exact h.udp q hq
  | setRaw k conf =>
    refine { h with raw := forall_mem_modify h.raw (fun q hq => ?_) k }
    exact h.raw q hq
  | closeUdp k => exact { h with udp := fun q hq => h.udp q (List.mem_of_mem_eraseIdx hq) }
  | closeRaw k => exact { h with raw := fun q hq => h.raw q (List.mem_of_mem_eraseIdx hq) }
  | sendUdp k addr port buf => exact sendUdp_ok h k addr port buf
  | sendRaw k addr buf => exact sendRaw_ok h k addr hop
  | recvUdp k len peek =>
    rw [Stack.apply]
    split
    · exact h
    next q hq =>
    obtain ⟨hs, hr⟩ := recvfrom_ok h (h.udp q (List.mem_of_getElem? hq)) len peek
    exact hs.setUdp hr k
  | recvRaw k len peek =>
    rw [Stack.apply]
    split
    · exact h
    next q hq =>
    obtain ⟨hs, hr⟩ := recvfrom_ok h (h.raw q (List.mem_of_getElem? hq)) len peek
    exact hs.setRaw hr k

end

end Sic.Net
