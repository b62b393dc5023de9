import Sic.Net.StackBounds

/-! Packet buffers over whole runs of the stack, and the copy that does not fit. -/

namespace Sic.Net

def Sized (_ : Stack) (e : Event) : Prop := e.op.Sized

theorem step_ok {s : Stack} {e : Event} (h : Ok s ∧ LoFirst s) (he : Sized s e) :
    Ok (step s e) ∧ LoFirst (step s e) := by
  have hs : Ok (s.armed e) := { h.1 with }
  exact ⟨apply_ok hs (h.2.armed e) he, step_loFirst h.2 e⟩

theorem run_ok {es : List Event} (h : Along Sized step boot es) :
    Ok (run step boot es) ∧ LoFirst (run step boot es) :=
  invariant_run (P := fun s => Ok s ∧ LoFirst s) (fun _ _ hs he => step_ok hs he) ⟨boot_ok, boot_loFirst⟩ h

def Stack.Holds (s : Stack) (p : Pkt) : Prop :=
  p ∈ s.lo ∨ (∃ e ∈ s.cache, p ∈ e.pending) ∨ ∃ q ∈ s.udp ++ s.raw, p ∈ q.rxq

/-- Every push, copy, read and change of length in a run, and every packet kept at its
end, stays within the packet's buffer. -/
theorem packets_stay_in_buffers (es : List Event) (h : Along Sized step boot es) :
    (∀ a ∈ (run step boot es).acts, a.Fits) ∧ ∀ p, (run step boot es).Holds p → p.Fits := by
  obtain ⟨hok, -⟩ := run_ok h
  refine ⟨hok.acts, fun p hp => ?_⟩
  rcases hp with hp | ⟨e, he, hp⟩ | ⟨q, hq, hp⟩
  · exact (hok.lo p hp).1
  · exact (hok.pending e he p hp).fits
  rcases List.mem_append.mp hq with hq | hq
  · exact hok.udp q hq p hp
  · exact hok.raw q hq p hp

def sendBroadcast (bs : List U8) : List Event :=
  [{ op := .openRaw { proto := ipprotoIcmp } }, { op := .sendRaw 0 (some (0x7FFFFFFF, 0)) bs }]

theorem packets_stay_in_buffers_ping :
    Along Sized step boot (sendBroadcast [8, 0, 0xF7, 0xFF, 0, 0, 0, 0]) ∧
      ∀ a ∈ (run step boot (sendBroadcast [8, 0, 0xF7, 0xFF, 0, 0, 0, 0])).acts, a.Fits := by
  have h : Along Sized step boot (sendBroadcast [8, 0, 0xF7, 0xFF, 0, 0, 0, 0]) :=
    ⟨trivial, (by decide : 8 + 20 ≤ pktDataMax), trivial⟩
  exact ⟨h, (packets_stay_in_buffers _ h).1⟩

def bigIcmp : List U8 := [0, 0, 0xFF, 0xFF] ++ List.replicate 1852 0

theorem bigIcmp_length : bigIcmp.length = 1856 := by
  rw [bigIcmp, List.length_append, List.length_replicate]
  rfl

theorem sum16_zeros : ∀ n, sum16 (List.replicate n 0) = 0
  | 0 => rfl
  | 1 => rfl
  | n + 2 => by
    rw [List.replicate_succ, List.replicate_succ, sum16, sum16_zeros n]
    rfl

theorem ipChecksum_bigIcmp : ipChecksum bigIcmp = 0 := by
  have hsum : sum16 bigIcmp = 0xFFFF := by
    change _ + (_ + sum16 (List.replicate 1852 0)) = _
    rw [sum16_zeros]
    rfl
  rw [ipChecksum, hsum]
  rfl

theorem filled_bytes (p : Pkt) (bs : List U8) : (p.filled bs).bytes 0 bs.length = bs := by
  refine List.ext_getElem (by simp [Pkt.bytes]) fun k h₁ h₂ => ?_
  have hk : (p.filled bs).byte (0 + k) = bs.getD k 0 := Pkt.byte_put_of_mem h₂
  simp only [Pkt.bytes, List.getElem_map, List.getElem_range]
  rw [hk, List.getD_eq_getElem?_getD, List.getElem?_eq_getElem h₂, Option.getD_some]

theorem ipHeader_buf (ident : U16) (src dst : U32) (proto : U8) {p : Pkt} {j : Nat} (h : p.off.toNat + 20 ≤ j) :
    (ipHeader ident src dst proto p).buf j = p.buf j := by
  rw [ipHeader, Pkt.put_buf, if_neg, Pkt.put_buf, if_neg]
  · simp [beBytes16, beBytes32]
    omega
  · simp [beBytes16]
    omega

theorem icmpRx_copy {s : Stack} {p : Pkt} {q : Sock} (hraw : s.raw = [q]) (hmem : s.mem = [])
    (hq : q.proto = ipprotoIcmp ∧ q.remoteIp = 0) (hlen : 8 ≤ p.len.toNat)
    (hsum : ipChecksum (p.bytes 0 p.len.toNat) = 0) (htype : p.byte 0 ≠ 8) :
    .shape (BitVec.ofNat 32 pktHeadroom) (p.len + p.ihl.setWidth 32) ∈ (icmpRx s p).acts := by
  rw [icmpRx, if_neg (Nat.not_lt.mpr hlen)]
  dsimp only
  rw [if_neg (not_not.mpr hsum), if_neg (fun h => htype h.1)]
  have hone : (s.note (.read p.off.toNat p.len.toNat)).raw.length = 1 := by
    change s.raw.length = 1
    rw [hraw]
    rfl
  have hget : (s.note (.read p.off.toNat p.len.toNat)).raw[0]? = some q := by
    change s.raw[0]? = _
    rw [hraw]
    rfl
  have halloc : pktAlloc (s.note (.read p.off.toNat p.len.toNat)) =
      (s.note (.read p.off.toNat p.len.toNat), some { buf := fun _ => 0 }) := by
    have hmem' : (s.note (.read p.off.toNat p.len.toNat)).mem = [] := hmem
    rw [pktAlloc]
    simp only [hmem']
  rw [hone]
  change _ ∈ (rawCopy p (s.note (.read p.off.toNat p.len.toNat)) 0).acts
  rw [rawCopy, hget]
  dsimp only
  rw [if_neg, halloc]
  · exact List.mem_cons_of_mem _ (List.mem_cons_of_mem _ (List.mem_cons_self ..))
  · rw [hq.1, hq.2]
    simp

def fresh (bs : List U8) : Pkt := Pkt.filled { buf := fun _ => 0 } bs

def rawOpen (bs : List U8) : Stack :=
  (({ boot with raw := [{ proto := ipprotoIcmp }] } : Stack).note (.write pktHeadroom bs.length)).shape (fresh bs)

theorem rawOpen_loFirst (bs : List U8) : LoFirst (rawOpen bs) := ⟨loDev, [], rfl, rfl, rfl, rfl⟩

theorem run_sendBroadcast {bs : List U8} (h : bs.length ≤ pktDataMax) :
    run step boot (sendBroadcast bs) = { (rawOpen bs).headed (fresh bs) with
      lo := [loPkt (rawOpen bs) 0 0x7FFFFFFF ipprotoIcmp (fresh bs)] } := by
  have hlen : (fresh bs).len.toNat + 20 ≤ 65535 := by
    change (BitVec.ofNat 32 bs.length).toNat + 20 ≤ 65535
    rw [pktDataMax_eq] at h
    rw [BitVec.toNat_ofNat]
    omega
  have hsend : run step boot (sendBroadcast bs) =
    (ipSend (rawOpen bs) 0 0x7FFFFFFF ipprotoIcmp (fresh bs)).1 := by
    change (if pktDataMax < bs.length then _ else _ : Stack × Int).1 = _
    rw [if_neg (Nat.not_lt.mpr h)]
    rfl
  rw [hsend, ipSend_local_broadcast (rawOpen_loFirst bs) hlen rfl
    (by decide : arpBroadcast loDev 0x7FFFFFFF = true)]
  rfl

def bigReceived : Pkt := (loPkt (rawOpen bigIcmp) 0 0x7FFFFFFF ipprotoIcmp (fresh bigIcmp)).arrived 0

theorem bigReceived_header :
    ¬ (bigReceived.len.toNat < 20 ∨ bigReceived.byte 0 >>> 4 ≠ 4) ∧
    ¬ (bigReceived.hdrLen < 20 ∨ (bigReceived.be16 2).setWidth 32 < bigReceived.hdrLen ∨
      bigReceived.len < (bigReceived.be16 2).setWidth 32) ∧
    ipChecksum (bigReceived.bytes 0 bigReceived.hdrLen.toNat) = 0 ∧
    bigReceived.be16 6 &&& 0x3FFF#16 = 0 ∧ bigReceived.be32 16 = 0x7FFFFFFF ∧
      bigReceived.byte 9 = ipprotoIcmp := by
  decide +kernel

theorem bigReceived_data :
    (bigReceived.ipTrim.pull bigReceived.hdrLen).off.toNat = 128 ∧
      (bigReceived.ipTrim.pull bigReceived.hdrLen).len.toNat = 1856 ∧
      (bigReceived.ipTrim.pull bigReceived.hdrLen).ihl = 20 ∧
      (bigReceived.ipTrim.pull bigReceived.hdrLen).byte 0 ≠ 8 := by
  decide +kernel

theorem bigReceived_bytes : (bigReceived.ipTrim.pull bigReceived.hdrLen).bytes 0 1856 = bigIcmp := by
  have hfill := filled_bytes { buf := fun _ => 0 } bigIcmp
  rw [bigIcmp_length] at hfill
  refine Eq.trans ?_ hfill
  refine List.map_congr_left fun k _ => ?_
  rw [Pkt.byte, bigReceived_data.1]
  exact ipHeader_buf _ _ _ _ (p := (fresh bigIcmp).push 20) (Nat.le_add_right_of_le (by decide))

theorem ipRx_bigReceived {s : Stack} (hdev : s.dev 0 = loDev) {a : Act}
    (ha : ∀ x : Stack, x.raw = s.raw → x.mem = s.mem →
      a ∈ (icmpRx x (bigReceived.ipTrim.pull bigReceived.hdrLen)).acts) : a ∈ (ipRx s 0 bigReceived).acts := by
  obtain ⟨hver, hlen, hsum, hfrag, hdst, hproto⟩ := bigReceived_header
  rw [ipRx]
  dsimp only
  rw [if_neg hver, if_neg hlen, if_neg (not_not.mpr hsum), if_neg (not_not.mpr hfrag), hdst, if_neg,
    if_pos hproto]
  · exact ha _ rfl rfl
  change ¬ (!(_ || ((s.dev 0).ip != 0 && (s.dev 0).mask != 0 && _ == (s.dev 0).bcast)) && _ && _) = true
  rw [hdev]
  simp [loDev, Netdev.bcast]

theorem run_loTurn {s : Stack} {q : Pkt} (hlo : s.lo = [q]) (hl : (s.dev 0).loopback = true)
    (hq : q.proto = ethPIp) :
    run step s [{ op := .loTurn }] = ipRx { s.armed { op := .loTurn } with lo := [] } 0 (q.arrived 0) := by
  have hlo' : (s.armed { op := .loTurn }).lo = [q] := hlo
  have hl' : (Stack.dev { s.armed { op := .loTurn } with lo := [] } 0).loopback = true := hl
  exact (loTurn_cons hlo').trans (netRx_ip hl' hq)

/-- The copy for the raw socket reaches twenty bytes past the end of its buffer. -/
theorem raw_copy_overflows :
    ¬ ∀ es : List Event, ∀ a ∈ (run step boot es).acts, a.Fits := by
  intro h
  have hlen : bigIcmp.length ≤ pktDataMax := by rw [bigIcmp_length]; decide
  have hrun := run_sendBroadcast hlen
  have hmem : Act.shape 128 1876 ∈ (run step boot (sendBroadcast bigIcmp ++ [{ op := .loTurn }])).acts := by
    rw [run_append, hrun, run_loTurn rfl rfl rfl]
    refine ipRx_bigReceived rfl fun x hraw hmem => ?_
    obtain ⟨-, hlen, hihl, htype⟩ := bigReceived_data
    have hcopy := icmpRx_copy (s := x) (p := bigReceived.ipTrim.pull bigReceived.hdrLen) hraw hmem ⟨rfl, rfl⟩
      (by rw [hlen]; decide) (by rw [hlen, bigReceived_bytes]; exact ipChecksum_bigIcmp) htype
    have hlen' : (bigReceived.ipTrim.pull bigReceived.hdrLen).len = 1856 := by
      rw [← BitVec.toNat_inj, hlen]
      rfl
    rw [hihl, hlen'] at hcopy
    exact hcopy
  exact absurd (h _ _ hmem) (by decide)

end Sic.Net
