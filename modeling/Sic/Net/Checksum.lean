import Sic.Net.StackRun

/-! The checksums that the stack puts into its packets against those that it asks of the packets it receives. -/

namespace Sic.Net

/-! ### Sums of words -/

def words : List U8 → Nat
  | a :: b :: bs => (a ++ b).toNat + words bs
  | [a] => (a ++ 0#8).toNat
  | [] => 0

def folded (n : Nat) : Nat := if n = 0 then 0 else (n - 1) % 65535 + 1

theorem words_le : ∀ bs : List U8, words bs ≤ 65535 * ((bs.length + 1) / 2)
  | [] => Nat.zero_le _
  | [a] => by
    have := (a ++ 0#8).isLt
    simp only [words, List.length_cons, List.length_nil]
    omega
  | a :: b :: bs => by
    have := (a ++ b).isLt
    have := words_le bs
    simp only [words, List.length_cons]
    omega

theorem toNat_sum16 : ∀ bs : List U8, bs.length ≤ 65535 → (sum16 bs).toNat = words bs
  | [], _ => rfl
  | [a], _ => by
    rw [sum16, words, BitVec.toNat_setWidth, Nat.mod_eq_of_lt]
    exact (a ++ 0#8).isLt.trans (by decide)
  | a :: b :: bs, h => by
    rw [List.length_cons, List.length_cons] at h
    have hrest := toNat_sum16 bs (by omega)
    have hle := words_le bs
    have hword := (a ++ b).isLt
    rw [sum16, words, BitVec.toNat_add, BitVec.toNat_setWidth, hrest]
    omega

theorem toNat_turn (x : U32) : ((x &&& 0xFFFF#32) + (x >>> 16)).toNat = x.toNat % 65536 + x.toNat / 65536 := by
  have hmask : (x &&& 0xFFFF#32).toNat = x.toNat % 65536 := by
    rw [BitVec.toNat_and]
    exact Nat.and_two_pow_sub_one_eq_mod x.toNat 16
  have hshift : (x >>> 16).toNat = x.toNat / 65536 := by
    rw [BitVec.toNat_ushiftRight, Nat.shiftRight_eq_div_pow]
  have := x.isLt
  rw [BitVec.toNat_add, hmask, hshift]
  omega

theorem toNat_foldSum (x : U32) : (foldSum 3 x).toNat = folded x.toNat := by
  have hstep (fuel : Nat) (y : U32) : (foldSum (fuel + 1) y).toNat =
      if 65536 ≤ y.toNat then (foldSum fuel ((y &&& 0xFFFF#32) + (y >>> 16))).toNat else y.toNat := by
    have hiff : y >>> 16 ≠ 0 ↔ 65536 ≤ y.toNat := by
      rw [Ne, ← BitVec.toNat_inj, BitVec.toNat_ushiftRight, Nat.shiftRight_eq_div_pow]
      change ¬ y.toNat / 65536 = 0 ↔ _
      omega
    rw [foldSum, apply_ite BitVec.toNat]
    exact if_congr hiff rfl rfl
  have hx := x.isLt
  have h1 := toNat_turn x
  rw [folded, hstep]
  generalize (x &&& 0xFFFF#32) + (x >>> 16) = y at h1 ⊢
  have h2 := toNat_turn y
  rw [hstep]
  generalize (y &&& 0xFFFF#32) + (y >>> 16) = z at h2 ⊢
  have h3 := toNat_turn z
  rw [hstep]
  change (if _ then if _ then if _ then BitVec.toNat ((z &&& 0xFFFF#32) + (z >>> 16)) else _ else _ else _) = _
  split_ifs <;> omega

theorem toNat_complement {x : U32} {n : Nat} (h : x.toNat = n) :
    (~~~(foldSum 3 x).setWidth 16).toNat = 65535 - folded n := by
  have hfold := toNat_foldSum x
  have hle : folded n ≤ 65535 := by
    rw [folded]
    split <;> omega
  rw [h] at hfold
  rw [BitVec.toNat_not, BitVec.toNat_setWidth, hfold, Nat.mod_eq_of_lt (by omega)]

theorem toNat_ipChecksum {bs : List U8} (h : bs.length ≤ 65535) :
    (ipChecksum bs).toNat = 65535 - folded (words bs) :=
  toNat_complement (toNat_sum16 bs h)

def halfSum (ip : U32) : Nat := ip.toNat / 65536 + ip.toNat % 65536

def pseudo (src dst : U32) (proto : U8) (n : Nat) : Nat := halfSum src + halfSum dst + proto.toNat + n

theorem toNat_ipPseudoChecksum (src dst : U32) (proto : U8) {bs : List U8} (h : bs.length ≤ 65535) :
    (ipPseudoChecksum src dst proto bs).toNat = 65535 - folded (pseudo src dst proto bs.length + words bs) := by
  have hhalf (x : U32) : (x >>> 16).toNat = x.toNat / 65536 ∧ (x &&& 0xFFFF#32).toNat = x.toNat % 65536 := by
    constructor
    · rw [BitVec.toNat_ushiftRight, Nat.shiftRight_eq_div_pow]
    · rw [BitVec.toNat_and]
      exact Nat.and_two_pow_sub_one_eq_mod x.toNat 16
  have hle := words_le bs
  have hs := src.isLt
  have hd := dst.isLt
  have hp := proto.isLt
  refine toNat_complement ?_
  rw [pseudo, halfSum, halfSum]
  simp only [BitVec.toNat_add, hhalf, toNat_sum16 bs h, BitVec.toNat_setWidth, BitVec.toNat_ofNat]
  omega

theorem folded_verify (n : Nat) : folded (n + (65535 - folded n)) = 65535 := by
  rw [folded, folded]
  split <;> split <;> omega

theorem folded_eq_iff (n : Nat) : 65535 - folded n = 0 ↔ 0 < n ∧ n % 65535 = 0 := by
  rw [folded]
  split <;> omega

/-! ### Bytes of a packet -/

theorem words_append {as : List U8} (bs : List U8) (h : as.length % 2 = 0) :
    words (as ++ bs) = words as + words bs := by
  match as with
  | [] => exact (Nat.zero_add _).symm
  | [a] => exact absurd h (by simp)
  | a :: b :: as =>
    rw [List.length_cons, List.length_cons] at h
    have hrest : words (as ++ bs) = words as + words bs := words_append bs (by omega)
    simp only [List.cons_append, words, hrest]
    omega

theorem halves16 (c : U16) : c.extractLsb' 8 8 ++ c.extractLsb' 0 8 = c := by
  have h : c.extractLsb' (0 + 8) 8 ++ c.extractLsb' 0 8 = c.extractLsb' 0 16 :=
    BitVec.extractLsb'_append_extractLsb'_eq_extractLsb' rfl
  exact h.trans BitVec.extractLsb'_eq_self

theorem halves32 (c : U32) : c.extractLsb' 16 16 ++ c.extractLsb' 0 16 = c := by
  have h : c.extractLsb' (0 + 16) 16 ++ c.extractLsb' 0 16 = c.extractLsb' 0 32 :=
    BitVec.extractLsb'_append_extractLsb'_eq_extractLsb' rfl
  exact h.trans BitVec.extractLsb'_eq_self

namespace Pkt

variable {p q : Pkt}

theorem bytes_split (p : Pkt) (i m n : Nat) : p.bytes i (m + n) = p.bytes i m ++ p.bytes (i + m) n := by
  rw [bytes, bytes, bytes, List.range_add, List.map_append, List.map_map]
  refine congrArg _ (List.map_congr_left fun k _ => ?_)
  rw [Function.comp, Nat.add_assoc]

theorem bytes_congr {i j n : Nat} (h : ∀ k, k < n → p.byte (i + k) = q.byte (j + k)) :
    p.bytes i n = q.bytes j n :=
  List.map_congr_left fun k hk => h k (List.mem_range.mp hk)

theorem length_bytes (p : Pkt) (i n : Nat) : (p.bytes i n).length = n := by
  rw [bytes, List.length_map, List.length_range]

theorem byte_put_of_ge {i j : Nat} {bs : List U8} (h : i + bs.length ≤ j) : (p.put i bs).byte j = p.byte j := by
  rw [byte, put_off, put_buf, if_neg (by omega), byte]

theorem be16_put (p : Pkt) (i : Nat) (c : U16) : (p.put i (beBytes16 c)).be16 i = c := by
  have h0 : (p.put i (beBytes16 c)).byte i = c.extractLsb' 8 8 := byte_put_of_mem (k := 0) (show 0 < 2 by decide)
  have h1 : (p.put i (beBytes16 c)).byte (i + 1) = c.extractLsb' 0 8 :=
    byte_put_of_mem (k := 1) (show 1 < 2 by decide)
  rw [be16, h0, h1, halves16]

theorem words_put (p : Pkt) {i n : Nat} (hi : i % 2 = 0) (hn : i + 2 ≤ n) (c : U16) :
    words ((p.put i (beBytes16 c)).bytes 0 n) + (p.be16 i).toNat = words (p.bytes 0 n) + c.toNat := by
  have hsplit (q : Pkt) : words (q.bytes 0 n) =
    words (q.bytes 0 i) + ((q.be16 i).toNat + words (q.bytes (i + 2) (n - i - 2))) := by
    obtain ⟨m, rfl⟩ : ∃ m, n = i + (2 + m) := ⟨n - i - 2, by omega⟩
    rw [bytes_split, words_append _ (by rwa [length_bytes]), bytes_split q (0 + i)]
    simp only [Nat.zero_add, Nat.add_sub_cancel_left]
    rfl
  have hlow : (p.put i (beBytes16 c)).bytes 0 i = p.bytes 0 i := bytes_congr fun k hk => byte_put_of_lt (by omega)
  have hhigh : (p.put i (beBytes16 c)).bytes (i + 2) (n - i - 2) = p.bytes (i + 2) (n - i - 2) :=
    bytes_congr fun k _ => byte_put_of_ge (by rw [show (beBytes16 c).length = 2 from rfl]; omega)
  rw [hsplit, hsplit p, be16_put, hlow, hhigh]
  omega

def Carries (src dst : U32) (proto : U8) (p : Pkt) : Prop :=
  (proto = ipprotoIcmp → ipChecksum (p.bytes 0 p.len.toNat) = 0) ∧
    (proto = ipprotoUdp → p.be16 6 ≠ 0 → ipPseudoChecksum src dst ipprotoUdp (p.bytes 0 (p.be16 4).toNat) = 0) ∧
    (proto = ipprotoTcp → ipPseudoChecksum src dst ipprotoTcp (p.bytes 0 p.len.toNat) = 0)

def Checks (p : Pkt) : Prop :=
  let q := p.ipTrim.pull p.hdrLen
  ipChecksum (p.bytes 0 p.hdrLen.toNat) = 0 ∧ q.Carries q.srcIp q.dstIp (p.byte 9)

end Pkt

/-! ### The header -/

theorem eq_zero_of_folded {c : U16} {n : Nat} (h : c.toNat = 65535 - folded n) (hn : folded n = 65535) :
    c = 0 := by
  rw [hn] at h
  exact BitVec.eq_of_toNat_eq h

variable (ident : U16) (src dst : U32) (proto : U8) (p : Pkt)

theorem ipHeader_len : (ipHeader ident src dst proto p).be16 2 = p.len.setWidth 16 := by
  have h0 : (ipHeader ident src dst proto p).byte 2 = (p.len.setWidth 16 : U16).extractLsb' 8 8 :=
    (Pkt.byte_put_of_lt (by decide)).trans (Pkt.byte_put_of_mem (i := 0) (k := 2) (show 2 < 20 by decide))
  have h1 : (ipHeader ident src dst proto p).byte 3 = (p.len.setWidth 16 : U16).extractLsb' 0 8 :=
    (Pkt.byte_put_of_lt (by decide)).trans (Pkt.byte_put_of_mem (i := 0) (k := 3) (show 3 < 20 by decide))
  rw [Pkt.be16, h0, h1, halves16]

theorem ipHeader_addresses :
    (ipHeader ident src dst proto p).be32 12 = src ∧ (ipHeader ident src dst proto p).be32 16 = dst := by
  have hbyte (k : Nat) (hk : 12 ≤ k) (hk' : k < 20) : (ipHeader ident src dst proto p).byte k =
      (beBytes32 src ++ beBytes32 dst).getD (k - 12) 0 := by
    obtain ⟨j, rfl⟩ : ∃ j, k = 12 + j := ⟨k - 12, by omega⟩
    rw [ipHeader, Pkt.byte_put_of_ge (show 10 + 2 ≤ _ by omega), ← Nat.zero_add (12 + j),
      Pkt.byte_put_of_mem (show 12 + j < 20 by omega), Nat.zero_add, Nat.add_sub_cancel_left]
    have happend (as bs : List U8) (h : as.length = 12) : (as ++ bs).getD (12 + j) 0 = bs.getD j 0 := by
      rw [List.getD_eq_getElem?_getD, List.getElem?_append_right (by omega), h, Nat.add_sub_cancel_left,
        List.getD_eq_getElem?_getD]
    rw [List.append_assoc _ (beBytes32 src)]
    exact happend _ _ rfl
  constructor
  · rw [Pkt.be32, Pkt.be16, Pkt.be16, hbyte 12 (by decide) (by decide), hbyte 13 (by decide) (by decide),
      hbyte 14 (by decide) (by decide), hbyte 15 (by decide) (by decide)]
    exact (congrArg₂ _ (halves16 _) (halves16 _)).trans (halves32 src)
  · rw [Pkt.be32, Pkt.be16, Pkt.be16, hbyte 16 (by decide) (by decide), hbyte 17 (by decide) (by decide),
      hbyte 18 (by decide) (by decide), hbyte 19 (by decide) (by decide)]
    exact (congrArg₂ _ (halves16 _) (halves16 _)).trans (halves32 dst)

theorem ipHeader_checksum : ipChecksum ((ipHeader ident src dst proto p).bytes 0 20) = 0 := by
  rw [ipHeader]
  generalize hg : p.put 0 ([0x45, 0] ++ beBytes16 (p.len.setWidth 16) ++ beBytes16 ident ++ beBytes16 0x4000 ++
    [64, proto] ++ beBytes16 0 ++ beBytes32 src ++ beBytes32 dst) = g
  have hzero : g.be16 10 = 0 := by
    have h0 : g.byte 10 = 0 := by
      rw [← hg]
      exact Pkt.byte_put_of_mem (i := 0) (k := 10) (show 10 < 20 by decide)
    have h1 : g.byte 11 = 0 := by
      rw [← hg]
      exact Pkt.byte_put_of_mem (i := 0) (k := 11) (show 11 < 20 by decide)
    rw [Pkt.be16, h0, h1]
    rfl
  have hlen (q : Pkt) : (q.bytes 0 20).length ≤ 65535 := by
    rw [Pkt.length_bytes]
    decide
  have hwords := g.words_put (i := 10) (n := 20) rfl (by decide) (ipChecksum (g.bytes 0 20))
  rw [hzero, toNat_ipChecksum (hlen g)] at hwords
  refine eq_zero_of_folded (toNat_ipChecksum (hlen _)) ?_
  rw [show words _ = _ from hwords]
  exact folded_verify _

variable {p}

theorem ipHeader_checks (hoff : 20 ≤ p.off.toNat) (hlen : p.len.toNat + 20 ≤ 65535) :
    (ipHeader ident src dst proto (p.push 20)).Checks ↔ p.Carries src dst proto := by
  obtain ⟨hver, hproto⟩ := ipHeader_byte ident src dst proto (p.push 20)
  obtain ⟨hsrc, hdst⟩ := ipHeader_addresses ident src dst proto (p.push 20)
  have hsum := ipHeader_checksum ident src dst proto (p.push 20)
  have htotal := ipHeader_len ident src dst proto (p.push 20)
  have hbuf (j : Nat) (hj : p.off.toNat ≤ j) : (ipHeader ident src dst proto (p.push 20)).buf j = p.buf j := by
    refine ipHeader_buf ident src dst proto ?_
    rw [Pkt.push_off]
    bv_omega
  have hoff' : (ipHeader ident src dst proto (p.push 20)).off = p.off - 20 := rfl
  generalize ipHeader ident src dst proto (p.push 20) = h at hver hproto hsrc hdst hsum htotal hbuf hoff' ⊢
  have hihl : h.hdrLen = 20 := by
    rw [Pkt.hdrLen, hver]
    rfl
  rw [Pkt.Checks, hihl, hproto]
  rw [show (20 : U32).toNat = 20 from rfl, and_iff_right hsum]
  generalize hq : h.ipTrim.pull 20 = q
  have hqlen : q.len = p.len := by
    rw [← hq, Pkt.pull_len, Pkt.ipTrim, htotal, Pkt.push_len]
    bv_omega
  have hqbyte (k : Nat) : q.byte k = p.byte k := by
    have hqoff : q.off = p.off := by
      rw [← hq, Pkt.pull_off]
      change h.off + 20 = p.off
      rw [hoff', BitVec.sub_add_cancel]
    have hqbuf : q.buf = h.buf := by
      rw [← hq]
      rfl
    rw [Pkt.byte, hqoff, hqbuf, hbuf _ (by omega), Pkt.byte]
  have hqsrc : q.srcIp = src := by
    rw [← hq]
    exact hsrc
  have hqdst : q.dstIp = dst := by
    rw [← hq]
    exact hdst
  have hqbytes (n : Nat) : q.bytes 0 n = p.bytes 0 n := Pkt.bytes_congr fun k _ => hqbyte _
  simp only [Pkt.Carries, hqsrc, hqdst, hqlen, hqbytes, Pkt.be16, hqbyte]

end Sic.Net
