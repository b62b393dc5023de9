import Sic.Lib.Word

/-! Packet buffers of `net/net.h` and the checksums of `kernel/net/ip.c`.
Multi-byte fields stand for the numbers `ntohs` and `ntohl` give. -/

namespace Sic.Net

abbrev U16 := BitVec 16

def pktSize : Nat := 2048

def pktHeadroom : Nat := 128

def pktDataMax : Nat := pktSize - 64 - pktHeadroom

def bufSize : Nat := pktSize - 64

structure Pkt where
  off : U32 := BitVec.ofNat 32 pktHeadroom
  len : U32 := 0
  srcIp : U32 := 0
  dstIp : U32 := 0
  srcPort : U16 := 0
  proto : U16 := 0
  ihl : U16 := 0
  dev : Option Nat := none
  buf : Nat → U8

namespace Pkt

def push (p : Pkt) (n : U32) : Pkt := { p with off := p.off - n, len := p.len + n }

def pull (p : Pkt) (n : U32) : Pkt := { p with off := p.off + n, len := p.len - n }

def tailroom (p : Pkt) : U32 := BitVec.ofNat 32 bufSize - p.off - p.len

def byte (p : Pkt) (i : Nat) : U8 := p.buf (p.off.toNat + i)

def be16 (p : Pkt) (i : Nat) : U16 := p.byte i ++ p.byte (i + 1)

def be32 (p : Pkt) (i : Nat) : U32 := p.be16 i ++ p.be16 (i + 2)

def bytes (p : Pkt) (i n : Nat) : List U8 := (List.range n).map fun k => p.byte (i + k)

def put (p : Pkt) (i : Nat) (bs : List U8) : Pkt :=
  { p with buf := fun j => if p.off.toNat + i ≤ j ∧ j < p.off.toNat + i + bs.length
                           then bs.getD (j - (p.off.toNat + i)) 0 else p.buf j }

@[simp] theorem push_buf (p : Pkt) (n : U32) : (p.push n).buf = p.buf := rfl
@[simp] theorem push_off (p : Pkt) (n : U32) : (p.push n).off = p.off - n := rfl
@[simp] theorem push_len (p : Pkt) (n : U32) : (p.push n).len = p.len + n := rfl
@[simp] theorem pull_off (p : Pkt) (n : U32) : (p.pull n).off = p.off + n := rfl
@[simp] theorem pull_len (p : Pkt) (n : U32) : (p.pull n).len = p.len - n := rfl
@[simp] theorem put_off (p : Pkt) (i : Nat) (bs : List U8) : (p.put i bs).off = p.off := rfl
@[simp] theorem put_len (p : Pkt) (i : Nat) (bs : List U8) : (p.put i bs).len = p.len := rfl

theorem put_buf (p : Pkt) (i j : Nat) (bs : List U8) :
    (p.put i bs).buf j = if p.off.toNat + i ≤ j ∧ j < p.off.toNat + i + bs.length
      then bs.getD (j - (p.off.toNat + i)) 0 else p.buf j := rfl

theorem byte_put_of_lt {p : Pkt} {i j : Nat} {bs : List U8} (h : j < i) :
    (p.put i bs).byte j = p.byte j := by
  rw [byte, put_off, put_buf, if_neg (by omega), byte]

theorem byte_put_of_mem {p : Pkt} {i k : Nat} {bs : List U8} (h : k < bs.length) :
    (p.put i bs).byte (i + k) = bs.getD k 0 := by
  rw [byte, put_off, put_buf, if_pos (by omega)]
  congr 1
  omega

end Pkt

def beBytes16 (x : U16) : List U8 := [x.extractLsb' 8 8, x.extractLsb' 0 8]

def beBytes32 (x : U32) : List U8 := beBytes16 (x.extractLsb' 16 16) ++ beBytes16 (x.extractLsb' 0 16)

def sum16 : List U8 → U32
  | a :: b :: bs => (a ++ b).setWidth 32 + sum16 bs
  | [a] => (a ++ 0#8).setWidth 32
  | [] => 0

/-- `while (sum >> 16) sum = (sum & 0xFFFF) + (sum >> 16)`, for `fuel` turns. -/
def foldSum : Nat → U32 → U32
  | 0, sum => sum
  | fuel + 1, sum => if sum >>> 16 ≠ 0 then foldSum fuel ((sum &&& 0xFFFF#32) + (sum >>> 16)) else sum

def ipChecksum (bs : List U8) : U16 := ~~~(foldSum 3 (sum16 bs)).setWidth 16

def ipPseudoChecksum (src dst : U32) (proto : U8) (bs : List U8) : U16 :=
  ~~~(foldSum 3 ((src >>> 16) + (src &&& 0xFFFF#32) + (dst >>> 16) + (dst &&& 0xFFFF#32) + proto.setWidth 32 +
    BitVec.ofNat 32 bs.length + sum16 bs)).setWidth 16

inductive Act where
  /-- A packet has this offset and this length. -/
  | shape (off len : U32)
  /-- A header of `n` bytes is pushed in front of `off`. -/
  | push (off n : U32)
  /-- `n` bytes are written or copied to the buffer from `start` on. -/
  | write (start n : Nat)
  /-- `n` bytes of the buffer are read or copied from `start` on. -/
  | read (start n : Int)

def Act.Fits : Act → Prop
  | .shape off len => off.toNat + len.toNat ≤ bufSize
  | .push off n => n.toNat ≤ off.toNat
  | .write start n => start + n ≤ bufSize
  | .read start n => 0 ≤ start ∧ start + n ≤ bufSize

instance : DecidablePred Act.Fits
  | .shape off len => inferInstanceAs (Decidable (off.toNat + len.toNat ≤ bufSize))
  | .push off n => inferInstanceAs (Decidable (n.toNat ≤ off.toNat))
  | .write start n => inferInstanceAs (Decidable (start + n ≤ bufSize))
  | .read start n => inferInstanceAs (Decidable (0 ≤ start ∧ start + n ≤ bufSize))

end Sic.Net
