import Sic.Lib.Run
import Sic.Lib.Word

/-! The sound ring: a writer that queues bytes ahead of the hardware, the hardware that plays them, and the
fragment interrupt that silences what was played. -/

namespace Sic.Dsp

structure PcmHw where
  frags : Nat
  fragSize : Nat
  frags_pos : 0 < frags
  fragSize_pos : 0 < fragSize

def PcmHw.ringBytes (h : PcmHw) : Nat := h.frags * h.fragSize

theorem PcmHw.ringBytes_pos (h : PcmHw) : 0 < h.ringBytes := Nat.mul_pos h.frags_pos h.fragSize_pos

/-- Positions count the bytes of the stream. `pos` is the byte the hardware plays next; `sent` holds what was
written for each position and `heard` what was played. -/
structure Stream where
  ring : Nat → U8
  wr : Nat
  rd : Nat
  played : Nat
  queueFrags : Nat
  gain : U32 × U32
  pos : Nat
  sent : Nat → Option U8
  heard : List (Nat × U8)

def setVolume (v : U32) : U32 × U32 :=
  let side (x : U32) : U32 := let x := if x > 100 then 100 else x
    x * x * 65536 / 10000
  (side (v &&& 0xFF), side ((v >>> 8) &&& 0xFF))

def scale (gain : U32) (lo hi : U8) : List U8 :=
  let s := ((hi ++ lo).signExtend 32 * gain).sshiftRight 16
  [s.setWidth 8, (s >>> 8).setWidth 8]

def scaleFrom : U32 → U32 → List U8 → List U8
  | this, other, lo :: hi :: src => scale this lo hi ++ scaleFrom other this src
  | _, _, _ => []

def copyScaled (gain : U32 × U32) (src : List U8) : List U8 :=
  if gain.1 = 65536 ∧ gain.2 = 65536 then src else scaleFrom gain.1 gain.2 src

def blit (ring : Nat → U8) (off : Nat) (bytes : List U8) : Nat → U8 :=
  fun i => if off ≤ i then (bytes[i - off]?).getD (ring i) else ring i

def silence (ring : Nat → U8) (off n : Nat) : Nat → U8 := fun i => if off ≤ i ∧ i < off + n then 0 else ring i

variable (h : PcmHw)

def queueBytes (s : Stream) : Nat := min (s.queueFrags * h.fragSize) h.ringBytes

/-- `(int)(queue_bytes() - (wr - rd))`. -/
def spaceLocked (s : Stream) : Int :=
  ((BitVec.ofNat 64 (queueBytes h s) - (BitVec.ofNat 64 s.wr - BitVec.ofNat 64 s.rd)).setWidth 32 : U32).toInt

def pcmFragmentDone (s : Stream) : Stream :=
  let rd := s.played * h.fragSize
  let consumed := (s.played - 1) % h.frags
  let ring := if s.wr < rd + h.ringBytes - h.fragSize ∨ s.wr ≤ rd then
    silence s.ring (consumed * h.fragSize) h.fragSize else s.ring
  { s with rd := rd, ring := ring, wr := if s.wr < rd then rd else s.wr }

def interrupt (s : Stream) : Stream :=
  if s.played < s.pos / h.fragSize then pcmFragmentDone h { s with played := s.pos / h.fragSize } else s

def dspWrite (s : Stream) (src : List U8) : Stream :=
  if 0 < spaceLocked h s then
    let n := min (spaceLocked h s).toNat src.length
    let off := s.wr % h.ringBytes
    let first := min (h.ringBytes - off) n
    let head := copyScaled s.gain (src.take first)
    let tail := if first < n then copyScaled s.gain ((src.drop first).take (n - first)) else []
    { s with ring := blit (blit s.ring off head) 0 tail, wr := s.wr + n,
             sent := fun p => if s.wr ≤ p ∧ p < s.wr + n then
               (if p - s.wr < first then head[p - s.wr]? else tail[p - s.wr - first]?) else s.sent p }
  else s

def play (s : Stream) : Stream :=
  { s with pos := s.pos + 1, heard := (s.pos, s.ring (s.pos % h.ringBytes)) :: s.heard }

def dspStart (s : Stream) : Stream :=
  { s with ring := fun _ => 0, wr := 0, rd := 0, played := 0, pos := 0, sent := fun _ => none, heard := [] }

def setFragment (s : Stream) (arg : U32) : Stream :=
  let count := max (arg >>> 16).toNat 3
  if count ≤ h.frags then { s with queueFrags := count } else s

inductive Event
  | write (src : List U8)
  | play
  | interrupt
  | setFragment (arg : U32)
  | setVolume (v : U32)
  | restart

def step (s : Stream) : Event → Stream
  | .write src => dspWrite h s src
  | .play => play h s
  | .interrupt => interrupt h s
  | .setFragment arg => setFragment h s arg
  | .setVolume v => { s with gain := setVolume v }
  | .restart => dspStart s

def boot : Stream := ⟨fun _ => 0, 0, 0, 0, 4, (16384, 16384), 0, fun _ => none, []⟩

def Clean (s : Stream) : Prop := ∀ e ∈ s.heard, e.2 = 0 ∨ s.sent e.1 = some e.2

/-- The interrupt is handled before the next fragment is through and does not find the ring full, and the
hardware is not a ring ahead of it. The positions, which are at most two rings ahead of the hardware, are
numbers of 64 bits. -/
def Timely (s : Stream) : Event → Prop
  | .interrupt => s.pos / h.fragSize ≤ s.played + 1 ∧ s.wr ≠ s.rd + h.ringBytes
  | .play => s.pos < s.rd + h.ringBytes ∧ s.pos + 2 * h.ringBytes < 2 ^ 64
  | _ => True

instance Timely.decidable (s : Stream) : (e : Event) → Decidable (Timely h s e)
  | .interrupt => inferInstanceAs (Decidable (_ ∧ _))
  | .play => inferInstanceAs (Decidable (_ ∧ _))
  | .write _ => .isTrue trivial
  | .setFragment _ => .isTrue trivial
  | .setVolume _ => .isTrue trivial
  | .restart => .isTrue trivial

structure Inv (s : Stream) : Prop where
  rd_eq : s.rd = s.played * h.fragSize
  rd_le : s.rd ≤ s.wr
  wr_le : s.wr ≤ s.rd + h.ringBytes
  rd_pos : s.rd ≤ s.pos
  held : ∀ p, s.rd ≤ p → p < s.rd + h.ringBytes →
    s.ring (p % h.ringBytes) = 0 ∨ s.sent p = some (s.ring (p % h.ringBytes))
  ahead : ∀ p, s.wr ≤ p → p < s.rd + h.ringBytes → s.ring (p % h.ringBytes) = 0
  sent_lt : ∀ p b, s.sent p = some b → p < s.wr
  clean : Clean s

variable {h}

theorem inv_dspStart (s : Stream) : Inv h (dspStart s) where
  rd_eq := (Nat.zero_mul _).symm
  rd_le := Nat.le_refl 0
  wr_le := Nat.zero_le _
  rd_pos := Nat.le_refl 0
  held := fun _ _ _ => .inl rfl
  ahead := fun _ _ _ => rfl
  sent_lt := fun _ _ hs => by cases hs
  clean := fun _ he => by cases he

theorem inv_play {s : Stream} (hi : Inv h s) (hok : s.pos < s.rd + h.ringBytes) : Inv h (play h s) where
  rd_eq := hi.rd_eq
  rd_le := hi.rd_le
  wr_le := hi.wr_le
  rd_pos := Nat.le_succ_of_le hi.rd_pos
  held := hi.held
  ahead := hi.ahead
  sent_lt := hi.sent_lt
  clean := by
    intro e he
    rcases List.mem_cons.mp he with rfl | he
    · exact hi.held s.pos hi.rd_pos hok
    · exact hi.clean e he

/-! ### The interrupt -/

theorem lap_index (k j : Nat) (hj : j < h.fragSize) :
    (k * h.fragSize + j + h.ringBytes) % h.ringBytes = k % h.frags * h.fragSize + j := by
  have hmod : (h.fragSize * k + j) % h.fragSize = j := by rw [Nat.mul_add_mod, Nat.mod_eq_of_lt hj]
  have hdiv : (h.fragSize * k + j) / h.fragSize = k := by
    rw [Nat.mul_add_div h.fragSize_pos, Nat.div_eq_of_lt hj, Nat.add_zero]
  rw [Nat.add_mod_right, PcmHw.ringBytes, Nat.mul_comm h.frags, Nat.mul_comm k, Nat.mod_mul, hmod, hdiv,
    Nat.add_comm, Nat.mul_comm h.fragSize]

theorem silence_lap (ring : Nat → U8) (k : Nat) {p : Nat} (hp : p < k * h.fragSize + h.fragSize + h.ringBytes) :
    silence ring (k % h.frags * h.fragSize) h.fragSize (p % h.ringBytes) = 0 ∨
      p < k * h.fragSize + h.ringBytes ∧
        silence ring (k % h.frags * h.fragSize) h.fragSize (p % h.ringBytes) = ring (p % h.ringBytes) := by
  by_cases hlap : p < k * h.fragSize + h.ringBytes
  · rw [silence]
    split
    · exact .inl rfl
    · exact .inr ⟨hlap, rfl⟩
  · left
    obtain ⟨j, rfl⟩ : ∃ j, p = k * h.fragSize + j + h.ringBytes := ⟨p - (k * h.fragSize + h.ringBytes), by omega⟩
    have hj : j < h.fragSize := by omega
    rw [lap_index k j hj]
    exact if_pos ⟨by omega, by omega⟩

theorem inv_interrupt {s : Stream} (hi : Inv h s) (hok : Timely h s .interrupt) : Inv h (interrupt h s) := by
  rw [interrupt]
  split
  · next hlt =>
    have hplayed : s.pos / h.fragSize = s.played + 1 := Nat.le_antisymm hok.1 hlt
    have hpos : (s.played + 1) * h.fragSize ≤ s.pos := hplayed ▸ Nat.div_mul_le_self _ _
    have hwr : s.wr < s.rd + h.ringBytes := Nat.lt_of_le_of_ne hi.wr_le hok.2
    have hrd := hi.rd_eq
    have hle := hi.rd_le
    have hfr : h.fragSize ≤ h.ringBytes := Nat.le_mul_of_pos_left _ h.frags_pos
    rw [hplayed, pcmFragmentDone]
    dsimp only
    rw [if_pos (.inl (by rw [Nat.succ_mul]; omega)), Nat.add_sub_cancel]
    have hmax : (if s.wr < (s.played + 1) * h.fragSize then (s.played + 1) * h.fragSize else s.wr) =
        max s.wr (s.rd + h.fragSize) := by
      rw [Nat.succ_mul, ← hrd]
      split <;> omega
    rw [hmax]
    rw [Nat.succ_mul] at hpos ⊢
    have hlap := fun p => silence_lap (h := h) s.ring s.played (p := p)
    rw [← hrd] at hpos hlap ⊢
    refine ⟨?_, Nat.le_max_right .., ?_, hpos, fun p hp hlt => ?_, fun p hp hlt => ?_, fun p b hb => ?_, hi.clean⟩
    · dsimp only
      rw [Nat.succ_mul, ← hrd]
    · dsimp only
      omega
    · rcases hlap p hlt with hz | ⟨hin, heq⟩
      · exact .inl hz
      · dsimp only
        rw [heq]
        exact hi.held p (Nat.le_of_add_right_le hp) hin
    · rcases hlap p hlt with hz | ⟨hin, heq⟩
      · exact hz
      · dsimp only
        rw [heq]
        exact hi.ahead p (Nat.le_trans (Nat.le_max_left ..) hp) hin
    · exact Nat.lt_of_lt_of_le (hi.sent_lt p b hb) (Nat.le_max_left ..)
  · exact hi

/-! ### The writer -/

theorem scaleFrom_length_le (this other : U32) (src : List U8) :
    (scaleFrom this other src).length ≤ src.length := by
  fun_induction scaleFrom this other src with
  | case1 this other lo hi src ih =>
    rw [List.length_append]
    exact Nat.add_comm _ 2 ▸ Nat.add_le_add_right ih 2
  | case2 => exact Nat.zero_le _

theorem copyScaled_length_le (gain : U32 × U32) (src : List U8) : (copyScaled gain src).length ≤ src.length := by
  rw [copyScaled]
  split
  · exact Nat.le_refl _
  · exact scaleFrom_length_le _ _ _

theorem wrap_index {n off k : Nat} (hoff : off < n) (hk : k < n) :
    (off + k) % n = if off + k < n then off + k else off + k - n := by
  split
  · next hlt => exact Nat.mod_eq_of_lt hlt
  next hge =>
  rw [Nat.mod_eq_sub_mod (Nat.not_lt.mp hge)]
  exact Nat.mod_eq_of_lt (by omega)

theorem blit_wrap (ring : Nat → U8) {size off n k : Nat} (hoff : off < size) (hn : n ≤ size) (hk : k < size)
    {head tail : List U8} (hhead : head.length ≤ min (size - off) n)
    (htail : tail.length ≤ n - min (size - off) n) :
    blit (blit ring off head) 0 tail ((off + k) % size) =
      (if k < min (size - off) n then head[k]? else tail[k - min (size - off) n]?).getD
        (ring ((off + k) % size)) := by
  rw [wrap_index hoff hk]
  simp only [blit, Nat.zero_le, if_true, Nat.sub_zero]
  by_cases hlt : off + k < size
  · rw [if_pos hlt, if_pos (Nat.le_add_right _ _), Nat.add_sub_cancel_left,
      List.getElem?_eq_none (l := tail) (by omega)]
    split
    · rfl
    · rw [List.getElem?_eq_none (l := head) (by omega), List.getElem?_eq_none (l := tail) (by omega)]
      rfl
  · rw [if_neg hlt, if_neg (by omega), if_neg (by omega)]
    by_cases hfirst : n ≤ size - off
    · rw [List.getElem?_eq_none (l := tail) (by omega), List.getElem?_eq_none (l := tail) (by omega)]
    · rw [show k - min (size - off) n = off + k - size by omega]

theorem space_le {s : Stream} (hi : Inv h s) (hring : h.ringBytes < 2 ^ 31) (hs : 0 < spaceLocked h s) :
    s.wr + (spaceLocked h s).toNat ≤ s.rd + h.ringBytes := by
  have hq : queueBytes h s ≤ h.ringBytes := Nat.min_le_right ..
  have hle := hi.rd_le
  have hwr := hi.wr_le
  unfold spaceLocked at *
  rw [BitVec.toInt_eq_toNat_cond, BitVec.toNat_setWidth, BitVec.toNat_sub, BitVec.toNat_sub, BitVec.toNat_ofNat,
    BitVec.toNat_ofNat, BitVec.toNat_ofNat] at *
  split at hs <;> split <;> omega

theorem lap_offset {size rd wr n p : Nat} (hle : rd ≤ wr) (hn : wr + n ≤ rd + size) (hp : rd ≤ p)
    (hlt : p < rd + size) : ∃ k < size, p % size = (wr % size + k) % size ∧
      (wr ≤ p ∧ k = p - wr ∨ p < wr ∧ n ≤ k) := by
  by_cases hwr : wr ≤ p
  · refine ⟨p - wr, by omega, ?_, .inl ⟨hwr, rfl⟩⟩
    rw [Nat.mod_add_mod, Nat.add_sub_cancel' hwr]
  · refine ⟨p + size - wr, by omega, ?_, .inr ⟨Nat.not_le.mp hwr, by omega⟩⟩
    rw [Nat.mod_add_mod, Nat.add_sub_cancel' (by omega), Nat.add_mod_right]

theorem inv_dspWrite {s : Stream} (hi : Inv h s) (hring : h.ringBytes < 2 ^ 31) (src : List U8) :
    Inv h (dspWrite h s src) := by
  rw [dspWrite]
  split
  · next hs =>
    have hspace := space_le hi hring hs
    generalize hn : min (spaceLocked h s).toNat src.length = n
    have hfit : s.wr + n ≤ s.rd + h.ringBytes := by omega
    have hle := hi.rd_le
    have hoff : s.wr % h.ringBytes < h.ringBytes := Nat.mod_lt _ h.ringBytes_pos
    dsimp only
    generalize hhd : copyScaled s.gain (src.take (min (h.ringBytes - s.wr % h.ringBytes) n)) = head
    generalize htl : (if min (h.ringBytes - s.wr % h.ringBytes) n < n then
      copyScaled s.gain ((src.drop (min (h.ringBytes - s.wr % h.ringBytes) n)).take
        (n - min (h.ringBytes - s.wr % h.ringBytes) n)) else []) = tail
    have hhead : head.length ≤ min (h.ringBytes - s.wr % h.ringBytes) n := by
      rw [← hhd]
      exact (copyScaled_length_le _ _).trans (List.length_take_le _ _)
    have htail : tail.length ≤ n - min (h.ringBytes - s.wr % h.ringBytes) n := by
      rw [← htl]
      split
      · exact (copyScaled_length_le _ _).trans (List.length_take_le _ _)
      · exact Nat.zero_le _
    generalize hfirst : min (h.ringBytes - s.wr % h.ringBytes) n = first at *
    have hget : ∀ p, s.rd ≤ p → p < s.rd + h.ringBytes →
        blit (blit s.ring (s.wr % h.ringBytes) head) 0 tail (p % h.ringBytes) =
          (if s.wr ≤ p ∧ p < s.wr + n then
            (if p - s.wr < first then head[p - s.wr]? else tail[p - s.wr - first]?) else none).getD
              (s.ring (p % h.ringBytes)) := by
      intro p hp hlt
      obtain ⟨k, hk, hidx, hcase⟩ := lap_offset hle hfit hp hlt
      rw [hidx, blit_wrap s.ring (n := n) hoff (by omega) hk (by omega) (by omega), hfirst]
      by_cases hin : s.wr ≤ p ∧ p < s.wr + n
      · rw [if_pos hin, show k = p - s.wr by omega]
      · rw [if_neg hin, if_neg (by omega), List.getElem?_eq_none (l := tail) (by omega)]
    refine ⟨hi.rd_eq, Nat.le_add_right_of_le hle, hfit, hi.rd_pos, fun p hp hlt => ?_, fun p hp hlt => ?_,
      fun p b hb => ?_, fun e he => ?_⟩
    · dsimp only at hp hlt ⊢
      rw [hget p hp hlt]
      by_cases hin : s.wr ≤ p ∧ p < s.wr + n
      · rw [if_pos hin]
        cases hb : (if p - s.wr < first then head[p - s.wr]? else tail[p - s.wr - first]?) with
        | none => exact .inl (hi.ahead p hin.1 hlt)
        | some b => exact .inr (if_pos hin)
      · rw [if_neg hin, if_neg hin]
        exact hi.held p hp hlt
    · dsimp only at hp hlt ⊢
      rw [hget p (by omega) hlt, if_neg (by omega)]
      exact hi.ahead p (Nat.le_of_add_right_le hp) hlt
    · dsimp only at hb ⊢
      split at hb
      · next hin => exact hin.2
      · exact Nat.lt_add_right n (hi.sent_lt p b hb)
    · rcases hi.clean e he with hz | hsent
      · exact .inl hz
      · refine .inr ((if_neg fun hin => ?_).trans hsent)
        exact absurd (hi.sent_lt _ _ hsent) (Nat.not_lt.mpr hin.1)
  · exact hi

theorem inv_step {s : Stream} (hring : h.ringBytes < 2 ^ 31) (hi : Inv h s) (e : Event) (hok : Timely h s e) :
    Inv h (step h s e) := by
  cases e with
  | write src => exact inv_dspWrite hi hring src
  | play => exact inv_play hi hok.1
  | interrupt => exact inv_interrupt hi hok
  | setFragment arg =>
    rw [step, setFragment]
    split
    · exact ⟨hi.rd_eq, hi.rd_le, hi.wr_le, hi.rd_pos, hi.held, hi.ahead, hi.sent_lt, hi.clean⟩
    · exact hi
  | setVolume v => exact ⟨hi.rd_eq, hi.rd_le, hi.wr_le, hi.rd_pos, hi.held, hi.ahead, hi.sent_lt, hi.clean⟩
  | restart => exact inv_dspStart s

/-- On a ring below 2 GiB, if each fragment's interrupt is handled in time and none finds the ring full, every
byte played is the one written for its position, or silence. -/
theorem played_bytes (hring : h.ringBytes < 2 ^ 31) {es : List Event} (hok : Along (Timely h) (step h) boot es)
    {done rest : List Event} (hes : es = done ++ rest) : Clean (run (step h) boot done) := by
  subst hes
  have hboot : Inv h boot := inv_dspStart boot
  exact (invariant_run (P := Inv h) (fun _ e hi hg => inv_step hring hi e hg) hboot hok.split.1).clean

def threeFrags : PcmHw := ⟨3, 4, by decide, by decide⟩

theorem played_bytes_once :
    Clean (run (step threeFrags) boot [.write [1, 0, 1, 0], .play, .play, .play, .play, .interrupt, .play]) := by
  exact played_bytes (by decide) (by decide +kernel) (List.append_nil _).symm

/-- The ring is filled to the last byte, so the fragment played first is not silenced, and is heard again. -/
theorem stale_sound : ¬ Clean (run (step threeFrags) boot ([.setVolume 0x6464, .setFragment 0x30000,
    .write (List.replicate 12 1)] ++ (List.replicate 3 [.play, .play, .play, .play, .interrupt]).flatten ++
      [.play])) := by
  intro hclean
  have hheard := hclean (12, 1) (by decide +kernel)
  revert hheard
  decide +kernel

end Sic.Dsp
