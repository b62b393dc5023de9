import Mathlib.Tactic.Ring
import Sic.Drivers.Tftp

/-! A client that loses nothing, and what it reads and writes over TFTP. -/

namespace Sic.Tftp

def Rw.contents (w : Rw) : List U8 := (List.range w.size).map (w.data.getD fun _ => 0)

def source (s : Server) (x : Xfer) : List U8 :=
  match x.rwi with
  | some r => (s.rw r).contents
  | none => x.file.getD []

def requested (s : Server) (x : Xfer) : List U8 := ((source s x).drop x.seek).take x.limit

def packet (op block : Nat) (bytes : List U8) : List U8 :=
  [0, BitVec.ofNat 8 op, BitVec.ofNat 8 (block / 256), BitVec.ofNat 8 block] ++ bytes

def bytesOf (ms : List Msg) : List U8 := ms.flatMap fun m =>
  match m.body with
  | .data _ bytes => bytes
  | _ => []

def newSince (s s' : Server) : List Msg := s'.sent.drop s.sent.length

def readOn (node port : Nat) : Nat → Nat → Server → List Msg → List U8 → Option (List U8)
  | 0, _, _, _, _ => none
  | fuel + 1, blksize, s, new, got =>
    match new.getLast? with
    | some ⟨sport, _, _, .oack o _⟩ =>
      let s' := s.xferRx sport node port (packet 4 0 [])
      readOn node port fuel o.blksize s' (newSince s s') got
    | some ⟨sport, _, _, .data b bytes⟩ =>
      if bytes.length < blksize then some (got ++ bytesOf new) else
        let s' := s.xferRx sport node port (packet 4 b [])
        readOn node port fuel blksize s' (newSince s s') (got ++ bytesOf new)
    | _ => none

def download (fuel : Nat) (s : Server) (node port : Nat) (d after : List U8) : Option (List U8) :=
  readOn node port fuel 512 (s.tftpRx node port d after) (newSince s (s.tftpRx node port d after)) []

def upload (s : Server) (node port sport blksize : Nat) (bytes : List U8) : Server :=
  (List.range (bytes.length / blksize + 1)).foldl (fun s j =>
    s.xferRx sport node port (packet 3 (j + 1) ((bytes.drop (j * blksize)).take blksize))) s

/-! ### The blocks of a read -/

variable {s s' : Server} {x : Xfer} {i m node port sport : Nat} {ms : List Msg} {R after d : List U8}

theorem xferRead_eq (s : Server) (x : Xfer) (off n : Nat) :
    (s.xferRead x off n).1 = ((source s x).drop off).take n := by
  unfold Server.xferRead source
  cases x.rwi with
  | none => rfl
  | some r =>
    dsimp only [Rw.contents]
    split
    · next h => rw [List.drop_eq_nil_of_le (by simpa using h), List.take_nil]
    next h =>
    apply List.ext_getElem
    · simp
    · intro k hk hk'
      simp

theorem blockOf_eq {k : Nat} (hover : x.seek + k * x.blksize < 2 ^ 64) :
    (s.blockOf x (k + 1)).1 = ((requested s x).drop (k * x.blksize)).take x.blksize := by
  have hstart : wrap64 (pred32 (k + 1) * x.blksize) = k * x.blksize :=
    Nat.mod_eq_of_lt (by rw [pred32]; simp; omega)
  have hoff : wrap64 (x.seek + k * x.blksize) = x.seek + k * x.blksize := Nat.mod_eq_of_lt hover
  unfold Server.blockOf requested
  dsimp only
  rw [hstart, hoff, List.drop_take, List.take_take, List.drop_drop]
  split
  · rw [xferRead_eq, Nat.min_comm]
  · next h => rw [Nat.sub_eq_zero_of_le (Nat.le_of_not_lt h), Nat.min_zero, List.take_zero]

structure Sends (i : Nat) (ms : List Msg) (s s' : Server) : Prop where
  rw : s'.rw = s.rw
  alloc : s'.alloc = s.alloc
  others : ∀ j, j ≠ i → s'.xfers j = s.xfers j
  xfer : ∃ n d, s'.xfers i = { s.xfers i with sent := n, done := d }
  sent : s'.sent = s.sent ++ ms

theorem Sends.trans {ms' : List Msg} {s'' : Server} (h : Sends i ms s s') (h' : Sends i ms' s' s'') :
    Sends i (ms ++ ms') s s'' := by
  refine ⟨h'.rw.trans h.rw, h'.alloc.trans h.alloc, fun j hj => (h'.others j hj).trans (h.others j hj), ?_, ?_⟩
  · obtain ⟨n, d, hx⟩ := h.xfer
    obtain ⟨n', d', hx'⟩ := h'.xfer
    exact ⟨n', d', by rw [hx', hx]⟩
  · rw [h'.sent, h.sent, List.append_assoc]

theorem Sends.requested (h : Sends i ms s s') :
    requested s' (s'.xfers i) = requested s (s.xfers i) := by
  obtain ⟨n, d, hx⟩ := h.xfer
  unfold Tftp.requested source
  rw [hx, h.rw]
  rfl

theorem sends_sendBlock (s : Server) (i k : Nat) :
    Sends i [⟨(s.xfers i).port, (s.xfers i).node, (s.xfers i).rport,
      .data (k % 2 ^ 16) (s.blockOf (s.xfers i) k).1⟩] s
      (s.sendBlock i k) ∧
    ((s.sendBlock i k).xfers i).done = decide ((s.blockOf (s.xfers i) k).1.length < (s.xfers i).blksize) := by
  generalize hr : s.blockOf (s.xfers i) k = r
  have hx : (s.sendBlock i k).xfers i =
      { s.xfers i with sent := (s.xfers i).sent + r.1.length, done := r.1.length < (s.xfers i).blksize } := by
    rw [Server.sendBlock, hr]
    exact Function.update_self ..
  refine ⟨⟨rfl, rfl, fun j hj => Function.update_of_ne hj _ _, ⟨_, _, hx⟩, ?_⟩, by rw [hx]⟩
  rw [Server.sendBlock, hr]
  rfl

theorem Sends.refl (i : Nat) (s : Server) : Sends i [] s s :=
  ⟨rfl, rfl, fun _ _ => rfl, ⟨_, _, rfl⟩, (List.append_nil _).symm⟩

def blockMsg (x : Xfer) (R : List U8) (m : Nat) : Msg :=
  ⟨x.port, x.node, x.rport, .data ((m + 1) % 2 ^ 16) ((R.drop (m * x.blksize)).take x.blksize)⟩

theorem Sends.blockMsg (h : Sends i ms s s') (R : List U8) (m : Nat) :
    blockMsg (s'.xfers i) R m = blockMsg (s.xfers i) R m := by
  obtain ⟨n, d, hx⟩ := h.xfer
  rw [hx]
  rfl

/-- What a read needs: its blocks are numbered with 16 bits, and no offset wraps. -/
structure Countable (x : Xfer) (R : List U8) : Prop where
  size : 0 < x.blksize
  count : R.length / x.blksize + 1 < 2 ^ 16
  last : x.seek + 2 ^ 16 * x.blksize < 2 ^ 64

theorem Countable.lt (h : Countable x R) (hm : m * x.blksize ≤ R.length) : m + 1 < 2 ^ 16 := by
  have := (Nat.le_div_iff_mul_le h.size).mpr hm
  have := h.count
  omega

theorem Sends.countable (h : Sends i ms s s') (hc : Countable (s.xfers i) R) : Countable (s'.xfers i) R := by
  obtain ⟨n, d, hx⟩ := h.xfer
  rw [hx]
  exact ⟨hc.size, hc.count, hc.last⟩

theorem blocksLoop_of_done {stop w k : Nat} (h : (s.xfers i).done = true) :
    Server.blocksLoop i stop w k s = s := by
  cases w with
  | zero => rfl
  | succ w =>
    rw [Server.blocksLoop, if_neg]
    rw [h]
    exact fun hk => absurd hk.2 (by decide)

theorem blocksLoop_spec {stop w : Nat} (hR : requested s (s.xfers i) = R)
    (hc : Countable (s.xfers i) R) (hdone : (s.xfers i).done = false) (hm : m * (s.xfers i).blksize ≤ R.length)
    (hstop : m + w ≤ stop) (hs' : Server.blocksLoop i stop w (m + 1) s = s') :
    ∃ t, Sends i ((List.range t).map fun j => blockMsg (s.xfers i) R (m + j)) s s' ∧
      ((s'.xfers i).done = false ∧ t = w ∧ (m + t) * (s.xfers i).blksize ≤ R.length ∨
        (s'.xfers i).done = true ∧ ∃ n, t = n + 1 ∧ (m + n) * (s.xfers i).blksize ≤ R.length ∧
          R.length < (m + t) * (s.xfers i).blksize) := by
  induction w generalizing s m with
  | zero =>
    cases hs'
    exact ⟨0, .refl i s, .inl ⟨hdone, rfl, hm⟩⟩
  | succ w ih =>
    have hlt := hc.lt hm
    obtain ⟨hsend, hend⟩ := sends_sendBlock s i (m + 1)
    have hover : (s.xfers i).seek + m * (s.xfers i).blksize < 2 ^ 64 :=
      (Nat.add_le_add_left (Nat.mul_le_mul_right _ (by omega)) _).trans_lt hc.last
    rw [blockOf_eq hover, hR] at hsend hend
    have hlen : ((R.drop (m * (s.xfers i).blksize)).take (s.xfers i).blksize).length < (s.xfers i).blksize ↔
        R.length < (m + 1) * (s.xfers i).blksize := by
      rw [List.length_take, List.length_drop, Nat.succ_mul]
      omega
    rw [Server.blocksLoop, if_pos ⟨by omega, hdone⟩,
      show wrap32 (m + 1 + 1) = m + 1 + 1 from Nat.mod_eq_of_lt (by omega)] at hs'
    by_cases hlast : R.length < (m + 1) * (s.xfers i).blksize
    · rw [decide_eq_true (hlen.mpr hlast)] at hend
      rw [blocksLoop_of_done hend] at hs'
      cases hs'
      exact ⟨1, hsend, .inr ⟨hend, 0, rfl, hm, hlast⟩⟩
    · rw [decide_eq_false (mt hlen.mp hlast)] at hend
      have hsize : ((s.sendBlock i (m + 1)).xfers i).blksize = (s.xfers i).blksize := by
        obtain ⟨n, d, hx⟩ := hsend.xfer
        rw [hx]
      obtain ⟨t, ht, hcase⟩ := ih (hsend.requested.trans hR) (hsend.countable hc) hend
        (by rw [hsize]; exact Nat.le_of_not_lt hlast) (by omega) hs'
      refine ⟨t + 1, ?_, ?_⟩
      · have hall := hsend.trans ht
        simp only [hsend.blockMsg] at hall
        have htail : (List.range t).map ((fun j => blockMsg (s.xfers i) R (m + j)) ∘ Nat.succ) =
            (List.range t).map fun j => blockMsg (s.xfers i) R (m + 1 + j) :=
          List.map_congr_left fun j _ => congrArg (blockMsg _ R) (show m + (j + 1) = m + 1 + j by omega)
        rw [List.range_succ_eq_map, List.map_cons, List.map_map, htail]
        exact hall
      · rw [hsize] at hcase
        rw [show m + (t + 1) = m + 1 + t by omega]
        rcases hcase with ⟨hd, rfl, hle⟩ | ⟨hd, n, rfl, hle, hgt⟩
        · exact .inl ⟨hd, rfl, hle⟩
        · exact .inr ⟨hd, n + 1, rfl, by rw [show m + (n + 1) = m + 1 + n by omega]; exact hle, hgt⟩

theorem bytesOf_blocks (x : Xfer) (R : List U8) (m t : Nat) :
    bytesOf ((List.range t).map fun j => blockMsg x R (m + j)) =
      (R.drop (m * x.blksize)).take (t * x.blksize) := by
  induction t with
  | zero => rw [Nat.zero_mul, List.take_zero]; rfl
  | succ t ih =>
    rw [List.range_succ, List.map_append, bytesOf, List.flatMap_append]
    change bytesOf _ ++ _ = _
    rw [ih, Nat.succ_mul, List.take_add, List.drop_drop, ← Nat.add_mul]
    simp [blockMsg]

/-! ### Packets of the client -/

structure Slot (s : Server) (i node port sport : Nat) : Prop where
  lt : i < 8
  used : (s.xfers i).used = true
  here : (s.xfers i).port = sport
  peer : (s.xfers i).node = node ∧ (s.xfers i).rport = port
  unique : ∀ j < 8, j ≠ i → (s.xfers j).used = true → (s.xfers j).port ≠ sport

theorem Slot.find (h : Slot s i node port sport) :
    (List.range 8).find? (fun j => (s.xfers j).used && (s.xfers j).port = sport) = some i := by
  have hi : ((s.xfers i).used && (s.xfers i).port = sport) = true := by simp [h.used, h.here]
  obtain ⟨j, hj⟩ : ∃ j, (List.range 8).find? (fun j => (s.xfers j).used && (s.xfers j).port = sport) = some j :=
    Option.isSome_iff_exists.mp (List.find?_isSome.mpr ⟨i, List.mem_range.mpr h.lt, hi⟩)
  have hp := List.find?_some hj
  simp only [Bool.and_eq_true, decide_eq_true_eq] at hp
  by_cases hji : j = i
  · exact hji ▸ hj
  · exact absurd hp.2 (h.unique j (List.mem_range.mp (List.mem_of_find?_eq_some hj)) hji hp.1)

theorem Slot.congr (h : Slot s i node port sport)
    (hx : ∃ n d, s'.xfers i = { s.xfers i with sent := n, done := d })
    (ho : ∀ j, j ≠ i → s'.xfers j = s.xfers j) : Slot s' i node port sport := by
  obtain ⟨n, d, hx⟩ := hx
  refine ⟨h.lt, ?_, ?_, ?_, fun j hj hji => ?_⟩
  · rw [hx]
    exact h.used
  · rw [hx]
    exact h.here
  · rw [hx]
    exact h.peer
  · rw [ho j hji]
    exact h.unique j hj hji

theorem opcode_packet {op : Nat} (block : Nat) (bytes : List U8) (h : op < 256) :
    opcode (packet op block bytes) = op := by
  change 0 * 256 + (BitVec.ofNat 8 op).toNat = op
  rw [BitVec.toNat_ofNat]
  omega

theorem block_packet (op : Nat) {block : Nat} (bytes : List U8) (h : block < 2 ^ 16) :
    opcode ((packet op block bytes).drop 2) = block := by
  change (BitVec.ofNat 8 (block / 256)).toNat * 256 + (BitVec.ofNat 8 block).toNat = block
  rw [BitVec.toNat_ofNat, BitVec.toNat_ofNat]
  omega

theorem xferRx_ack {b : Nat} (h : Slot s i node port sport) (hw : (s.xfers i).write = false)
    (hdone : (s.xfers i).done = false) (hb : b < 2 ^ 16) :
    s.xferRx sport node port (packet 4 b []) = s.sendBlocks i b := by
  unfold Server.xferRx
  rw [h.find]
  simp only [opcode_packet b [] (show 4 < 256 by decide), block_packet 4 [] hb, h.peer, hw, hdone]
  simp [packet]

structure Reading (s : Server) (i node port sport : Nat) (R : List U8) :
  Prop extends Slot s i node port sport where
  write : (s.xfers i).write = false
  source : requested s (s.xfers i) = R
  countable : Countable (s.xfers i) R
  memory : ∀ k, (s.alloc k).isSome = true
  wsize : 0 < (s.xfers i).wsize ∧ (s.xfers i).wsize < 2 ^ 64

theorem Reading.sends (h : Reading s i node port sport R) (hs : Sends i ms s s') :
    Reading s' i node port sport R := by
  refine ⟨h.congr hs.xfer hs.others, ?_, hs.requested.trans h.source, hs.countable h.countable, ?_, ?_⟩
  · obtain ⟨n, d, hx⟩ := hs.xfer
    rw [hx]
    exact h.write
  · rw [hs.alloc]
    exact h.memory
  · obtain ⟨n, d, hx⟩ := hs.xfer
    rw [hx]
    exact h.wsize

structure Window (s : Server) (i : Nat) (R : List U8) (m n : Nat) (ms : List Msg) : Prop where
  blocks : ms = (List.range (n + 1)).map fun j => blockMsg (s.xfers i) R (m + j)
  rest : (s.xfers i).done = true ∧ R.length < (m + n + 1) * (s.xfers i).blksize ∨
    (s.xfers i).done = false ∧ (m + n + 1) * (s.xfers i).blksize ≤ R.length ∧
      m + n + 1 + (s.xfers i).wsize < 2 ^ 64
  full : (m + n) * (s.xfers i).blksize ≤ R.length

theorem sendBlocks_window (h : Reading s i node port sport R) (hdone : (s.xfers i).done = false)
    (hm : m * (s.xfers i).blksize ≤ R.length) (hwrap : m + (s.xfers i).wsize < 2 ^ 64) :
    ∃ n ms, Sends i ms s (s.sendBlocks i m) ∧ Window (s.sendBlocks i m) i R m n ms := by
  have hk : s.sendBlocks i m = Server.blocksLoop i (m + (s.xfers i).wsize) (s.xfers i).wsize
    (m + 1) s.kmalloc.1 := by
    unfold Server.sendBlocks
    dsimp only
    rw [if_pos (show s.kmalloc.2.isSome = true from h.memory s.kmallocs),
      show wrap64 (m + (s.xfers i).wsize) = _ from Nat.mod_eq_of_lt hwrap]
  obtain ⟨t, ht, hcase⟩ := blocksLoop_spec (s := s.kmalloc.1) h.source h.countable hdone hm
    (Nat.le_refl _) hk.symm
  have hsend : Sends i _ s (s.sendBlocks i m) := ⟨ht.rw, ht.alloc, ht.others, ht.xfer, ht.sent⟩
  obtain ⟨sent, d, hx⟩ := hsend.xfer
  have hlt := h.countable.lt hm
  obtain ⟨n, rfl⟩ : ∃ n, t = n + 1 := by
    rcases hcase with ⟨_, rfl, _⟩ | ⟨_, n, rfl, _⟩
    · exact Nat.exists_eq_succ_of_ne_zero h.wsize.1.ne'
    · exact ⟨n, rfl⟩
  refine ⟨n, _, hsend, ?_, ?_, ?_⟩
  · exact List.map_congr_left fun j _ => (hsend.blockMsg R _).symm
  · rw [hx] at hcase ⊢
    rcases hcase with ⟨hd, hn, hle⟩ | ⟨hd, n', hn, _, hgt⟩
    · have := h.countable.lt hle
      refine .inr ⟨hd, hle, ?_⟩
      change m + n + 1 + (s.xfers i).wsize < 2 ^ 64
      change n + 1 = (s.xfers i).wsize at hn
      omega
    · exact .inl ⟨hd, hgt⟩
  · rw [hx]
    rcases hcase with ⟨_, _, hle⟩ | ⟨_, n', hn, hle, _⟩
    · exact (Nat.mul_le_mul_right _ (by omega)).trans hle
    · cases hn
      exact hle

theorem newSince_eq (h : Sends i ms s s') : newSince s s' = ms := by
  rw [newSince, h.sent, List.drop_left]

section Window

variable {n : Nat} (h : Window s i R m n ms)
include h

theorem Window.last : ms.getLast? = some (blockMsg (s.xfers i) R (m + n)) := by
  rw [h.blocks, List.range_succ, List.map_append, List.map_cons, List.map_nil, List.getLast?_append]
  rfl

theorem Window.bytes : R.take (m * (s.xfers i).blksize) ++ bytesOf ms =
    R.take ((m + n + 1) * (s.xfers i).blksize) := by
  rw [h.blocks, bytesOf_blocks, ← List.take_add, ← Nat.add_mul, Nat.add_assoc]

theorem Window.short_iff :
    ((R.drop ((m + n) * (s.xfers i).blksize)).take (s.xfers i).blksize).length < (s.xfers i).blksize ↔
      R.length < (m + n + 1) * (s.xfers i).blksize := by
  have := h.full
  rw [List.length_take, List.length_drop, Nat.succ_mul]
  omega

end Window

theorem readOn_window {n N : Nat} (h : Reading s i node port sport R) (hwin : Window s i R m n ms)
    (hN : R.length / (s.xfers i).blksize < m + n + N) :
    ∃ fuel, readOn node port fuel (s.xfers i).blksize s ms (R.take (m * (s.xfers i).blksize)) = some R := by
  induction N generalizing s m n ms with
  | zero => exact absurd ((Nat.le_div_iff_mul_le h.countable.size).mpr hwin.full) (by omega)
  | succ N ih =>
    rcases hwin.rest with ⟨_, hend⟩ | ⟨hdone, hmore, hwrap⟩
    · refine ⟨1, ?_⟩
      rw [readOn, hwin.last]
      dsimp only [blockMsg]
      rw [if_pos (hwin.short_iff.mpr hend), hwin.bytes, List.take_of_length_le hend.le]
    · have hlt := h.countable.lt hmore
      have hack := xferRx_ack h.toSlot h.write hdone (show m + n + 1 < 2 ^ 16 by omega)
      obtain ⟨n', ms', hsend, hwin'⟩ := sendBlocks_window h hdone hmore hwrap
      obtain ⟨sent, d, hx⟩ := hsend.xfer
      obtain ⟨fuel, hfuel⟩ := ih (h.sends hsend) hwin' (by rw [hx]; dsimp only; omega)
      refine ⟨fuel + 1, ?_⟩
      rw [readOn, hwin.last]
      dsimp only [blockMsg]
      rw [if_neg (mt hwin.short_iff.mp (Nat.not_lt.mpr hmore)), hwin.bytes, h.here,
        Nat.mod_eq_of_lt (show m + n + 1 < 2 ^ 16 by omega), hack, newSince_eq hsend]
      rw [hx] at hfuel
      exact hfuel

theorem readOn_start (h : Reading s i node port sport R) (hdone : (s.xfers i).done = false) :
    ∃ fuel ms, Sends i ms s (s.sendBlocks i 0) ∧
      readOn node port fuel (s.xfers i).blksize (s.sendBlocks i 0) ms [] = some R := by
  have := h.wsize.2
  obtain ⟨n, ms, hsend, hwin⟩ := sendBlocks_window (m := 0) h hdone (by omega) (by omega)
  obtain ⟨sent, d, hx⟩ := hsend.xfer
  obtain ⟨fuel, hfuel⟩ := readOn_window (N := R.length / (s.xfers i).blksize + 1) (h.sends hsend) hwin
    (by rw [hx]; dsimp only; omega)
  rw [Nat.zero_mul, List.take_zero, hx] at hfuel
  exact ⟨fuel, ms, hsend, hfuel⟩

/-! ### Requests -/

theorem parseNum_lt (digits : List U8) : parseNum digits < 2 ^ 64 :=
  invariant_foldl (P := fun v => v < 2 ^ 64) (fun _ _ _ => Nat.mod_lt _ (by decide)) digits (by decide)

theorem options_wsize {fuel : Nat} {o : List U8} {r : Options × List Access}
    (h : 0 < r.1.wsize ∧ r.1.wsize < 2 ^ 64) :
    0 < (options after fuel o r).1.wsize ∧ (options after fuel o r).1.wsize < 2 ^ 64 := by
  induction fuel generalizing o r with
  | zero => exact h
  | succ fuel ih =>
    rw [options]
    dsimp only
    split
    · exact h
    refine ih ?_
    have hn := parseNum_lt ((o.drop ((cstr o).length + 1) ++ after).takeWhile isDigit)
    dsimp only
    generalize parseNum _ = n at hn
    unfold Options.set
    split
    · exact h
    split
    · dsimp only
      split
      · exact ⟨Nat.one_pos, by decide⟩
      · omega
    · repeat' split
      all_goals exact h

theorem parse_wsize {p : Parsed} (hp : parse d after = some p) :
    (0 < p.opts.wsize ∧ p.opts.wsize < 2 ^ 64) ∧ (p.hasOpts = false → p.opts.blksize = 512) := by
  unfold parse at hp
  dsimp only at hp
  split at hp
  · cases hp
  cases hp
  refine ⟨options_wsize ⟨Nat.one_pos, by decide⟩, fun ho => ?_⟩
  have hnil := of_not_not (of_decide_eq_false ho)
  dsimp only
  rw [hnil]
  rfl

theorem rwNew_frame (s : Server) (path : List U8) :
    (s.rwNew path).1.xfers = s.xfers ∧ (s.rwNew path).1.alloc = s.alloc ∧ (s.rwNew path).1.sent = s.sent := by
  refine invariant_foldl (P := fun k : Server × Option Nat => k.1.xfers = s.xfers ∧ k.1.alloc = s.alloc ∧
    k.1.sent = s.sent)
    (fun k i hk => ?_) _ ⟨rfl, rfl, rfl⟩
  split <;> exact hk

theorem rwFor_frame {path : List U8} {write : Bool} {k : Server × Option Nat} (h : s.rwFor path write = k) :
    k.1.xfers = s.xfers ∧ k.1.alloc = s.alloc ∧ k.1.sent = s.sent := by
  subst h
  unfold Server.rwFor
  split
  · exact ⟨rfl, rfl, rfl⟩
  split
  · exact rwNew_frame s path
  · exact ⟨rfl, rfl, rfl⟩

theorem openFile_frame {path : List U8} (hx : x.rwi = none) {y : Xfer}
    (h : s.openFile path x = (s', y)) :
    (s'.xfers = s.xfers ∧ s'.alloc = s.alloc ∧ s'.sent = s.sent) ∧
      (∃ f r n, y = { x with file := f, rwi := r, size := n }) ∧
      (x.write = true → y.file = x.file ∧ ∀ r, y.rwi = some r → (s'.rw r).size = x.seek) := by
  unfold Server.openFile at h
  split at h
  · unfold Server.openRw at h
    split at h
    · next s₁ hk =>
      cases h
      refine ⟨rwFor_frame hk, ⟨_, _, _, rfl⟩, fun _ => ⟨rfl, fun r hr => ?_⟩⟩
      cases hx.symm.trans hr
    · next s₁ r hk =>
      have hframe := rwFor_frame hk
      unfold Server.useRw at h
      cases h
      refine ⟨?_, ⟨_, _, _, rfl⟩, fun hw => ⟨rfl, fun r' hr => ?_⟩⟩
      · split <;> exact hframe
      · cases hr
        simp only [if_pos hw, Server.setRw, Function.update_self]
  · split at h
    · cases h
      refine ⟨⟨rfl, rfl, rfl⟩, ⟨_, _, _, rfl⟩, fun _ => ⟨rfl, fun r hr => ?_⟩⟩
      cases hx.symm.trans hr
    · next hw =>
      cases h
      exact ⟨⟨rfl, rfl, rfl⟩, ⟨_, _, _, rfl⟩, fun hw' => absurd hw' hw⟩

structure Taken (s s' : Server) (i : Nat) : Prop where
  lt : i < 8
  free : (s.xfers i).used = false
  used : (s'.xfers i).used = true
  fresh : ∀ j < 8, (s.xfers j).used = true → (s.xfers j).port ≠ s.nextPort
  memory : ∀ k, (s.alloc k).isSome = true

structure Started (s : Server) (node port i : Nat) (d after : List U8) (s₁ : Server) (x : Xfer) (p : Parsed) :
    Prop where
  eq : s.tftpRx node port d after = s₁.start i x p.hasOpts
  parsed : parse d after = some p
  opts : x.toOptions = p.opts
  done : x.done = false
  sent : s₁.sent = s.sent
  memory : ∀ k, (s₁.alloc k).isSome = true
  slot : Slot (s₁.setXfer i x) i node port s.nextPort
  write : x.write = true → ∃ r, x.rwi = some r ∧ (s₁.rw r).size = x.seek

theorem sends_blocksLoop (s : Server) (i stop w k : Nat) :
    ∃ ms, Sends i ms s (Server.blocksLoop i stop w k s) := by
  induction w generalizing s k with
  | zero => exact ⟨[], .refl i s⟩
  | succ w ih =>
    rw [Server.blocksLoop]
    split
    · obtain ⟨ms, h⟩ := ih (s.sendBlock i k) (wrap32 (k + 1))
      exact ⟨_, (sends_sendBlock s i k).1.trans h⟩
    · exact ⟨[], .refl i s⟩

theorem sends_sendBlocks (s : Server) (i m : Nat) : ∃ ms, Sends i ms s (s.sendBlocks i m) := by
  have hk : Sends i [] s s.kmalloc.1 := ⟨rfl, rfl, fun _ _ => rfl, ⟨_, _, rfl⟩, (List.append_nil _).symm⟩
  unfold Server.sendBlocks
  dsimp only
  split
  · obtain ⟨ms, h⟩ := sends_blocksLoop s.kmalloc.1 i (wrap64 (m + (s.xfers i).wsize)) (s.xfers i).wsize (m + 1)
    exact ⟨_, hk.trans h⟩
  · exact ⟨[], hk⟩

theorem start_others {j : Nat} (x : Xfer) (hasOpts : Bool) (hj : j ≠ i) :
    (s.start i x hasOpts).xfers j = s.xfers j := by
  have hset : (s.setXfer i x).xfers j = s.xfers j := Function.update_of_ne hj _ _
  unfold Server.start
  dsimp only
  split
  · exact hset
  split
  · exact hset
  · obtain ⟨ms, h⟩ := sends_sendBlocks (s.setXfer i x) i 0
    exact (h.others j hj).trans hset

theorem started_of_taken (h : Taken s (s.tftpRx node port d after) i) :
    ∃ s₁ x p, Started s node port i d after s₁ x p := by
  generalize hs : s.tftpRx node port d after = s' at h
  have hkeep {r : Server} (hr : r = s') (hx : (r.xfers i).used = (s.xfers i).used) : False := by
    have hused := h.used
    rw [← hr, hx, h.free] at hused
    cases hused
  have hs' := hs
  unfold Server.tftpRx Server.request at hs'
  split at hs'
  · exact (hkeep hs' rfl).elim
  split at hs'
  swap
  · exact (hkeep hs' rfl).elim
  split at hs'
  · exact (hkeep hs' rfl).elim
  next p hp =>
  split at hs'
  · exact (hkeep hs' rfl).elim
  next i₀ hi₀ =>
  rcases hk : (s.takePort p).openFile p.path (s.newXfer p node port (decide (opcode d = 2))) with ⟨s₁, x⟩
  obtain ⟨⟨hxfers, halloc, hsent⟩, ⟨f, r, n, hx⟩, hwrite⟩ := openFile_frame rfl hk
  rw [hk] at hs'
  dsimp only [Server.answer] at hs'
  split at hs'
  · refine (hkeep hs' ?_).elim
    by_cases hi : i = i₀
    · rw [hi] at h ⊢
      exact (congrArg Xfer.used (Function.update_self i₀ _ s₁.xfers)).trans h.free.symm
    change (Function.update s₁.xfers i₀ _ i).used = _
    rw [Function.update_of_ne hi, hxfers]
    rfl
  next hfound =>
  have hi : i = i₀ := by
    by_contra hi
    exact hkeep hs' (by rw [start_others x p.hasOpts hi, hxfers]; rfl)
  subst hi
  have hself : (s₁.setXfer i x).xfers i = x := Function.update_self ..
  refine ⟨s₁, x, p, hs.trans hs'.symm, hp, by rw [hx]; rfl, by rw [hx]; rfl, hsent, ?_,
    ⟨h.lt, ?_, ?_, ?_, fun j hj hji => ?_⟩, fun hw => ?_⟩
  · rw [halloc]
    exact h.memory
  · rw [hself, hx]
    rfl
  · rw [hself, hx]
    rfl
  · rw [hself, hx]
    exact ⟨rfl, rfl⟩
  · rw [show (s₁.setXfer i x).xfers j = s.xfers j from (Function.update_of_ne hji _ _).trans (congrFun hxfers j)]
    exact h.fresh j hj
  have hw' : (s.newXfer p node port (decide (opcode d = 2))).write = true := by
    rw [hx] at hw
    exact hw
  obtain ⟨hfile, hsize⟩ := hwrite hw'
  cases hr : x.rwi with
  | none => exact absurd ⟨hr, hfile⟩ hfound
  | some r' => exact ⟨r', rfl, by rw [hsize r' hr, hx]⟩

theorem download_eq (hs : s.tftpRx node port d after = s')
    (h : Taken s s' i) (hw : (s'.xfers i).write = false)
    (hc : Countable (s'.xfers i) (requested s' (s'.xfers i))) :
    ∃ fuel, download fuel s node port d after = some (requested s' (s'.xfers i)) := by
  subst hs
  obtain ⟨s₁, x, p, hst⟩ := started_of_taken h
  obtain ⟨hws, hdefault⟩ := parse_wsize hst.parsed
  have hself : (s₁.setXfer i x).xfers i = x := Function.update_self ..
  have hslot := hst.slot
  have heq := hst.eq
  unfold Server.start at heq
  dsimp only at heq
  unfold download
  rw [← hst.opts] at hws hdefault
  cases ho : p.hasOpts with
  | true =>
    rw [ho, if_pos rfl] at heq
    rw [heq] at hw hc ⊢
    -- the options are acknowledged first, and block 0 asks for the first window
    generalize hs₂ : (s₁.setXfer i x).send x.port x.node x.rport (.oack x.toOptions x.size) = s₂ at hw hc ⊢
    have hx : s₂.xfers i = x := by rw [← hs₂]; exact hself
    have hslot : Slot s₂ i node port s.nextPort := by
      rw [← hs₂]
      exact hslot.congr ⟨_, _, rfl⟩ fun _ _ => rfl
    have hdone : (s₂.xfers i).done = false := by rw [hx]; exact hst.done
    obtain ⟨fuel, ms, hsend, hread⟩ :=
      readOn_start ⟨hslot, hw, rfl, hc, by rw [← hs₂]; exact hst.memory, by rw [hx]; exact hws⟩ hdone
    have hnew : newSince s s₂ = [⟨x.port, x.node, x.rport, .oack x.toOptions x.size⟩] := by
      rw [newSince, ← hs₂, ← hst.sent]
      exact List.drop_left
    have hport : x.port = s.nextPort := by rw [← hx]; exact hslot.here
    refine ⟨fuel + 1, ?_⟩
    rw [readOn, hnew]
    change readOn node port fuel x.blksize (s₂.xferRx x.port node port (packet 4 0 []))
      (newSince s₂ (s₂.xferRx x.port node port (packet 4 0 []))) [] = _
    rw [hport, xferRx_ack hslot hw hdone (by decide), newSince_eq hsend, ← hx]
    exact hread
  | false =>
    rw [ho, if_neg Bool.false_ne_true] at heq
    split at heq
    · next hxw =>
      rw [heq] at hw
      rw [show ((s₁.setXfer i x).send x.port x.node x.rport (.ack 0)).xfers i = x from hself, hxw] at hw
      cases hw
    · obtain ⟨ms, hsend⟩ := sends_sendBlocks (s₁.setXfer i x) i 0
      have hreq := hsend.requested
      obtain ⟨sent, dn, hx⟩ := hsend.xfer
      rw [heq] at hw hc ⊢
      rw [hreq] at hc ⊢
      rw [hx] at hw hc
      obtain ⟨fuel, ms', hsend', hread⟩ := readOn_start
        ⟨hslot, hw, rfl, ⟨hc.size, hc.count, hc.last⟩, hst.memory, by rw [hself]; exact hws⟩
          (by rw [hself]; exact hst.done)
      have hnew : newSince s ((s₁.setXfer i x).sendBlocks i 0) = ms' := by
        rw [newSince, hsend'.sent, show (s₁.setXfer i x).sent = s.sent from hst.sent, List.drop_left]
      rw [show ((s₁.setXfer i x).xfers i).blksize = 512 by rw [hself]; exact hdefault ho] at hread
      exact ⟨fuel, by rw [hnew]; exact hread⟩

/-! ### Writes -/

theorem contents_grow (r total : Nat) (halloc : ∀ k, (s.alloc k).isSome = true) :
    ∃ s' w log, s.grow r total = (s', some (w, log)) ∧ w.contents = (s.rw r).contents ∧ w.size = (s.rw r).size ∧
      s'.alloc = s.alloc ∧ s'.xfers = s.xfers := by
  unfold Server.grow
  dsimp only
  split
  · obtain ⟨block, hb⟩ := Option.isSome_iff_exists.mp (halloc s.kmallocs)
    have hcopy := map_memcpy block 0 (s.rw r).contents
    rw [Rw.contents, List.length_map, List.length_range, Nat.zero_add] at hcopy
    rw [show s.kmalloc.2 = some block from hb, Option.map_some]
    exact ⟨s.kmalloc.1, _, _, rfl, hcopy, rfl, rfl, rfl⟩
  · exact ⟨s, _, _, rfl, rfl, rfl, rfl, rfl⟩

theorem putData_append {r j : Nat} {bytes : List U8} (halloc : ∀ k, (s.alloc k).isSome = true)
    (hoff : (s.xfers i).seek + j * (s.xfers i).blksize = (s.rw r).size)
    (hlt : (s.rw r).size + bytes.length < 2 ^ 64)
    (hs : s.putData i r (j + 1) bytes = s') :
    (s'.rw r).contents = (s.rw r).contents ++ bytes ∧ s'.alloc = s.alloc ∧ (∀ k, k ≠ i → s'.xfers k = s.xfers k) ∧
      s'.xfers i =
        if bytes.length < (s.xfers i).blksize then { s.xfers i with used := false } else s.xfers i := by
  have hwrap : wrap64 ((s.xfers i).seek + pred32 (j + 1) * (s.xfers i).blksize) = (s.rw r).size := by
    rw [pred32, if_neg (Nat.succ_ne_zero j), Nat.add_sub_cancel, hoff]
    exact Nat.mod_eq_of_lt (by omega)
  have htotal : wrap64 ((s.rw r).size + bytes.length) = (s.rw r).size + bytes.length := Nat.mod_eq_of_lt hlt
  obtain ⟨s₁, w, log, hgrow, hcont, hsize, hal, hxf⟩ := contents_grow r ((s.rw r).size + bytes.length) halloc
  unfold Server.putData at hs
  dsimp only at hs
  rw [hwrap, htotal, hgrow] at hs
  dsimp only [Server.store] at hs
  have hnew : Rw.contents { w with
      data := some (memcpy (w.data.getD fun _ => 0) (s.rw r).size bytes)
      size := max w.size (wrap64 ((s.rw r).size + bytes.length)) } = (s.rw r).contents ++ bytes := by
    have hcopy := map_memcpy (w.data.getD fun _ => 0) (s.rw r).size bytes
    rw [← hcont, Rw.contents, Rw.contents, htotal, hsize, max_eq_right (Nat.le_add_right _ _)]
    exact hcopy
  rw [hxf] at hs
  split at hs
  · next hshort =>
    subst hs
    refine ⟨(congrArg Rw.contents (Function.update_self ..)).trans hnew, hal, fun k hk => ?_, ?_⟩
    · exact (Function.update_of_ne hk _ _).trans (congrFun hxf k)
    rw [if_pos hshort]
    refine (Function.update_self ..).trans ?_
    change { s₁.xfers i with used := false } = _
    rw [hxf]
  · next hfull =>
    subst hs
    refine ⟨(congrArg Rw.contents (Function.update_self ..)).trans hnew, hal, fun k _ => congrFun hxf k, ?_⟩
    rw [if_neg hfull]
    exact congrFun hxf i

theorem xferRx_data {r b : Nat} {bytes : List U8} (h : Slot s i node port sport)
    (hw : (s.xfers i).write = true) (hr : (s.xfers i).rwi = some r) (hb : b < 2 ^ 16) :
    s.xferRx sport node port (packet 3 b bytes) = s.putData i r b bytes := by
  unfold Server.xferRx
  rw [h.find]
  simp only [opcode_packet b bytes (show 3 < 256 by decide), block_packet 3 bytes hb, h.peer, hw, hr]
  simp [packet]

structure Written (s : Server) (i r : Nat) (x : Xfer) (done : List U8) (s' : Server) : Prop where
  xfer : s'.xfers i = x
  others : ∀ k, k ≠ i → s'.xfers k = s.xfers k
  alloc : s'.alloc = s.alloc
  contents : (s'.rw r).contents = (s.rw r).contents ++ done

theorem length_contents (w : Rw) : w.contents.length = w.size := by
  rw [Rw.contents, List.length_map, List.length_range]

structure Writing (s : Server) (i node port sport r : Nat) (bytes : List U8) : Prop
    extends Slot s i node port sport where
  write : (s.xfers i).write = true
  file : (s.xfers i).rwi = some r
  memory : ∀ k, (s.alloc k).isSome = true
  size : (s.rw r).size = (s.xfers i).seek
  countable : Countable (s.xfers i) bytes
  fits : (s.xfers i).seek + bytes.length < 2 ^ 64

section Upload

variable {r : Nat} {bytes : List U8} (h : Writing s i node port sport r bytes)
include h

theorem written_block {s₁ s₂ : Server} {j : Nat} (hj : j * (s.xfers i).blksize ≤ bytes.length)
    (h₁ : Written s i r (s.xfers i) (bytes.take (j * (s.xfers i).blksize)) s₁)
    (hs : s₁.xferRx sport node port (packet 3 (j + 1)
      ((bytes.drop (j * (s.xfers i).blksize)).take (s.xfers i).blksize)) = s₂) :
    Written s i r
      (if ((bytes.drop (j * (s.xfers i).blksize)).take (s.xfers i).blksize).length < (s.xfers i).blksize
      then { s.xfers i with used := false } else s.xfers i) (bytes.take ((j + 1) * (s.xfers i).blksize)) s₂ := by
  have hslot : Slot s₁ i node port sport := h.congr ⟨_, _, h₁.xfer⟩ h₁.others
  have hsize₁ : (s₁.rw r).size = (s.xfers i).seek + j * (s.xfers i).blksize := by
    rw [← length_contents, h₁.contents, List.length_append, length_contents, h.size, List.length_take,
      Nat.min_eq_left hj]
  rw [xferRx_data hslot (by rw [h₁.xfer]; exact h.write) (by rw [h₁.xfer]; exact h.file)
    (h.countable.lt hj)] at hs
  have hfits := h.fits
  obtain ⟨hcont, hal, hoth, hself⟩ := putData_append (by rw [h₁.alloc]; exact h.memory) (by rw [h₁.xfer, hsize₁])
    (by rw [hsize₁, List.length_take, List.length_drop]; omega) hs
  rw [h₁.xfer] at hself
  refine ⟨hself, fun k hk => (hoth k hk).trans (h₁.others k hk), hal.trans h₁.alloc, ?_⟩
  rw [hcont, h₁.contents, List.append_assoc, ← List.take_add, Nat.succ_mul]

theorem written_blocks {k : Nat} (hk : k * (s.xfers i).blksize ≤ bytes.length) :
    Written s i r (s.xfers i) (bytes.take (k * (s.xfers i).blksize)) ((List.range k).foldl (fun s' j =>
      s'.xferRx sport node port (packet 3 (j + 1)
        ((bytes.drop (j * (s.xfers i).blksize)).take (s.xfers i).blksize))) s) := by
  induction k with
  | zero => exact ⟨rfl, fun _ _ => rfl, rfl, by rw [Nat.zero_mul, List.take_zero, List.append_nil]; rfl⟩
  | succ k ih =>
    rw [Nat.succ_mul] at hk
    rw [List.range_succ, List.foldl_append, List.foldl_cons, List.foldl_nil]
    have hblock := written_block h (by omega) (ih (by omega)) rfl
    rwa [if_neg (by rw [List.length_take, List.length_drop]; omega)] at hblock

theorem upload_eq (hs : upload s node port sport (s.xfers i).blksize bytes = s') :
    (s'.rw r).contents = (s.rw r).contents ++ bytes ∧ (s'.xfers i).used = false := by
  have hT := Nat.div_mul_le_self bytes.length (s.xfers i).blksize
  have hT' := Nat.lt_div_mul_add (a := bytes.length) h.countable.size
  rw [upload, List.range_succ, List.foldl_append, List.foldl_cons, List.foldl_nil] at hs
  have hlast := written_block h hT (written_blocks h hT) hs
  rw [if_pos (by rw [List.length_take, List.length_drop]; omega),
    List.take_of_length_le (by rw [Nat.succ_mul]; omega)] at hlast
  exact ⟨hlast.contents, by rw [hlast.xfer]⟩

end Upload

theorem start_write {hasOpts : Bool} (hs : s.start i x hasOpts = s') (hw : (s'.xfers i).write = true) :
    s'.xfers = (s.setXfer i x).xfers ∧ s'.rw = s.rw ∧ s'.alloc = s.alloc := by
  subst hs
  unfold Server.start at hw ⊢
  dsimp only at hw ⊢
  split
  · exact ⟨rfl, rfl, rfl⟩
  next ho =>
  rw [if_neg ho] at hw
  split
  · exact ⟨rfl, rfl, rfl⟩
  next hx =>
  rw [if_neg hx] at hw
  obtain ⟨ms, hsend⟩ := sends_sendBlocks (s.setXfer i x) i 0
  obtain ⟨sent, d, hy⟩ := hsend.xfer
  rw [hy, show (s.setXfer i x).xfers i = x from Function.update_self ..] at hw
  exact absurd hw hx

/-- In every run whose requests end with a NUL and whose writes do not seek past the memory of their file, the
server stays inside requests and files. A read whose blocks can be numbered with 16 bits gets what it asked for,
and a write stores behind its seek what it sent. -/
theorem transfers {partition : List U8 → Option (List U8)} {alloc : Nat → Option (Nat → U8)}
    {es done rest : List Event}
    (hok : Along Ok step (boot partition alloc) es) (hes : es = done ++ rest) :
    let s := run step (boot partition alloc) done
    (∀ a ∈ s.log, a.Inside) ∧
    ∀ node port i d after, Taken s (s.tftpRx node port d after) i →
      let s' := s.tftpRx node port d after
      let x := s'.xfers i
      (x.write = false → Countable x (requested s' x) →
        ∃ fuel, download fuel s node port d after = some (requested s' x)) ∧
      (x.write = true → ∃ r, x.rwi = some r ∧ (s'.rw r).size = x.seek ∧
        ∀ bytes, Countable x bytes → x.seek + bytes.length < 2 ^ 64 →
          let s'' := upload s' node port x.port x.blksize bytes
          (s''.rw r).contents = (s'.rw r).contents ++ bytes ∧ (s''.xfers i).used = false) := by
  subst hes
  intro s
  have h : Inv s := invariant_run inv_step ⟨fun a ha => absurd ha List.not_mem_nil, fun _ => Nat.le_refl _,
    fun _ hw => absurd hw Bool.false_ne_true⟩ hok.split.1
  refine ⟨h.log, fun node port i d after ht => ⟨fun hw hc => download_eq rfl ht hw hc, fun hw => ?_⟩⟩
  obtain ⟨s₁, x, p, hst⟩ := started_of_taken ht
  obtain ⟨hxfers, hrw, halloc⟩ := start_write hst.eq.symm hw
  have hx : (s.tftpRx node port d after).xfers i = x := (congrFun hxfers i).trans (Function.update_self ..)
  have hslot : Slot (s.tftpRx node port d after) i node port s.nextPort :=
    hst.slot.congr ⟨_, _, congrFun hxfers i⟩ fun j _ => congrFun hxfers j
  obtain ⟨r, hr, hsize⟩ := hst.write (hx ▸ hw)
  refine ⟨r, hx ▸ hr, by rw [hrw, hx]; exact hsize, fun bytes hc hlt => ?_⟩
  refine upload_eq ⟨hslot, hw, hx ▸ hr, by rw [halloc]; exact hst.memory, by rw [hrw, hx]; exact hsize, hc,
    hlt⟩ ?_
  rw [hslot.here]

def strings (l : List String) : List U8 := l.flatMap fun s => ascii s ++ [0]

def twenty (name : List U8) : Option (List U8) := if name = ascii "a" then some (List.replicate 20 7) else none

def readTwenty : List U8 := [0, 1] ++ strings ["/readonly/firmware/a", "octet", "blksize", "8", "wsize", "2"]

theorem transfers_twenty : ∃ fuel,
    download fuel (boot twenty fun _ => some fun _ => 0) 1 2 readTwenty [] = some (List.replicate 20 7) := by
  have hrun : Along Ok step (boot twenty fun _ => some fun _ => 0) [] := trivial
  have h := (transfers hrun (List.append_nil _).symm).2 1 2 0 readTwenty []
    ⟨by decide, rfl, by decide +kernel, by decide, fun _ => rfl⟩
  obtain ⟨fuel, hf⟩ := h.1 (by decide +kernel) ⟨by decide +kernel, by decide +kernel, by decide +kernel⟩
  exact ⟨fuel, hf.trans (by decide +kernel)⟩

def writeFar : List Event :=
  [.request 1 2 ([0, 2] ++ strings ["/readwrite/a", "octet", "seek", "5000"]) [],
    .packet 0x401 1 2 (packet 3 1 [5])]

/-- The file is copied to a larger buffer, 5000 bytes of it. -/
theorem far_write_copies_past_file :
    ¬ ∀ es, ∀ a ∈ (run step (boot twenty fun _ => some fun _ => 0) es).log, a.Inside := by
  intro h
  have hin : Access.Inside (.file 4096 0 5000) := h writeFar _ (by decide +kernel)
  exact absurd hin (by decide : ¬ 0 + 5000 ≤ 4096)

end Sic.Tftp
