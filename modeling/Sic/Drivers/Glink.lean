import Sic.Lib.Ring
import Sic.Lib.Run
import Sic.Lib.Word

/-! GLINK: the commands and messages that the modem puts into a FIFO in shared memory. -/

namespace Sic.Glink

abbrev U16 := BitVec 16

inductive Cmd
  | version | versionAck | opens | close | openAck | intent | rxDone | rxIntentReq | rxIntentReqAck | txData |
    closeAck
  | txDataCont | readNotif | rxDoneReuse | signals | unknown

def Cmd.ofNat : Nat → Cmd
  | 0 => .version
  | 1 => .versionAck
  | 2 => .opens
  | 3 => .close
  | 4 => .openAck
  | 5 => .intent
  | 6 => .rxDone
  | 7 => .rxIntentReq
  | 8 => .rxIntentReqAck
  | 9 => .txData
  | 11 => .closeAck
  | 12 => .txDataCont
  | 13 => .readNotif
  | 14 => .rxDoneReuse
  | 15 => .signals
  | _ => .unknown

structure Intent where
  id : U32
  size : U32
  used : U32
  buf : Nat → U8
  deriving Inhabited

def Intent.contents (x : Intent) : List U8 := (List.range x.used.toNat).map x.buf

def Intent.restart (x : Intent) (first : Bool) : Intent := if first then { x with used := 0 } else x

def Intent.add (x : Intent) (chunk : U32) (bytes : List U8) : Intent :=
  if x.used + chunk ≤ x.size then { x with buf := memcpy x.buf x.used.toNat bytes, used := x.used + chunk } else x

structure Offer where
  id : U32
  size : U32
  used : Bool

structure Chan where
  name : List U8
  rcid : U16 := 0
  lcid : U16 := 0
  remoteOpen : Bool := false
  localOpen : Bool := false
  acked : Bool := false
  up : Bool := false
  ours : List Intent := []
  theirs : List Offer := []
  intentAsked : Bool := false
  /-- Whether `on_rx` is set. -/
  handler : Bool := false
  rxCount : U32 := 0
  deriving Inhabited

inductive Access
  | read (avail off n : Nat)
  | store (size off n : Nat)

structure Packet where
  chan : Nat
  intent : Nat
  first : Bool
  bytes : List U8
  last : Bool
  room : Nat
  heard : Bool

structure Link where
  fifo : Nat → U8
  rxLen : U32
  head : U32
  tail : U32
  chans : List Chan
  nextLcid : U16
  features : U32
  linkVersion : Bool
  /-- What each `kmalloc` returns, and how many there were. -/
  alloc : Nat → Option (Nat → U8)
  kmallocs : Nat
  log : List Access
  packets : List Packet
  delivered : List (Nat × List U8)

def roundUp (x : U32) : U32 := (x + 7) &&& ~~~7#32

namespace Link

variable (s : Link)

def rxAvail : U32 := if s.tail ≤ s.head then s.head - s.tail else s.rxLen - s.tail + s.head

def peekFrom (t : U32) : Nat → List U8
  | 0 => []
  | n + 1 => s.fifo t.toNat :: peekFrom (if t + 1 = s.rxLen then 0 else t + 1) n

/-- `rx_peek`; subtracting `rx_len` while that is possible leaves a remainder. -/
def peek (off : U32) (n : Nat) : List U8 := s.peekFrom ((s.tail + off) % s.rxLen) n

def rxAdvance (n : U32) : Link := { s with tail := (s.tail + n) % s.rxLen }

def read (off : U32) (n : Nat) : Link := { s with log := .read s.rxAvail.toNat off.toNat n :: s.log }

def word (off : U32) : U32 := BitVec.ofNat 32 ((s.peek off 4).foldr (fun x n => x.toNat + 256 * n) 0)

def cmd : Cmd := Cmd.ofNat ((s.word 0).setWidth 16).toNat

def isFirst : Bool :=
  match s.cmd with
  | .txData => true
  | _ => false

def chan (i : Nat) : Chan := s.chans.getD i default

def setChan (i : Nat) (f : Chan → Chan) : Link := { s with chans := s.chans.modify i f }

def chanByName (name : List U8) : Option Nat := s.chans.findIdx? fun c => c.name = name

def chanByRcid (rcid : U16) : Option Nat := s.chans.findIdx? fun c => c.remoteOpen && c.rcid = rcid

def chanByLcid (lcid : U16) : Option Nat := s.chans.findIdx? fun c => c.localOpen && c.lcid = lcid

def addIntent (i : Nat) (size : U32) : Link :=
  if 64 ≤ (s.chan i).ours.length then s else
    let s' := { s with kmallocs := s.kmallocs + 1 }
    match s.alloc s.kmallocs with
    | none => s'
    | some buf =>
      s'.setChan i fun c => { c with ours := c.ours ++ [⟨BitVec.ofNat 32 c.ours.length + 1, size, 0, buf⟩] }

def offered : List U32 := List.replicate 5 0x800 ++ List.replicate 3 0x2000 ++ List.replicate 2 0x4400

def chanUp (i : Nat) : Link :=
  offered.foldl (fun s size => s.addIntent i size) (s.setChan i fun c => { c with up := true })

def openLocal (i : Nat) : Link :=
  if (s.chan i).localOpen then s else
    { s.setChan i fun c => { c with localOpen := true, lcid := s.nextLcid } with nextLcid := s.nextLcid + 1 }

def upIf (i : Nat) (b : Bool) : Link := if b && !(s.chan i).up then s.chanUp i else s

def addChan (name : List U8) : Link := { s with chans := s.chans ++ [{ name := name.take 31 }] }

def remoteOpens (i : Nat) (rcid : U16) : Link :=
  let s := s.setChan i fun c => { c with rcid := rcid, remoteOpen := true }
  if (s.chan i).handler then (s.openLocal i).upIf i ((s.openLocal i).chan i).acked else s

def opened (name : List U8) (rcid : U16) : Link :=
  match s.chanByName name with
  | some i => s.remoteOpens i rcid
  | none => if s.chans.length < 4 then (s.addChan name).remoteOpens s.chans.length rcid else s

def onChan (i : Option Nat) (f : Link → Nat → Link) : Link :=
  match i with
  | none => s
  | some i => f s i

def offers (i : Option Nat) (n : Nat) : Link :=
  (List.range n).foldl (fun s k =>
    let off : U32 := 8 + 8 * BitVec.ofNat 32 k
    (s.read off 8).onChan i fun s i =>
      if (s.chan i).theirs.length < 64 then
        s.setChan i fun c =>
          { c with theirs := c.theirs ++ [⟨s.word (off + 4), s.word off, false⟩], intentAsked := false }
      else s) s

def done (c : Chan) (id : U32) (reuse : Bool) : Chan :=
  match c.theirs.findIdx? fun x => x.id = id with
  | none => c
  | some k =>
    if reuse then { c with theirs := c.theirs.modify k fun x => { x with used := false } }
    else { c with theirs := (c.theirs.modify k fun x => c.theirs.getLastD x).dropLast }

def ourIntent (c : Chan) (id : U32) : Option Nat :=
  (List.range c.ours.length).reverse.find? fun j => c.ours[j]?.map Intent.id = some id

def takeChunk (i j : Nat) (first : Bool) (chunk left : U32) : Link :=
  let c := s.chan i
  let x := (c.ours.getD j default).restart first
  let bytes := s.peek 16 chunk.toNat
  let y := x.add chunk bytes
  { s with
    log := if x.used + chunk ≤ x.size then
      .store x.size.toNat x.used.toNat chunk.toNat :: (s.read 16 chunk.toNat).log else s.log
    packets := s.packets ++ [⟨i, j, first, bytes, left = 0, x.size.toNat, c.handler⟩]
    delivered := if left = 0 ∧ c.handler then s.delivered ++ [(i, y.contents)] else s.delivered
    chans := s.chans.modify i fun c => { c with
      ours := c.ours.set j (if left = 0 then { y with used := 0 } else y)
      rxCount := if left = 0 then c.rxCount + 1 else c.rxCount } }

def takeData (first : Bool) (p1 : U16) (p2 chunk left : U32) : Link :=
  s.onChan (s.chanByRcid p1) fun s i => s.onChan (ourIntent (s.chan i) p2) fun s j =>
    s.takeChunk i j first chunk left

/-- The command at the tail: what it does, and how far the tail moves then, or nothing if `glink_rx` returns. -/
def command : Link × Option U32 :=
  let avail := s.rxAvail
  if avail < 8 then (s, none) else
    let p1 : U16 := (s.word 0 >>> 16).setWidth 16
    let p2 := s.word 4
    let r := s.read 0 8
    match s.cmd with
    | .version => ({ r with features := r.features &&& p2 }, some 8)
    | .versionAck =>
      (if p1 = 0 then r else if p2 ≠ r.features then { r with features := r.features &&& p2 }
        else { r with linkVersion := true }, some 8)
    | .opens =>
      let n := p2 &&& 0xffff
      let total := 8 + roundUp n
      if avail < total then (r, none) else
        let k := if n < 32 then n.toNat else 32
        ((r.read 8 k).opened ((s.peek 8 k).takeWhile (· ≠ 0)) p1, some total)
    | .openAck =>
      (r.onChan (r.chanByLcid p1) fun r i =>
        (r.setChan i fun c => { c with acked := true }).upIf i (r.chan i).remoteOpen, some 8)
    | .close =>
      (r.onChan (r.chanByRcid p1) fun r i => r.setChan i fun c =>
        { c with remoteOpen := false, up := false, theirs := [] }, some 8)
    | .rxIntentReqAck =>
      (if p2 = 0 then r.onChan (r.chanByRcid p1) fun r i => r.setChan i fun c =>
        { c with intentAsked := false } else r, some 8)
    | .intent =>
      let total := 8 + 8 * p2
      if avail < total then (r, none) else (r.offers (r.chanByRcid p1) p2.toNat, some (roundUp total))
    | .rxDone => (r.onChan (r.chanByRcid p1) fun r i => r.setChan i fun c => done c p2 false, some 8)
    | .rxDoneReuse => (r.onChan (r.chanByRcid p1) fun r i => r.setChan i fun c => done c p2 true, some 8)
    | .rxIntentReq => (r.onChan (r.chanByRcid p1) fun r i => r.addIntent i p2, some 8)
    | .txData | .txDataCont =>
      if avail < 16 then (r, none) else
        let chunk := s.word 8
        let r := r.read 0 16
        if avail < 16 + chunk then (r, none) else
          (r.takeData s.isFirst p1 p2 chunk (s.word 12), some (roundUp (16 + chunk)))
    | .closeAck | .signals | .readNotif | .unknown => (r, some 8)

/-- One turn of the loop of `glink_rx`; nothing reads the tail between `rx_advance` and the end of the turn. -/
def round : Link × Bool :=
  match s.command with
  | (r, some n) => (r.rxAdvance n, true)
  | (r, none) => (r, false)

def glinkRx : Nat → Link → Option Link
  | 0, _ => none
  | n + 1, s => if s.round.2 then glinkRx n s.round.1 else some s.round.1

def glinkChannel (name : List U8) : Link :=
  match s.chanByName name with
  | some i => s.setChan i fun c => { c with handler := true }
  | none =>
    if s.chans.length < 4 then (s.addChan name).setChan s.chans.length fun c => { c with handler := true } else s

end Link

open Link

def attach (len : U32) (alloc : Nat → Option (Nat → U8)) : Link :=
  ⟨fun _ => 0, len, 0, 0, [], 1, 1, false, alloc, 0, [], [], []⟩

inductive Event
  | modem (fifo : Nat → U8) (head : U32)
  | channel (name : List U8)
  | round

def step (s : Link) : Event → Link
  | .modem fifo head => { s with fifo := fifo, head := head }
  | .channel name => s.glinkChannel name
  | .round => s.round.1

/-! ### What is received -/

structure Pieces where
  got : Nat → Nat → List U8
  out : List (Nat × List U8)

def Pieces.start : Pieces := ⟨fun _ _ => [], []⟩

def collect (add : List U8 → Packet → List U8) (q : Pieces) (p : Packet) : Pieces :=
  let m := add (if p.first then [] else q.got p.chan p.intent) p
  ⟨fun i j => if i = p.chan ∧ j = p.intent then (if p.last then [] else m) else q.got i j,
    if p.last ∧ p.heard then q.out ++ [(p.chan, m)] else q.out⟩

def joined (m : List U8) (p : Packet) : List U8 := m ++ p.bytes

def kept (m : List U8) (p : Packet) : List U8 := if m.length + p.bytes.length ≤ p.room then m ++ p.bytes else m

def Fits (q : Pieces) (p : Packet) : Prop :=
  (if p.first then [] else q.got p.chan p.intent).length + p.bytes.length ≤ p.room

theorem collect_of_fits {ps : List Packet} {q : Pieces} (h : Along Fits (collect joined) q ps) :
    run (collect kept) q ps = run (collect joined) q ps := by
  induction ps generalizing q with
  | nil => rfl
  | cons p ps ih =>
    have hp : collect kept q p = collect joined q p := by
      simp only [collect, kept, joined, if_pos (show _ ≤ _ from h.1)]
    change run (collect kept) (collect kept q p) ps = run (collect joined) (collect joined q p) ps
    rw [hp]
    exact ih h.2

/-! ### The ring -/

theorem toNat_roundUp {x : U32} (h : x.toNat + 7 < 2 ^ 32) : (roundUp x).toNat = (x.toNat + 7) / 8 * 8 := by
  have hmask (y : U32) : y &&& ~~~7#32 = (y >>> 3) <<< 3 := by
    apply BitVec.eq_of_getLsbD_eq
    intro i hi
    have h7 : (7#32).getLsbD i = decide (i < 3) := by
      have hall : ∀ i : Fin 32, (7#32).getLsbD i = decide (i.val < 3) := by decide
      exact hall ⟨i, hi⟩
    simp only [BitVec.getLsbD_and, BitVec.getLsbD_not, BitVec.getLsbD_shiftLeft, BitVec.getLsbD_ushiftRight, h7,
      hi]
    by_cases h : i < 3
    · simp [h]
    · simp [h, show 3 + (i - 3) = i by omega]
  rw [roundUp, hmask, BitVec.toNat_shiftLeft, BitVec.toNat_ushiftRight, Nat.shiftLeft_eq,
    Nat.shiftRight_eq_div_pow, BitVec.toNat_add_of_lt h]
  change (x.toNat + 7) / 2 ^ 3 * 2 ^ 3 % 2 ^ 32 = _
  omega

namespace Link

structure Ringed (s : Link) : Prop where
  len : s.rxLen.toNat ≤ 2 ^ 31
  tail : s.tail.toNat < s.rxLen.toNat

theorem toNat_rxAvail {s : Link} (h : s.Ringed) (hh : s.head < s.rxLen) : s.rxAvail.toNat =
    if s.tail.toNat ≤ s.head.toNat then s.head.toNat - s.tail.toNat
    else s.rxLen.toNat - s.tail.toNat + s.head.toNat := by
  have := h.tail
  have := h.len
  have hh : s.head.toNat < s.rxLen.toNat := hh
  simp only [rxAvail, BitVec.le_def]
  split
  · bv_omega
  · bv_omega

theorem rxAdvance_spec {s : Link} (h : s.Ringed) (hh : s.head < s.rxLen) {n : U32}
    (hn : n.toNat ≤ s.rxAvail.toNat) :
    (s.rxAdvance n).Ringed ∧ (s.rxAdvance n).rxAvail.toNat = s.rxAvail.toNat - n.toNat := by
  have hav := toNat_rxAvail h hh
  have htail := h.tail
  have hlen := h.len
  have hh' : s.head.toNat < s.rxLen.toNat := hh
  have hle : s.rxAvail.toNat < s.rxLen.toNat := by split at hav <;> omega
  have ht : (s.rxAdvance n).tail.toNat = (s.tail.toNat + n.toNat) % s.rxLen.toNat := by
    change ((s.tail + n) % s.rxLen).toNat = _
    rw [BitVec.toNat_umod, BitVec.toNat_add_of_lt (by omega)]
  have hr : (s.rxAdvance n).Ringed := ⟨hlen, by rw [ht]; exact Nat.mod_lt _ (by omega)⟩
  refine ⟨hr, ?_⟩
  have hnew : (s.rxAdvance n).rxAvail.toNat = if (s.rxAdvance n).tail.toNat ≤ s.head.toNat
      then s.head.toNat - (s.rxAdvance n).tail.toNat
      else s.rxLen.toNat - (s.rxAdvance n).tail.toNat + s.head.toNat :=
    toNat_rxAvail hr hh
  rw [Ring.wrap_eq htail (by omega)] at ht
  split at hav <;> split at ht <;> split at hnew <;> omega

def intent (s : Link) (i j : Nat) : Option Intent := s.chans[i]?.bind (·.ours[j]?)

end Link

def Access.Inside : Access → Prop
  | .read avail off n => off + n ≤ avail
  | .store size off n => off + n ≤ size

structure Frame (s s' : Link) : Prop where
  shared : s'.rxLen = s.rxLen ∧ s'.head = s.head ∧ s'.tail = s.tail
  history : s'.packets = s.packets ∧ s'.delivered = s.delivered
  log : ∀ a ∈ s'.log, a ∈ s.log ∨ a.Inside
  intents : ∀ i j, s'.intent i j = s.intent i j ∨
    s.intent i j = none ∧ ∃ x, s'.intent i j = some x ∧ x.used = 0 ∧ x.size.toNat ≤ 2 ^ 31

theorem Frame.refl (s : Link) : Frame s s := ⟨⟨rfl, rfl, rfl⟩, ⟨rfl, rfl⟩, fun _ => .inl, fun _ _ => .inl rfl⟩

theorem Frame.trans {s s' s'' : Link} (h : Frame s s') (h' : Frame s' s'') : Frame s s'' where
  shared := ⟨h'.shared.1.trans h.shared.1, h'.shared.2.1.trans h.shared.2.1, h'.shared.2.2.trans h.shared.2.2⟩
  history := ⟨h'.history.1.trans h.history.1, h'.history.2.trans h.history.2⟩
  log a ha := (h'.log a ha).elim (h.log a) .inr
  intents i j := by
    rcases h'.intents i j with he | ⟨hn, hx⟩
    · rw [he]
      exact h.intents i j
    rcases h.intents i j with he | ⟨_, x, hx', _⟩
    · exact .inr ⟨he ▸ hn, hx⟩
    · cases hn.symm.trans hx'

variable {s s' r : Link} {i j : Nat} {x : Intent} {chunk : U32}

theorem Frame.rxAvail (h : Frame s s') : s'.rxAvail = s.rxAvail := by
  rw [Link.rxAvail, Link.rxAvail, h.shared.1, h.shared.2.1, h.shared.2.2]

section Frames

variable {s : Link}

theorem frame_read {off : U32} {n : Nat} (h : off.toNat + n ≤ s.rxAvail.toNat) : Frame s (s.read off n) := by
  refine ⟨⟨rfl, rfl, rfl⟩, ⟨rfl, rfl⟩, fun a ha => ?_, fun _ _ => .inl rfl⟩
  rcases List.mem_cons.mp ha with rfl | ha
  · exact .inr h
  · exact .inl ha

theorem frame_chans {cs : List Chan} (h : ∀ i j, cs[i]?.bind (·.ours[j]?) = s.intent i j) :
    Frame s { s with chans := cs } :=
  ⟨⟨rfl, rfl, rfl⟩, ⟨rfl, rfl⟩, fun _ => .inl, fun i j => .inl (h i j)⟩

theorem frame_setChan (i : Nat) {f : Chan → Chan} (hf : ∀ c, (f c).ours = c.ours) : Frame s (s.setChan i f) := by
  refine frame_chans fun k j => ?_
  rw [Link.intent, List.getElem?_modify]
  cases s.chans[k]? with
  | none => rfl
  | some c =>
    by_cases hk : i = k
    · simp [hk, hf]
    · simp [hk]

theorem frame_addChan (name : List U8) : Frame s (s.addChan name) := by
  refine frame_chans fun k j => ?_
  rw [Link.intent, List.getElem?_append]
  split
  · rfl
  next hk =>
  rw [List.getElem?_eq_none (Nat.le_of_not_lt hk)]
  cases k - s.chans.length with
  | zero => rfl
  | succ _ => rfl

theorem frame_addIntent (i : Nat) {size : U32} (hsize : size.toNat ≤ 2 ^ 31) : Frame s (s.addIntent i size) := by
  unfold Link.addIntent
  split
  · exact .refl s
  dsimp only
  split
  · exact ⟨⟨rfl, rfl, rfl⟩, ⟨rfl, rfl⟩, fun _ => .inl, fun _ _ => .inl rfl⟩
  next buf _ =>
  refine ⟨⟨rfl, rfl, rfl⟩, ⟨rfl, rfl⟩, fun _ => .inl, fun k j => ?_⟩
  simp only [Link.intent, Link.setChan, List.getElem?_modify]
  cases s.chans[k]? with
  | none => exact .inl rfl
  | some c =>
    by_cases hk : i = k
    · by_cases hj : j = c.ours.length
      · refine .inr ⟨by simp [hj], ⟨BitVec.ofNat 32 c.ours.length + 1, size, 0, buf⟩, by simp [hk, hj], rfl,
          hsize⟩
      · left
        simp only [hk, Option.map_eq_map, Option.map_some, Option.bind_some, if_true]
        rcases Nat.lt_or_ge j c.ours.length with hlt | hge
        · rw [List.getElem?_append_left hlt]
        · rw [List.getElem?_eq_none (by simp; omega), List.getElem?_eq_none hge]
    · simp [hk]

theorem frame_chanUp (i : Nat) : Frame s (s.chanUp i) := by
  have hall : ∀ size ∈ Link.offered, size.toNat ≤ 2 ^ 31 := by
    simp [Link.offered]
  have hfold (sizes : List U32) (h : ∀ size ∈ sizes, size.toNat ≤ 2 ^ 31) (r : Link) :
      Frame r (sizes.foldl (fun s size => s.addIntent i size) r) := by
    induction sizes generalizing r with
    | nil => exact .refl r
    | cons size sizes ih =>
      exact (frame_addIntent i (h size List.mem_cons_self)).trans
        (ih (fun x hx => h x (List.mem_cons_of_mem _ hx)) _)
  have hup : Frame s (s.setChan i fun c => { c with up := true }) := frame_setChan i fun _ => rfl
  rw [Link.chanUp]
  generalize Link.offered = sizes at hall
  exact hup.trans (hfold sizes hall _)

theorem frame_openLocal (i : Nat) : Frame s (s.openLocal i) := by
  unfold Link.openLocal
  split
  · exact .refl s
  · have h : Frame s (s.setChan i fun c => { c with localOpen := true, lcid := s.nextLcid }) :=
      frame_setChan i fun _ => rfl
    exact ⟨h.shared, h.history, h.log, h.intents⟩

theorem frame_upIf (i : Nat) (b : Bool) : Frame s (s.upIf i b) := by
  unfold Link.upIf
  split
  · exact frame_chanUp i
  · exact .refl s

theorem frame_remoteOpens (i : Nat) (rcid : U16) : Frame s (s.remoteOpens i rcid) := by
  have hset : Frame s (s.setChan i fun c => { c with rcid := rcid, remoteOpen := true }) :=
    frame_setChan i fun _ => rfl
  unfold Link.remoteOpens
  dsimp only
  split
  · exact hset.trans ((frame_openLocal i).trans (frame_upIf i _))
  · exact hset

theorem frame_opened (name : List U8) (rcid : U16) : Frame s (s.opened name rcid) := by
  unfold Link.opened
  split
  · exact frame_remoteOpens _ rcid
  split
  · exact (frame_addChan name).trans (frame_remoteOpens _ rcid)
  · exact .refl s

theorem frame_onChan (i : Option Nat) {f : Link → Nat → Link} (hf : ∀ i, Frame s (f s i)) :
    Frame s (s.onChan i f) := by
  cases i with
  | none => exact .refl s
  | some i => exact hf i

theorem ours_done (c : Chan) (id : U32) (reuse : Bool) : (Link.done c id reuse).ours = c.ours := by
  unfold Link.done
  split
  · rfl
  · split <;> rfl

theorem frame_glinkChannel (name : List U8) : Frame s (s.glinkChannel name) := by
  unfold Link.glinkChannel
  split
  · exact frame_setChan _ fun _ => rfl
  split
  · exact (frame_addChan name).trans (frame_setChan _ fun _ => rfl)
  · exact .refl s

theorem frame_offers (i : Option Nat) {n : Nat} (hn : 8 + 8 * n ≤ s.rxAvail.toNat) : Frame s (s.offers i n) := by
  unfold Link.offers
  induction n with
  | zero => exact .refl s
  | succ n ih =>
    have ih := ih (by omega)
    rw [List.range_succ, List.foldl_append, List.foldl_cons, List.foldl_nil]
    generalize (List.range n).foldl _ s = r at ih
    have hlt := s.rxAvail.isLt
    have hoff : (8 + 8 * BitVec.ofNat 32 n : U32).toNat = 8 + 8 * n := by bv_omega
    refine ih.trans (.trans (frame_read (by rw [hoff, ih.rxAvail]; omega)) (frame_onChan i fun i => ?_))
    split
    · exact frame_setChan i fun _ => rfl
    · exact .refl _

end Frames

/-! ### Messages -/

def Holds : Option Intent → List U8 → Prop
  | none, m => m = []
  | some x, m => x.size.toNat ≤ 2 ^ 31 ∧ x.used.toNat ≤ x.size.toNat ∧ x.contents = m

def pieces (s : Link) : Pieces := run (collect kept) .start s.packets

structure Inv (s : Link) : Prop where
  ring : s.Ringed
  log : ∀ a ∈ s.log, a.Inside
  holds : ∀ i j, Holds (s.intent i j) ((pieces s).got i j)
  out : s.delivered = (pieces s).out

theorem Inv.frame (h : Inv s) (hf : Frame s s') : Inv s' := by
  have hp : pieces s' = pieces s := by rw [pieces, pieces, hf.history.1]
  refine ⟨⟨?_, ?_⟩, fun a ha => (hf.log a ha).elim (h.log a) id, fun i j => ?_, ?_⟩
  · rw [hf.shared.1]
    exact h.ring.len
  · rw [hf.shared.1, hf.shared.2.2]
    exact h.ring.tail
  · rw [hp]
    rcases hf.intents i j with he | ⟨hn, x, hx, hused, hsize⟩
    · rw [he]
      exact h.holds i j
    have hm := h.holds i j
    rw [hn] at hm
    rw [hx, show (pieces s).got i j = [] from hm, Holds, Intent.contents, hused]
    exact ⟨hsize, Nat.zero_le _, rfl⟩
  · rw [hp, hf.history.2, h.out]

theorem length_peekFrom (s : Link) (t : U32) (n : Nat) : (s.peekFrom t n).length = n := by
  induction n generalizing t with
  | zero => rfl
  | succ n ih => rw [Link.peekFrom, List.length_cons, ih]

theorem intent_of_chan (h : (s.chan i).ours[j]? = some x) :
    s.chans[i]? = some (s.chan i) ∧ s.intent i j = some x := by
  rw [Link.chan, List.getD_eq_getElem?_getD] at h ⊢
  cases hc : s.chans[i]? with
  | none =>
    rw [hc] at h
    cases h
  | some c =>
    rw [hc] at h
    exact ⟨rfl, by rw [Link.intent, hc]; exact h⟩

theorem intent_set {f : Chan → Chan} {z : Intent} (hs : s'.chans = s.chans.modify i f)
    (hf : ∀ c, (f c).ours = c.ours.set j z) (hx : s.intent i j = some x) (k l : Nat) :
    s'.intent k l = if k = i ∧ l = j then some z else s.intent k l := by
  simp only [Link.intent] at hx ⊢
  rw [hs, List.getElem?_modify]
  cases hc : s.chans[k]? with
  | none =>
    by_cases hk : k = i
    · subst hk
      rw [hc] at hx
      cases hx
    · simp [hk]
  | some c =>
    by_cases hk : k = i
    · subst hk
      rw [hc] at hx
      obtain ⟨hlt, _⟩ := List.getElem?_eq_some_iff.mp hx
      by_cases hl : l = j
      · simp [hf, hl, hlt]
      · simp [hf, hl, Ne.symm hl]
    · simp [hk, Ne.symm hk]

theorem restart_spec {m : List U8} (h : Holds (some x) m) (first : Bool) :
    Holds (some (x.restart first)) (if first then [] else m) := by
  cases first with
  | false => exact h
  | true => exact ⟨h.1, Nat.zero_le _, rfl⟩

theorem length_contents (x : Intent) : x.contents.length = x.used.toNat := by
  rw [Intent.contents, List.length_map, List.length_range]

theorem add_spec {m : List U8} (h : Holds (some x) m) (hlt : chunk.toNat < 2 ^ 31) {p : Packet}
    (hlen : p.bytes.length = chunk.toNat) (hroom : p.room = x.size.toNat) :
    Holds (some (x.add chunk p.bytes)) (kept m p) := by
  obtain ⟨hsize, hused, rfl⟩ := h
  have hsum : (x.used + chunk).toNat = x.used.toNat + chunk.toNat := BitVec.toNat_add_of_lt (by omega)
  have hle : x.used + chunk ≤ x.size ↔ x.contents.length + p.bytes.length ≤ p.room := by
    rw [BitVec.le_def, hsum, length_contents, hlen, hroom]
  rw [Intent.add, kept]
  by_cases hfit : x.used + chunk ≤ x.size
  · rw [if_pos hfit, if_pos (hle.mp hfit)]
    refine ⟨hsize, hfit, ?_⟩
    rw [Intent.contents, Intent.contents]
    dsimp only
    rw [hsum, ← hlen]
    exact map_memcpy x.buf x.used.toNat p.bytes
  · rw [if_neg hfit, if_neg (mt hle.mpr hfit)]
    exact ⟨hsize, hused, rfl⟩

theorem inv_takeChunk (h : Inv s) (hx : (s.chan i).ours[j]? = some x) (first : Bool)
    (left : U32) (hav : 16 + chunk.toNat ≤ s.rxAvail.toNat) (hlt : s.rxAvail.toNat < 2 ^ 31) :
    Inv (s.takeChunk i j first chunk left) := by
  obtain ⟨_, hint⟩ := intent_of_chan hx
  have hgetD : (s.chan i).ours.getD j default = x := by rw [List.getD_eq_getElem?_getD, hx, Option.getD_some]
  have hchans : (s.takeChunk i j first chunk left).chans = s.chans.modify i _ := rfl
  have hset := intent_set hchans (fun _ => rfl) hint
  have hp : pieces (s.takeChunk i j first chunk left) = collect kept (pieces s)
      ⟨i, j, first, s.peek 16 chunk.toNat, left = 0, (((s.chan i).ours.getD j default).restart first).size.toNat,
        (s.chan i).handler⟩ := run_append Pieces.start s.packets [_]
  have hrestart := restart_spec (hint ▸ h.holds i j) first
  have hchunk : chunk.toNat < 2 ^ 31 := by omega
  have hadd := add_spec (p := ⟨i, j, first, s.peek 16 chunk.toNat, left = 0, (x.restart first).size.toNat,
    (s.chan i).handler⟩) hrestart hchunk (length_peekFrom _ _ _) rfl
  rw [hgetD] at hset hp
  refine ⟨⟨h.ring.len, h.ring.tail⟩, fun a ha => ?_, fun k l => ?_, ?_⟩
  · obtain ⟨hsize, hused, _⟩ := hrestart
    simp only [Link.takeChunk, hgetD] at ha
    split at ha
    · next hfit =>
      rcases List.mem_cons.mp ha with rfl | ha
      · have hfit : ((x.restart first).used + chunk).toNat ≤ (x.restart first).size.toNat := hfit
        rwa [BitVec.toNat_add_of_lt (by omega)] at hfit
      rcases List.mem_cons.mp ha with rfl | ha
      · exact hav
      · exact h.log a ha
    · exact h.log a ha
  · rw [hset, hp]
    simp only [collect]
    by_cases hkl : k = i ∧ l = j
    · rw [if_pos hkl, if_pos hkl]
      by_cases hleft : left = 0
      · simp only [hleft, decide_true, if_true]
        exact ⟨hadd.1, Nat.zero_le _, rfl⟩
      · simp only [hleft, decide_false, if_false]
        exact hadd
    · rw [if_neg hkl, if_neg hkl]
      exact h.holds k l
  · rw [hp]
    simp only [collect, Link.takeChunk, hgetD, decide_eq_true_eq, h.out]
    rw [← hadd.2.2]

theorem inv_takeData (h : Inv s) (first : Bool) (p1 : U16) (p2 : U32) (left : U32)
    (hav : 16 + chunk.toNat ≤ s.rxAvail.toNat) (hlt : s.rxAvail.toNat < 2 ^ 31)
    (hr : s.takeData first p1 p2 chunk left = r) :
    Inv r ∧ r.rxLen = s.rxLen ∧ r.head = s.head ∧ r.tail = s.tail := by
  subst hr
  rw [Link.takeData]
  cases s.chanByRcid p1 with
  | none => exact ⟨h, rfl, rfl, rfl⟩
  | some i =>
    dsimp only [Link.onChan]
    split
    · exact ⟨h, rfl, rfl, rfl⟩
    next j hj =>
    have hid := List.find?_some hj
    obtain ⟨x, hx, _⟩ := Option.map_eq_some_iff.mp (of_decide_eq_true hid)
    exact ⟨inv_takeChunk h hx first left hav hlt, rfl, rfl, rfl⟩

/-! ### The loop -/

/-- What the modem's commands have to meet: their sizes do not wrap, and a message's pieces fill the FIFO up to
a multiple of eight bytes, as the tail will move. -/
def Sound (s : Link) : Prop :=
  match s.cmd with
  | .intent => (s.word 4).toNat < 2 ^ 29 - 1
  | .rxIntentReq => (s.word 4).toNat ≤ 2 ^ 31
  | .txData | .txDataCont => 16 ≤ s.rxAvail.toNat → (s.word 8).toNat + 23 < 2 ^ 32 ∧
      (16 + (s.word 8).toNat ≤ s.rxAvail.toNat → (16 + (s.word 8).toNat + 7) / 8 * 8 ≤ s.rxAvail.toNat)
  | _ => True

def Ok (s : Link) : Event → Prop
  | .round => s.head < s.rxLen ∧ (8 ≤ s.rxAvail.toNat → Sound s)
  | _ => True

instance decidableSound (s : Link) : Decidable (Sound s) := by
  unfold Sound
  split <;> infer_instance

instance decidableOk (s : Link) (e : Event) : Decidable (Ok s e) := by
  cases e <;> unfold Ok <;> infer_instance

structure Moved (s : Link) (r : Link × Option U32) : Prop where
  inv : Inv r.1
  shared : r.1.rxLen = s.rxLen ∧ r.1.head = s.head ∧ r.1.tail = s.tail
  next : ∀ n, r.2 = some n → 8 ≤ n.toNat ∧ n.toNat ≤ s.rxAvail.toNat

theorem Moved.frame (h : Inv s) (hf : Frame s r) {n : Option U32}
    (hn : ∀ k, n = some k → 8 ≤ k.toNat ∧ k.toNat ≤ s.rxAvail.toNat) : Moved s (r, n) :=
  ⟨h.frame hf, hf.shared, hn⟩

theorem Moved.none (h : Inv s) (hf : Frame s r) : Moved s (r, none) := .frame h hf (by rintro _ ⟨⟩)

theorem moved_data (h : Inv s) (hh : s.head < s.rxLen) (hread : Frame s (s.read 0 8)) (first : Bool) (p1 : U16)
    (p2 chunk left : U32) (hs : 16 ≤ s.rxAvail.toNat → chunk.toNat + 23 < 2 ^ 32 ∧
      (16 + chunk.toNat ≤ s.rxAvail.toNat → (16 + chunk.toNat + 7) / 8 * 8 ≤ s.rxAvail.toNat)) :
    Moved s (if s.rxAvail < 16 then (s.read 0 8, none) else
      if s.rxAvail < 16 + chunk then ((s.read 0 8).read 0 16, none) else
        (((s.read 0 8).read 0 16).takeData first p1 p2 chunk left, some (roundUp (16 + chunk)))) := by
  split
  · exact .none h hread
  next h16 =>
  have h16 : 16 ≤ s.rxAvail.toNat := Nat.le_of_not_lt h16
  obtain ⟨hwrap, hround⟩ := hs h16
  have hread' : Frame s ((s.read 0 8).read 0 16) :=
    hread.trans (frame_read (show 0 + 16 ≤ s.rxAvail.toNat by omega))
  have hsum : (16 + chunk).toNat = 16 + chunk.toNat :=
    BitVec.toNat_add_of_lt (show 16 + chunk.toNat < 2 ^ 32 by omega)
  split
  · exact .none h hread'
  next hall =>
  have hall : 16 + chunk.toNat ≤ s.rxAvail.toNat := hsum ▸ Nat.le_of_not_lt hall
  have hlt : s.rxAvail.toNat < 2 ^ 31 := by
    have hav := toNat_rxAvail h.ring hh
    have hh : s.head.toNat < s.rxLen.toNat := hh
    have := h.ring.len
    have := h.ring.tail
    split at hav <;> omega
  obtain ⟨hinv, hshared⟩ := inv_takeData (h.frame hread') first p1 p2 left hall hlt rfl
  refine ⟨hinv, hshared, fun n hn => ?_⟩
  cases hn
  rw [toNat_roundUp (by omega), hsum]
  exact ⟨by omega, hround hall⟩

theorem moved_command (h : Inv s) (hok : Ok s .round) : Moved s s.command := by
  obtain ⟨hh, hs⟩ := hok
  rw [Link.command]
  dsimp only
  split
  · exact .none h (.refl s)
  next hav =>
  have hav : 8 ≤ s.rxAvail.toNat := Nat.le_of_not_lt hav
  have hs := hs hav
  have h8 {r : Link} (hf : Frame s r) : Moved s (r, some 8) :=
    .frame h hf fun _ hn => Option.some.inj hn ▸ ⟨Nat.le_refl _, hav⟩
  have hread : Frame s (s.read 0 8) := frame_read (by simpa using hav)
  have hon (i : Option Nat) {f : Link → Nat → Link} (hf : ∀ i, Frame (s.read 0 8) (f (s.read 0 8) i)) :
      Moved s ((s.read 0 8).onChan i f, some 8) := h8 (hread.trans (frame_onChan i hf))
  have hset (i : Option Nat) {f : Chan → Chan} (hf : ∀ c, (f c).ours = c.ours) :
      Moved s ((s.read 0 8).onChan i fun r i => r.setChan i f, some 8) := hon i fun i => frame_setChan i hf
  unfold Sound at hs
  cases hc : s.cmd <;> rw [hc] at hs <;> dsimp only at hs ⊢
  case version => exact h8 (hread.trans ⟨⟨rfl, rfl, rfl⟩, ⟨rfl, rfl⟩, fun _ => .inl, fun _ _ => .inl rfl⟩)
  case versionAck =>
    refine h8 (hread.trans ?_)
    split
    · exact .refl _
    · split <;> exact ⟨⟨rfl, rfl, rfl⟩, ⟨rfl, rfl⟩, fun _ => .inl, fun _ _ => .inl rfl⟩
  case opens =>
    split
    · exact .none h hread
    next hall =>
    have hn : (s.word 4 &&& 0xffff).toNat ≤ 0xffff := by
      rw [BitVec.toNat_and]
      exact Nat.and_le_right
    generalize s.word 4 &&& 0xffff = n at hall hn ⊢
    have hsum : (8 + roundUp n).toNat = 8 + (n.toNat + 7) / 8 * 8 := by
      have hup := toNat_roundUp (x := n) (by omega)
      rw [BitVec.toNat_add_of_lt (show 8 + (roundUp n).toNat < 2 ^ 32 by omega), hup]
      rfl
    have hall : 8 + (n.toNat + 7) / 8 * 8 ≤ s.rxAvail.toNat := hsum ▸ Nat.le_of_not_lt hall
    have hk : 8 + (if n < 32 then n.toNat else 32) ≤ s.rxAvail.toNat := by
      split
      · omega
      next h32 =>
      have : 32 ≤ n.toNat := Nat.le_of_not_lt h32
      omega
    refine .frame h (hread.trans ((frame_read hk).trans (frame_opened _ _))) fun m hm => ?_
    cases hm
    rw [hsum]
    omega
  case close => exact hset _ fun _ => rfl
  case openAck =>
    refine hon _ fun i => ?_
    have hacked : Frame (s.read 0 8) ((s.read 0 8).setChan i fun c => { c with acked := true }) :=
      frame_setChan i fun _ => rfl
    exact hacked.trans (frame_upIf i _)
  case intent =>
    have hsum : (8 + 8 * s.word 4).toNat = 8 + 8 * (s.word 4).toNat := by bv_omega
    split
    · exact .none h hread
    next hall =>
    have hall : 8 + 8 * (s.word 4).toNat ≤ s.rxAvail.toNat := hsum ▸ Nat.le_of_not_lt hall
    refine .frame h (hread.trans (frame_offers _ hall)) fun n hn => ?_
    cases hn
    rw [toNat_roundUp (by omega), hsum]
    omega
  case rxDone => exact hset _ fun c => ours_done c _ false
  case rxIntentReq => exact hon _ fun i => frame_addIntent i hs
  case rxIntentReqAck =>
    split
    · exact hset _ fun _ => rfl
    · exact h8 hread
  case txData => exact moved_data h hh hread s.isFirst _ _ _ _ hs
  case closeAck => exact h8 hread
  case txDataCont => exact moved_data h hh hread s.isFirst _ _ _ _ hs
  case readNotif => exact h8 hread
  case rxDoneReuse => exact hset _ fun c => ours_done c _ true
  case signals => exact h8 hread
  case unknown => exact h8 hread

theorem inv_round (h : Inv s) (hok : Ok s .round) :
    Inv s.round.1 ∧ (s.round.2 = true → s.round.1.rxAvail.toNat + 8 ≤ s.rxAvail.toNat) := by
  have hm := moved_command h hok
  rw [Link.round]
  split
  · next r n hc =>
    rw [hc] at hm
    obtain ⟨h8, hn⟩ := hm.next n rfl
    have hav : r.rxAvail = s.rxAvail := by
      rw [Link.rxAvail, Link.rxAvail, hm.shared.1, hm.shared.2.1, hm.shared.2.2]
    obtain ⟨hring, hleft⟩ := Link.rxAdvance_spec (n := n) hm.inv.ring
      (by rw [hm.shared.1, hm.shared.2.1]; exact hok.1) (hav ▸ hn)
    refine ⟨⟨hring, hm.inv.log, hm.inv.holds, hm.inv.out⟩, fun _ => ?_⟩
    rw [hleft, hav]
    omega
  · next r hc =>
    rw [hc] at hm
    exact ⟨hm.inv, fun hx => absurd hx Bool.false_ne_true⟩

theorem inv_step (s : Link) (e : Event) (h : Inv s) (hok : Ok s e) : Inv (step s e) := by
  cases e with
  | modem fifo head => exact ⟨⟨h.ring.len, h.ring.tail⟩, h.log, h.holds, h.out⟩
  | channel name => exact h.frame (frame_glinkChannel name)
  | round => exact (inv_round h hok).1

theorem glinkRx_returns {k : Nat} (h : Inv s) (hk : s.rxAvail.toNat < 8 * k)
    (hok : Along Ok step s (List.replicate k .round)) : ∃ r, Link.glinkRx k s = some r := by
  induction k generalizing s with
  | zero => omega
  | succ k ih =>
    rw [Link.glinkRx]
    split
    · next hmore =>
      have hleft := (inv_round h hok.1).2 hmore
      exact ih (inv_round h hok.1).1 (by omega) hok.2
    · exact ⟨_, rfl⟩

theorem inv_attach {len : U32} (hlen : 0 < len.toNat ∧ len.toNat ≤ 2 ^ 31) (alloc : Nat → Option (Nat → U8)) :
    Inv (attach len alloc) := ⟨⟨hlen.2, hlen.1⟩, fun _ ha => absurd ha List.not_mem_nil, fun _ _ => rfl, rfl⟩

/-- Along a run whose turns meet the condition: no access leaves the bytes that are there or the buffer of an
intent, a call of `glink_rx` returns, and if the pieces of the messages fit their buffers then what is delivered
is each message, joined from its pieces, once. -/
theorem messages_received {len : U32} (hlen : 0 < len.toNat ∧ len.toNat ≤ 2 ^ 31)
    {alloc : Nat → Option (Nat → U8)}
    {es done rest : List Event} (hok : Along Ok step (attach len alloc) es) (hes : es = done ++ rest) :
    let s := run step (attach len alloc) done
    (∀ a ∈ s.log, a.Inside) ∧
    ((∀ k, Along Ok step s (List.replicate k .round)) → ∃ r, Link.glinkRx (s.rxAvail.toNat / 8 + 1) s = some r) ∧
    (Along Fits (collect joined) .start s.packets →
      s.delivered = (run (collect joined) .start s.packets).out) := by
  subst hes
  intro s
  have h : Inv s := invariant_run inv_step (inv_attach hlen alloc) hok.split.1
  refine ⟨h.log, fun hrounds => glinkRx_returns h (by omega) (hrounds _), fun hfits => ?_⟩
  rw [h.out, pieces, collect_of_fits hfits]

def fifoOf (bytes : List U8) (k : Nat) : U8 := bytes.getD k 0

def threeBytes : List Event :=
  [.channel [73], .modem (fifoOf ([2, 0, 5, 0, 2, 0, 0, 0, 73, 0, 0, 0, 0, 0, 0, 0] ++ [4, 0, 1, 0, 0, 0, 0, 0] ++
      [9, 0, 5, 0, 1, 0, 0, 0, 2, 0, 0, 0, 1, 0, 0, 0, 97, 98, 0, 0, 0, 0, 0, 0] ++
      [12, 0, 5, 0, 1, 0, 0, 0, 1, 0, 0, 0, 0, 0, 0, 0, 99])) 72,
    .round, .round, .round, .round, .round]

theorem messages_received_three : let s := run step (attach 256 fun _ => some fun _ => 0) threeBytes
    (∀ a ∈ s.log, a.Inside) ∧ s.delivered = [(0, [97, 98, 99])] :=
  ⟨(messages_received (by decide) (by decide +kernel) (List.append_nil _).symm).1, by decide +kernel⟩

def hugePiece : List U8 := [9, 0, 5, 0, 1, 0, 0, 0, 0xf0, 0xff, 0xff, 0xff, 0, 0, 0, 0]

def stuck (log : List Access) : Link :=
  ⟨fifoOf hugePiece, 256, 16, 0, [], 1, 1, false, fun _ => none, 0, log, [], []⟩

theorem round_stuck (log : List Access) : ∃ log', (stuck log).round = (stuck log', true) := by
  have havail : (stuck log).rxAvail = 16 := show (stuck []).rxAvail = 16 by decide +kernel
  have hcmd : (stuck log).cmd = .txData := show Cmd.ofNat (((stuck []).word 0).setWidth 16).toNat = .txData by
    rw [show (((stuck []).word 0).setWidth 16 : U16).toNat = 9 by decide +kernel, Cmd.ofNat]
  have hchunk : (stuck log).word 8 = 0xfffffff0 := show (stuck []).word 8 = 0xfffffff0 by decide +kernel
  have hnone (r : Link) (hr : r.chans = []) (first : Bool) (p1 : U16) (p2 chunk left : U32) :
      r.takeData first p1 p2 chunk left = r := by
    rw [Link.takeData, Link.chanByRcid, hr]
    rfl
  simp only [Link.round, Link.command, havail, hcmd, hchunk]
  rw [if_neg (by decide), if_neg (by decide), if_neg (by decide), hnone _ rfl]
  have htail : ((0 : U32) + roundUp (16 + 0xfffffff0)) % 256 = 0 := by decide
  exact ⟨(((stuck log).read 0 8).read 0 16).log,
    congrArg (fun t => (({ ((stuck log).read 0 8).read 0 16 with tail := t } : Link), true)) htail⟩

/-- `glink_rx` does not return: the tail stays where it is. -/
theorem endless_piece : ∃ es, ∀ k, Link.glinkRx k (run step (attach 256 fun _ => none) es) = none := by
  have hloop (k : Nat) (log : List Access) : Link.glinkRx k (stuck log) = none := by
    induction k generalizing log with
    | zero => rfl
    | succ k ih =>
      obtain ⟨log', h⟩ := round_stuck log
      rw [Link.glinkRx, h]
      exact ih log'
  exact ⟨[.modem (fifoOf hugePiece) 16], fun k => hloop k []⟩

end Sic.Glink
