import Sic.Lib.Ring
import Sic.Lib.Run
import Sic.Lib.Word

/-! The files that the modem reads and writes over TFTP. -/

namespace Sic.Tftp

def wrap32 (n : Nat) : Nat := n % 2 ^ 32

def wrap64 (n : Nat) : Nat := n % 2 ^ 64

def pred32 (k : Nat) : Nat := if k = 0 then 0xffffffff else k - 1

def ascii (s : String) : List U8 := s.toList.map fun c => BitVec.ofNat 8 c.toNat

structure Rw where
  path : List U8
  data : Option (Nat → U8)
  size : Nat
  cap : Nat

structure Options where
  blksize : Nat := 512
  wsize : Nat := 1
  rsize : Nat := 0
  seek : Nat := 0
  timeoutms : Nat := 0
  tsize : Bool := false

structure Xfer extends Options where
  used : Bool := false
  write : Bool := false
  port : Nat := 0
  node : Nat := 0
  rport : Nat := 0
  /-- A file of the modem's partition. -/
  file : Option (List U8) := none
  rwi : Option Nat := none
  size : Nat := 0
  sent : Nat := 0
  done : Bool := false

def Xfer.limit (x : Xfer) : Nat := if x.rsize ≠ 0 then x.rsize else x.size - x.seek

inductive Body
  | oack (o : Options) (size : Nat)
  | data (block : Nat) (bytes : List U8)
  | ack (block : Nat)
  | error (code : Nat)

structure Msg where
  sport : Nat
  node : Nat
  port : Nat
  body : Body

inductive Access
  | request (left n : Nat)
  | file (cap off n : Nat)
  deriving DecidableEq

def Access.Inside : Access → Prop
  | .request left n => n ≤ left
  | .file cap off n => off + n ≤ cap

structure Server where
  rw : Nat → Rw
  xfers : Nat → Xfer
  nextPort : Nat
  partition : List U8 → Option (List U8)
  /-- What each `kmalloc` returns, and how many there were. -/
  alloc : Nat → Option (Nat → U8)
  kmallocs : Nat
  sent : List Msg
  log : List Access

def opcode (d : List U8) : Nat := (d.getD 0 0).toNat * 256 + (d.getD 1 0).toNat

/-! ### Requests -/

def isDigit (c : U8) : Bool := 48 ≤ c ∧ c ≤ 57

def parseNum (digits : List U8) : Nat := digits.foldl (fun v c => wrap64 (v * 10 + (c.toNat - 48))) 0

def Options.set (o : Options) (name : List U8) (n : Nat) : Options :=
  if name = ascii "blksize" then { o with blksize := if n < 8 then 8 else if 65464 < n then 65464 else n }
  else if name = ascii "wsize" then { o with wsize := if n = 0 then 1 else n }
  else if name = ascii "rsize" then { o with rsize := n }
  else if name = ascii "seek" then { o with seek := n }
  else if name = ascii "tsize" then { o with tsize := true }
  else if name = ascii "timeoutms" then { o with timeoutms := n }
  else o

def cstr (s : List U8) : List U8 := s.takeWhile (· ≠ 0)

def options (after : List U8) : Nat → List U8 → Options × List Access → Options × List Access
  | 0, _, r => r
  | fuel + 1, o, r =>
    let v := o.drop ((cstr o).length + 1)
    if v = [] then r else
      let digits := (v ++ after).takeWhile isDigit
      options after fuel (v.drop ((cstr v).length + 1))
        (r.1.set (cstr o) (parseNum digits), .request v.length (digits.length + 1) :: r.2)

structure Parsed where
  path : List U8
  hasOpts : Bool
  opts : Options
  log : List Access

def parse (d after : List U8) : Option Parsed :=
  let rest := d.drop 2
  let path := cstr rest
  let mode := rest.drop (path.length + 1)
  let opt := mode.drop ((cstr mode).length + 1)
  if path.length = rest.length ∨ 96 ≤ path.length ∨ mode = [] then none else
    let r := options after opt.length opt ({}, [])
    some ⟨path, opt ≠ [], r.1, r.2⟩

def readonlyName (path : List U8) : Option (List U8) :=
  ([ascii "/readonly/firmware/image/", ascii "/readonly/vendor/firmware_mnt/image/",
    ascii "/readonly/vendor/firmware/",
    ascii "/readonly/firmware/"].find? fun p => p.isPrefixOf path).map fun p => path.drop p.length

namespace Server

variable (s : Server)

def send (sport node port : Nat) (body : Body) : Server :=
  { s with sent := s.sent ++ [⟨sport, node, port, body⟩] }

def setXfer (i : Nat) (x : Xfer) : Server := { s with xfers := Function.update s.xfers i x }

def setRw (r : Nat) (w : Rw) : Server := { s with rw := Function.update s.rw r w }

def kmalloc : Server × Option (Nat → U8) := ({ s with kmallocs := s.kmallocs + 1 }, s.alloc s.kmallocs)

def rwFind (path : List U8) : Option Nat :=
  (List.range 32).find? fun i => (s.rw i).data.isSome && (s.rw i).path = path

def rwNew (path : List U8) : Server × Option Nat :=
  (List.range 32).foldl (fun r i =>
    if r.2.isSome || (r.1.rw i).data.isSome then r else
      let k := r.1.kmalloc
      (k.1.setRw i ⟨path, k.2, 0, 4096⟩, if k.2.isSome then some i else none)) (s, none)

def rwFor (path : List U8) (write : Bool) : Server × Option Nat :=
  match s.rwFind path with
  | some r => (s, some r)
  | none => if write then s.rwNew path else (s, none)

def useRw (r : Nat) (x : Xfer) : Server × Xfer :=
  let s := if x.write then s.setRw r { s.rw r with size := x.seek } else s
  (s, { x with rwi := some r, size := (s.rw r).size })

def openRw (path : List U8) (x : Xfer) : Server × Xfer :=
  match s.rwFor path x.write with
  | (s, none) => (s, x)
  | (s, some r) => s.useRw r x

def openFile (path : List U8) (x : Xfer) : Server × Xfer :=
  if (ascii "/readwrite/").isPrefixOf path then s.openRw path x
  else if x.write then (s, x)
  else
    let f := (readonlyName path).bind s.partition
    (s, { x with file := f, size := (f.getD []).length })

def xferRead (x : Xfer) (off n : Nat) : List U8 × List Access :=
  match x.rwi with
  | some r =>
    let w := s.rw r
    if w.size ≤ off then ([], []) else
      let n := min n (w.size - off)
      ((List.range n).map fun j => w.data.getD (fun _ => 0) (off + j), [.file w.cap off n])
  | none => (((x.file.getD []).drop off).take n, [])

def blockOf (x : Xfer) (k : Nat) : List U8 × List Access :=
  let start := wrap64 (pred32 k * x.blksize)
  if start < x.limit then s.xferRead x (wrap64 (x.seek + start)) (min (x.limit - start) x.blksize) else ([], [])

def outBlock (i k : Nat) (bytes : List U8) : Server :=
  let x := s.xfers i
  (s.send x.port x.node x.rport (.data (k % 2 ^ 16) bytes)).setXfer i
    { x with sent := x.sent + bytes.length, done := bytes.length < x.blksize }

def sendBlock (i k : Nat) : Server :=
  let r := s.blockOf (s.xfers i) k
  outBlock { s with log := r.2 ++ s.log } i k r.1

def blocksLoop (i stop : Nat) : Nat → Nat → Server → Server
  | 0, _, s => s
  | fuel + 1, k, s =>
    if k ≤ stop ∧ (s.xfers i).done = false then blocksLoop i stop fuel (wrap32 (k + 1)) (s.sendBlock i k) else s

def sendBlocks (i last : Nat) : Server :=
  let k := s.kmalloc
  if k.2.isSome then blocksLoop i (wrap64 (last + (s.xfers i).wsize)) (s.xfers i).wsize (last + 1) k.1 else k.1

def start (i : Nat) (x : Xfer) (hasOpts : Bool) : Server :=
  let s := s.setXfer i x
  if hasOpts then s.send x.port x.node x.rport (.oack x.toOptions x.size)
  else if x.write then s.send x.port x.node x.rport (.ack 0)
  else s.sendBlocks i 0

def answer (i : Nat) (x : Xfer) (hasOpts : Bool) : Server :=
  if x.rwi = none ∧ x.file = none then (s.setXfer i { x with used := false }).send 0x400 x.node x.rport (.error 1)
  else s.start i x hasOpts

def newXfer (p : Parsed) (node port : Nat) (write : Bool) : Xfer :=
  { p.opts with used := true, write := write, port := s.nextPort, node := node, rport := port }

def takePort (p : Parsed) : Server :=
  { s with
    log := p.log ++ s.log
    nextPort := if 0x7ff < s.nextPort + 1 then 0x401 else s.nextPort + 1 }

def request (node port : Nat) (d after : List U8) (write : Bool) : Server :=
  match parse d after with
  | none => s
  | some p =>
    match (List.range 8).find? fun i => !(s.xfers i).used with
    | none => s.send 0x400 node port (.error 0)
    | some i =>
      let r := (s.takePort p).openFile p.path (s.newXfer p node port write)
      r.1.answer i r.2 p.hasOpts

/-! ### Packets -/

def close (i : Nat) : Server := s.setXfer i { s.xfers i with used := false }

/-- The file in memory for at least `total` bytes, with what was touched for that; or nothing if there is none. -/
def grow (r total : Nat) : Server × Option (Rw × List Access) :=
  let w := s.rw r
  if w.cap < total then
    let cap := wrap64 (total * 2)
    (s.kmalloc.1, s.kmalloc.2.map fun block =>
      ({ w with data := some (memcpy block 0 ((List.range w.size).map (w.data.getD fun _ => 0))), cap := cap },
        [.file w.cap 0 w.size, .file cap 0 w.size]))
  else (s, some (w, []))

def store (i r off block : Nat) (bytes : List U8) (w : Rw) (log : List Access) : Server :=
  let x := s.xfers i
  let s := s.setRw r { w with
    data := some (memcpy (w.data.getD fun _ => 0) off bytes), size := max w.size (wrap64 (off + bytes.length)) }
  let s := Server.send { s with log := (.file w.cap off bytes.length :: log) ++ s.log } x.port x.node x.rport
    (.ack block)
  if bytes.length < x.blksize then s.close i else s

def putData (i r block : Nat) (bytes : List U8) : Server :=
  let x := s.xfers i
  let off := wrap64 (x.seek + pred32 block * x.blksize)
  match s.grow r (wrap64 (off + bytes.length)) with
  | (s, none) => (s.send x.port x.node x.rport (.error 0)).close i
  | (s, some (w, log)) => s.store i r off block bytes w log

def xferRx (rxPort node port : Nat) (d : List U8) : Server :=
  match (List.range 8).find? fun i => (s.xfers i).used && (s.xfers i).port = rxPort with
  | none => s
  | some i =>
    let x := s.xfers i
    if x.node ≠ node ∨ x.rport ≠ port ∨ d.length < 4 then s else
      if opcode d = 5 then s.close i
      else if x.write = false ∧ opcode d =
        4 then (if x.done then s.close i else s.sendBlocks i (opcode (d.drop 2)))
      else if x.write ∧ opcode d = 3 then
        match x.rwi with
        | none => s
        | some r => s.putData i r (opcode (d.drop 2)) (d.drop 4)
      else s

def tftpRx (node port : Nat) (d after : List U8) : Server :=
  if d.length < 4 then s else
    if opcode d = 1 ∨ opcode d = 2 then s.request node port d after (opcode d = 2)
    else s.send 0x400 node port (.error 4)

end Server

/-! ### Staying inside -/

inductive Event
  | request (node port : Nat) (d after : List U8)
  | packet (rxPort node port : Nat) (d : List U8)

def step (s : Server) : Event → Server
  | .request node port d after => s.tftpRx node port d after
  | .packet rxPort node port d => s.xferRx rxPort node port d

def boot (partition : List U8 → Option (List U8)) (alloc : Nat → Option (Nat → U8)) : Server :=
  ⟨fun _ => ⟨[], none, 0, 0⟩, fun _ => {}, 0x401, partition, alloc, 0, [], []⟩

def capFor (s : Server) (path : List U8) : Nat :=
  match s.rwFind path with
  | some r => (s.rw r).cap
  | none => 4096

/-- Requests end with a NUL, and a write does not seek past the memory of its file. -/
def Ok (s : Server) : Event → Prop
  | .request _ _ d after => d.getLast? = some 0 ∧
      (opcode d = 2 → ∀ p, parse d after = some p → p.opts.seek ≤ capFor s p.path ∧ p.opts.seek < 2 ^ 61)
  | .packet _ _ _ d => d.length < 2 ^ 61

structure Inv (s : Server) : Prop where
  log : ∀ a ∈ s.log, a.Inside
  files : ∀ r, (s.rw r).size ≤ (s.rw r).cap
  xfers : ∀ i, (s.xfers i).write = true → (s.xfers i).blksize ≤ 65464 ∧ (s.xfers i).seek < 2 ^ 61

theorem takeWhile_length_lt {p : U8 → Bool} {v : List U8} {x : U8} (hx : x ∈ v) (hp : p x = false) (w : List U8) :
    ((v ++ w).takeWhile p).length < v.length := by
  induction v with
  | nil => cases hx
  | cons y v ih =>
    rw [List.cons_append, List.takeWhile_cons]
    split
    · next hy =>
      have hne : x ≠ y := by
        rintro rfl
        rw [hp] at hy
        cases hy
      exact Nat.succ_lt_succ (ih ((List.mem_cons.mp hx).resolve_left hne))
    · exact Nat.succ_pos _

theorem getLast?_drop_of_ne {l : List U8} {x : U8} (h : l.getLast? = some x) {n : Nat} (hn : l.drop n ≠ []) :
    (l.drop n).getLast? = some x := by
  rw [List.getLast?_drop, if_neg (by rwa [ne_eq, List.drop_eq_nil_iff] at hn)]
  exact h

theorem options_spec {after : List U8} {fuel : Nat} {o : List U8} {r : Options × List Access}
    (ho : o = [] ∨ o.getLast? = some 0) (hr : ∀ a ∈ r.2, a.Inside) (hb : r.1.blksize ≤ 65464) :
    (∀ a ∈ (options after fuel o r).2, a.Inside) ∧ (options after fuel o r).1.blksize ≤ 65464 := by
  induction fuel generalizing o r with
  | zero => exact ⟨hr, hb⟩
  | succ fuel ih =>
    rw [options]
    dsimp only
    split
    · exact ⟨hr, hb⟩
    next hv =>
    have hlast : (o.drop ((cstr o).length + 1)).getLast? = some 0 := by
      refine getLast?_drop_of_ne (ho.resolve_left ?_) hv
      rintro rfl
      exact hv List.drop_nil
    generalize o.drop ((cstr o).length + 1) = v at hv hlast
    refine ih ?_ (fun a ha => ?_) ?_
    · by_cases hn : v.drop ((cstr v).length + 1) = []
      · exact .inl hn
      · exact .inr (getLast?_drop_of_ne hlast hn)
    · rcases List.mem_cons.mp ha with rfl | ha
      · exact takeWhile_length_lt (List.mem_of_getLast? hlast) (by decide) after
      · exact hr a ha
    · unfold Options.set
      split
      · dsimp only
        split
        · decide
        · split <;> omega
      · repeat' split
        all_goals exact hb

theorem parse_spec {d after : List U8} {p : Parsed} (hd : d.getLast? = some 0) (hp : parse d after = some p) :
    (∀ a ∈ p.log, a.Inside) ∧ p.opts.blksize ≤ 65464 := by
  unfold parse at hp
  dsimp only at hp
  split at hp
  · cases hp
  cases hp
  refine options_spec ?_ (fun a ha => absurd ha List.not_mem_nil) (by decide)
  rw [List.drop_drop, List.drop_drop]
  generalize 2 + (_ + _) = n
  by_cases hn : d.drop n = []
  · exact .inl hn
  · exact .inr (getLast?_drop_of_ne hd hn)

section

variable {s : Server}

theorem Inv.send (h : Inv s) (sport node port : Nat) (body : Body) : Inv (s.send sport node port body) :=
  ⟨h.log, h.files, h.xfers⟩

variable {x : Xfer} {path : List U8}

theorem Inv.setXfer (h : Inv s) (i : Nat) (hx : x.write = true → x.blksize ≤ 65464 ∧ x.seek < 2 ^ 61) :
    Inv (s.setXfer i x) := by
  refine ⟨h.log, h.files, fun k hk => ?_⟩
  simp only [Server.setXfer] at hk ⊢
  by_cases hki : k = i
  · subst hki
    rw [Function.update_self] at hk ⊢
    exact hx hk
  · rw [Function.update_of_ne hki] at hk ⊢
    exact h.xfers k hk

theorem Inv.setRw (h : Inv s) (r : Nat) {w : Rw} (hw : w.size ≤ w.cap) : Inv (s.setRw r w) := by
  refine ⟨h.log, fun k => ?_, h.xfers⟩
  simp only [Server.setRw]
  by_cases hk : k = r
  · rwa [hk, Function.update_self]
  · rw [Function.update_of_ne hk]
    exact h.files k

theorem Inv.kmalloc (h : Inv s) : Inv s.kmalloc.1 := ⟨h.log, h.files, h.xfers⟩

theorem Inv.addLog (h : Inv s) {log : List Access} (hlog : ∀ a ∈ log, a.Inside) :
    Inv { s with log := log ++ s.log } :=
  ⟨fun a ha => (List.mem_append.mp ha).elim (hlog a) (h.log a), h.files, h.xfers⟩

theorem rwNew_spec (h : Inv s) (path : List U8) :
    Inv (s.rwNew path).1 ∧ ∀ r, (s.rwNew path).2 = some r → ((s.rwNew path).1.rw r).cap = 4096 := by
  refine invariant_foldl (P := fun k : Server × Option Nat => Inv k.1 ∧ ∀ r, k.2 = some r → (k.1.rw r).cap = 4096)
    (fun k i hk => ?_) _ ⟨h, fun _ hr => by cases hr⟩
  split
  · exact hk
  refine ⟨hk.1.kmalloc.setRw i (Nat.zero_le _), fun r hr => ?_⟩
  dsimp only at hr
  split at hr
  · cases hr
    simp only [Server.setRw, Function.update_self]
  · cases hr

theorem rwFor_spec (h : Inv s) {write : Bool} {k : Server × Option Nat} (hk : s.rwFor path write = k) :
    Inv k.1 ∧ ∀ r, k.2 = some r → write = true → capFor s path ≤ (k.1.rw r).cap := by
  subst hk
  unfold Server.rwFor capFor
  cases s.rwFind path with
  | some r =>
    refine ⟨h, fun r' hr' _ => ?_⟩
    cases hr'
    exact Nat.le_refl _
  | none =>
    dsimp only
    split
    · exact ⟨(rwNew_spec h path).1, fun r hr _ => Nat.le_of_eq ((rwNew_spec h path).2 r hr).symm⟩
    · exact ⟨h, fun r hr => by cases hr⟩

theorem inv_openRw (h : Inv s) (hx : x.write = true → x.seek ≤ capFor s path) : Inv (s.openRw path x).1 := by
  unfold Server.openRw
  split
  · next s' hk => exact (rwFor_spec h hk).1
  next s' r hk =>
  obtain ⟨hinv, hcap⟩ := rwFor_spec h hk
  unfold Server.useRw
  dsimp only
  split
  · next hw => exact hinv.setRw r ((hx hw).trans (hcap r rfl hw))
  · exact hinv

theorem inv_openFile (h : Inv s) (hx : x.write = true → x.seek ≤ capFor s path) :
    Inv (s.openFile path x).1 := by
  unfold Server.openFile
  split
  · exact inv_openRw h hx
  · split <;> exact h

theorem openFile_xfer (path : List U8) (x : Xfer) :
    (s.openFile path x).2.toOptions = x.toOptions ∧ (s.openFile path x).2.write = x.write := by
  unfold Server.openFile
  split
  · unfold Server.openRw
    split <;> exact ⟨rfl, rfl⟩
  · split <;> exact ⟨rfl, rfl⟩

theorem xferRead_inside (h : Inv s) (x : Xfer) (off n : Nat) : ∀ a ∈ (s.xferRead x off n).2, a.Inside := by
  unfold Server.xferRead
  split
  · dsimp only
    split
    · exact fun a ha => absurd ha List.not_mem_nil
    next r _ hlt =>
    intro a ha
    rw [List.mem_singleton.mp ha]
    have := h.files r
    change off + min n ((s.rw r).size - off) ≤ (s.rw r).cap
    omega
  · exact fun a ha => absurd ha List.not_mem_nil

theorem blockOf_inside (h : Inv s) (x : Xfer) (k : Nat) : ∀ a ∈ (s.blockOf x k).2, a.Inside := by
  unfold Server.blockOf
  dsimp only
  split
  · exact xferRead_inside h _ _ _
  · exact fun a ha => absurd ha List.not_mem_nil

theorem inv_outBlock (h : Inv s) (i k : Nat) (bytes : List U8) : Inv (s.outBlock i k bytes) :=
  (h.send _ _ _ _).setXfer i (h.xfers i)

theorem inv_sendBlock (h : Inv s) (i k : Nat) : Inv (s.sendBlock i k) :=
  inv_outBlock (h.addLog (blockOf_inside h _ k)) i k _

theorem inv_blocksLoop (h : Inv s) (i stop fuel k : Nat) : Inv (Server.blocksLoop i stop fuel k s) := by
  induction fuel generalizing s k with
  | zero => exact h
  | succ fuel ih =>
    rw [Server.blocksLoop]
    split
    · exact ih (inv_sendBlock h i k) _
    · exact h

theorem inv_sendBlocks (h : Inv s) (i last : Nat) : Inv (s.sendBlocks i last) := by
  unfold Server.sendBlocks
  dsimp only
  split
  · exact inv_blocksLoop h.kmalloc i _ _ _
  · exact h.kmalloc

theorem Inv.close (h : Inv s) (i : Nat) : Inv (s.close i) := h.setXfer i (h.xfers i)

theorem grow_spec (h : Inv s) {r total : Nat} (htotal : total < 2 ^ 63) {k : Server × Option (Rw × List Access)}
    (hk : s.grow r total = k) : Inv k.1 ∧ (∀ i, k.1.xfers i = s.xfers i) ∧ ∀ w log, k.2 = some (w, log) →
      total ≤ w.cap ∧ w.size ≤ w.cap ∧ w.size = (s.rw r).size ∧ ∀ a ∈ log, a.Inside := by
  subst hk
  have hsize := h.files r
  unfold Server.grow
  dsimp only
  split
  · next hlt =>
    have hcap : wrap64 (total * 2) = total * 2 := Nat.mod_eq_of_lt (by omega)
    refine ⟨h.kmalloc, fun _ => rfl, fun w log hw => ?_⟩
    obtain ⟨block, _, hb⟩ := Option.map_eq_some_iff.mp hw
    cases hb
    rw [hcap]
    refine ⟨show total ≤ total * 2 by omega, show (s.rw r).size ≤ total * 2 by omega, rfl, fun a ha => ?_⟩
    rcases List.mem_cons.mp ha with rfl | ha
    · exact (Nat.zero_add _).trans_le hsize
    rw [List.mem_singleton.mp ha]
    change 0 + (s.rw r).size ≤ total * 2
    omega
  · next hge =>
    refine ⟨h, fun _ => rfl, fun w log hw => ?_⟩
    cases hw
    exact ⟨Nat.le_of_not_lt hge, hsize, rfl, fun a ha => absurd ha List.not_mem_nil⟩

theorem inv_store (h : Inv s) (i r block : Nat) {off : Nat} {bytes : List U8} {w : Rw} {log : List Access}
    (hlt : off + bytes.length < 2 ^ 64) (hcap : off + bytes.length ≤ w.cap) (hw : w.size ≤ w.cap)
    (hlog : ∀ a ∈ log, a.Inside) :
    Inv (s.store i r off block bytes w log) := by
  have htotal : wrap64 (off + bytes.length) = off + bytes.length := Nat.mod_eq_of_lt hlt
  have hnew : Inv (s.setRw r { w with
      data := some (memcpy (w.data.getD fun _ => 0) off bytes), size :=
        max w.size (wrap64 (off + bytes.length)) }) :=
    h.setRw r (by rw [htotal]; exact max_le hw hcap)
  have hall : ∀ a ∈ Access.file w.cap off bytes.length :: log, a.Inside := by
    intro a ha
    rcases List.mem_cons.mp ha with rfl | ha
    · exact hcap
    · exact hlog a ha
  unfold Server.store
  dsimp only
  split
  · exact ((hnew.addLog hall).send _ _ _ _).close i
  · exact (hnew.addLog hall).send _ _ _ _

theorem pred32_lt (k : Nat) (hk : k < 2 ^ 16) : pred32 k < 2 ^ 32 := by
  unfold pred32
  split <;> omega

theorem inv_putData (h : Inv s) {i r block : Nat} {bytes : List U8} (hw : (s.xfers i).write = true)
    (hblock : block < 2 ^ 16) (hlen : bytes.length < 2 ^ 61) : Inv (s.putData i r block bytes) := by
  obtain ⟨hblk, hseek⟩ := h.xfers i hw
  have hmul : pred32 block * (s.xfers i).blksize ≤ 2 ^ 32 * 65464 :=
    Nat.mul_le_mul (pred32_lt block hblock).le hblk
  unfold Server.putData
  dsimp only
  have hoff : wrap64 ((s.xfers i).seek + pred32 block * (s.xfers i).blksize) =
      (s.xfers i).seek + pred32 block * (s.xfers i).blksize := Nat.mod_eq_of_lt (by omega)
  have hbound : (s.xfers i).seek + pred32 block * (s.xfers i).blksize < 2 ^ 62 := by omega
  rw [hoff]
  generalize (s.xfers i).seek + pred32 block * (s.xfers i).blksize = off at *
  have htotal : wrap64 (off + bytes.length) = off + bytes.length := Nat.mod_eq_of_lt (by omega)
  rw [htotal]
  split
  · next s' hg => exact ((grow_spec h (by omega) hg).1.send _ _ _ _).close i
  next s' w log hg =>
  obtain ⟨hinv, _, hspec⟩ := grow_spec h (by omega) hg
  obtain ⟨hcap, hsize, _, hlog⟩ := hspec w log rfl
  exact inv_store hinv i r block (by omega) hcap hsize hlog

theorem opcode_lt (d : List U8) : opcode d < 2 ^ 16 := by
  have h0 := (d.getD 0 0).isLt
  have h1 := (d.getD 1 0).isLt
  rw [opcode]
  omega

theorem inv_xferRx (h : Inv s) (rxPort node port : Nat) {d : List U8} (hd : d.length < 2 ^ 61) :
    Inv (s.xferRx rxPort node port d) := by
  unfold Server.xferRx
  split
  · exact h
  next i _ =>
  dsimp only
  split
  · exact h
  split
  · exact h.close i
  split
  · split
    · exact h.close i
    · exact inv_sendBlocks h i _
  split
  · next hw =>
    split
    · exact h
    · exact inv_putData h hw.1 (opcode_lt _) (by rw [List.length_drop]; omega)
  · exact h

theorem inv_start (h : Inv s) (i : Nat) (hx : x.write = true → x.blksize ≤ 65464 ∧ x.seek < 2 ^ 61)
    (hasOpts : Bool) : Inv (s.start i x hasOpts) := by
  have hset := h.setXfer i hx
  unfold Server.start
  dsimp only
  split
  · exact hset.send _ _ _ _
  split
  · exact hset.send _ _ _ _
  · exact inv_sendBlocks hset i 0

theorem inv_answer (h : Inv s) (i : Nat) (hx : x.write = true → x.blksize ≤ 65464 ∧ x.seek < 2 ^ 61)
    (hasOpts : Bool) : Inv (s.answer i x hasOpts) := by
  unfold Server.answer
  split
  · exact (h.setXfer i (x := { x with used := false }) hx).send _ _ _ _
  · exact inv_start h i hx hasOpts

theorem inv_request (h : Inv s) (node port : Nat) {d after : List U8} {write : Bool} (hd : d.getLast? = some 0)
    (hw : write = true → ∀ p, parse d after = some p → p.opts.seek ≤ capFor s p.path ∧ p.opts.seek < 2 ^ 61) :
    Inv (s.request node port d after write) := by
  unfold Server.request
  split
  · exact h
  next p hp =>
  obtain ⟨hlog, hblk⟩ := parse_spec hd hp
  split
  · exact h.send _ _ _ _
  next i _ =>
  have hport : Inv (s.takePort p) := ⟨(h.addLog hlog).log, h.files, h.xfers⟩
  obtain ⟨hopts, hwrite⟩ := openFile_xfer (s := s.takePort p) p.path (s.newXfer p node port write)
  refine inv_answer (inv_openFile hport fun hxw => (hw hxw p hp).1) i (fun hxw => ?_) p.hasOpts
  rw [hopts]
  exact ⟨hblk, (hw (hwrite.symm.trans hxw) p hp).2⟩

theorem inv_step (s : Server) (e : Event) (h : Inv s) (hok : Ok s e) : Inv (step s e) := by
  cases e with
  | request node port d after =>
    change Inv (s.tftpRx node port d after)
    unfold Server.tftpRx
    split
    · exact h
    split
    · exact inv_request h node port hok.1 fun hw => hok.2 (of_decide_eq_true hw)
    · exact h.send _ _ _ _
  | packet rxPort node port d => exact inv_xferRx h rxPort node port hok

end

end Sic.Tftp
