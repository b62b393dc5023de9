import Sic.Net.Pkt

/-! The network stack from the drivers to the datagram sockets: `kernel/net/core.c`,
`arp.c`, `ip.c`, `udp.c` and the datagram half of `socket.c`. All of it runs under
`net_lock`. A device is named by its place on the list, `lo` by 0. -/

namespace Sic.Net

abbrev Mac := BitVec 48

def macBytes (m : Mac) : List U8 :=
  beBytes16 (m.extractLsb' 32 16) ++ beBytes16 (m.extractLsb' 16 16) ++ beBytes16 (m.extractLsb' 0 16)

def ethBroadcast : Mac := BitVec.allOnes 48

def ethPIp : U16 := 0x0800

def ethPArp : U16 := 0x0806

def ipprotoIcmp : U8 := 1

def ipprotoTcp : U8 := 6

def ipprotoUdp : U8 := 17

inductive Nic where
  | e1000
  | b44
  | wlan
deriving DecidableEq, Repr

structure Netdev where
  nic : Option Nic
  mac : Mac := 0
  mtu : U16
  up : Bool
  loopback : Bool
  ip : U32 := 0
  mask : U32 := 0
  gw : U32 := 0
deriving DecidableEq, Repr

def Netdev.bcast (d : Netdev) : U32 := d.ip ||| ~~~d.mask

structure ArpEntry where
  dev : Option Nat := none
  ip : U32 := 0
  mac : Mac := 0
  valid : Bool := false
  updated : U64 := 0
  lastRequest : U64 := 0
  pending : Option Pkt := none

structure SockConf where
  proto : U8
  localIp : U32 := 0
  remoteIp : U32 := 0
  localPort : U16 := 0
  remotePort : U16 := 0
  bound : Bool := false
  connected : Bool := false
  broadcast : Bool := false
  shutRd : Bool := false

structure Sock extends SockConf where
  rxq : List Pkt := []
  rxqBytes : U32 := 0

/-- `mem` and `ring` are the answers the next calls of `kmalloc` and of a driver's `xmit`
get, `handed` the packets given to `ip_rx`, and `acts` what was done to packet buffers. -/
structure Stack where
  devs : List Netdev
  cache : List ArpEntry
  lo : List Pkt := []
  udp : List Sock := []
  raw : List Sock := []
  ident : U16 := 0
  now : U64 := 0
  mem : List (Option (Nat → U8)) := []
  ring : List Int := []
  wire : List (Nat × Pkt) := []
  handed : List (Nat × Pkt) := []
  acts : List Act := []

def loDev : Netdev where
  nic := none
  mtu := 65535
  up := true
  loopback := true
  ip := 0x7F000001
  mask := 0xFF000000

def arpEntries : Nat := 32

def boot : Stack where
  devs := [loDev]
  cache := List.replicate arpEntries {}

def Stack.dev (s : Stack) (i : Nat) : Netdev := s.devs.getD i loDev

def Stack.note (s : Stack) (a : Act) : Stack := { s with acts := a :: s.acts }

def Stack.shape (s : Stack) (p : Pkt) : Stack := s.note (.shape p.off p.len)

def pktAlloc (s : Stack) : Stack × Option Pkt :=
  match s.mem with
  | [] => (s, some { buf := fun _ => 0 })
  | none :: mem => ({ s with mem := mem }, none)
  | some buf :: mem => ({ s with mem := mem }, some { buf := buf })

def Stack.pushed (s : Stack) (p : Pkt) (n : U32) : Stack := (s.note (.push p.off n)).shape (p.push n)

def Stack.pulled (s : Stack) (p : Pkt) (n : U32) : Stack := s.shape (p.pull n)

/-! ### Link layer -/

def xmit (s : Stack) (i : Nat) (p : Pkt) : Stack × Int :=
  match (s.dev i).nic with
  | none => ({ s with lo := s.lo ++ [p] }, 0)
  | some _ =>
    let s := s.note (.read p.off.toNat p.len.toNat)
    match s.ring with
    | [] => ({ s with wire := (i, p) :: s.wire }, 0)
    | r :: ring =>
      if r = 0 then ({ s with ring := ring, wire := (i, p) :: s.wire }, 0) else ({ s with ring := ring }, r)

def padFrame (s : Stack) (p : Pkt) : Stack × Pkt :=
  if p.len.toNat < 60 then
    let s := s.note (.write (p.off.toNat + p.len.toNat) (60 - p.len.toNat))
    let p := { p.put p.len.toNat (List.replicate (60 - p.len.toNat) 0) with len := 60 }
    (s.shape p, p)
  else (s, p)

def ethSend (s : Stack) (i : Nat) (dst : Mac) (proto : U16) (p : Pkt) : Stack × Int :=
  if (s.dev i).loopback then xmit s i { p with proto := proto }
  else
    let s := s.pushed p 14
    let p := p.push 14
    let p := p.put 0 (macBytes dst ++ macBytes (s.dev i).mac ++ beBytes16 proto)
    xmit (padFrame s p).1 i (padFrame s p).2

/-! ### ARP -/

def arpRequest : U16 := 1

def arpReply : U16 := 2

def arpTtlMs : U64 := 10 * 60 * 1000

def arpRetryMs : U64 := 1000

def ArpEntry.used (e : ArpEntry) : Bool := e.valid || e.pending.isSome

def arpFind (s : Stack) (i : Nat) (ip : U32) : Option Nat :=
  s.cache.findIdx? fun e => e.dev == some i && e.ip == ip && e.used

def arpOldest : List ArpEntry → Nat → Nat → U64 → Nat
  | [], _, best, _ => best
  | e :: es, k, best, updated =>
    if !e.used then k
    else if e.updated < updated then arpOldest es (k + 1) k e.updated
    else arpOldest es (k + 1) best updated

def arpSlot (s : Stack) (i : Nat) (ip : U32) : Stack × Nat :=
  match arpFind s i ip with
  | some k => (s, k)
  | none =>
    let k := arpOldest s.cache 0 0 (s.cache.getD 0 {}).updated
    ({ s with cache := s.cache.set k { dev := some i, ip := ip } }, k)

def arpSend (s : Stack) (i : Nat) (op : U16) (dstMac tha : Mac) (tpa : U32) : Stack :=
  match pktAlloc s with
  | (s, none) => s
  | (s, some p) =>
    let s := s.pushed p 28
    let p := p.push 28
    let d := s.dev i
    let p := p.put 0 (beBytes16 1 ++ beBytes16 ethPIp ++ [6, 4] ++ beBytes16 op ++ macBytes d.mac ++
      beBytes32 d.ip ++ macBytes tha ++ beBytes32 tpa)
    (ethSend s i dstMac ethPArp p).1

def Stack.entry (s : Stack) (k : Nat) : ArpEntry := s.cache.getD k {}

def Stack.setEntry (s : Stack) (k : Nat) (f : ArpEntry → ArpEntry) : Stack :=
  { s with cache := s.cache.set k (f (s.entry k)) }

def arpBroadcast (d : Netdev) (nexthop : U32) : Bool :=
  nexthop == 0xFFFFFFFF || (d.mask != 0 && nexthop == d.bcast)

def arpOutput (s : Stack) (i : Nat) (nexthop : U32) (p : Pkt) : Stack × Int :=
  if arpBroadcast (s.dev i) nexthop then ethSend s i ethBroadcast ethPIp p
  else
    let (s, k) := arpSlot s i nexthop
    let e := s.entry k
    if e.valid then ethSend s i e.mac ethPIp p
    else
      let s := s.setEntry k fun e => { e with pending := some p }
      if arpRetryMs ≤ s.now - e.lastRequest ∨ e.lastRequest = 0 then
        let s := s.setEntry k fun e => { e with lastRequest := s.now }
        (arpSend s i arpRequest ethBroadcast 0 nexthop, 0)
      else (s, 0)

def arpLearn (s : Stack) (i : Nat) (ip : U32) (mac : Mac) : Stack :=
  let (s, k) := arpSlot s i ip
  let s := s.setEntry k fun e => { e with mac := mac, valid := true, updated := s.now }
  match (s.entry k).pending with
  | none => s
  | some p => (ethSend (s.setEntry k fun e => { e with pending := none }) i mac ethPIp p).1

def Pkt.mac (p : Pkt) (i : Nat) : Mac := p.be16 i ++ p.be16 (i + 2) ++ p.be16 (i + 4)

def arpRx (s : Stack) (i : Nat) (p : Pkt) : Stack :=
  if p.len.toNat < 28 then s
  else
    let s := s.note (.read p.off.toNat 28)
    if p.be16 0 ≠ 1 ∨ p.be16 2 ≠ ethPIp ∨ p.byte 4 ≠ 6 ∨ p.byte 5 ≠ 4 then s
    else
      let d := s.dev i
      let forUs := d.ip != 0 && p.be32 24 == d.ip
      let s := if forUs || (arpFind s i (p.be32 14)).isSome then arpLearn s i (p.be32 14) (p.mac 8) else s
      if forUs && p.be16 6 == arpRequest then arpSend s i arpReply (p.mac 8) (p.mac 8) (p.be32 14) else s

def arpTimerEntry (s : Stack) (k : Nat) : Stack :=
  let s :=
    if (s.entry k).valid ∧ arpTtlMs < s.now - (s.entry k).updated then
      s.setEntry k fun e => { e with valid := false }
    else s
  let e := s.entry k
  if e.pending.isSome ∧ 5 * arpRetryMs < s.now - e.lastRequest then
    s.setEntry k fun e => { e with pending := none }
  else if e.pending.isSome ∧ arpRetryMs ≤ s.now - e.lastRequest then
    match e.dev with
    | some i => arpSend (s.setEntry k fun e => { e with lastRequest := s.now }) i arpRequest ethBroadcast 0 e.ip
    | none => s
  else s

def arpTimer (s : Stack) : Stack := (List.range arpEntries).foldl arpTimerEntry s

/-! ### IPv4 -/

def ipLocal (s : Stack) (addr : U32) : Bool :=
  addr >>> 24 == 127 || s.devs.any fun d => d.ip != 0 && d.ip == addr

def routeLoop (dst : U32) : List Netdev → Nat → Option (Nat × U32) → Option (Nat × U32)
  | [], _, gw => gw
  | d :: ds, i, gw =>
    if !d.up then routeLoop dst ds (i + 1) gw
    else if dst = 0xFFFFFFFF then some (i, dst)
    else if d.ip ≠ 0 ∧ d.mask ≠ 0 ∧ dst &&& d.mask = d.ip &&& d.mask then some (i, dst)
    else routeLoop dst ds (i + 1) (if d.gw ≠ 0 ∧ gw = none then some (i, d.gw) else gw)

def ipRoute (s : Stack) (dst : U32) : Option (Nat × U32) :=
  if ipLocal s dst then some (0, dst) else routeLoop dst s.devs.tail 1 none

def enetunreach : Int := -101

def emsgsize : Int := -90

def ipHeader (ident : U16) (src dst : U32) (proto : U8) (p : Pkt) : Pkt :=
  let p := p.put 0 ([0x45, 0] ++ beBytes16 (p.len.setWidth 16) ++ beBytes16 ident ++ beBytes16 0x4000 ++
    [64, proto] ++ beBytes16 0 ++ beBytes32 src ++ beBytes32 dst)
  p.put 10 (beBytes16 (ipChecksum (p.bytes 0 20)))

def ipSend (s : Stack) (src dst : U32) (proto : U8) (p : Pkt) : Stack × Int :=
  match ipRoute s dst with
  | none => (s, enetunreach)
  | some (i, nexthop) =>
    let src := if src = 0 then (s.dev i).ip else src
    if (s.dev i).mtu.toNat < p.len.toNat + 20 then (s, emsgsize)
    else
      let s := s.pushed p 20
      let p := p.push 20
      let p := ipHeader s.ident src dst proto p
      arpOutput { s with ident := s.ident + 1 } i nexthop p

/-! ### Delivery to sockets -/

def rxqMax : U32 := 64 * 1024

def sockDeliver (q : Sock) (p : Pkt) : Sock :=
  if rxqMax < q.rxqBytes + p.len ∨ q.shutRd then q
  else { q with rxq := q.rxq ++ [p], rxqBytes := q.rxqBytes + p.len }

def Stack.setRaw (s : Stack) (k : Nat) (q : Sock) : Stack := { s with raw := s.raw.set k q }

def Stack.setUdp (s : Stack) (k : Nat) (q : Sock) : Stack := { s with udp := s.udp.set k q }

def Pkt.sized (c p : Pkt) : Pkt :=
  { c with off := BitVec.ofNat 32 pktHeadroom, len := p.len + p.ihl.setWidth 32 }

def Pkt.copied (c p : Pkt) : Pkt :=
  { c.put 0 (Pkt.bytes { p with off := p.off - p.ihl.setWidth 32 } 0 c.len.toNat) with srcIp := p.srcIp }

def rawCopy (p : Pkt) (s : Stack) (k : Nat) : Stack :=
  match s.raw[k]? with
  | none => s
  | some q =>
    if q.proto ≠ ipprotoIcmp ∨ (q.remoteIp ≠ 0 ∧ q.remoteIp ≠ p.srcIp) then s
    else
      match pktAlloc s with
      | (s, none) => s
      | (s, some c) =>
        let c := c.sized p
        let s := ((s.shape c).note (.read ((p.off.toNat : Int) - p.ihl.toNat) c.len.toNat)).note
          (.write c.off.toNat c.len.toNat)
        s.setRaw k (sockDeliver q (c.copied p))

def Pkt.echoReply (p : Pkt) : Pkt :=
  let r := (p.put 0 [0]).put 2 (beBytes16 0)
  r.put 2 (beBytes16 (ipChecksum (r.bytes 0 r.len.toNat)))

def icmpRx (s : Stack) (p : Pkt) : Stack :=
  if p.len.toNat < 8 then s
  else
    let s := s.note (.read p.off.toNat p.len.toNat)
    if ipChecksum (p.bytes 0 p.len.toNat) ≠ 0 then s
    else
      let s := (List.range s.raw.length).foldl (rawCopy p) s
      if p.byte 0 = 8 ∧ p.byte 1 = 0 then
        (ipSend s (if ipLocal s p.dstIp then p.dstIp else 0) p.srcIp ipprotoIcmp p.echoReply).1
      else s

def udpMatch (s : Stack) (p : Pkt) (dport : U16) (q : Sock) : Bool :=
  q.localPort == dport &&
    (q.localIp == 0 || q.localIp == p.dstIp ||
      (q.localIp == ((p.dev.map s.dev).getD loDev).ip && p.dstIp == 0xFFFFFFFF)) &&
    (!q.connected || (q.remoteIp == p.srcIp && q.remotePort == p.srcPort))

def Pkt.udpTrim (p : Pkt) : Pkt := { p with len := (p.be16 4).setWidth 32, srcPort := p.be16 0 }

def udpRx (s : Stack) (p : Pkt) : Stack :=
  if p.len.toNat < 8 then s
  else
    let n := p.be16 4
    if n.toNat < 8 ∨ p.len.toNat < n.toNat then s
    else
      let s := s.note (.read p.off.toNat n.toNat)
      if p.be16 6 ≠ 0 ∧ ipPseudoChecksum p.srcIp p.dstIp ipprotoUdp (p.bytes 0 n.toNat) ≠ 0 then s
      else
        let dport := p.be16 2
        let p := p.udpTrim
        let s := (s.shape p).pulled p 8
        let p := p.pull 8
        match s.udp.findIdx? (udpMatch s p dport) with
        | none => s
        | some k =>
          match s.udp[k]? with
          | none => s
          | some q => s.setUdp k (sockDeliver q p)

def tcpRx (s : Stack) (p : Pkt) : Stack :=
  if p.len.toNat < 20 then s
  else
    let hlen := (p.byte 12 >>> 4).toNat * 4
    if hlen < 20 ∨ p.len.toNat < hlen then s
    else
      let s := s.note (.read p.off.toNat p.len.toNat)
      if ipPseudoChecksum p.srcIp p.dstIp ipprotoTcp (p.bytes 0 p.len.toNat) ≠ 0 then s
      else s.note (.read (p.off.toNat + hlen) (p.len - BitVec.ofNat 32 hlen).toNat)

def Pkt.hdrLen (p : Pkt) : U32 := (p.byte 0 &&& 0xF#8).setWidth 32 * 4

def Pkt.ipTrim (p : Pkt) : Pkt :=
  { p with len := (p.be16 2).setWidth 32, srcIp := p.be32 12, dstIp := p.be32 16
           proto := (p.byte 9).setWidth 16, ihl := p.hdrLen.setWidth 16 }

def ipRx (s : Stack) (i : Nat) (p : Pkt) : Stack :=
  let s := { s with handed := (i, p) :: s.handed }
  if p.len.toNat < 20 ∨ p.byte 0 >>> 4 ≠ 4 then s
  else
    let ihl := p.hdrLen
    let total : U32 := (p.be16 2).setWidth 32
    if ihl < 20 ∨ total < ihl ∨ p.len < total then s
    else
      let s := s.note (.read p.off.toNat ihl.toNat)
      if ipChecksum (p.bytes 0 ihl.toNat) ≠ 0 then s
      else if p.be16 6 &&& 0x3FFF#16 ≠ 0 then s
      else
        let d := s.dev i
        let dst := p.be32 16
        let bcast := dst == 0xFFFFFFFF || (d.ip != 0 && d.mask != 0 && dst == d.bcast)
        if !bcast && !ipLocal s dst && d.ip != 0 then s
        else
          let proto := p.byte 9
          let p := p.ipTrim
          let s := (s.shape p).pulled p ihl
          let p := p.pull ihl
          if proto = ipprotoIcmp then icmpRx s p
          else if proto = ipprotoUdp then udpRx s p
          else if proto = ipprotoTcp then tcpRx s p
          else s

def Pkt.arrived (p : Pkt) (i : Nat) : Pkt := { p with dev := some i }

def netRx (s : Stack) (i : Nat) (p : Pkt) : Stack :=
  let p := p.arrived i
  if (s.dev i).loopback then
    if p.proto = ethPIp then ipRx s i p else if p.proto = ethPArp then arpRx s i p else s
  else if p.len.toNat < 14 then s
  else
    let s := s.note (.read p.off.toNat 14)
    let proto := p.be16 12
    let s := s.pulled p 14
    let p := p.pull 14
    if proto = ethPIp then ipRx s i p else if proto = ethPArp then arpRx s i p else s

def loTurn (s : Stack) : Stack :=
  match s.lo with
  | [] => s
  | p :: lo => netRx { s with lo := lo } 0 p

/-! ### Drivers and senders -/

def Pkt.filled (p : Pkt) (bs : List U8) : Pkt := { p.put 0 bs with len := BitVec.ofNat 32 bs.length }

def payload (s : Stack) (bs : List U8) : Stack × Option Pkt :=
  match pktAlloc s with
  | (s, none) => (s, none)
  | (s, some p) => ((s.note (.write p.off.toNat bs.length)).shape (p.filled bs), some (p.filled bs))

def Nic.takes (nic : Nic) (n : Nat) : Bool :=
  match nic with
  | .e1000 => 14 ≤ n && n ≤ pktDataMax + pktHeadroom
  | .b44 => 14 + 4 ≤ n + 4 && n + 4 ≤ 1536
  | .wlan => n ≠ 0 && n ≤ ({ buf := fun _ => 0 } : Pkt).tailroom.toNat

def rxFrame (s : Stack) (i : Nat) (frame : List U8) : Stack :=
  match (s.dev i).nic with
  | none => s
  | some nic =>
    if nic.takes frame.length then
      match payload s frame with
      | (s, none) => s
      | (s, some p) => netRx s i p
    else s

def udpSend (s : Stack) (q : Sock) (dstIp : U32) (dstPort : U16) (p : Pkt) : Stack × Int :=
  let s := s.pushed p 8
  let p := p.push 8
  match ipRoute s dstIp with
  | none => (s, enetunreach)
  | some (i, _) =>
    let src := if q.localIp = 0 then (s.dev i).ip else q.localIp
    let p := p.put 0 (beBytes16 q.localPort ++ beBytes16 dstPort ++ beBytes16 (p.len.setWidth 16) ++ beBytes16 0)
    let csum := ipPseudoChecksum src dstIp ipprotoUdp (p.bytes 0 p.len.toNat)
    let p := p.put 6 (beBytes16 (if csum = 0 then 0xFFFF else csum))
    ipSend s src dstIp ipprotoUdp p

def ebadf : Int := -9

def enomem : Int := -12

def eacces : Int := -13

def edestaddrreq : Int := -89

def eaddrinuse : Int := -98

def Sock.dest (q : Sock) : Option (U32 × U16) → Option (U32 × U16)
  | some addr => some addr
  | none => if q.connected then some (q.remoteIp, q.remotePort) else none

def sendRaw (s : Stack) (k : Nat) (addr : Option (U32 × U16)) (buf : List U8) : Stack × Int :=
  match s.raw[k]? with
  | none => (s, ebadf)
  | some q =>
    match q.dest addr with
    | none => (s, edestaddrreq)
    | some (dip, _) =>
      if pktDataMax < buf.length then (s, emsgsize)
      else
        match payload s buf with
        | (s, none) => (s, enomem)
        | (s, some p) => ipSend s q.localIp dip ipprotoIcmp p

/-- `do_sendto` on the UDP socket at `k`; `port` is what `bind_locked` finds for a socket
that is not bound. -/
def sendUdp (s : Stack) (k : Nat) (addr : Option (U32 × U16)) (port : Option U16) (buf : List U8) : Stack × Int :=
  match s.udp[k]? with
  | none => (s, ebadf)
  | some q =>
    match q.dest addr with
    | none => (s, edestaddrreq)
    | some (dip, dport) =>
      if pktDataMax < buf.length then (s, emsgsize)
      else
        match payload s buf with
        | (s, none) => (s, enomem)
        | (s, some p) =>
          match (if q.bound then some q else port.map fun x => { q with localPort := x, bound := true }) with
          | none => (s, eaddrinuse)
          | some q =>
            let s := s.setUdp k q
            if (dip = 0xFFFFFFFF ∨ dip &&& 0xFF#32 = 0xFF) ∧ !q.broadcast then (s, eacces)
            else udpSend s q dip dport p

structure Segment where
  src : U32
  dst : U32
  sport : U16
  dport : U16
  seq : U32
  ack : U32
  flags : U8
  wnd : U16
  data : List U8
  opts : List U8
  data_le : data.length ≤ 1460
  opts_le : opts.length ≤ 40

def tcpEmit (s : Stack) (g : Segment) : Stack × Int :=
  match (if g.data = [] then pktAlloc s else payload s g.data) with
  | (s, none) => (s, enomem)
  | (s, some p) =>
    let s := s.pushed p (BitVec.ofNat 32 (20 + g.opts.length))
    let p := p.push (BitVec.ofNat 32 (20 + g.opts.length))
    let p := p.put 0 (beBytes16 g.sport ++ beBytes16 g.dport ++ beBytes32 g.seq ++ beBytes32 g.ack ++
      [BitVec.ofNat 8 ((20 + g.opts.length) / 4 * 16), g.flags] ++ beBytes16 g.wnd ++ beBytes16 0 ++
      beBytes16 0 ++ g.opts)
    let p := p.put 16 (beBytes16 (ipPseudoChecksum g.src g.dst ipprotoTcp (p.bytes 0 p.len.toNat)))
    ipSend s g.src g.dst ipprotoTcp p

def recvfrom (s : Stack) (q : Sock) (len : Nat) (peek : Bool) : Stack × Sock :=
  match q.rxq with
  | [] => (s, q)
  | p :: rxq =>
    let s := s.note (.read p.off.toNat ((min len p.len.toNat : Nat) : Int))
    if peek then (s, q) else (s, { q with rxq := rxq, rxqBytes := q.rxqBytes - p.len })

/-! ### Runs -/

inductive IfReq where
  | flags (up : Bool)
  | addr (ip : U32)
  | netmask (mask : U32)
  | gateway (gw : U32)
deriving DecidableEq, Repr

def Netdev.ioctl (d : Netdev) : IfReq → Netdev
  | .flags up => { d with up := up }
  | .addr ip =>
    { d with ip := ip, mask := if ip ≠ 0 ∧ d.mask = 0 then 0xFFFFFF00 else d.mask, up := d.up || ip != 0 }
  | .netmask mask => { d with mask := mask }
  | .gateway gw => { d with gw := gw }

/-- `socket`, `bind`, `connect` and the rest change a socket's settings; the reaction of
TCP to what `tcp_rx` has read is further `emit`s. -/
inductive Op where
  | register (nic : Nic) (mac : Mac)
  | ioctl (i : Nat) (req : IfReq)
  | frame (i : Nat) (bytes : List U8)
  | loTurn
  | arpTimer
  | emit (g : Segment)
  | openUdp (conf : SockConf)
  | openRaw (conf : SockConf)
  | setUdp (k : Nat) (conf : SockConf)
  | setRaw (k : Nat) (conf : SockConf)
  | closeUdp (k : Nat)
  | closeRaw (k : Nat)
  | sendUdp (k : Nat) (addr : Option (U32 × U16)) (port : Option U16) (buf : List U8)
  | sendRaw (k : Nat) (addr : Option (U32 × U16)) (buf : List U8)
  | recvUdp (k len : Nat) (peek : Bool)
  | recvRaw (k len : Nat) (peek : Bool)

def Stack.apply (s : Stack) : Op → Stack
  | .register nic mac =>
    { s with devs := s.devs ++ [{ nic := nic, mac := mac, mtu := 1500, up := true, loopback := false }] }
  | .ioctl i req => { s with devs := s.devs.modify i fun d => d.ioctl req }
  | .frame i bytes => rxFrame s i bytes
  | .loTurn => loTurn s
  | .arpTimer => arpTimer s
  | .emit g => (tcpEmit s g).1
  | .openUdp conf => { s with udp := { conf with } :: s.udp }
  | .openRaw conf => { s with raw := { conf with } :: s.raw }
  | .setUdp k conf => { s with udp := s.udp.modify k fun q => { q with toSockConf := conf } }
  | .setRaw k conf => { s with raw := s.raw.modify k fun q => { q with toSockConf := conf } }
  | .closeUdp k => { s with udp := s.udp.eraseIdx k }
  | .closeRaw k => { s with raw := s.raw.eraseIdx k }
  | .sendUdp k addr port buf => (sendUdp s k addr port buf).1
  | .sendRaw k addr buf => (sendRaw s k addr buf).1
  | .recvUdp k len peek =>
    match s.udp[k]? with
    | none => s
    | some q => (recvfrom s q len peek).1.setUdp k (recvfrom s q len peek).2
  | .recvRaw k len peek =>
    match s.raw[k]? with
    | none => s
    | some q => (recvfrom s q len peek).1.setRaw k (recvfrom s q len peek).2

/-- An operation with the time and the answers of the allocator and the drivers. -/
structure Event where
  op : Op
  now : U64 := 0
  mem : List (Option (Nat → U8)) := []
  ring : List Int := []

def Stack.armed (s : Stack) (e : Event) : Stack := { s with now := e.now, mem := e.mem, ring := e.ring }

def step (s : Stack) (e : Event) : Stack := (s.armed e).apply e.op

end Sic.Net
