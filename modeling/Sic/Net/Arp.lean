import Sic.Lib.Count
import Sic.Lib.Run
import Sic.Lib.Word

/-! The cache of `kernel/net/arp.c` with the packets given to it as numbers, and what became of each of them.
All of it runs under `net_lock`. The requests that `arp_send` makes carry packets of their own and are left out.
-/

namespace Sic.Arp

def arpEntries : Nat := 32

abbrev Slot := Fin arpEntries

def firstSlot : Slot := ⟨0, Nat.succ_pos _⟩

def arpTtlMs : U64 := 10 * 60 * 1000

def arpRetryMs : U64 := 1000

structure ArpEntry where
  dev : Option Nat := none
  ip : U32 := 0
  mac : BitVec 48 := 0
  valid : Bool := false
  updated : U64 := 0
  lastRequest : U64 := 0
  pending : Option Nat := none
deriving DecidableEq, Repr

def ArpEntry.used (e : ArpEntry) : Bool := e.valid || e.pending.isSome

inductive Fate where
  | sent
  | replaced
  | evicted
  | dropped
deriving DecidableEq, Repr

structure Netdev where
  ip : U32 := 0
  mask : U32 := 0
deriving DecidableEq, Repr

def Netdev.bcast (d : Netdev) : U32 := d.ip ||| ~~~d.mask

/-- `log` is what became of the packets that no longer wait. -/
structure State where
  cache : Slot → ArpEntry
  devs : Nat → Netdev
  log : List (Nat × Fate)

def boot : State := ⟨fun _ => {}, fun _ => {}, []⟩

namespace State

def note (s : State) (l : List (Nat × Fate)) : State := { s with log := s.log ++ l }

def edit (s : State) (k : Slot) (e : ArpEntry) (l : List (Nat × Fate)) : State :=
  { s with cache := Function.update s.cache k e, log := s.log ++ l }

end State

def ArpEntry.ends (e : ArpEntry) (f : Fate) : List (Nat × Fate) := e.pending.toList.map (·, f)

def arpFind (s : State) (d : Nat) (ip : U32) : Option Slot :=
  (List.finRange arpEntries).find? fun k => (s.cache k).dev == some d && (s.cache k).ip == ip && (s.cache k).used

def oldestLoop (cache : Slot → ArpEntry) : List Slot → Slot → Slot
  | [], oldest => oldest
  | k :: ks, oldest =>
    if !(cache k).used then k
    else if (cache k).updated < (cache oldest).updated then oldestLoop cache ks k
    else oldestLoop cache ks oldest

def arpSlot (s : State) (d : Nat) (ip : U32) : State × Slot :=
  match arpFind s d ip with
  | some k => (s, k)
  | none =>
    let k := oldestLoop s.cache (List.finRange arpEntries) firstSlot
    (s.edit k { dev := some d, ip := ip } ((s.cache k).ends .evicted), k)

def arpOutput (s : State) (now : U64) (d : Nat) (nexthop : U32) (x : Nat) : State :=
  if nexthop = 0xFFFFFFFF ∨ ((s.devs d).mask ≠ 0 ∧ nexthop = (s.devs d).bcast) then s.note [(x, .sent)]
  else
    let (s, k) := arpSlot s d nexthop
    let e := s.cache k
    if e.valid then s.note [(x, .sent)]
    else
      let last := if arpRetryMs ≤ now - e.lastRequest ∨ e.lastRequest = 0 then now else e.lastRequest
      s.edit k { e with pending := some x, lastRequest := last } (e.ends .replaced)

def arpLearn (s : State) (now : U64) (d : Nat) (ip : U32) (mac : BitVec 48) : State :=
  let (s, k) := arpSlot s d ip
  let e := s.cache k
  s.edit k { e with mac := mac, valid := true, updated := now, pending := none } (e.ends .sent)

structure ArpHdr where
  len : Nat
  htype : BitVec 16
  ptype : BitVec 16
  hlen : U8
  plen : U8
  sha : BitVec 48
  spa : U32
  tpa : U32
deriving DecidableEq, Repr

def arpRx (s : State) (now : U64) (d : Nat) (a : ArpHdr) : State :=
  if a.len < 28 ∨ a.htype ≠ 1 ∨ a.ptype ≠ 0x0800 ∨ a.hlen ≠ 6 ∨ a.plen ≠ 4 then s
  else
    let forUs := (s.devs d).ip != 0 && a.tpa == (s.devs d).ip
    if forUs || (arpFind s d a.spa).isSome then arpLearn s now d a.spa a.sha else s

def ArpEntry.tick (now : U64) (e : ArpEntry) : ArpEntry :=
  let e := if e.valid ∧ arpTtlMs < now - e.updated then { e with valid := false } else e
  if e.pending.isSome ∧ 5 * arpRetryMs < now - e.lastRequest then { e with pending := none }
  else if e.pending.isSome ∧ arpRetryMs ≤ now - e.lastRequest then { e with lastRequest := now }
  else e

def arpTimerEntry (now : U64) (s : State) (k : Slot) : State :=
  let e := s.cache k
  s.edit k (e.tick now) (if 5 * arpRetryMs < now - e.lastRequest then e.ends .dropped else [])

def arpTimer (s : State) (now : U64) : State := (List.finRange arpEntries).foldl (arpTimerEntry now) s

/-! ### Runs -/

inductive Event where
  | config (d : Nat) (ip mask : U32)
  | output (now : U64) (d : Nat) (nexthop : U32) (x : Nat)
  | rx (now : U64) (d : Nat) (a : ArpHdr)
  | timer (now : U64)
deriving DecidableEq, Repr

def step (s : State) : Event → State
  | .config d ip mask => { s with devs := Function.update s.devs d ⟨ip, mask⟩ }
  | .output now d nexthop x => arpOutput s now d nexthop x
  | .rx now d a => arpRx s now d a
  | .timer now => arpTimer s now

def Event.handed : Event → Option Nat
  | .output _ _ _ x => some x
  | _ => none

def handed (es : List Event) : List Nat := es.filterMap Event.handed

def Event.tick : Event → Option U64
  | .timer now => some now
  | _ => none

def ticks (es : List Event) : List U64 := es.filterMap Event.tick

end Sic.Arp
