import Mathlib.Data.Finset.Card
import Sic.Lib.Run

/-! Path walks in the vnode tree of `kernel/fs/vfs.c`, with symbolic links and
mounts. A vnode is named by a number, as the kernel names it by its address; a
freed one is no vnode any more, and what the code would do with it is not
modelled further than that nothing happens. What the drivers' `lookup` answers
comes from outside, for each call anew. -/

namespace Sic.Fs

abbrev Name := List Char

inductive NodeType where
  | file | dir | dev | link
deriving DecidableEq, Repr

inductive FsType where
  | tmpfs | zaefs | fat | ext4
deriving DecidableEq, Repr

namespace FsType

def hasLookup : FsType → Bool
  | .tmpfs => false
  | _ => true

end FsType

def nameMax : Nat := 256
def symloopMax : Nat := 16

structure Vnode where
  name : Name
  type : NodeType
  parent : Option Nat
  children : List Nat := []
  ops : FsType
  mounted : Option Nat := none
  mountpoint : Option Nat := none
  link : Option (List Char) := none
deriving DecidableEq, Repr

structure Vfs where
  nodes : Nat → Option Vnode
  root : Nat
  next : Nat

/-- How a driver's new vnode turned out. `lost`: it is in its directory's list,
but was freed again as there was no memory for the driver's own data. -/
inductive Made where
  | ok (link : Option (List Char))
  | lost
deriving DecidableEq

structure Driver where
  lookup : Nat → Name → Option (NodeType × Made)

namespace Vfs

def set (s : Vfs) (n : Nat) (v : Vnode) : Vfs := { s with nodes := Function.update s.nodes n (some v) }

def free (s : Vfs) (n : Nat) : Vfs := { s with nodes := Function.update s.nodes n none }

def isDir (s : Vfs) (n : Nat) : Bool := (s.nodes n).any fun v => v.type = .dir

def vnodeAlloc (s : Vfs) (dir : Nat) (dv : Vnode) (name : Name) (type : NodeType) (link : Option (List Char)) :
    Vfs :=
  { (s.set dir { dv with children := s.next :: dv.children }).set s.next
      { name := name.take (nameMax - 1), type, parent := some dir, ops := dv.ops, link } with
    next := s.next + 1 }

def make (s : Vfs) (dir : Nat) (dv : Vnode) (name : Name) (type : NodeType) : Made → Vfs × Option Nat
  | .ok link => (s.vnodeAlloc dir dv name type link, some s.next)
  | .lost => ((s.vnodeAlloc dir dv name type none).free s.next, none)

/-! ### Looking up -/

def mountedRoot (s : Vfs) (n : Nat) : Nat := ((s.nodes n).bind (·.mounted)).getD n

def vfsRoot (s : Vfs) : Nat := s.mountedRoot s.root

def dotdot (s : Vfs) (dir : Nat) (dv : Vnode) : Nat :=
  let up := dv.mountpoint.getD dir
  ((s.nodes up).bind (·.parent)).getD up

def dirFind (s : Vfs) (D : Driver) (dir : Nat) (name : Name) : Vfs × Option Nat :=
  match s.nodes dir with
  | none => (s, none)
  | some dv =>
    if name = ['.'] then (s, some dir)
    else if name = ['.', '.'] then (s, some (s.dotdot dir dv))
    else
      match dv.children.find? fun c => (s.nodes c).any fun v => v.name = name with
      | some c => (s, some (s.mountedRoot c))
      | none =>
        if dv.ops.hasLookup then
          match D.lookup dir name with
          | none => (s, none)
          | some (type, made) => let (s, c) := s.make dir dv name type made; (s, c.map s.mountedRoot)
        else (s, none)

def components (path : List Char) : List Name := (path.splitOn '/').filter (· ≠ [])

def start (s : Vfs) (cwd : Option Nat) (path : List Char) : Nat :=
  if path.head? = some '/' then s.vfsRoot else cwd.getD s.vfsRoot

/-- `walk_parent_d` from the first component on; `fol` is `follow`. The number
beside the tree is `*depth`. -/
def walkFrom (D : Driver) (fol : Vfs × Nat → Nat → Option Nat → (Vfs × Nat) × Option Nat) :
    Vfs × Nat → Nat → List Name → (Vfs × Nat) × Option (Nat × Name)
  | st, dir, [] => (st, some (dir, []))
  | st, dir, [last] => (st, some (dir, last))
  | (s, depth), dir, seg :: next :: rest =>
    if s.isDir dir then
      let (s, n) := s.dirFind D dir seg
      match fol (s, depth) dir n with
      | (st, none) => (st, none)
      | (st, some dir) => walkFrom D fol st dir (next :: rest)
    else ((s, depth), none)

mutual

/-- The first number bounds the nesting; `SYMLOOP_MAX` is reached before it is. -/
def follow (D : Driver) : Nat → Vfs × Nat → Nat → Option Nat → (Vfs × Nat) × Option Nat
  | 0, st, _, _ => (st, none)
  | _ + 1, st, _, none => (st, none)
  | k + 1, (s, depth), dir, some n =>
    match s.nodes n with
    | none => ((s, depth), none)
    | some v =>
      if v.type = .link then
        if symloopMax < depth + 1 then ((s, depth + 1), none)
        else
          match v.link with
          | none => ((s, depth + 1), none)
          | some path =>
            let (st, n) := resolve D k (s, depth + 1) (some dir) path true
            follow D k st dir n
      else ((s, depth), some n)

def resolve (D : Driver) : Nat → Vfs × Nat → Option Nat → List Char → Bool → (Vfs × Nat) × Option Nat
  | 0, st, _, _, _ => (st, none)
  | k + 1, (s, depth), cwd, path, followLast =>
    if path = [] then ((s, depth), none)
    else
      match walkFrom D (follow D k) (s, depth) (s.start cwd path) (components path) with
      | (st, none) => (st, none)
      | ((s, depth), some (dir, last)) =>
        if last = [] then ((s, depth), some dir)
        else if s.isDir dir then
          let (s, n) := s.dirFind D dir last
          if followLast then follow D k (s, depth) dir n else ((s, depth), n)
        else ((s, depth), none)

end

def nesting : Nat := 2 * symloopMax + 4

def lookup (s : Vfs) (D : Driver) (cwd : Option Nat) (path : List Char) (followLast : Bool) : Vfs × Option Nat :=
  let ((s, _), n) := resolve D nesting (s, 0) cwd path followLast
  (s, n)

end Vfs

end Sic.Fs
