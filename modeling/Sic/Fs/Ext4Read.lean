import Mathlib.Data.List.GetD
import Sic.Fs.Ext4

/-! Reading a file of an ext4 volume: whole blocks that follow each other on the disk are read at once. The
mapping of logical to physical blocks is any function. -/

namespace Sic.Fs.Ext4

def isize (inode : Nat → U8) : Nat := leGet inode 0x04 4 + leGet inode 0x6c 4 * 2 ^ 32

inductive Piece where
  | hole (n : Nat)
  | run (pb : U64) (r : Nat)
  | part (pb : U64) (i n : Nat)
deriving DecidableEq

namespace Geom

variable (fs : Geom) (d : Disk) (map : Nat → U64) (pos len : Nat)

def extendRun (done lb : Nat) (pb : U64) : Nat → Nat → Nat
  | 0, r => r
  | fuel + 1, r =>
    if done + (r + 1) * fs.bs ≤ len ∧ r < 256 ∧
      map (lb + r) = pb + .ofNat 64 r then extendRun done lb pb fuel (r + 1)
    else r

def nextPiece (done : Nat) : Piece :=
  let lb := (pos + done) / fs.bs
  let i := (pos + done) % fs.bs
  let chunk := min (fs.bs - i) (len - done)
  let pb := map lb
  if pb = 0 then .hole chunk
  else if i = 0 ∧ chunk = fs.bs then .run pb (fs.extendRun map len done lb pb 256 1)
  else .part pb i chunk

def nextBlock (done : Nat) : Piece :=
  let lb := (pos + done) / fs.bs
  let i := (pos + done) % fs.bs
  let chunk := min (fs.bs - i) (len - done)
  let pb := map lb
  if pb = 0 then .hole chunk else .part pb i chunk

def readPiece : Piece → Option Bytes
  | .hole n => some (List.replicate n 0)
  | .run pb r =>
    let got := d.readBytes (pb.toNat * fs.bs % 2 ^ 64) (r * fs.bs)
    if got.length = r * fs.bs then some got else none
  | .part pb i n => (fs.bread d pb.toNat).map fun blk => Disk.bytes n fun j => blk (i + j)

def readLoop (next : Nat → Piece) : Nat → Nat → Bytes
  | 0, _ => []
  | fuel + 1, done =>
    if done < len then
      match fs.readPiece d (next done) with
      | none => []
      | some got => got ++ readLoop next fuel (done + got.length)
    else []

def pieces (next : Nat → Piece) : Nat → Nat → List Piece
  | 0, _ => []
  | fuel + 1, done =>
    if done < len then
      next done ::
        match fs.readPiece d (next done) with
        | none => []
        | some got => pieces next fuel (done + got.length)
    else []

end Geom

def readWith (fs : Ext4) (d : Disk) (loop : (Nat → U8) → Nat → Bytes) (node : Option Nat) (pos len : Nat) :
    Except Fault (Option Bytes) :=
  match node with
  | none => .ok (some [])
  | some ino => do
    match ← fs.iread d ino with
    | none => .ok none
    | some inode =>
      let size := isize inode
      if size ≤ pos then .ok (some [])
      else
        let len := min len (size - pos)
        if (leGet inode 0x20 4).testBit 28 then
          .ok (some (Disk.bytes (if 60 < pos + len then 60 - pos else len) fun k => inode (0x28 + pos + k)))
        else
          let got := loop inode len
          .ok (if got = [] then none else some got)

def ext4Read (fs : Ext4) (d : Disk) (bmap : (Nat → U8) → Nat → U64) (node : Option Nat) (pos len : Nat) :
    Except Fault (Option Bytes) :=
  fs.readWith d (fun inode len => fs.readLoop d len (fs.nextPiece (bmap inode) pos len) len 0) node pos len

def readByBlock (fs : Ext4) (d : Disk) (bmap : (Nat → U8) → Nat → U64) (node : Option Nat) (pos len : Nat) :
    Except Fault (Option Bytes) :=
  fs.readWith d (fun inode len => fs.readLoop d len (fs.nextBlock (bmap inode) pos len) len 0) node pos len

def issued (fs : Ext4) (d : Disk) (bmap : (Nat → U8) → Nat → U64) (node : Option Nat) (pos len : Nat) :
    List Piece :=
  match node with
  | none => []
  | some ino =>
    match fs.iread d ino with
    | .ok (some inode) =>
      if isize inode ≤ pos ∨ (leGet inode 0x20 4).testBit 28 then []
      else
        let len := min len (isize inode - pos)
        fs.pieces d len (fs.nextPiece (bmap inode) pos len) len 0
    | _ => []

/-- A run that can be read lies inside the volume, and of one that cannot be the first block cannot be either. -/
def Geom.Agrees (fs : Geom) (d : Disk) : Piece → Prop
  | .run pb r =>
    if (fs.readPiece d (.run pb r)).isSome then pb.toNat + r ≤ fs.blocks else fs.bread d pb.toNat = none
  | _ => True

namespace Geom

variable {fs : Geom} {d : Disk} {map : Nat → U64} {pos len : Nat}

variable {done r fuel : Nat} {pb : U64} {got : Bytes}

theorem extendRun_spec {lb : Nat} (fuel : Nat) (hr : 1 ≤ r) (hr' : r ≤ 256)
    (hlen : done + r * fs.bs ≤ len) (hmap : ∀ k, k < r → map (lb + k) = pb + .ofNat 64 k) :
    1 ≤ fs.extendRun map len done lb pb fuel r ∧ fs.extendRun map len done lb pb fuel r ≤ 256 ∧
      done + fs.extendRun map len done lb pb fuel r * fs.bs ≤ len ∧
      ∀ k, k < fs.extendRun map len done lb pb fuel r → map (lb + k) = pb + .ofNat 64 k := by
  induction fuel generalizing r with
  | zero => exact ⟨hr, hr', hlen, hmap⟩
  | succ fuel ih =>
    rw [extendRun]
    split
    next h =>
      refine ih (by omega) (by omega) h.1 fun k hk => ?_
      rcases Nat.lt_succ_iff_lt_or_eq.mp hk with hk | rfl
      · exact hmap k hk
      · exact h.2.2
    next => exact ⟨hr, hr', hlen, hmap⟩

theorem bytes_ofBytes (got : Bytes) : Disk.bytes got.length (fun j => ofBytes got (0 + j)) = got := by
  refine List.ext_getElem (by simp [Disk.bytes]) fun i h₁ h₂ => ?_
  simp only [Disk.bytes, ofBytes, List.getElem_map, List.getElem_range, Nat.zero_add]
  exact List.getD_eq_getElem _ _ h₂

theorem bread_eq (h : fs.Usable) {b : Nat} (hb : 0 < b) (hlt : b < fs.blocks) :
    fs.bread d b = (d.get (b * fs.bs % 2 ^ 64) fs.bs).map ofBytes := by
  have hbs := h.bs_le
  rw [bread, if_neg (by omega), ← Disk.readBytes_whole (by omega) h.bs_pos]
  simp only
  split <;> rfl

theorem bread_past {b : Nat} (h : fs.blocks ≤ b) : fs.bread d b = none := if_pos (.inr h)

theorem readPiece_run (h : fs.Usable) (d : Disk) (pb : U64) (hr : 1 ≤ r) (hr' : r ≤ 256) :
    fs.readPiece d (.run pb r) = d.get (pb.toNat * fs.bs % 2 ^ 64) (r * fs.bs) := by
  have hle : r * fs.bs ≤ 256 * 65536 := Nat.mul_le_mul hr' h.bs_le
  rw [readPiece, Disk.readBytes_whole (by omega) (Nat.mul_pos hr h.bs_pos)]

theorem nextBlock_ne_run (done : Nat) (pb : U64) (r : Nat) : fs.nextBlock map pos len done ≠ .run pb r := by
  rw [nextBlock]
  split <;> exact Piece.noConfusion

theorem nextBlock_length (h : fs.readPiece d (fs.nextBlock map pos len done) = some got) :
    got.length = min (fs.bs - (pos + done) % fs.bs) (len - done) := by
  rw [nextBlock] at h
  split at h
  next =>
    rw [readPiece] at h
    cases h
    exact List.length_replicate ..
  next =>
    rw [readPiece] at h
    obtain ⟨blk, -, rfl⟩ := Option.map_eq_some_iff.mp h
    simp [Disk.bytes]

/-- A round of the loop by runs is one of the loop by blocks, or a run of whole blocks. -/
theorem nextPiece_cases (fs : Geom) (map : Nat → U64) (pos : Nat) {len : Nat} (hlt : done < len) :
    fs.nextPiece map pos len done = fs.nextBlock map pos len done ∨
    ∃ r, fs.nextPiece map pos len done = .run (map ((pos + done) / fs.bs)) r ∧
      map ((pos + done) / fs.bs) ≠ 0 ∧ (pos + done) % fs.bs = 0 ∧ 1 ≤ r ∧ r ≤ 256 ∧ done + r * fs.bs ≤ len ∧
      ∀ k, k < r → map ((pos + done) / fs.bs + k) = map ((pos + done) / fs.bs) + .ofNat 64 k := by
  rw [nextPiece, nextBlock]
  by_cases hpb : map ((pos + done) / fs.bs) = 0
  · rw [if_pos hpb, if_pos hpb]
    exact .inl rfl
  rw [if_neg hpb, if_neg hpb]
  split
  next hwhole =>
    have hfirst : ∀ k, k < 1 → map ((pos + done) / fs.bs + k) = map ((pos + done) / fs.bs) + .ofNat 64 k := by
      intro k hk
      rw [Nat.lt_one_iff.mp hk]
      simp
    have hspec := extendRun_spec 256 (Nat.le_refl 1) (by decide) (show done + 1 * fs.bs ≤ len by omega) hfirst
    exact .inr ⟨_, rfl, hpb, hwhole.1, hspec⟩
  next => exact .inl rfl

theorem nextBlock_aligned (hal : (pos + done) % fs.bs = 0) (hle : done + fs.bs ≤ len)
    (hpb : map ((pos + done) / fs.bs) ≠ 0) :
    fs.nextBlock map pos len done = .part (map ((pos + done) / fs.bs)) 0 fs.bs := by
  rw [nextBlock]
  simp only [hal, if_neg hpb, Nat.sub_zero]
  rw [Nat.min_eq_left (by omega)]

theorem readLoop_run (hu : fs.Usable) {p : Nat} (hp : 0 < p) (hin : p + r ≤ fs.blocks)
    (hal : (pos + done) % fs.bs = 0) (hmap : ∀ k, k < r → (map ((pos + done) / fs.bs + k)).toNat = p + k)
    (hlen : done + r * fs.bs ≤ len) (hget : d.get (p * fs.bs % 2 ^ 64) (r * fs.bs) = some got) (hf : r ≤ fuel) :
    fs.readLoop d len (fs.nextBlock map pos len) fuel done =
      got ++ fs.readLoop d len (fs.nextBlock map pos len) (fuel - r) (done + r * fs.bs) := by
  induction r generalizing p fuel done got with
  | zero =>
    rw [Nat.zero_mul] at hget
    cases hget
    rw [Nat.zero_mul]
    rfl
  | succ r ih =>
    have hpos := hu.bs_pos
    obtain ⟨fuel, rfl⟩ := Nat.exists_eq_add_of_lt (Nat.lt_of_lt_of_le (Nat.succ_pos r) hf)
    rw [Nat.succ_mul, Nat.add_comm (r * fs.bs)] at hget hlen ⊢
    rw [Disk.get_add] at hget
    obtain ⟨first, hfirst, hget⟩ := Option.bind_eq_some_iff.mp hget
    obtain ⟨rest, hrest, rfl⟩ := Option.map_eq_some_iff.mp hget
    have h0 := hmap 0 (Nat.succ_pos r)
    rw [Nat.add_zero, Nat.add_zero] at h0
    have hpb : map ((pos + done) / fs.bs) ≠ 0 := by
      intro hc
      rw [hc] at h0
      exact absurd h0 (Nat.ne_of_lt hp)
    have hflen := d.get_length hfirst
    have hpiece : fs.readPiece d (fs.nextBlock map pos len done) = some first := by
      rw [nextBlock_aligned hal (by omega) hpb, readPiece, h0, bread_eq hu hp (by omega), hfirst]
      simp only [Option.map_some]
      rw [← hflen, bytes_ofBytes]
    have hnext : d.get ((p + 1) * fs.bs % 2 ^ 64) (r * fs.bs) = some rest := by
      rcases Nat.eq_zero_or_pos (r * fs.bs) with hz | hz
      · rw [hz] at hrest ⊢
        exact hrest
      have hin64 : p * fs.bs % 2 ^ 64 + fs.bs + r * fs.bs ≤ d.sectors * d.sectorSize := by
        refine Nat.le_of_not_lt fun hlt => ?_
        rw [d.get_past hlt hz] at hrest
        cases hrest
      have h64 := d.addressable
      rw [Nat.succ_mul, Nat.add_mod, Nat.mod_eq_of_lt (show fs.bs < 2 ^ 64 by omega), Nat.mod_eq_of_lt (by omega)]
      exact hrest
    have hal' : (pos + (done + fs.bs)) % fs.bs = 0 := by rw [← Nat.add_assoc, Nat.add_mod_right, hal]
    have hdiv : (pos + (done + fs.bs)) / fs.bs = (pos + done) / fs.bs + 1 := by
      rw [← Nat.add_assoc, Nat.add_div_right _ hpos]
    have htail : fs.readLoop d len (fs.nextBlock map pos len) fuel (done + fs.bs) =
        rest ++ fs.readLoop d len (fs.nextBlock map pos len) (fuel - r) (done + fs.bs + r * fs.bs) :=
      ih (p := p + 1) (Nat.succ_pos p) (by omega) hal' (fun k hk => by
        rw [hdiv, Nat.add_assoc, Nat.add_comm 1 k, hmap (k + 1) (by omega)]
        omega)
      (by omega) hnext (by omega)
    rw [Nat.zero_add, readLoop, if_pos (by omega), hpiece]
    simp only
    rw [hflen, htail, List.append_assoc, Nat.add_assoc, show fuel + 1 - (r + 1) = fuel - r by omega]

theorem readLoop_done (next : Nat → Piece) (h : len ≤ done) : fs.readLoop d len next fuel done = [] := by
  cases fuel with
  | zero => rfl
  | succ fuel => exact if_neg (by omega)

theorem readLoop_stop {next : Nat → Piece} (h : fs.readPiece d (next done) = none) :
    fs.readLoop d len next fuel done = [] := by
  cases fuel with
  | zero => rfl
  | succ fuel =>
    rw [readLoop, h]
    split <;> rfl

theorem toNat_run (h : pb.toNat + r < 2 ^ 64) {k : Nat} (hk : k ≤ r) :
    (pb + BitVec.ofNat 64 k).toNat = pb.toNat + k := by
  rw [BitVec.toNat_add, BitVec.toNat_ofNat, Nat.mod_eq_of_lt (show k < 2 ^ 64 by omega),
    Nat.mod_eq_of_lt (by omega)]

theorem readLoop_run_past (fuel : Nat) (hu : fs.Usable)
    (hr : 1 ≤ r) (h0 : pb ≠ 0) (hal : (pos + done) % fs.bs = 0)
    (hmap : ∀ k, k < r → map ((pos + done) / fs.bs + k) = pb + .ofNat 64 k) (hlen : done + r * fs.bs ≤ len)
    (hget : d.get (pb.toNat * fs.bs % 2 ^ 64) (r * fs.bs) = some got) (hf : r ≤ fuel)
    (hout : fs.blocks < pb.toNat + r) :
    (fs.readLoop d len (fs.nextBlock map pos len) fuel done).length < r * fs.bs := by
  have hpos := hu.bs_pos
  have h64 := hu.blocks_lt
  have hpb64 := pb.isLt
  have hp : 0 < pb.toNat := Nat.pos_of_ne_zero fun hc => h0 (BitVec.eq_of_toNat_eq hc)
  generalize hin : fs.blocks - pb.toNat = m
  have hmr : m < r := by omega
  have hmul : (m + 1) * fs.bs ≤ r * fs.bs := Nat.mul_le_mul_right _ hmr
  rw [Nat.succ_mul] at hmul
  rw [show r * fs.bs = m * fs.bs + (r * fs.bs - m * fs.bs) by omega, Disk.get_add] at hget
  obtain ⟨first, hfirst, -⟩ := Option.bind_eq_some_iff.mp hget
  have hnum : ∀ k, k ≤ m → (pb + BitVec.ofNat 64 k).toNat = pb.toNat + k :=
    fun k hk => toNat_run (r := m) (by omega) hk
  have hblocks : fs.readLoop d len (fs.nextBlock map pos len) fuel done =
      first ++ fs.readLoop d len (fs.nextBlock map pos len) (fuel - m) (done + m * fs.bs) := by
    rcases Nat.eq_zero_or_pos m with hz | hz
    · rw [hz, Nat.zero_mul] at hfirst ⊢
      cases hfirst
      rfl
    · exact readLoop_run hu hp (by omega) hal (fun k hk => by rw [hmap k (by omega), hnum k (by omega)])
        (by omega)
        hfirst (by omega)
  have hal' : (pos + (done + m * fs.bs)) % fs.bs = 0 := by rw [← Nat.add_assoc, Nat.add_mul_mod_self_right, hal]
  have hdiv : (pos + (done + m * fs.bs)) / fs.bs = (pos + done) / fs.bs + m := by
    rw [← Nat.add_assoc, Nat.add_mul_div_right _ _ hpos]
  have hmapm : map ((pos + (done + m * fs.bs)) / fs.bs) = pb + .ofNat 64 m := by rw [hdiv, hmap m hmr]
  have hne : map ((pos + (done + m * fs.bs)) / fs.bs) ≠ 0 := by
    rw [hmapm]
    intro hc
    have := hnum m (Nat.le_refl m)
    rw [hc] at this
    exact absurd this (Nat.ne_of_lt (Nat.lt_of_lt_of_le hp (Nat.le_add_right _ _)))
  have hstop : fs.readPiece d (fs.nextBlock map pos len (done + m * fs.bs)) = none := by
    rw [nextBlock_aligned hal' (by omega) hne, readPiece, hmapm, hnum m (Nat.le_refl m), bread_past (by omega)]
    rfl
  rw [hblocks, readLoop_stop hstop, List.append_nil, d.get_length hfirst]
  omega

/-- The two loops read the same if and only if each run asked for agrees with its blocks. -/
theorem readLoop_eq_iff (hu : fs.Usable) {f : Nat} (f' : Nat) (hf : len ≤ done + f) (hf' : len ≤ done + f') :
    fs.readLoop d len (fs.nextPiece map pos len) f done = fs.readLoop d len (fs.nextBlock map pos len) f' done ↔
      ∀ p ∈ fs.pieces d len (fs.nextPiece map pos len) f done, fs.Agrees d p := by
  induction f generalizing done f' with
  | zero =>
    rw [readLoop_done _ (by omega), readLoop_done _ (by omega)]
    simp [pieces]
  | succ f ih =>
    by_cases hlt : done < len
    swap
    · rw [readLoop_done _ (by omega), readLoop_done _ (by omega), pieces, if_neg hlt]
      simp
    obtain ⟨g, rfl⟩ := Nat.exists_eq_add_of_lt (show 0 < f' by omega)
    have hpos := hu.bs_pos
    rw [readLoop, if_pos hlt, pieces, if_pos hlt]
    obtain hsame | ⟨r, hrun, hpb, hal, hr, hr', hlen, hmap⟩ := nextPiece_cases fs map pos hlt
    · have hagree : fs.Agrees d (fs.nextPiece map pos len done) := by
        rw [hsame]
        cases hp : fs.nextBlock map pos len done with
        | hole n => trivial
        | part pb i n => trivial
        | run pb r => exact absurd hp (nextBlock_ne_run done pb r)
      rw [Nat.zero_add, readLoop, if_pos hlt, ← hsame]
      cases hg : fs.readPiece d (fs.nextPiece map pos len done) with
      | none => simp [hagree]
      | some got =>
        have hgl := nextBlock_length (hsame ▸ hg)
        have hmod := Nat.mod_lt (pos + done) hpos
        simp only [List.append_cancel_left_eq, List.forall_mem_cons, hagree, true_and]
        exact ih _ (by omega) (by omega)
    · have hblock := nextBlock_aligned hal (show done + fs.bs ≤ len by
        have := Nat.mul_le_mul_right fs.bs hr
        omega) hpb
      rw [hrun]
      generalize hpbv : map ((pos + done) / fs.bs) = pb at *
      have hget := readPiece_run hu d pb hr hr'
      cases hg : fs.readPiece d (.run pb r) with
      | none =>
        simp only [List.forall_mem_cons, List.not_mem_nil, false_imp_iff, implies_true, and_true, Agrees, hg,
          Option.isSome_none, Bool.false_eq_true, if_false]
        rw [Nat.zero_add, readLoop, if_pos hlt, hblock, readPiece]
        cases hb : fs.bread d pb.toNat with
        | none => simp
        | some blk =>
          have hne : ∀ b, Disk.bytes fs.bs b ≠ [] := by
            intro b
            rw [← List.length_pos_iff, Disk.bytes, List.length_map, List.length_range]
            exact hpos
          simp [hne]
      | some got =>
        rw [hg] at hget
        have hgl := d.get_length hget.symm
        have hrpos : r ≤ r * fs.bs := Nat.le_mul_of_pos_right r hpos
        simp only [List.forall_mem_cons, Agrees, hg, Option.isSome_some, if_true]
        by_cases hin : pb.toNat + r ≤ fs.blocks
        · have h64 := hu.blocks_lt
          have hp : 0 < pb.toNat := Nat.pos_of_ne_zero fun hc => hpb (BitVec.eq_of_toNat_eq hc)
          rw [readLoop_run hu hp hin hal
            (fun k hk => by rw [hmap k hk, toNat_run (r := r) (by omega) (by omega)]) hlen hget.symm (by omega)]
          simp only [List.append_cancel_left_eq, hin, true_and, hgl]
          exact ih _ (by omega) (by omega)
        · have hshort := readLoop_run_past (0 + g + 1) hu hr hpb hal hmap hlen hget.symm (by omega) (by omega)
          constructor
          · intro heq
            rw [← heq, List.length_append] at hshort
            omega
          · intro h
            exact absurd h.1 hin

end Geom

/-- The read by runs is the read by blocks if and only if every run that is asked for lies inside the volume
where the disk can read it, and where it cannot, already the run's first block cannot be read. -/
theorem ext4Read_eq_iff (fs : Ext4) (hu : fs.Usable) (d : Disk) (bmap : (Nat → U8) → Nat → U64)
    (node : Option Nat)
    (pos len : Nat) :
    fs.ext4Read d bmap node pos len = fs.readByBlock d bmap node pos len ↔
      ∀ p ∈ fs.issued d bmap node pos len, fs.Agrees d p := by
  rw [ext4Read, readByBlock]
  cases node with
  | none => simp [readWith, issued]
  | some ino =>
    simp only [readWith, issued, bind, Except.bind]
    cases fs.iread d ino with
    | error f => simp
    | ok o =>
      cases o with
      | none => simp
      | some inode =>
        simp only
        by_cases hsize : isize inode ≤ pos
        · simp [hsize]
        rw [if_neg hsize, if_neg hsize]
        cases hinline : (leGet inode 0x20 4).testBit 28 with
        | true => simp
        | false =>
          simp only [hsize, Bool.false_eq_true, or_self, if_false]
          rw [← Geom.readLoop_eq_iff hu (min len (isize inode - pos)) (Nat.le_of_eq (Nat.zero_add _).symm)
            (Nat.le_of_eq (Nat.zero_add _).symm)]
          generalize fs.readLoop d _ (fs.nextPiece _ pos _) _ 0 = fast
          generalize fs.readLoop d _ (fs.nextBlock _ pos _) _ 0 = slow
          constructor
          · intro h
            split at h
            next hf =>
              split at h
              next hs => rw [hf, hs]
              next => cases h
            next =>
              split at h
              next => cases h
              next =>
                cases h
                rfl
          · intro h
            rw [h]

/-- A block past the end of the volume, which only the read by runs reads; and four blocks in a row of which the
last is past the end of the disk, where the read by runs gives none of them. -/
theorem ext4Read_differs :
    let read := fun (fs : Ext4) d map =>
      (fs.ext4Read d (fun _ => map) (some 2) 0 4096).toOption.join.map List.length
    let byBlock := fun (fs : Ext4) d map =>
      (fs.readByBlock d (fun _ => map) (some 2) 0 4096).toOption.join.map List.length
    let d := fun blocks => sampleDisk (sampleSb 16 blocks 0 0)
    ((mount (d 6) false false).toOption.join.map fun fs =>
        (read fs (d 6) fun lb => .ofNat 64 (if lb = 0 then 7 else 0),
          byBlock fs (d 6) fun lb => .ofNat 64 (if lb = 0 then 7 else 0))) = some (some 4096, none) ∧
      ((mount (d 20) false false).toOption.join.map fun fs =>
        (read fs (d 20) fun lb => .ofNat 64 (5 + lb), byBlock fs (d 20) fun lb => .ofNat 64 (5 + lb))) =
          some (none, some 3072) := by
  decide +kernel

theorem ext4Read_eq_sample :
    sampleFs.ext4Read (sampleDisk sampleFs.sb) (fun _ lb => .ofNat 64 (5 + lb)) (some 2) 0 2048 =
      sampleFs.readByBlock (sampleDisk sampleFs.sb) (fun _ lb => .ofNat 64 (5 + lb)) (some 2) 0 2048 := by
  refine (ext4Read_eq_iff sampleFs sampleFs_usable (sampleDisk sampleFs.sb) (fun _ lb => .ofNat 64 (5 + lb))
    (some 2) 0 2048).mpr ?_
  have hone : sampleFs.issued (sampleDisk sampleFs.sb) (fun _ lb => .ofNat 64 (5 + lb)) (some 2) 0 2048 =
    [.run 5 2] := by
    decide +kernel
  have hread : (sampleFs.readPiece (sampleDisk sampleFs.sb) (.run 5 2)).isSome = true := by decide +kernel
  have hin : (5 : U64).toNat + 2 ≤ sampleFs.blocks := by decide +kernel
  intro p hp
  rw [hone, List.mem_singleton] at hp
  rw [hp, Geom.Agrees, if_pos hread]
  exact hin

end Sic.Fs.Ext4
