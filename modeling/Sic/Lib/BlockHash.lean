import Sic.Lib.Word

/-! Hashing a message by blocks of 64 bytes: the whole message with its padding, and the same message as it
comes in pieces of any length through a buffer. -/

namespace Sic.BlockHash

/-- An iterated hash: its first value, its block function and the bytes of a value. -/
structure Alg (H : Type*) where
  iv : H
  block : H → List U8 → H
  bytes : H → List U8

variable {H : Type*} (A : Alg H)

def absorb : Nat → H → List U8 → H × List U8
  | 0, h, p => (h, p)
  | n + 1, h, p => absorb n (A.block h (p.take 64)) (p.drop 64)

theorem absorb_append {k : Nat} {a : List U8} (ha : a.length = 64 * k) (n : Nat) (h : H) (b : List U8) :
    absorb A (k + n) h (a ++ b) = absorb A n (absorb A k h a).1 b := by
  induction k generalizing a h with
  | zero => rw [List.length_eq_zero_iff.mp ha, Nat.zero_add, List.nil_append, absorb]
  | succ k ih =>
    rw [Nat.add_right_comm, absorb, absorb, List.take_append_of_le_length (by omega),
      List.drop_append_of_le_length (by omega)]
    exact ih (by rw [List.length_drop]; omega) _

theorem absorb_fst (n : Nat) (h : H) (p : List U8) : (absorb A n h p).1 =
    (List.range n).foldl (fun h i => A.block h ((p.drop (64 * i)).take 64)) h := by
  induction n generalizing h p with
  | zero => rfl
  | succ n ih =>
    rw [absorb, ih, List.range_succ_eq_map, List.foldl_cons, List.foldl_map]
    simp only [List.drop_drop, Nat.mul_succ, Nat.add_comm 64, Nat.mul_zero, List.drop_zero]

/-- A one bit, the zeros up to 8 bytes before a block's end, and the length in bits. -/
def padding (len : Nat) : List U8 :=
  0x80 :: List.replicate ((119 - len % 64) % 64) 0 ++ octets 8 (8 * len)

theorem padding_length (len : Nat) : (len + (padding len).length) % 64 = 0 := by
  have h : (padding len).length = (119 - len % 64) % 64 + 1 + 8 := by simp [padding, octets_length]
  omega

def digest (m : List U8) : List U8 :=
  let p := m ++ padding m.length
  A.bytes ((List.range (p.length / 64)).foldl (fun h i => A.block h ((p.drop (64 * i)).take 64)) A.iv)

/-! ### In pieces -/

structure Ctx (H : Type*) where
  h : H
  len : U64
  buf : Nat → U8

def load (buf : Nat → U8) (n : Nat) : List U8 := (List.range n).map buf

def store (buf : Nat → U8) (off : Nat) (bytes : List U8) : Nat → U8 :=
  fun i => if off ≤ i then bytes.getD (i - off) (buf i) else buf i

theorem load_store (buf : Nat → U8) (off : Nat) (bytes : List U8) :
    load (store buf off bytes) (off + bytes.length) = load buf off ++ bytes := by
  rw [load, List.range_add, List.map_append, load]
  congr 1
  · refine List.map_congr_left fun i hi => if_neg ?_
    exact Nat.not_le.mpr (List.mem_range.mp hi)
  · refine List.ext_getElem (by simp) fun i h₁ h₂ => ?_
    simp [store, h₂]

def be64 (x : U64) : List U8 := (List.range 8).map fun i => (x >>> (56 - 8 * i)).setWidth 8

theorem be64_ofNat (x : Nat) : be64 (BitVec.ofNat 64 x) = octets 8 x :=
  (map_shift_eq_octets 8 _).trans ((congrArg (octets 8) (BitVec.toNat_ofNat x 64)).trans (octets_mod 8 x))

def init (s : Ctx H) : Ctx H := { s with h := A.iv, len := 0 }

def updateBlocks (h : H) (len : U64) (buf : Nat → U8) (p : List U8) : Ctx H :=
  let r := absorb A (p.length / 64) h p
  ⟨r.1, len, store buf 0 r.2⟩

def update (s : Ctx H) (data : List U8) : Ctx H :=
  let held := (s.len % 64).toNat
  let len := s.len + BitVec.ofNat 64 data.length
  if held ≠ 0 then
    let n := min (64 - held) data.length
    let buf := store s.buf held (data.take n)
    if held + n < 64 then { s with len := len, buf := buf }
    else updateBlocks A (A.block s.h (load buf 64)) len buf (data.drop n)
  else updateBlocks A s.h len s.buf data

def final (s : Ctx H) : List U8 × Ctx H :=
  let bits := s.len * 8
  let held := (s.len % 64).toNat
  let n := (if held < 56 then 56 else 120) - held
  let s := update A s (0x80 :: List.replicate (n - 1) 0 ++ be64 bits)
  (A.bytes s.h, s)

/-- The context holds the message `m`: its whole blocks are absorbed and the rest is in the buffer. -/
structure Holds (s : Ctx H) (m : List U8) : Prop where
  split : ∃ k a r, m = a ++ r ∧ a.length = 64 * k ∧ r.length < 64 ∧ s.h = (absorb A k A.iv a).1 ∧
    load s.buf r.length = r
  len : s.len = BitVec.ofNat 64 m.length

variable {A}

theorem holds_init (s : Ctx H) : Holds A (init A s) [] := ⟨⟨0, [], [], rfl, rfl, by decide, rfl, rfl⟩, rfl⟩

theorem held_eq {len : U64} {n : Nat} (h : len = BitVec.ofNat 64 n) : (len % 64).toNat = n % 64 := by
  rw [h, BitVec.toNat_umod, BitVec.toNat_ofNat]
  exact Nat.mod_mod_of_dvd n (by decide)

theorem holds_updateBlocks {k : Nat} {a : List U8} (ha : a.length = 64 * k) {h : H}
    (hh : h = (absorb A k A.iv a).1)
    (buf : Nat → U8) (p : List U8) {len : U64} (hlen : len = BitVec.ofNat 64 (a ++ p).length) :
    Holds A (updateBlocks A h len buf p) (a ++ p) := by
  have hq : (p.take (64 * (p.length / 64))).length = 64 * (p.length / 64) := List.length_take_of_le (by omega)
  have habs : absorb A (p.length / 64) h p =
      ((absorb A (p.length / 64) h (p.take (64 * (p.length / 64)))).1, p.drop (64 * (p.length / 64))) := by
    have happ := absorb_append A hq 0 h (p.drop (64 * (p.length / 64)))
    rwa [List.take_append_drop, Nat.add_zero, absorb] at happ
  refine ⟨⟨k + p.length / 64, a ++ p.take (64 * (p.length / 64)), p.drop (64 * (p.length / 64)), ?_, ?_, ?_, ?_,
    ?_⟩, hlen⟩
  · rw [List.append_assoc, List.take_append_drop]
  · rw [List.length_append, ha, hq, Nat.mul_add]
  · rw [List.length_drop]
    omega
  · rw [absorb_append A ha, ← hh, updateBlocks, habs]
  rw [updateBlocks, habs]
  have hload := load_store buf 0 (p.drop (64 * (p.length / 64)))
  rwa [Nat.zero_add] at hload

theorem holds_update {s : Ctx H} {m : List U8} (hs : Holds A s m) (data : List U8) :
    Holds A (update A s data) (m ++ data) := by
  have hlen := hs.len
  obtain ⟨k, a, r, rfl, ha, hr, hh, hbuf⟩ := hs.split
  have hheld : (s.len % 64).toNat = r.length := by
    rw [held_eq hlen, List.length_append, ha]
    omega
  have hlen' : s.len + BitVec.ofNat 64 data.length = BitVec.ofNat 64 ((a ++ r) ++ data).length := by
    have happ : ((a ++ r) ++ data).length = (a ++ r).length + data.length := List.length_append
    rw [hlen, happ, BitVec.ofNat_add]
  rw [update]
  dsimp only
  rw [hheld]
  split
  · next hne =>
    have hstore := load_store s.buf r.length (data.take (min (64 - r.length) data.length))
    rw [hbuf] at hstore
    split
    · next hlt =>
      -- the piece does not fill the block
      have hall : min (64 - r.length) data.length = data.length := by omega
      rw [hall, List.take_length] at hstore
      refine ⟨⟨k, a, r ++ data, List.append_assoc .., ha, by rw [List.length_append]; omega, hh, ?_⟩, hlen'⟩
      rw [List.length_append]
      dsimp only
      rw [hall, List.take_length]
      exact hstore
    · next hge =>
      have hn : min (64 - r.length) data.length = 64 - r.length := by omega
      have htake : (data.take (64 - r.length)).length = 64 - r.length := List.length_take_of_le (by omega)
      rw [hn] at hstore ⊢
      rw [htake, Nat.add_sub_cancel' hr.le] at hstore
      have hblock : (a ++ (r ++ data.take (64 - r.length))).length = 64 * (k + 1) := by
        rw [List.length_append, List.length_append, htake]
        omega
      have hmsg : (a ++ r) ++ data = (a ++ (r ++ data.take (64 - r.length))) ++ data.drop (64 - r.length) := by
        simp only [List.append_assoc, List.take_append_drop]
      rw [hmsg] at hlen' ⊢
      refine holds_updateBlocks hblock ?_ _ _ hlen'
      have hlen64 : (r ++ data.take (64 - r.length)).length = 64 := by
        rw [List.length_append, htake]
        omega
      rw [absorb_append A ha, ← hh, hstore, absorb, absorb, List.take_of_length_le hlen64.le]
  · next heq =>
    have hnil : r = [] := List.length_eq_zero_iff.mp (Decidable.not_not.mp heq)
    subst hnil
    rw [List.append_nil] at hlen' ⊢
    exact holds_updateBlocks ha hh _ _ hlen'

theorem holds_foldl {s : Ctx H} {m : List U8} (hs : Holds A s m) (ds : List (List U8)) :
    Holds A (ds.foldl (update A) s) (m ++ ds.flatten) := by
  induction ds generalizing s m with
  | nil => rwa [List.flatten_nil, List.append_nil]
  | cons d ds ih =>
    rw [List.flatten_cons, ← List.append_assoc]
    exact ih (holds_update hs d)

theorem final_eq {s : Ctx H} {m : List U8} (hs : Holds A s m) : (final A s).1 = digest A m := by
  have hpad : (0x80 :: List.replicate
    ((if (s.len % 64).toNat < 56 then 56 else 120) - (s.len % 64).toNat - 1) 0 ++
      be64 (s.len * 8) : List U8) = padding m.length := by
    have hz : (if m.length % 64 < 56 then 56 else 120) - m.length % 64 - 1 = (119 - m.length % 64) % 64 := by
      split <;> omega
    have hbits : s.len * 8 = BitVec.ofNat 64 (8 * m.length) := by
      rw [hs.len, Nat.mul_comm, BitVec.ofNat_mul]
      rfl
    rw [held_eq hs.len, hz, hbits, be64_ofNat, padding]
  rw [final]
  dsimp only
  rw [hpad]
  obtain ⟨k, a, r, hm, ha, hr, hh, -⟩ := (holds_update hs (padding m.length)).split
  have hmod := padding_length m.length
  have hlen : (m ++ padding m.length).length = 64 * k + r.length := by rw [hm, List.length_append, ha]
  rw [List.length_append] at hlen
  have hnil : r = [] := List.length_eq_zero_iff.mp (by omega)
  rw [hnil, List.append_nil] at hm
  rw [hh, digest, hm, ha, Nat.mul_div_cancel_left k (by decide), absorb_fst]

/-- However a message is cut into pieces, what comes out is the digest of the whole. -/
theorem final_pieces (s : Ctx H) (ds : List (List U8)) :
    (final A (ds.foldl (update A) (init A s))).1 = digest A ds.flatten :=
  final_eq (holds_foldl (holds_init s) ds)

end Sic.BlockHash
