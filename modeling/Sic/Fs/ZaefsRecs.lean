import Sic.Fs.ZaefsDir

/-! The records of a zaefs directory block, and how writing to the block changes them. -/

namespace Sic.Fs

variable {b b' : Block} {off : Nat} {rs : List Rec} {name : EntName}

theorem name_length (b : Block) (off : Nat) : (recAt b off).name.length = (b (off + 6)).toNat := by simp [recAt]

theorem recAt_congr (h : ∀ k, off ≤ k → k < off + 8 + (recAt b off).name.length → b' k = b k) :
    recAt b' off = recAt b off := by
  have hlen : b' (off + 6) = b (off + 6) := h _ (by omega) (by omega)
  have htype : b' (off + 7) = b (off + 7) := h _ (by omega) (by omega)
  have hino : leGet b' off 4 = leGet b off 4 := leGet_congr fun k h₁ h₂ => h k h₁ (by omega)
  have hrec : leGet b' (off + 4) 2 = leGet b (off + 4) 2 := leGet_congr fun k h₁ h₂ => h k (by omega) (by omega)
  have hname : ∀ k ∈ List.range (b (off + 6)).toNat, b' (off + 8 + k) = b (off + 8 + k) := by
    intro k hk
    rw [List.mem_range, ← name_length] at hk
    exact h _ (by omega) (by omega)
  rw [recAt, recAt, hlen, htype, hino, hrec, List.map_congr_left hname]

/-! ### Removing -/

theorem recAt_free (b : Block) (off : Nat) : recAt (lePut b off 4 0) off = { recAt b off with ino := 0 } := by
  have hb : ∀ k, off + 4 ≤ k → lePut b off 4 0 k = b k := fun k hk => if_neg (by omega)
  have hino : leGet (lePut b off 4 0) off 4 = 0 := by rw [leGet_lePut]; rfl
  have hrec : leGet (lePut b off 4 0) (off + 4) 2 = leGet b (off + 4) 2 := leGet_congr fun k h₁ _ => hb k h₁
  rw [recAt, recAt, hino, hrec, hb (off + 6) (by omega), hb (off + 7) (by omega)]
  congr 1
  exact List.map_congr_left fun k _ => hb _ (by omega)

/-! ### Adding -/

variable {ino k : Nat} {type : U8}

theorem putEntry_head (h : k < off + 8) : putEntry b off ino name type k =
    Function.update (Function.update (lePut b off 4 ino) (off + 6) (BitVec.ofNat 8 name.length))
      (off + 7) type k :=
  if_neg (by omega)

theorem putEntry_name (h : k < name.length) : putEntry b off ino name type (off + 8 + k) = name[k] := by
  have hat : putEntry b off ino name type (off + 8 + k) = name.getD (off + 8 + k - (off + 8)) 0 :=
    if_pos (by omega)
  rw [hat, Nat.add_sub_cancel_left, List.getD_eq_getElem?_getD, List.getElem?_eq_getElem h, Option.getD_some]

theorem putEntry_of_apart (h : k < off ∨ off + 8 + name.length ≤ k) : putEntry b off ino name type k = b k := by
  have hat : putEntry b off ino name type k = Function.update
      (Function.update (lePut b off 4 ino) (off + 6) (BitVec.ofNat 8 name.length)) (off + 7) type k :=
        if_neg (by omega)
  rw [hat, Function.update_of_ne (by omega), Function.update_of_ne (by omega), lePut, if_neg (by omega)]

theorem recAt_putEntry (b : Block) (off : Nat) (type : U8) (hname : name.length < 256) (hino : ino < 2 ^ 32) :
    recAt (putEntry b off ino name type) off = ⟨leGet b (off + 4) 2, ino, name, type⟩ := by
  have h₁ : leGet (putEntry b off ino name type) off 4 = ino := by
    have hput : leGet (lePut b off 4 ino) off 4 = ino := by
      rw [leGet_lePut]
      exact Nat.mod_eq_of_lt hino
    refine (leGet_congr fun k h₁ h₂ => ?_).trans hput
    rw [putEntry_head (by omega), Function.update_of_ne (by omega), Function.update_of_ne (by omega)]
  have h₂ : leGet (putEntry b off ino name type) (off + 4) 2 = leGet b (off + 4) 2 := by
    refine leGet_congr fun k h₁ h₂ => ?_
    rw [putEntry_head (by omega), Function.update_of_ne (by omega), Function.update_of_ne (by omega), lePut,
      if_neg (by omega)]
  have h₃ : (putEntry b off ino name type (off + 6)).toNat = name.length := by
    rw [putEntry_head (by omega), Function.update_of_ne (by omega), Function.update_self, BitVec.toNat_ofNat]
    exact Nat.mod_eq_of_lt hname
  have h₄ : putEntry b off ino name type (off + 7) = type := by
    rw [putEntry_head (by omega), Function.update_self]
  rw [recAt, h₁, h₂, h₃, h₄]
  congr 1
  refine List.ext_getElem (by simp) fun k hk hk' => ?_
  rw [List.getElem_map, List.getElem_range, putEntry_name hk']

end Sic.Fs
