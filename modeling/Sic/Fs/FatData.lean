import Sic.Fs.FatFile
import Sic.Fs.FatWalk

/-! The data of a file in its clusters: what one transfer reads and writes. -/

namespace Sic.Fs.Fat

variable {g : Geo} {s : State} {c p left : Nat}

theorem Volume.clusterSize_pos (hv : Volume g) : 0 < g.clusterSize := Nat.mul_pos hv.spc_pos hv.sectorSize_pos

theorem Volume.place (hv : Volume g) (p : Nat) :
    p % g.clusterSize / g.sectorSize < g.sectorsPerCluster ∧ inSector g p < g.sectorSize ∧
      p % g.clusterSize = p % g.clusterSize / g.sectorSize * g.sectorSize + inSector g p := by
  have hlt := Nat.mod_lt p hv.clusterSize_pos
  refine ⟨(Nat.div_lt_iff_lt_mul hv.sectorSize_pos).mpr hlt, Nat.mod_lt _ hv.sectorSize_pos, ?_⟩
  rw [inSector, Nat.mul_comm, Nat.div_add_mod]

theorem Volume.sectorAt_eq (hv : Volume g) (hc : InRange g c) (p : Nat) :
    sectorAt g c p = clusterSector g c + p % g.clusterSize / g.sectorSize := by
  have h := (hv.clusterSector_eq hc).2
  have hroom := hv.data_room
  have hq := (hv.place p).1
  rw [sectorAt, Nat.mod_eq_of_lt (by omega)]

theorem chunk_eq : chunk g p left = min (g.sectorSize - inSector g p) left := rfl

theorem wholeSectors_spec (hv : Volume g) (h : wholeSectors g p left ≠ 0) :
    inSector g p = 0 ∧ wholeSectors g p left * g.sectorSize ≤ left ∧
      p % g.clusterSize / g.sectorSize + wholeSectors g p left ≤ g.sectorsPerCluster := by
  have hin : inSector g p = 0 := by
    by_contra hne
    exact h (if_pos hne)
  have he : wholeSectors g p left = min ((g.clusterSize - p % g.clusterSize) / g.sectorSize)
    (left / g.sectorSize) :=
    if_neg (not_not.mpr hin)
  obtain ⟨hq, -, hplace⟩ := hv.place p
  have hfirst : (g.clusterSize - p % g.clusterSize) / g.sectorSize =
      g.sectorsPerCluster - p % g.clusterSize / g.sectorSize := by
    rw [hplace, hin, Nat.add_zero, Geo.clusterSize, ← Nat.sub_mul, Nat.mul_div_cancel _ hv.sectorSize_pos,
      Nat.mul_div_cancel _ hv.sectorSize_pos]
  have hleft := Nat.mul_le_mul_right g.sectorSize
    (he ▸ Nat.min_le_right _ _ : wholeSectors g p left ≤ left / g.sectorSize)
  refine ⟨hin, Nat.le_trans hleft (Nat.div_mul_le_self left g.sectorSize), ?_⟩
  omega

theorem moved_room (hv : Volume g) (p left : Nat) : p % g.clusterSize + moved g p left ≤ g.clusterSize := by
  obtain ⟨hq, hin, hplace⟩ := hv.place p
  rw [moved, hplace]
  split
  next h =>
    obtain ⟨h0, -, hle⟩ := wholeSectors_spec hv h
    have hm := Nat.mul_le_mul_right g.sectorSize hle
    rw [Nat.add_mul] at hm
    rw [Geo.clusterSize, h0] at *
    omega
  next h =>
    have hm := Nat.mul_le_mul_right g.sectorSize hq
    rw [Nat.succ_mul] at hm
    rw [chunk_eq, Geo.clusterSize] at *
    omega

theorem writeAt_range (hv : Volume g) (hc : InRange g c) {k a : Nat}
    (hk : p % g.clusterSize / g.sectorSize + k ≤ g.sectorsPerCluster) (h1 : sectorAt g c p ≤ a)
    (h2 : a < sectorAt g c p + k) : InCluster g c a := by
  rw [hv.sectorAt_eq hc] at h1 h2
  generalize p % g.clusterSize / g.sectorSize = q at *
  exact ⟨by omega, by omega⟩

theorem writeAt_other (hv : Volume g) (hc : InRange g c) {data : Nat → U8} {a : Nat} (ha : ¬ InCluster g c a) :
    (writeAt g s c p left data).io.dev a = s.io.dev a := by
  rw [writeAt]
  split
  next h =>
    exact writeSectors_dev_out _ _ _ _ fun hin =>
      ha (writeAt_range hv hc (wholeSectors_spec hv h).2.2 hin.1 hin.2)
  next h => exact writeSectors_dev_out _ _ _ _ fun hin => ha (writeAt_range hv hc (hv.place p).1 hin.1 hin.2)

theorem writeAt_ready (hv : Volume g) (hc : InRange g c) (hr : Ready g s) (p left : Nat) (data : Nat → U8) :
    Ready g (writeAt g s c p left data) ∧ table g (writeAt g s c p left data) = table g s := by
  rw [writeAt]
  split
  next h =>
    exact writeSectors_left _ hv.toLayout hr fun a h1 h2 =>
      (writeAt_range hv hc (wholeSectors_spec hv h).2.2 h1 h2).outside hv hc
  next h =>
    exact writeSectors_left _ hv.toLayout hr fun a h1 h2 =>
      (writeAt_range hv hc (hv.place p).1 h1 h2).outside hv hc

theorem mul_le_place {ss q r j : Nat} (hj : j < ss) : r * ss ≤ q * ss + j ↔ r ≤ q := by
  constructor
  · intro h
    by_contra hlt
    have hm := Nat.mul_le_mul_right ss (show q + 1 ≤ r by omega)
    rw [Nat.succ_mul] at hm
    omega
  · intro h
    have := Nat.mul_le_mul_right ss h
    omega

theorem writeAt_bytes (hv : Volume g) (hc : InRange g c) {data : Nat → U8} {q j : Nat}
    (hj : j < g.sectorSize) :
    (writeAt g s c p left data).io.dev (clusterSector g c + q) j =
      if p % g.clusterSize ≤ q * g.sectorSize + j ∧ q * g.sectorSize + j < p % g.clusterSize + moved g p left then
        data (q * g.sectorSize + j - p % g.clusterSize)
      else s.io.dev (clusterSector g c + q) j := by
  obtain ⟨hq0, hin, hplace⟩ := hv.place p
  have hsec := hv.sectorAt_eq hc p
  rw [writeAt, moved]
  generalize p % g.clusterSize / g.sectorSize = r at *
  split
  next h =>
    obtain ⟨h0, -, -⟩ := wholeSectors_spec hv h
    generalize wholeSectors g p left = k at *
    rw [hplace, h0, Nat.add_zero, ← Nat.add_mul]
    have hlow : r * g.sectorSize ≤ q * g.sectorSize + j ↔ r ≤ q := mul_le_place hj
    have hhigh : (r + k) * g.sectorSize ≤ q * g.sectorSize + j ↔ r + k ≤ q := mul_le_place hj
    by_cases hq : r ≤ q ∧ ¬ r + k ≤ q
    · have hm := Nat.mul_le_mul_right g.sectorSize hq.1
      rw [writeSectors_dev_in _ _ _ _ (by omega), if_pos (by omega), hsec, Nat.add_sub_add_left, Nat.sub_mul]
      congr 1
      omega
    · rw [writeSectors_dev_out _ _ _ _ (by omega), if_neg (by omega)]
  next h =>
    rw [hplace, readSector, hsec]
    by_cases hq : q = r
    · subst hq
      rw [writeSectors_dev_in _ _ _ _ (by omega)]
      by_cases hb : inSector g p ≤ j ∧ j < inSector g p + chunk g p left
      · rw [if_pos hb, if_pos (by omega)]
        congr 1
        omega
      · rw [if_neg hb, if_neg (by omega)]
    · have hchunk : chunk g p left ≤ g.sectorSize - inSector g p := Nat.min_le_left _ _
      have hle : (r + 1) * g.sectorSize ≤ q * g.sectorSize + j ↔ r + 1 ≤ q := mul_le_place hj
      have hge : r * g.sectorSize ≤ q * g.sectorSize + j ↔ r ≤ q := mul_le_place hj
      rw [Nat.succ_mul] at hle
      rw [writeSectors_dev_out _ _ _ _ (by omega), if_neg (by omega)]

end Sic.Fs.Fat
