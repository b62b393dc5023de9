import Mathlib.Data.List.Range
import Sic.Fs.FatRun

/-! Writing behind the end of a file: what the bytes between the old end and the new data read as. -/

namespace Sic.Fs.Fat

variable {g : Geo} {s s' : State} {c p left : Nat} {l ns : List Nat}

def byteAt (g : Geo) (s : State) (l : List Nat) (p : Nat) : U8 :=
  s.io.dev (clusterSector g (l.getD (p / g.clusterSize) 0) + p % g.clusterSize / g.sectorSize) (inSector g p)

theorem byteAt_congr (hv : Volume g)
    (h : ∀ a, InCluster g (l.getD (p / g.clusterSize) 0) a → s'.io.dev a = s.io.dev a) :
    byteAt g s' l p = byteAt g s l p := by
  have hq := (hv.place p).1
  rw [byteAt, byteAt, h]
  generalize p % g.clusterSize / g.sectorSize = q at *
  exact ⟨by omega, by omega⟩

theorem byteAt_append (h : p / g.clusterSize < l.length) : byteAt g s (l ++ ns) p = byteAt g s l p := by
  rw [byteAt, byteAt, List.getD_append _ _ _ _ h]

theorem Volume.small (hv : Volume g) (hp : p < 2 ^ 32 * g.clusterSize) :
    p % 2 ^ 64 = p ∧ p / g.clusterSize % 2 ^ 32 = p / g.clusterSize := by
  have hcs := hv.clusterSize_lt
  have hmul : 2 ^ 32 * g.clusterSize ≤ 2 ^ 32 * 2 ^ 32 := Nat.mul_le_mul_left _ (Nat.le_of_lt hcs)
  refine ⟨Nat.mod_eq_of_lt (by omega), Nat.mod_eq_of_lt ?_⟩
  exact (Nat.div_lt_iff_lt_mul hv.clusterSize_pos).mpr hp

theorem Volume.chain_small (hv : Volume g) {F : Nat → Nat} (hl : Chain g F l) :
    l.length * g.clusterSize < 2 ^ 32 * g.clusterSize := by
  have hle := hl.length_le
  have hlt := hv.clusters_lt
  exact Nat.mul_lt_mul_of_pos_right (by omega) hv.clusterSize_pos

theorem moved_end (hv : Volume g) {n : Nat} (h : p / g.clusterSize < n) :
    p + moved g p left ≤ n * g.clusterSize := by
  have hroom := moved_room hv p left
  have hp := Nat.div_add_mod p g.clusterSize
  have hmul := Nat.mul_le_mul_right g.clusterSize h
  rw [Nat.succ_mul, Nat.mul_comm] at hmul
  omega

theorem writeAt_before (hv : Volume g) {F : Nat → Nat} (hl : Chain g F l) {q : Nat} {data : Nat → U8}
    (hp : p / g.clusterSize < l.length) (hq : q / g.clusterSize < l.length) (hqp : q < p) :
    byteAt g (writeAt g s (l.getD (p / g.clusterSize) 0) p left data) l q = byteAt g s l q := by
  have hcr : InRange g (l.getD (p / g.clusterSize) 0) := by
    rw [List.getD_eq_getElem _ _ hp]
    exact hl.range _ (List.getElem_mem hp)
  by_cases he : q / g.clusterSize = p / g.clusterSize
  · obtain ⟨-, hin, hplace⟩ := hv.place q
    have hlt : q % g.clusterSize < p % g.clusterSize := by
      have h1 := Nat.div_add_mod q g.clusterSize
      have h2 := Nat.div_add_mod p g.clusterSize
      rw [he] at h1
      omega
    rw [byteAt, byteAt, he, writeAt_bytes hv hcr hin, ← hplace, if_neg (by omega)]
  · refine byteAt_congr hv fun a ha => writeAt_other hv hcr fun ha' => he ?_
    have hqr : InRange g (l.getD (q / g.clusterSize) 0) := by
      rw [List.getD_eq_getElem _ _ hq]
      exact hl.range _ (List.getElem_mem hq)
    have hsame := InCluster.unique hv hqr hcr ha ha'
    rw [List.getD_eq_getElem _ _ hq, List.getD_eq_getElem _ _ hp] at hsame
    exact (List.Nodup.getElem_inj_iff hl.nodup).mp hsame

theorem Looked.before (hv : Volume g) {b : Bool} (h : Looked g s s' b l ns) (hp : p / g.clusterSize < l.length) :
    byteAt g s' (l ++ ns) p = byteAt g s l p := by
  rw [byteAt_append hp]
  have hmem : l.getD (p / g.clusterSize) 0 ∈ l := by
    rw [List.getD_eq_getElem _ _ hp]
    exact List.getElem_mem hp
  have hcr := h.chain.range _ (List.mem_append_left ns hmem)
  refine byteAt_congr hv fun a ha => h.kept a (ha.outside hv hcr) (.inr fun x hx ha' => ?_)
  obtain rfl := InCluster.unique hv hcr (h.chain.range x (List.mem_append_right l hx)) ha ha'
  exact (List.nodup_append.mp h.chain.nodup).2.2 _ hmem _ hx rfl

structure Rest (g : Geo) (pos d : Nat) (s s' : State) (fn' : Fnode) (l ns : List Nat) (done : Nat) : Prop
    extends Longer g s s' l ns where
  file : FileOk g s' fn' (l ++ ns)
  bytes : ∀ p, p < pos + d → p / g.clusterSize < l.length → byteAt g s' (l ++ ns) p = byteAt g s l p
  le : d ≤ done
  filled : pos + done ≤ (l ++ ns).length * g.clusterSize

theorem Rest.lookup (hv : Volume g) {pos d done : Nat} {buf : Bytes} {fn' : Fnode} {s₁ : State}
    (h : Rest g pos d s s₁ fn' l ns done) :
    let r := writeLookup g pos buf s₁ fn' done
    let ns' := reach g s₁ true ((pos + done) / g.clusterSize + 1 - (l ++ ns).length)
    Rest g pos d s r.1 r.2.1 l (ns ++ ns') done ∧
      r.2.2 = (l ++ (ns ++ ns')).getD ((pos + done) / g.clusterSize) 0 := by
  have hsmall := hv.chain_small h.chain
  obtain ⟨hmod, hidx⟩ := hv.small (show pos + done < 2 ^ 32 * g.clusterSize by have := h.filled; omega)
  have hspec := @writeLookup_spec g s₁ _ hv pos buf fn' done h.steady h.file
  simp only [hmod, hidx] at hspec
  obtain ⟨hlooked, hres, hf, -⟩ := hspec
  simp only [← List.append_assoc]
  refine ⟨⟨h.toLonger.trans hlooked.toLonger, ?_, fun p hp hpl => ?_, h.le, ?_⟩, hres⟩
  · rwa [← List.append_assoc]
  · rw [← List.append_assoc, hlooked.before hv (by rw [List.length_append]; omega), h.bytes p hp hpl]
  have hfilled := h.filled
  have hmul := Nat.mul_le_mul_right g.clusterSize
    (show (l ++ ns).length ≤ (l ++ (ns ++ reach g s₁ true
      ((pos + done) / g.clusterSize + 1 - (l ++ ns).length))).length by
      simp only [List.length_append]; omega)
  omega

theorem Rest.write (hv : Volume g) {pos d done c left : Nat} {data : Nat → U8} {fn' : Fnode} {s₁ : State}
    (h : Rest g pos d s s₁ fn' l ns done) (hc : c = (l ++ ns).getD ((pos + done) / g.clusterSize) 0)
    (hc0 : c ≠ 0) :
    Rest g pos d s (writeAt g s₁ c (pos + done) left data) fn' l ns (done + moved g (pos + done) left) := by
  have hin : (pos + done) / g.clusterSize < (l ++ ns).length := by
    by_contra hge
    rw [List.getD_eq_default _ _ (by omega)] at hc
    exact hc0 hc
  have hcr : InRange g c := h.chain.range c (hc ▸ getD_mem (hc ▸ hc0))
  have hw := h.steady.writeAt hv hcr (pos + done) left data
  have hend := @moved_end g _ left hv _ hin
  refine ⟨h.toLonger.congr rfl hw.1 hw.2, h.file.congr hw.2, fun p hp hpl => ?_, by have := h.le; omega, by omega⟩
  have hle := h.le
  rw [hc, writeAt_before hv h.chain hin (by rw [List.length_append]; omega) (by omega), h.bytes p hp hpl]

theorem Looked.new (hv : Volume g) {b : Bool} (h : Looked g s s' b l ns) (hl : l.length ≤ p / g.clusterSize)
    (hp : p / g.clusterSize < (l ++ ns).length) :
    byteAt g s' (l ++ ns) p = if b then byteAt g s (l ++ ns) p else 0 := by
  have hmem : (l ++ ns).getD (p / g.clusterSize) 0 ∈ ns := by
    rw [List.getD_append_right _ _ _ _ hl]
    rw [List.length_append] at hp
    rw [List.getD_eq_getElem _ _ (by omega)]
    exact List.getElem_mem _
  have hcr := h.chain.range _ (List.mem_append_right l hmem)
  cases b with
  | true => exact byteAt_congr hv fun a ha => h.kept a (ha.outside hv hcr) (.inl rfl)
  | false =>
    have hq := (hv.place p).1
    rw [byteAt, h.zeroed rfl _ hmem]
    · rfl
    · generalize p % g.clusterSize / g.sectorSize = q at *
      exact ⟨by omega, by omega⟩

end Sic.Fs.Fat
