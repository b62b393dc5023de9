import Sic.Proc.MemSyscalls

/-! What the page loops do to the tables: they write the entries of the pages
they go over, one after the other. Whatever one such edit keeps, they keep. -/

namespace Sic.X86

def pageAt (virt : U64) (k : Nat) : U64 := virt + BitVec.ofNat 64 (4096 * k)

@[simp]
theorem pageAt_zero (virt : U64) : pageAt virt 0 = virt := by simp [pageAt]

theorem pageAt_succ (virt : U64) (k : Nat) : pageAt (virt + 4096#64) k = pageAt virt (k + 1) := by
  simp only [pageAt, Nat.mul_add, BitVec.ofNat_add, BitVec.add_assoc]
  rw [BitVec.add_comm 4096#64]

theorem toNat_pageAt (virt : U64) (k : Nat) :
    (pageAt virt k).toNat = (virt.toNat + 4096 * k) % 2 ^ 64 := by
  simp [pageAt, BitVec.toNat_add, BitVec.toNat_ofNat]

def Pages (virt : U64) (n : Nat) (v : U64) : Prop := ∃ k < n, v = pageAt virt k

theorem Pages.head (virt : U64) (n : Nat) : Pages virt (n + 1) virt := ⟨0, by omega, by simp⟩

theorem Pages.tail {virt v : U64} {n : Nat} (h : Pages (virt + 4096#64) n v) : Pages virt (n + 1) v := by
  obtain ⟨k, hk, rfl⟩ := h
  exact ⟨k + 1, by omega, pageAt_succ virt k⟩

inductive Edit (P : U64 → Prop) : Pml4 → Pml4 → Prop where
  | map {t t' : Pml4} {v : U64} {phys : Nat} {flags : Flags} {p p' : Pmm} {rc : Int} (hv : P v)
      (h : vmmMapUserPage t v phys flags p = some (t', p', rc)) : Edit P t t'
  | unmap {t : Pml4} {v : U64} (hv : P v) : Edit P t (vmmUnmapUserPage t v).1
  | protect {t : Pml4} {v : U64} {flags : Flags} (hv : P v) : Edit P t (vmmProtectUserPage t v flags).1

abbrev Edits (P : U64 → Prop) : Pml4 → Pml4 → Prop := Relation.ReflTransGen (Edit P)

variable {P Q : U64 → Prop} {t t' : Pml4} {p p' : Pmm} {virt prot flags off : U64} {n : Nat} {rc : Int}

theorem Edit.mono (h : Edit P t t') (hPQ : ∀ v, P v → Q v) : Edit Q t t' := by
  cases h with
  | map hv h => exact .map (hPQ _ hv) h
  | unmap hv => exact .unmap (hPQ _ hv)
  | protect hv => exact .protect (hPQ _ hv)

theorem Edits.mono (h : Edits P t t') (hPQ : ∀ v, P v → Q v) : Edits Q t t' := by
  induction h with
  | refl => exact .refl
  | tail _ he ih => exact ih.tail (he.mono hPQ)

theorem Edits.cons {t'' : Pml4} (h : Edit (Pages virt (n + 1)) t t')
    (h' : Edits (Pages (virt + 4096#64) n) t' t'') : Edits (Pages virt (n + 1)) t t'' :=
  .head h (h'.mono fun _ => Pages.tail)

/-! ### The loops -/

theorem mapZeroed_edits {fl : Flags} (h : mapZeroed t p virt fl n = some (t', p', rc)) :
    Edits (Pages virt n) t t' := by
  induction n generalizing t p virt with
  | zero =>
    cases h
    exact .refl
  | succ n ih =>
    rcases hp : p.pmmAllocPage with ⟨phys, q⟩
    rw [mapZeroed, hp] at h
    dsimp only at h
    split at h
    · cases h
      exact .refl
    simp only [Option.bind_eq_bind, Option.bind_eq_some_iff, Prod.exists] at h
    obtain ⟨u, q, r, hu, h⟩ := h
    have he := Edit.map (Pages.head virt n) hu
    split at h
    · exact .cons he (ih h)
    split at h
    · cases h
      exact .single he
    · exact .cons he (ih h)

theorem mapFrames_edits {frame : Nat → Nat} {fl : Flags} {i : Nat}
    (h : mapFrames t p virt frame fl i n = some (t', p', rc)) : Edits (Pages virt n) t t' := by
  induction n generalizing t p virt i with
  | zero =>
    cases h
    exact .refl
  | succ n ih =>
    rw [mapFrames] at h
    simp only [Option.bind_eq_bind, Option.bind_eq_some_iff, Prod.exists] at h
    obtain ⟨u, q, r, hu, h⟩ := h
    have he := Edit.map (Pages.head virt n) hu
    split at h
    · cases h
      exact .single he
    · exact .cons he (ih h)

theorem processUnmap_edits (t : Pml4) (p : Pmm) (virt : U64) (n : Nat) :
    Edits (Pages virt n) t (processUnmap t p virt n).1 := by
  induction n generalizing t p virt with
  | zero => exact .refl
  | succ n ih => exact .cons (.unmap (Pages.head virt n)) (ih _ _ _)

theorem processProtect_edits (t : Pml4) (virt prot : U64) (n : Nat) :
    Edits (Pages virt n) t (processProtect t virt prot n).1 := by
  induction n generalizing t virt with
  | zero => exact .refl
  | succ n ih =>
    have he : Edit (Pages virt (n + 1)) t (vmmProtectUserPage t virt (protToPte prot)).1 :=
      .protect (Pages.head virt n)
    rw [processProtect]
    dsimp only
    split
    · exact .single he
    · exact .cons he (ih _ _)

theorem mapFile_edits {f : File} (h : mapFile t p virt n f prot = some (t', p', rc)) :
    Edits (Pages virt n) t t' := by
  rw [mapFile] at h
  split at h
  · simp only [Option.bind_eq_bind, Option.bind_eq_some_iff, Prod.exists] at h
    obtain ⟨u, q, r, hu, h⟩ := h
    have he : Edits (Pages virt n) t u := mapZeroed_edits hu
    split at h
    · cases h
      exact he
    · cases h
      exact he.trans (processProtect_edits u virt prot n)
  · cases h
    exact .refl

theorem devMmap_edits {m : DevMmap} (h : devMmap m t p virt n off prot = some (t', p', rc)) :
    Edits (Pages virt n) t t' := by
  rw [devMmap] at h
  split at h
  · cases h
    exact .refl
  · exact mapFrames_edits h

theorem mmapFill_edits {s s' : Vm} {f : Option File}
    (h : mmapFill s virt n f prot flags off = some (s', rc)) :
    Edits (Pages virt n) s.mm.pgd s'.mm.pgd := by
  unfold mmapFill at h
  split at h
  · simp only [Option.bind_eq_bind, Option.bind_eq_some_iff, Prod.exists] at h
    obtain ⟨u, q, r, hu, h⟩ := h
    cases h
    exact mapZeroed_edits hu
  · split at h
    · simp only [Option.bind_eq_bind, Option.bind_eq_some_iff, Prod.exists] at h
      obtain ⟨u, q, r, hu, h⟩ := h
      cases h
      exact devMmap_edits hu
    · simp only [Option.bind_eq_bind, Option.bind_eq_some_iff, Prod.exists] at h
      obtain ⟨u, q, r, hu, h⟩ := h
      have he := mapFile_edits hu
      split at h
      · split at h <;> cases h <;> exact he
      · cases h
        exact he

/-! ### What an edit keeps -/

theorem leaf_vmmMapUserPage {v w : U64} {phys : Nat} {fl : Flags}
    (h : vmmMapUserPage t v phys fl p = some (t', p', rc)) (hw : ¬ Table.SamePath 3 v w) :
    t'.leaf 3 w = t.leaf 3 w := by
  rw [vmmMapUserPage] at h
  split at h
  · cases h
    rfl
  · exact leaf_mapIn_of_not_samePath h hw

end Sic.X86
