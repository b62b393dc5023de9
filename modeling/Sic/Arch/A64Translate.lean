import Sic.Arch.A64Cow

/-! `vmm_translate_in`, and what the events of `Sic.A64` leave of the translation of an
address: a store changes it where it copies a shared page, and otherwise only an unmap or
the end of the space does. -/

namespace Sic.A64

variable {s s' : Machine} {r p f : Nat} {v w : U64} {t t' : L0}

namespace Machine

def frame (s : Machine) (pgd : Nat) (virt : U64) : Option Nat :=
  ((s.spaces pgd).bind fun t => t.leaf 3 virt).map Desc.addr

def vmmTranslateIn (s : Machine) (pgd : Nat) (virt : U64) : U64 :=
  match s.frame pgd virt with
  | none => 0
  | some f => BitVec.ofNat 64 (4096 * f + virt.toNat % 4096)

def replaces (s : Machine) (pgd : Nat) (virt : U64) : Bool :=
  match s.walk pgd virt with
  | none => false
  | some e => e.swCow && decide (1 < s.pmm.pmmPageGetRef e.addr) && s.pmm.pmmAllocPage.1 != 0

end Machine

/-- The event leaves the page of `virt` in space `pgd` on its frame: it does not copy the
page, unmap it or end the space, and a new space is not laid over a live one. -/
def Spares (s : Machine) (pgd : Nat) (virt : U64) : Event → Prop
  | .create => ∀ s' r, s.vmmCreateAddressSpace = some (s', r) → s.spaces r = none
  | .clone _ => ∀ s' r, s.vmmCreateAddressSpace = some (s', r) → s.spaces r = none
  | .destroy p => p ≠ pgd
  | .unmap p v => p = pgd → vpn v ≠ vpn virt
  | .store p v _ => p = pgd → vpn v = vpn virt → s.replaces p v = false
  | _ => True

def SameFrame (x y : Option Desc) : Prop := x.map Desc.addr = y.map Desc.addr

theorem frame_eq_some : s.frame r v = some f ↔
    ∃ t e, s.spaces r = some t ∧ t.leaf 3 v = some e ∧ e.addr = f := by
  simp only [Machine.frame, Option.map_eq_some_iff, Option.bind_eq_some_iff]
  constructor
  · rintro ⟨e, ⟨t, hs, hl⟩, he⟩
    exact ⟨t, e, hs, hl, he⟩
  · rintro ⟨t, e, hs, hl, he⟩
    exact ⟨e, ⟨t, hs, hl⟩, he⟩

theorem frame_update (hf : s.frame r v = some f) (hs' : s'.spaces = Function.update s.spaces p (some t'))
    (hp : p = r → ∀ t, s.spaces p = some t → SameFrame (t'.leaf 3 v) (t.leaf 3 v)) : s'.frame r v = some f := by
  by_cases hr : p = r
  · subst hr
    obtain ⟨t, e, hs, hl, he⟩ := frame_eq_some.mp hf
    have hsame := hp rfl t hs
    rw [SameFrame, hl] at hsame
    rw [Machine.frame, hs', Function.update_self, Option.bind_some, hsame, ← he]
    rfl
  · rw [Machine.frame, hs', Function.update_of_ne (Ne.symm hr)]
    exact hf

theorem sameFrame_modify {g : Desc → Desc} (hg : ∀ e, (g e).addr = e.addr) (t : L0) (v w : U64) :
    SameFrame ((t.modify 3 w (Option.map g)).leaf 3 v) (t.leaf 3 v) := by
  by_cases hw : Table.SamePath 3 w v
  · rw [SameFrame, ← Table.leaf_congr _ hw, ← Table.leaf_congr t hw, Table.leaf_modify_self t w rfl,
      Option.map_map]
    cases t.leaf 3 w with
    | none => rfl
    | some e => exact congrArg some (hg e)
  · rw [SameFrame, Table.leaf_modify_of_not_samePath t _ hw]

/-! ### Mapping -/

variable {q q' : Pmm} {rc : Int} {flags : Flags}

theorem leaf_mapIn_of_some {φ α : Type} {n : Nat} {t t' : Table φ α n} {e d : α} {tflags : φ}
    (h : mapIn n t v e tflags q = some (t', q', rc)) (hl : t.leaf n v = some d) : t'.leaf n v = some d := by
  induction n generalizing q q' rc with
  | zero =>
    rw [mapIn] at h
    split at h
    · cases h
      exact hl
    next hnone =>
    rw [Table.leaf, hnone] at hl
    cases hl
  | succ n ih =>
    rw [Table.leaf_succ] at hl
    rw [mapIn] at h
    split at h
    · cases h
      rw [Table.leaf_succ]
      exact hl
    · next hempty =>
      rw [hempty] at hl
      cases (Table.leaf_empty n v).symm.trans hl
    · next phys flags sub₀ hsub₀ =>
      simp only [Option.bind_eq_bind, Option.bind_eq_some_iff, Prod.exists] at h
      obtain ⟨sub, q₁, rc₁, hsub, h⟩ := h
      cases h
      rw [hsub₀] at hl
      rw [Table.leaf_update, if_pos rfl]
      exact ih hsub hl

theorem frame_vmmMapUserPage {phys : Nat}
    (hm : vmmMapUserPage t w phys flags q = some (t', q', rc)) {e : Desc} (hl : t.leaf 3 v = some e) :
    SameFrame (t'.leaf 3 v) (t.leaf 3 v) := by
  rw [vmmMapUserPage] at hm
  split at hm
  · cases hm
    rfl
  by_cases hw : Table.SamePath 3 w v
  · rw [← Table.leaf_congr t hw] at hl ⊢
    rw [SameFrame, ← Table.leaf_congr t' hw, leaf_mapIn_of_some hm hl, hl]
  · rw [SameFrame, leaf_mapIn_of_not_samePath hm hw]

theorem frame_map {phys : Nat} (hf : s.frame r v = some f) (hs : s.spaces p = some t)
    (hm : vmmMapUserPage t w phys flags q = some (t', q', rc))
    (hs' : s'.spaces = Function.update s.spaces p (some t')) :
    s'.frame r v = some f := by
  refine frame_update hf hs' fun hr t₁ ht₁ => ?_
  subst hr
  obtain rfl : t = t₁ := Option.some.inj (hs.symm.trans ht₁)
  obtain ⟨t₂, e, hs₂, hl, -⟩ := frame_eq_some.mp hf
  obtain rfl : t = t₂ := Option.some.inj (hs.symm.trans hs₂)
  exact frame_vmmMapUserPage hm hl

theorem frame_mapZeroed (hm : s.mapZeroed p w flags = some (s', rc))
    (hf : s.frame r v = some f) : s'.frame r v = some f := by
  unfold Machine.mapZeroed at hm
  split at hm
  · cases hm
    exact hf
  next t hs =>
  dsimp only at hm
  split at hm
  · cases hm
    exact hf
  simp only [Option.bind_eq_bind, Option.bind_eq_some_iff, Prod.exists] at hm
  obtain ⟨t', q, rc', hmap, h⟩ := hm
  cases h
  exact frame_map hf hs hmap rfl

theorem frame_mapDevice {phys : Nat} (hm : s.mapDevice p w phys flags = some (s', rc))
    (hf : s.frame r v = some f) : s'.frame r v = some f := by
  unfold Machine.mapDevice at hm
  split at hm
  · cases hm
    exact hf
  next t hs =>
  simp only [Option.bind_eq_bind, Option.bind_eq_some_iff, Prod.exists] at hm
  obtain ⟨t', q, rc', hmap, h⟩ := hm
  cases h
  exact frame_map hf hs hmap rfl

/-! ### Cloning -/

theorem sameFrame_cloneTable {n : Nat} {t src dst : Table Unit Desc n}
    (h : cloneTable n t q = some (src, dst, q')) (v : U64) : SameFrame (src.leaf n v) (t.leaf n v) := by
  induction n generalizing q q' with
  | zero =>
    have hkeep : ∀ x : Table Unit Desc 0 × Table Unit Desc 0 × Pmm, ∀ i, ∀ j,
        ((clonePage x i).1 j).map Desc.addr = (x.1 j).map Desc.addr := by
      rintro ⟨src, dst, q⟩ i j
      rw [clonePage]
      split
      · rfl
      next e he =>
      split
      · rfl
      split
      · by_cases hj : j = i
        · subst hj
          simp [he]
        · simp [hj]
      · rfl
    have hall := invariant_foldl (P := fun x : Table Unit Desc 0 × Table Unit Desc 0 × Pmm =>
      ∀ j, (x.1 j).map Desc.addr = (t j).map Desc.addr) (fun x i hx j => (hkeep x i j).trans (hx j))
      (List.finRange 512) (s := (t, Table.empty 0, q)) fun _ => rfl
    rw [cloneTable, Option.some.injEq] at h
    rw [h] at hall
    exact hall _
  | succ n ih =>
    rw [cloneTable] at h
    refine loop_foldlM (s := (t, Table.empty (n + 1), q))
      (I := fun _ (x : Table Unit Desc (n + 1) × Table Unit Desc (n + 1) × Pmm) =>
        SameFrame (x.1.leaf (n + 1) v) (t.leaf (n + 1) v))
      (fun i _ x x' hx hstep => ?_) _ rfl h
    obtain ⟨src₁, dst₁, q₁⟩ := x
    dsimp only at hx hstep
    split at hstep
    · next phys flags sub hsub =>
      split at hstep
      · cases hstep
      simp only [Option.bind_eq_bind, Option.bind_eq_some_iff, Prod.exists] at hstep
      obtain ⟨sub', dsub, q₂, hclone, hstep⟩ := hstep
      cases hstep
      refine Eq.trans ?_ hx
      dsimp only
      rw [Table.leaf_update]
      split
      · next hi =>
        rw [Table.leaf_succ src₁, hi, hsub]
        exact ih hclone
      · rfl
    · cases hstep
      exact hx

theorem frame_clone {g : Nat} (hc : s.vmmCloneAddressSpace p = some (s', g))
    (hnew : ∀ s' r, s.vmmCreateAddressSpace = some (s', r) → s.spaces r = none)
    (hf : s.frame r v = some f) : s'.frame r v = some f := by
  obtain ⟨t, s₁, src, dt, q, hs, hcreate, hclone, rfl⟩ := vmmCloneAddressSpace_spec hc
  have hg := hnew s₁ g hcreate
  obtain ⟨_, _, _, rfl⟩ := vmmCreateAddressSpace_spec hcreate
  -- one table after the other: the new root, the source with its new access bits, the copy
  have hroot : Machine.frame { s with spaces := Function.update s.spaces g (some (Table.empty 3)) } r v =
    some f := by
    refine frame_update hf rfl fun _ t₁ ht₁ => ?_
    rw [hg] at ht₁
    cases ht₁
  have hsrc : Machine.frame { s with
      spaces := Function.update (Function.update s.spaces g (some (Table.empty 3))) p (some src) } r v =
        some f := by
    refine frame_update hroot rfl fun _ t₁ ht₁ => ?_
    have hpg : p ≠ g := by
      rintro rfl
      rw [hg] at hs
      cases hs
    obtain rfl : t = t₁ := Option.some.inj (hs.symm.trans ((Function.update_of_ne hpg _ _).symm.trans ht₁))
    exact sameFrame_cloneTable hclone v
  have hrg : r ≠ g := by
    rintro rfl
    obtain ⟨_, _, hr, -⟩ := frame_eq_some.mp hf
    rw [hg] at hr
    cases hr
  refine frame_update hsrc rfl fun hr => absurd hr.symm hrg

/-! ### Stores -/

theorem storeByte_spaces {b : U8} (h : s.storeByte p w b = some s') : s'.spaces = s.spaces := by
  unfold Machine.storeByte at h
  split at h
  · cases h
  split at h
  · cases h
    rfl
  · cases h

theorem frame_of_spaces (h : s'.spaces = s.spaces) (r : Nat) (v : U64) : s'.frame r v = s.frame r v := by
  rw [Machine.frame, Machine.frame, h]

theorem vmmHandleCow_of_not_cow (hw : ∀ e, s.walk p w = some e → e.swCow = false) :
    (s.vmmHandleCow p w).1 = s := by
  unfold Machine.vmmHandleCow
  cases hs : s.spaces p with
  | none => rfl
  | some t =>
    dsimp only
    split
    · rfl
    next hv =>
    have hv : userBase ≤ w ∧ w < userEnd := by bv_omega
    rw [Table.leaf_congr t (samePath_pageAlignDown w)]
    cases hl : t.leaf 3 w with
    | none => rfl
    | some e =>
      have hc := hw e (by simp [Machine.walk, hv, hs, hl])
      simp [hc]

theorem frame_vmmHandleCow (hcopy : p = r → vpn w = vpn v → s.replaces p w = false)
    (hf : s.frame r v = some f) : (s.vmmHandleCow p w).1.frame r v = some f := by
  by_cases hcow : ∀ e, s.walk p w = some e → e.swCow = false
  · rw [vmmHandleCow_of_not_cow hcow]
    exact hf
  simp only [not_forall, Bool.not_eq_false] at hcow
  obtain ⟨e, hwalk, hcow⟩ := hcow
  obtain ⟨t, hs, hl, hw⟩ := walk_eq_some hwalk
  rw [vmmHandleCow_cow hs hw hl hcow]
  have hpath := samePath_pageAlignDown w
  generalize pageAlignDown w = w' at hpath ⊢
  split
  · refine frame_update hf rfl fun _ t₁ ht₁ => ?_
    obtain rfl : t = t₁ := Option.some.inj (hs.symm.trans ht₁)
    refine sameFrame_modify ?_ t v _
    exact fun _ => rfl
  · next href =>
    split
    · exact hf
    next ha =>
    refine frame_update hf rfl fun hr t₁ ht₁ => ?_
    obtain rfl : t = t₁ := Option.some.inj (hs.symm.trans ht₁)
    have hother : ¬ Table.SamePath 3 w' v := by
      intro hsame
      have hwv : Table.SamePath 3 w v := fun k hk => (hpath k hk).symm.trans (hsame k hk)
      have hno := hcopy hr (samePath_iff_vpn.mp hwv)
      rw [Machine.replaces, hwalk] at hno
      simp [hcow, ha] at hno
      exact href hno
    rw [SameFrame, Table.leaf_modify_of_not_samePath t _ hother]

theorem frame_store (hcopy : p = r → vpn w = vpn v → s.replaces p w = false) (b : U8)
    (hf : s.frame r v = some f) : (s.store p w b).1.frame r v = some f := by
  unfold Machine.store
  split
  · next s₁ h₁ => exact (frame_of_spaces (storeByte_spaces h₁) r v).trans hf
  have hcow := frame_vmmHandleCow hcopy hf
  dsimp only
  split
  · cases h₂ : (s.vmmHandleCow p w).1.storeByte p w b with
    | none => exact hcow
    | some s₂ => exact (frame_of_spaces (storeByte_spaces h₂) r v).trans hcow
  · exact hcow

/-! ### One event -/

theorem frame_step {e : Event} (h : Spares s r v e) (hf : s.frame r v = some f) :
    (s.step e).1.frame r v = some f := by
  cases e with
  | create =>
    rw [Machine.step]
    cases hc : s.vmmCreateAddressSpace with
    | none => exact hf
    | some x =>
      obtain ⟨s₁, g⟩ := x
      have hnone := h s₁ g hc
      obtain ⟨-, -, -, rfl⟩ := vmmCreateAddressSpace_spec hc
      refine frame_update hf rfl fun hr t ht => ?_
      rw [hnone] at ht
      cases ht
  | clone src =>
    rw [Machine.step]
    cases hc : s.vmmCloneAddressSpace src with
    | none => exact hf
    | some x => exact frame_clone hc h hf
  | destroy p =>
    rw [Machine.step]
    unfold Machine.vmmDestroyAddressSpace
    split
    · exact hf
    dsimp only [Machine.frame]
    rw [Function.update_of_ne (Ne.symm h)]
    exact hf
  | map p w write exec =>
    rw [Machine.step]
    cases hm : s.mapZeroed p w (Machine.protToPte write exec) with
    | none => exact hf
    | some x => exact frame_mapZeroed hm hf
  | mapDevice p w phys write exec pwt pcd =>
    rw [Machine.step]
    cases hm : s.mapDevice p w phys { Machine.protToPte write exec with pwt := pwt, pcd := pcd } with
    | none => exact hf
    | some x => exact frame_mapDevice hm hf
  | unmap p w =>
    rw [Machine.step]
    unfold Machine.processUnmap
    split
    · exact hf
    next t hs =>
    refine frame_update hf rfl fun hr t₁ ht₁ => ?_
    obtain rfl : t = t₁ := Option.some.inj (hs.symm.trans ht₁)
    have hpath : ¬ Table.SamePath 3 w v := fun hsame => h hr (samePath_iff_vpn.mp hsame)
    rw [vmmUnmapUserPage]
    split
    · rfl
    · rw [SameFrame, Table.leaf_modify_of_not_samePath t _ hpath]
  | protect p w write exec =>
    change (s.processProtect p w (Machine.protToPte write exec)).1.frame r v = some f
    unfold Machine.processProtect
    split
    · exact hf
    next t hs =>
    refine frame_update hf rfl fun hr t₁ ht₁ => ?_
    obtain rfl : t = t₁ := Option.some.inj (hs.symm.trans ht₁)
    split
    · rfl
    · refine sameFrame_modify ?_ t v w
      exact fun _ => rfl
  | store p w b => exact frame_store h b hf

theorem translate_step {e : Event} (h : Spares s r v e) (hv : s.vmmTranslateIn r v ≠ 0) :
    (s.step e).1.vmmTranslateIn r v = s.vmmTranslateIn r v := by
  unfold Machine.vmmTranslateIn at hv ⊢
  cases hf : s.frame r v with
  | none =>
    rw [hf] at hv
    exact absurd rfl hv
  | some f => rw [frame_step h hf]

end Sic.A64
