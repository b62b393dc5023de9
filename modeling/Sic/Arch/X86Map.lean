import Sic.Arch.X86Mmu
import Sic.Lib.Run

/-! The four-level tables of an address space against a partial map from pages to
entries, over every run of maps, unmaps and changes of protection. -/

namespace Sic

section Walk

variable {φ α : Type} {n : Nat} {v w : U64} {e : α} {tflags : φ} {p p' : Pmm} {rc : Int}

def Plain : (n : Nat) → Table φ α n → U64 → Prop
  | 0, _, _ => True
  | n + 1, t, v => (∀ d, t (idx v (n + 1)) ≠ .block d) ∧ Plain n (Table.below n (t (idx v (n + 1)))) v

theorem plain_empty (n : Nat) (v : U64) : Plain n (Table.empty n : Table φ α n) v := by
  induction n with
  | zero => trivial
  | succ n ih => exact ⟨by simp [Table.empty], ih⟩

theorem plain_update {t : Table φ α (n + 1)} {i : Fin 512} {phys : Nat} {flags : φ} {sub : Table φ α n}
    (hsub : Plain n (Table.below n (t i)) w → Plain n sub w) (h : Plain (n + 1) t w) :
    Plain (n + 1) (Function.update t i (.table phys flags sub)) w := by
  by_cases hi : idx w (n + 1) = i
  · subst hi
    simp only [Plain, Function.update_self]
    exact ⟨by simp, hsub h.2⟩
  · rw [Plain, Function.update_of_ne hi]
    exact h

theorem plain_modify {t : Table φ α n} (h : Plain n t w) (v : U64) (f : Option α → Option α) :
    Plain n (t.modify n v f) w := by
  induction n with
  | zero => trivial
  | succ n ih =>
    simp only [Table.modify]
    cases hs : t (idx v (n + 1)) with
    | empty | block d => exact h
    | table phys flags sub =>
      refine plain_update (fun hw => ?_) h
      rw [hs] at hw
      exact ih hw

theorem mapIn_succ {t t' : Table φ α (n + 1)} (h : mapIn (n + 1) t v e tflags p = some (t', p', rc)) :
    (∃ d, t (idx v (n + 1)) = .block d ∧ t' = t) ∨ ∃ phys flags sub q,
      mapIn n (Table.below n (t (idx v (n + 1)))) v e tflags q = some (sub, p', rc) ∧
      t' = Function.update t (idx v (n + 1)) (.table phys flags sub) := by
  rw [mapIn] at h
  split at h
  · next d hd =>
    cases h
    exact .inl ⟨d, hd, rfl⟩
  · next hs =>
    simp only [Option.ite_none_left_eq_some, Option.bind_eq_bind, Option.bind_eq_some_iff, Prod.exists] at h
    obtain ⟨-, sub, q, r, hsub, h⟩ := h
    cases h
    exact .inr ⟨_, _, sub, _, by rwa [hs], rfl⟩
  · next hs =>
    simp only [Option.bind_eq_bind, Option.bind_eq_some_iff, Prod.exists] at h
    obtain ⟨sub, q, r, hsub, h⟩ := h
    cases h
    exact .inr ⟨_, _, sub, p, by rwa [hs], rfl⟩

theorem mapIn_plain {t t' : Table φ α n} (h : mapIn n t v e tflags p = some (t', p', rc)) :
    (∀ w, Plain n t w → Plain n t' w) ∧ (Plain n t v →
      t'.leaf n v = some ((t.leaf n v).getD e) ∧ rc = if (t.leaf n v).isSome then -2 else 0) := by
  induction n generalizing p p' rc with
  | zero =>
    refine ⟨fun w _ => trivial, fun _ => ?_⟩
    rw [mapIn] at h
    cases hd : t (idx v 0) with
    | none | some d =>
      rw [hd] at h
      cases h
      simp [Table.leaf, hd]
  | succ n ih =>
    rcases mapIn_succ h with ⟨d, hd, rfl⟩ | ⟨phys, flags, sub, q, hsub, rfl⟩
    · exact ⟨fun w hw => hw, fun hv => absurd hd (hv.1 d)⟩
    obtain ⟨hplain, hleaf⟩ := ih hsub
    refine ⟨fun w hw => plain_update (hplain w) hw, fun hv => ?_⟩
    rw [Table.leaf_update, if_pos rfl, Table.leaf_succ t]
    exact hleaf hv.2

end Walk

namespace X86

inductive Call where
  | map (virt : U64) (phys : Nat) (flags : Flags)
  | unmap (virt : U64)
  | protect (virt : U64) (flags : Flags)

def call (t : Pml4) (p : Pmm) : Call → MapResult 3
  | .map virt phys flags => vmmMapUserPage t virt phys flags p
  | .unmap virt => some ((vmmUnmapUserPage t virt).1, p, (vmmUnmapUserPage t virt).2)
  | .protect virt flags => some ((vmmProtectUserPage t virt flags).1, p, (vmmProtectUserPage t virt flags).2)

def vmmCreateAddressSpace (kernel : Pml4) (p : Pmm) : Option (Nat × Pml4 × Pmm) :=
  let (pml4, p) := p.pmmAllocPage
  if pml4 = 0 then none else some (pml4, fun i => if i = 0 ∨ 256 ≤ i then kernel i else .empty, p)

def turn : Pml4 × Pmm × List Int → Call → Option (Pml4 × Pmm × List Int)
  | (t, p, out), x => (call t p x).map fun (t, p, rc) => (t, p, out ++ [rc])

abbrev Space := U64 → Option Pte

def put (m : Space) (v : U64) (x : Option Pte) : Space :=
  fun w => if v.toNat / 4096 % 2 ^ 36 = w.toNat / 4096 % 2 ^ 36 then x else m w

def spec (m : Space) : Call → Space × Int
  | .map virt phys flags =>
    if virt < userBase ∨ userEnd ≤ virt then (m, -3)
    else (put m virt (some ((m virt).getD ⟨phys, { flags with user := true }⟩)),
      if (m virt).isSome then -2 else 0)
  | .unmap virt => (put m virt none, (m virt).elim 0 fun e => if e.flags.dev then 0 else e.addr)
  | .protect virt flags =>
    (put m virt ((m virt).map fun e => { e with flags := { e.flags with write := flags.write, nx := flags.nx } }),
      if (m virt).isSome then 0 else -1)

def newSpace (kernel : Pml4) : Space := fun v => if idx v 3 = 0 ∨ 256 ≤ idx v 3 then kernel.leaf 3 v else none

def specTurn : Space × List Int → Call → Space × List Int
  | (m, out), x => ((spec m x).1, out ++ [(spec m x).2])

def UserPlain (t : Pml4) : Prop := ∀ v, ¬ (v < userBase ∨ userEnd ≤ v) → Plain 3 t v

variable {t t' : Pml4} {v : U64} {p p' : Pmm}

theorem leaf_eq_put {x : Option Pte} (hself : t'.leaf 3 v = x)
    (hother : ∀ w, ¬ Table.SamePath 3 v w → t'.leaf 3 w = t.leaf 3 w) : put (t.leaf 3) v x = t'.leaf 3 := by
  funext w
  simp only [put, ← Table.samePath_three]
  split
  · next hw => rw [← Table.leaf_congr t' hw, hself]
  · next hw => exact (hother w hw).symm

theorem put_modify (t : Pml4) (v : U64) {f : Option Pte → Option Pte} (hf : f none = none) :
    put (t.leaf 3) v (f (t.leaf 3 v)) = (t.modify 3 v f).leaf 3 :=
  leaf_eq_put (Table.leaf_modify_self t v hf) fun _ hw => Table.leaf_modify_of_not_samePath t f hw

theorem spec_call {x : Call} {rc : Int} (h : call t p x = some (t', p', rc)) (ht : UserPlain t) :
    UserPlain t' ∧ spec (t.leaf 3) x = (t'.leaf 3, rc) := by
  cases x with
  | map virt phys flags =>
    rw [call, vmmMapUserPage] at h
    split at h
    · next hr =>
      cases h
      exact ⟨ht, if_pos hr⟩
    · next hr =>
      obtain ⟨hplain, hself⟩ := mapIn_plain h
      obtain ⟨hleaf, hrc⟩ := hself (ht virt hr)
      refine ⟨fun v hv => hplain v (ht v hv), ?_⟩
      rw [spec, if_neg hr, leaf_eq_put hleaf fun w hw => leaf_mapIn_of_not_samePath h hw, hrc]
  | unmap virt =>
    have hput := put_modify t virt (f := fun _ => none) rfl
    rw [call, vmmUnmapUserPage] at h
    cases hl : t.leaf 3 virt with
    | none =>
      rw [hl] at h
      cases h
      exact ⟨ht, by simp [spec, hl, leaf_eq_put hl fun w _ => rfl]⟩
    | some d =>
      rw [hl] at h
      cases h
      exact ⟨fun v hv => plain_modify (ht v hv) _ _, by simp [spec, hl, hput]⟩
  | protect virt flags =>
    have hput := put_modify t virt (f := Option.map fun d =>
      { d with flags := { d.flags with write := flags.write, nx := flags.nx } }) rfl
    rw [call, vmmProtectUserPage] at h
    cases hl : t.leaf 3 virt with
    | none =>
      rw [hl] at h
      cases h
      exact ⟨ht, by simp [spec, hl, leaf_eq_put hl fun w _ => rfl]⟩
    | some d =>
      rw [hl] at h hput
      cases h
      exact ⟨fun v hv => plain_modify (ht v hv) _ _, by simp [spec, hl, ← hput]⟩

theorem translateIn_plain {n : Nat} {t : Table Flags Pte n} (h : Plain n t v) :
    translateIn n t v = (t.leaf n v).elim 0 fun e => e.addr * 4096 + v.toNat % 4096 := by
  induction n with
  | zero =>
    rw [translateIn, Table.leaf]
    cases t (idx v 0) <;> rfl
  | succ n ih =>
    obtain ⟨hblock, hsub⟩ := h
    rw [translateIn, Table.leaf_succ]
    cases hs : t (idx v (n + 1)) with
    | empty => simp [Table.below]
    | block d => exact absurd hs (hblock d)
    | table phys flags sub =>
      rw [hs] at hsub
      exact ih hsub

theorem vmmCreateAddressSpace_spec {kernel : Pml4} {root : Nat}
    (h : vmmCreateAddressSpace kernel p = some (root, t, p')) :
    t.leaf 3 = newSpace kernel ∧ UserPlain t := by
  simp only [vmmCreateAddressSpace, Option.ite_none_left_eq_some] at h
  obtain ⟨-, h⟩ := h
  cases h
  constructor
  · funext v
    rw [Table.leaf_succ, newSpace]
    split
    · exact (Table.leaf_succ kernel v).symm
    · exact Table.leaf_empty 2 v
  · intro v hv
    have hi : ¬ (idx v 3 = 0 ∨ 256 ≤ idx v 3) := by
      rw [Fin.ext_iff, Fin.le_def, idx]
      dsimp only [Fin.isValue]
      bv_omega
    rw [Plain, if_neg hi]
    exact ⟨by simp, plain_empty 2 v⟩

/-- Whatever is mapped, unmapped and protected in a new space, the calls answer as those of
the partial map do, and every user address is translated as the map says. -/
theorem page_tables_refine {kernel : Pml4} {root : Nat} {q : Pmm} {es : List Call} {out : List Int}
    (hnew : vmmCreateAddressSpace kernel q = some (root, t, p))
    (h : es.foldlM turn (t, p, []) = some (t', p', out)) :
    let m := es.foldl specTurn (newSpace kernel, [])
    m = (t'.leaf 3, out) ∧ ∀ v, ¬ (v < userBase ∨ userEnd ≤ v) →
      vmmTranslateIn t' v = (m.1 v).elim 0 fun e => e.addr * 4096 + v.toNat % 4096 := by
  intro m
  obtain ⟨hleaf, hplain⟩ := vmmCreateAddressSpace_spec hnew
  have hrun := loop_foldlM (I := fun rest s => UserPlain s.1 ∧ m = rest.foldl specTurn (s.1.leaf 3, s.2.2)) ?_ es
    ⟨hplain, by rw [hleaf]⟩ h
  · obtain ⟨hplain, hm⟩ := hrun
    refine ⟨hm, fun v hv => ?_⟩
    rw [hm]
    exact translateIn_plain (hplain v hv)
  · rintro x rest ⟨t, p, out⟩ s ⟨ht, hrest⟩ hx
    obtain ⟨⟨t', p', rc⟩, hedit, rfl⟩ := Option.map_eq_some_iff.mp hx
    obtain ⟨ht', hspec⟩ := spec_call hedit ht
    refine ⟨ht', hrest.trans ?_⟩
    rw [List.foldl_cons, specTurn, hspec]

theorem page_tables_refine_remap :
    let es : List Call := [.map userBase 7 {}, .map userBase 8 {}, .unmap userBase, .map userBase 9 {}]
    ∃ t p t' p' out, es.foldlM turn (t, p, []) = some (t', p', out) ∧ vmmTranslateIn t' userBase = 9 * 4096 := by
  intro es
  have h : ((vmmCreateAddressSpace (Table.empty 3) ⟨(· == 0), 0, 16, 1, 1⟩).bind fun x =>
      es.foldlM turn (x.2.1, x.2.2, [])).isSome := by decide +kernel
  obtain ⟨_, h⟩ := Option.isSome_iff_exists.mp h
  obtain ⟨_, hnew, h⟩ := Option.bind_eq_some_iff.mp h
  exact ⟨_, _, _, _, _, h, ((page_tables_refine hnew h).2 userBase (by decide)).trans (by decide +kernel)⟩

end X86

end Sic
