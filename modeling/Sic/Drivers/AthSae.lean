import Sic.Crypto.Sae
import Sic.Drivers.AthReflect

/-! SAE between two ends that know the passphrase, each as the driver runs it. -/

namespace Sic.Ath

open Sic.P256 Sic.Jacobian

/-- The driver over P-256, with any hashes and any way to the password element. -/
def overP256 (C : Crypto) : Crypto := { C with
  scalarAdd := fun a b => bytes 32 (p256ScalarAdd a.byte b.byte)
  pointMul := fun k p => bytes 64 (p256Mul k.byte p.byte)
  pointAdd := fun p q => bytes 64 (p256Add p.byte q.byte)
  negate := fun p => bytes 64 (p256Negate p.byte)
  pointValid := fun p => p256PointValid p.byte }

structure Drawn (rand mask : Bytes) : Prop where
  first : ∃ draws, p256ScalarRand draws = some rand
  second : ∃ draws, p256ScalarRand draws = some mask
  sum : ¬ order ∣ be rand.byte 32 + be mask.byte 32

structure Ready (a : Sae) (P : Point) (r m : Nat) : Prop where
  pwe : Encodes a.pwe.byte P
  rand : be a.rand.byte 32 = r ∧ 0 < r ∧ r < order
  mask : 0 < m ∧ m < order
  sum : ¬ order ∣ r + m
  length : a.scalar.length = 32 ∧ a.element.length = 64
  scalar : be a.scalar.byte 32 = (r + m) % order
  element : Encodes a.element.byte (-(m • P))

theorem Ready.peer {a : Sae} {P : Point} {r m : Nat} (h : Ready a P r m) (scalar element : Bytes) :
    Ready { a with peerScalar := scalar, peerElement := element } P r m :=
  ⟨h.pwe, h.rand, h.mask, h.sum, h.length, h.scalar, h.element⟩

theorem length_bytes (n : Nat) (f : Nat → U8) : (bytes n f).length = n := by
  rw [bytes, List.length_map, List.length_range]

theorem eq_of_byte {n : Nat} {a b : Bytes} (ha : a.length = n) (hb : b.length = n)
    (h : ∀ i < n, a.byte i = b.byte i) :
    a = b := by
  refine List.ext_getElem (ha.trans hb.symm) fun i hi hi' => ?_
  have := h i (ha ▸ hi)
  simpa [Bytes.byte, hi, hi'] using this

theorem encodes_bytes {m : Nat → U8} {P : Point} (h : Encodes m P) : Encodes (bytes 64 m).byte P :=
  h.congr fun _ hi => (byte_bytes m hi).symm

section
variable {C : Crypto} {P : Point} {a b : Sae} {r m r' m' : Nat}

theorem encodes_pointMul {p : Bytes} (k : Bytes) (h : Encodes p.byte P) (hP : P ≠ 0) :
    Encodes ((overP256 C).pointMul k p).byte (be k.byte 32 • P) :=
  encodes_bytes (encodes_jacAffine (rep_jacMul _ (rep_loadPoint h hP)))

theorem be_scalarAdd {x y : Bytes} (hx : be x.byte 32 < order) (hy : be y.byte 32 < order) :
    be ((overP256 C).scalarAdd x y).byte 32 = (be x.byte 32 + be y.byte 32) % order :=
  (be_congr fun _ hi => byte_bytes _ hi).trans (be_p256ScalarAdd hx hy)

variable (hP : P ≠ 0) (horder : order • P = 0)
include hP horder

theorem addOrderOf_eq : addOrderOf P = order := by
  have : Fact order.Prime := ⟨prime_order⟩
  exact addOrderOf_eq_prime horder hP

theorem nsmul_eq_zero_iff {k : Nat} : k • P = 0 ↔ order ∣ k := by
  rw [← addOrderOf_dvd_iff_nsmul_eq_zero, addOrderOf_eq hP horder]

theorem nsmul_ne_zero {k : Nat} (h : 0 < k ∧ k < order) : k • P ≠ 0 :=
  mt (nsmul_eq_zero_iff hP horder).mp (Nat.not_dvd_of_pos_of_lt h.1 h.2)

theorem ready_saeStart {s : Sta} {pwe rand mask : Bytes}
    (h : (overP256 C).saePwe s.jpass s.mac s.jb.bssid = some pwe)
    (hpwe : Encodes pwe.byte P) (hd : Drawn rand mask) (now : Nat) :
    Ready (saeStart (overP256 C) s (some rand) (some mask) now).sae P (be rand.byte 32) (be mask.byte 32) := by
  obtain ⟨⟨_, hr⟩, ⟨_, hm⟩, hsum⟩ := hd
  have hr := p256ScalarRand_range hr
  have hm := p256ScalarRand_range hm
  have hmul := encodes_pointMul (C := C) mask hpwe hP
  have hscalar := be_scalarAdd (C := C) hr.2 hm.2
  rw [saeStart, h]
  exact ⟨hpwe, ⟨rfl, hr⟩, hm, hsum, ⟨length_bytes _ _, length_bytes _ _⟩, hscalar,
    encodes_bytes (encodes_p256Negate hmul (nsmul_ne_zero hP horder hm))⟩

theorem encodes_saeSecret (ha : Ready a P r m) (hb : Ready b P r' m') (hpeer : Reflects a b) :
    Encodes (saeSecret (overP256 C) a).byte ((r * r') • P) := by
  have hfirst := encodes_pointMul (C := C) b.scalar ha.pwe hP
  rw [hb.scalar, ← addOrderOf_eq hP horder, mod_addOrderOf_nsmul] at hfirst
  have hne : (r' + m') • P ≠ 0 := mt (nsmul_eq_zero_iff hP horder).mp hb.sum
  have hadd := encodes_bytes (encodes_jacAffine (rep_jacAdd (rep_loadPoint hfirst hne)
    (rep_loadPoint hb.element (neg_ne_zero.mpr (nsmul_ne_zero hP horder hb.mask)))))
  rw [add_nsmul, add_neg_cancel_right] at hadd
  have hr' := hb.rand.2
  have hmul := encodes_pointMul (C := C) a.rand hadd (nsmul_ne_zero hP horder hr')
  rw [saeSecret, hpeer.1, hpeer.2, mul_nsmul', ← ha.rand.1]
  exact hmul

theorem saeKeys_agree (ha : Ready a P r m) (hb : Ready b P r' m') (hab : Reflects a b) (hba : Reflects b a) :
    saeKeys (overP256 C) a = saeKeys (overP256 C) b := by
  have hsecret : saeSecret (overP256 C) a = saeSecret (overP256 C) b := by
    have h := encodes_saeSecret (C := C) hP horder hb ha hba
    rw [mul_comm] at h
    exact eq_of_byte (length_bytes _ _) (length_bytes _ _) ((encodes_saeSecret hP horder ha hb hab).unique h)
  have hsum : (overP256 C).scalarAdd a.scalar b.scalar = (overP256 C).scalarAdd b.scalar a.scalar := by
    have hlt : ∀ {c r m}, Ready c P r m → be c.scalar.byte 32 < order :=
      fun h => h.scalar ▸ Nat.mod_lt _ prime_order.pos
    refine eq_of_byte (length_bytes _ _) (length_bytes _ _) (be_inj ?_)
    rw [be_scalarAdd (hlt ha) (hlt hb), be_scalarAdd (hlt hb) (hlt ha), Nat.add_comm]
  rw [saeKeys, saeKeys, hsecret, hab.1, hba.1, hsum]

theorem saeProcessCommit_ready {s : Sta} (ha : Ready s.sae P r m) (hb : Ready b P r' m') (now : Nat) :
    let a := { s.sae with peerScalar := b.scalar, peerElement := b.element }
    let k := saeKeys (overP256 C) a
    saeProcessCommit (overP256 C) s (saeCommitBody b) now = sendSaeConfirm { s with
      sae := { a with kck := k.take 32 }
      keys := { s.keys with pmk := k.slice 32 32 }
      jstate := .saeConfirm
      jtries := 0 } now := by
  intro a k
  have hscalar : (saeCommitBody b).slice 8 32 = b.scalar := by simp [saeCommitBody, Bytes.slice, ← hb.length.1]
  have helement : (saeCommitBody b).slice 40 64 = b.element := by
    simp [saeCommitBody, Bytes.slice, hb.length.1, ← hb.length.2]
  have hlen : ¬ (saeCommitBody b).length < 6 + 2 + 32 + 64 := by
    simp [saeCommitBody, hb.length.1, hb.length.2]
  have hgroup : ¬ (saeCommitBody b).le16 6 ≠ 19 := by simp [saeCommitBody, Bytes.le16, Bytes.byte]
  have hvalid : (overP256 C).pointValid b.element = true :=
    hb.element.valid (neg_ne_zero.mpr (nsmul_ne_zero hP horder hb.mask))
  have hsecret : (overP256 C).pointValid (saeSecret (overP256 C) a) = true := by
    refine (encodes_saeSecret hP horder (ha.peer _ _) hb ⟨rfl, rfl⟩).valid ?_
    rw [ne_eq, nsmul_eq_zero_iff hP horder, prime_order.dvd_mul, not_or]
    exact ⟨Nat.not_dvd_of_pos_of_lt ha.rand.2.1 ha.rand.2.2, Nat.not_dvd_of_pos_of_lt hb.rand.2.1 hb.rand.2.2⟩
  unfold saeProcessCommit
  rw [if_neg hlen, if_neg hgroup, hscalar, helement]
  dsimp only
  rw [if_neg (not_not.mpr hvalid), if_neg (not_not.mpr hsecret)]
end

theorem saeProcessConfirm_agrees {D : Crypto} (hhash : ∀ key msg, (D.hmacSha256 key msg).length = 32) {s : Sta}
    {b : Sae}
    (hab : Reflects s.sae b) (hba : Reflects b s.sae) (hkck : s.sae.kck = b.kck) (now : Nat) :
    (saeProcessConfirm D s (saeConfirmBody D b) now).jstate = .assoc := by
  have hslice := Bytes.slice_append [3, 0, 2, 0, 0, 0, 1, 0] (D.hmacSha256 b.kck (confirmInput b)) []
  rw [List.append_nil, hhash] at hslice
  have hlen : ¬ (saeConfirmBody D b).length < 6 + 2 + 32 := by simp [saeConfirmBody, hhash]
  have hcf : [(saeConfirmBody D b).byte 6,
    (saeConfirmBody D b).byte 7] ++ s.sae.peerScalar ++ s.sae.peerElement ++
      s.sae.scalar ++ s.sae.element = confirmInput b := by
    rw [hab.1, hab.2, ← hba.1, ← hba.2]
    rfl
  unfold saeProcessConfirm
  rw [if_neg hlen, hcf, hkck]
  exact congrArg Sta.jstate (if_neg (not_not.mpr hslice.symm))

/-- Two ends with one password element exchange their commits: each takes the commit of the other, they get the
same keys, and each takes the confirm of the other. -/
theorem sae_agrees (C : Crypto) (hhash : ∀ key msg, (C.hmacSha256 key msg).length = 32) {s t : Sta}
    {pwe rand mask rand' mask' : Bytes} (hs : C.saePwe s.jpass s.mac s.jb.bssid = some pwe)
    (ht : C.saePwe t.jpass t.mac t.jb.bssid = some pwe) {P : Point} (hpwe : Encodes pwe.byte P) (hP : P ≠ 0)
    (horder : order • P = 0) (hd : Drawn rand mask) (hd' : Drawn rand' mask') (now : Nat) :
    let D := overP256 C
    let s₁ := saeStart D s (some rand) (some mask) now
    let t₁ := saeStart D t (some rand') (some mask') now
    let s₂ := saeProcessCommit D s₁ (saeCommitBody t₁.sae) now
    let t₂ := saeProcessCommit D t₁ (saeCommitBody s₁.sae) now
    (s₂.jstate = .saeConfirm ∧ t₂.jstate = .saeConfirm) ∧ s₂.sae.kck = t₂.sae.kck ∧ s₂.keys.pmk = t₂.keys.pmk ∧
      (saeProcessConfirm D s₂ (saeConfirmBody D t₂.sae) now).jstate = .assoc ∧
      (saeProcessConfirm D t₂ (saeConfirmBody D s₂.sae) now).jstate = .assoc := by
  intro D s₁ t₁ s₂ t₂
  have ha : Ready s₁.sae P _ _ := ready_saeStart hP horder hs hpwe hd now
  have hb : Ready t₁.sae P _ _ := ready_saeStart hP horder ht hpwe hd' now
  have hkeys := saeKeys_agree (C := C) hP horder (ha.peer t₁.sae.scalar t₁.sae.element)
    (hb.peer s₁.sae.scalar s₁.sae.element) ⟨rfl, rfl⟩ ⟨rfl, rfl⟩
  have hs₂ : s₂ = _ := saeProcessCommit_ready hP horder ha hb now
  have ht₂ : t₂ = _ := saeProcessCommit_ready hP horder hb ha now
  have hkck : s₂.sae.kck = t₂.sae.kck := by
    rw [hs₂, ht₂]
    exact congrArg (List.take 32) hkeys
  have hst : Reflects s₂.sae t₂.sae ∧ Reflects t₂.sae s₂.sae := by
    rw [hs₂, ht₂]
    exact ⟨⟨rfl, rfl⟩, rfl, rfl⟩
  refine ⟨?_, hkck, ?_, saeProcessConfirm_agrees hhash hst.1 hst.2 hkck now,
    saeProcessConfirm_agrees hhash hst.2 hst.1 hkck.symm now⟩
  · rw [hs₂, ht₂]
    exact ⟨rfl, rfl⟩
  · rw [hs₂, ht₂]
    exact congrArg (Bytes.slice · 32 32) hkeys

/-! ### The generator -/

def generator : Point := .some _ _ (nonsingular generator_on_curve)

def orderBits : List Bool := (List.range 256).reverse.map order.testBit

def gJac : Jac (ZMod prime) := ⟨gx256.value, gy256.value, 1⟩

theorem order_nsmul_generator : order • generator = 0 := by
  have hg : Rep gJac generator := .inr ⟨one_ne_zero, _, _, _, rfl, by simp [gJac], by simp [gJac]⟩
  have hdouble : ∀ {s : Jac (ZMod prime)} {n : Nat}, Rep s (n • generator) → Rep (dbl s) ((2 * n) • generator) :=
    fun h => by
    rw [two_mul, add_nsmul]
    exact rep_dbl two_ne_zero' h
  have hadd : ∀ {s : Jac (ZMod prime)} {n : Nat}, Rep s (n • generator) →
    Rep (add s gJac) ((n + 1) • generator) := fun h => by
    rw [succ_nsmul]
    exact rep_add two_ne_zero' h hg
  have hzero : Rep (⟨1, 1, 0⟩ : Jac (ZMod prime)) (0 • generator) :=
    (zero_nsmul generator).symm ▸ rep_infinity 1 1
  have h := double_and_add (R := fun s n => Rep s (n • generator)) hdouble hadd orderBits hzero
  rw [show ofBits orderBits 0 = order by decide +kernel] at h
  exact h.elim And.right fun h => absurd (by decide +kernel) h.1

def saeCrypto : Crypto := { nullCrypto with
  hmacSha256 := fun _ _ => Bytes.zeros 32
  saePwe := fun _ _ _ => some (bytes 64 (pointBytes gx256 gy256)) }

def scalarOf (k : U8) : Bytes := Bytes.zeros 31 ++ [k]

theorem drawn_scalarOf : Drawn (scalarOf 1) (scalarOf 2) ∧ Drawn (scalarOf 3) (scalarOf 4) :=
  ⟨⟨⟨[scalarOf 1], by decide +kernel⟩, ⟨[scalarOf 2], by decide +kernel⟩, by decide +kernel⟩,
    ⟨[scalarOf 3], by decide +kernel⟩, ⟨[scalarOf 4], by decide +kernel⟩, by decide +kernel⟩

theorem sae_agrees_generator :
    let D := overP256 saeCrypto
    let s := saeStart D {} (some (scalarOf 1)) (some (scalarOf 2)) 0
    let t := saeStart D {} (some (scalarOf 3)) (some (scalarOf 4)) 0
    (saeProcessConfirm D (saeProcessCommit D s (saeCommitBody t.sae) 0)
      (saeConfirmBody D (saeProcessCommit D t (saeCommitBody s.sae) 0).sae) 0).jstate = .assoc :=
  (sae_agrees saeCrypto (fun _ _ => rfl) rfl rfl
    (encodes_bytes (encodes_pointBytes (ZMod.val_cast_of_lt (by decide)).symm
    (ZMod.val_cast_of_lt (by decide)).symm (nonsingular generator_on_curve)))
    (WeierstrassCurve.Affine.Point.some_ne_zero _) order_nsmul_generator
    drawn_scalarOf.1 drawn_scalarOf.2 0).2.2.2.1

end Sic.Ath
