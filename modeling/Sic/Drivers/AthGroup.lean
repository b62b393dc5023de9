import Sic.Drivers.AthCalm
import Sic.Drivers.AthAuth

/-! The group keys: which message each comes from, with which receive counter, and how
the replay counter moves. -/

namespace Sic.Ath

variable {C : Crypto} {s s' : Sta}

/-! ### Key data -/

def kdes : Bytes → List (U8 × Bytes)
  | id :: l :: rest => if rest.length < l.toNat then [] else (id, rest.take l.toNat) :: kdes (rest.drop l.toNat)
  | _ => []
termination_by p => p.length
decreasing_by
  simp only [List.length_cons, List.length_drop]
  omega

theorem parseKeys_eq_foldl (k : Keys) (p : Bytes) :
    parseKeys k p = (kdes p).foldl (fun k x => parseKde k x.1 x.2) k := by
  induction k, p using parseKeys.induct with
  | case1 k id l rest hshort => rw [parseKeys, kdes, if_pos hshort, if_pos hshort, List.foldl_nil]
  | case2 k id l rest hfits ih => rw [parseKeys, kdes, if_neg hfits, if_neg hfits, List.foldl_cons, ih]
  | case3 k p hp => rw [parseKeys, kdes, List.foldl_nil] <;> exact hp

def IsRsn (x : U8 × Bytes) : Prop :=
  x.1 = 0xdd ∧ 6 ≤ x.2.length ∧ x.2.byte 0 = 0x00 ∧ x.2.byte 1 = 0x0f ∧ x.2.byte 2 = 0xac

def IsGtk (x : U8 × Bytes) : Prop := IsRsn x ∧ x.2.byte 3 = 0x01 ∧ 8 ≤ x.2.length

def IsIgtk (x : U8 × Bytes) : Prop := IsRsn x ∧ x.2.byte 3 = 0x09 ∧ 4 + 2 + 6 + 16 ≤ x.2.length

def CarriesGtk (plain : Bytes) (id : Nat) (key : Bytes) : Prop :=
  ∃ x ∈ kdes plain, IsGtk x ∧ id = (x.2.byte 4 &&& 3).toNat ∧ key = x.2.slice 6 (min (x.2.length - 6) 32)

def CarriesIgtk (plain : Bytes) (id : Nat) (key : Bytes) : Prop :=
  ∃ x ∈ kdes plain, IsIgtk x ∧ id = x.2.le16 4 ∧ key = x.2.slice (4 + 2 + 6) 16

variable {x : U8 × Bytes} {plain f : Bytes} {o : Out}

theorem parseKde_gtk (hx : IsGtk x) (k : Keys) : (parseKde k x.1 x.2).gtkId = (x.2.byte 4 &&& 3).toNat ∧
    (parseKde k x.1 x.2).gtk.take (parseKde k x.1 x.2).gtkLen = x.2.slice 6 (min (x.2.length - 6) 32) := by
  obtain ⟨hrsn, hb, hlen⟩ := hx
  rw [IsRsn] at hrsn
  rw [parseKde, if_pos hrsn, if_pos ⟨hb, hlen⟩]
  refine ⟨rfl, ?_⟩
  have hslice : (x.2.slice 6 (min (x.2.length - 6) 32)).length = min (x.2.length - 6) 32 :=
    Bytes.length_slice (by omega)
  exact List.take_left' hslice

theorem parseKde_not_gtk (hx : ¬ IsGtk x) (k : Keys) : (parseKde k x.1 x.2).gtkId = k.gtkId ∧
    (parseKde k x.1 x.2).gtk = k.gtk ∧ (parseKde k x.1 x.2).gtkLen = k.gtkLen := by
  unfold parseKde
  split
  · next hrsn =>
    split
    · next hb => exact absurd ⟨hrsn, hb⟩ hx
    · split <;> exact ⟨rfl, rfl, rfl⟩
  · exact ⟨rfl, rfl, rfl⟩

theorem parseKde_igtk (hx : IsIgtk x) (k : Keys) : (parseKde k x.1 x.2).igtkId = x.2.le16 4 ∧
    (parseKde k x.1 x.2).igtk = x.2.slice (4 + 2 + 6) 16 := by
  obtain ⟨hrsn, hb, hlen⟩ := hx
  rw [IsRsn] at hrsn
  rw [parseKde, if_pos hrsn, if_neg (by rw [hb]; exact fun h => absurd h.1 (by decide)), if_pos ⟨hb, hlen⟩]
  exact ⟨rfl, rfl⟩

theorem parseKde_not_igtk (hx : ¬ IsIgtk x) (k : Keys) : (parseKde k x.1 x.2).igtkId = k.igtkId ∧
    (parseKde k x.1 x.2).igtk = k.igtk := by
  unfold parseKde
  split
  · next hrsn =>
    split
    · exact ⟨rfl, rfl⟩
    split
    · next hb => exact absurd ⟨hrsn, hb⟩ hx
    · exact ⟨rfl, rfl⟩
  · exact ⟨rfl, rfl⟩

theorem parseKde_rest (k : Keys) (id : U8) (v : Bytes) : (parseKde k id v).rxReplay = k.rxReplay ∧
    (parseKde k id v).gtkRsc = k.gtkRsc := by
  unfold parseKde
  split
  · split
    · exact ⟨rfl, rfl⟩
    split <;> exact ⟨rfl, rfl⟩
  · exact ⟨rfl, rfl⟩

theorem parseKeys_gtk (k : Keys) (plain : Bytes) :
    ((parseKeys k plain).gtkLen = k.gtkLen ∧ ∀ x ∈ kdes plain, ¬ IsGtk x) ∨
      CarriesGtk plain (parseKeys k plain).gtkId ((parseKeys k plain).gtk.take (parseKeys k plain).gtkLen) := by
  rw [parseKeys_eq_foldl]
  have hlast := foldl_last (fun (k : Keys) (x : U8 × Bytes) => parseKde k x.1 x.2) (P := IsGtk)
    (Q := fun x k => k.gtkId = (x.2.byte 4 &&& 3).toNat ∧
      k.gtk.take k.gtkLen = x.2.slice 6 (min (x.2.length - 6) 32))
    (R := fun k k' => k'.gtkId = k.gtkId ∧ k'.gtk = k.gtk ∧ k'.gtkLen = k.gtkLen)
    (fun _ => ⟨rfl, rfl, rfl⟩) (fun k x hx => parseKde_gtk hx k) (fun k x hx => parseKde_not_gtk hx k)
    (fun _ _ _ h h' => ⟨h'.1.trans h.1, h'.2.1.trans h.2.1, h'.2.2.trans h.2.2⟩)
    (fun x k k' h h' => by rw [h'.1, h'.2.1, h'.2.2]; exact h) (kdes plain) k
  refine hlast.imp (fun h => ⟨h.1.2.2, h.2⟩) ?_
  rintro ⟨x, hx, hgtk, hid, hkey⟩
  exact ⟨x, hx, hgtk, hid, hkey⟩

theorem parseKeys_igtk (k : Keys) (plain : Bytes) :
    ((parseKeys k plain).igtkId = k.igtkId ∧ ∀ x ∈ kdes plain, ¬ IsIgtk x) ∨
      CarriesIgtk plain (parseKeys k plain).igtkId (parseKeys k plain).igtk := by
  rw [parseKeys_eq_foldl]
  have hlast := foldl_last (fun (k : Keys) (x : U8 × Bytes) => parseKde k x.1 x.2) (P := IsIgtk)
    (Q := fun x k => k.igtkId = x.2.le16 4 ∧ k.igtk = x.2.slice (4 + 2 + 6) 16)
    (R := fun k k' => k'.igtkId = k.igtkId ∧ k'.igtk = k.igtk)
    (fun _ => ⟨rfl, rfl⟩) (fun k x hx => parseKde_igtk hx k) (fun k x hx => parseKde_not_igtk hx k)
    (fun _ _ _ h h' => ⟨h'.1.trans h.1, h'.2.trans h.2⟩) (fun x k k' h h' => by rw [h'.1, h'.2]; exact h)
      (kdes plain) k
  refine hlast.imp (fun h => ⟨h.1.1, h.2⟩) ?_
  rintro ⟨x, hx, hgtk, hid, hkey⟩
  exact ⟨x, hx, hgtk, hid, hkey⟩

theorem parseKeys_rest (k : Keys) (p : Bytes) :
    (parseKeys k p).rxReplay = k.rxReplay ∧ (parseKeys k p).gtkRsc = k.gtkRsc := by
  rw [parseKeys_eq_foldl]
  induction kdes p generalizing k with
  | nil => exact ⟨rfl, rfl⟩
  | cons x l ih =>
    rw [List.foldl_cons]
    obtain ⟨hrx, hrsc⟩ := parseKde_rest k x.1 x.2
    obtain ⟨hrx', hrsc'⟩ := ih (parseKde k x.1 x.2)
    exact ⟨hrx'.trans hrx, hrsc'.trans hrsc⟩

/-! ### EAPOL frames -/

def Accepts (C : Crypto) (s : Sta) (f : Bytes) : Prop :=
  ¬ (f.length < eapKdata ∨ f.byte 1 ≠ 3) ∧ (s.jstate = .keys ∨ s.jstate = .up) ∧ hasMic f = true ∧
    Bytes.memLt (f.slice eapReplay 8) s.keys.rxReplay = false ∧ (micSpan f).length ≤ 512 ∧
      MicOk C s.jakm s.keys.ptk f

instance (C : Crypto) (s : Sta) (f : Bytes) : Decidable (Accepts C s f) := by
  unfold Accepts
  infer_instance

theorem eapolRx_cases (C : Crypto) (s : Sta) (f rnd : Bytes) (now : Nat) :
    (Accepts C s f ∧ eapolRx C s f rnd now = eapolVerified C s f) ∨
      (¬ Accepts C s f ∧ (eapolRx C s f rnd now = s ∨ (∃ why, eapolRx C s f rnd now = joinFail s why) ∨
        (isMsg1 f = true ∧ s.jstate = .keys ∧ eapolRx C s f rnd now = eapolMsg1 C s f rnd now))) := by
  unfold eapolRx
  split
  · next hlen => exact .inr ⟨fun h => h.1 hlen, .inl rfl⟩
  next hlen =>
  split
  · next hj => exact .inr ⟨fun h => h.2.1.elim hj.1 hj.2, .inl rfl⟩
  next hj =>
  split
  · next hm =>
    refine .inr ⟨fun h => hm.2 h.2.2.1, ?_⟩
    by_cases hk : s.jstate = .keys
    · exact .inr (.inr ⟨decide_eq_true ⟨hlen, hm⟩, hk, rfl⟩)
    · exact .inl (by rw [eapolMsg1, if_pos hk])
  split
  · next hm => exact .inr ⟨fun h => hm h.2.2.1, .inl rfl⟩
  next hm =>
  split
  · next hold =>
    refine .inr ⟨fun h => ?_, .inl rfl⟩
    rw [h.2.2.2.1] at hold
    cases hold
  next hold =>
  split
  · next hbig => exact .inr ⟨fun h => absurd h.2.2.2.2.1 (by omega), .inl rfl⟩
  next hbig =>
  split
  · next hmic =>
    refine .inr ⟨fun h => hmic h.2.2.2.2.2, ?_⟩
    split
    · exact .inr (.inl ⟨_, rfl⟩)
    · exact .inl rfl
  · next hmic =>
    refine .inl ⟨⟨hlen, ?_, not_not.mp hm, (by simpa using hold), by omega, not_not.mp hmic⟩, rfl⟩
    by_contra hne
    exact hj (not_or.mp hne)

def groupOuts (s : Sta) : List Out :=
  (if s.keys.gtkLen ≠ 0 then
      [.installKey s.keys.gtkId .group .aesCcm (s.keys.gtk.take s.keys.gtkLen) (some s.keys.gtkRsc)]
    else []) ++
  if s.jmfp ∧ s.keys.igtkId ≠ 0 then [.installKey s.keys.igtkId .group .aesCmac s.keys.igtk none] else []

theorem installGroupKeys_eq (s : Sta) : installGroupKeys s = { s with out := s.out ++ groupOuts s } := by
  rw [installGroupKeys, groupOuts]
  by_cases hg : s.keys.gtkLen ≠ 0
  · rw [if_pos hg, if_pos hg]
    by_cases hi : s.jmfp ∧ s.keys.igtkId ≠ 0
    · simp [Sta.emit, hi]
    · simp [Sta.emit, hi]
  · rw [if_neg hg, if_neg hg]
    by_cases hi : s.jmfp ∧ s.keys.igtkId ≠ 0
    · simp [Sta.emit, hi]
    · simp [hi]

def Carried (plain rsc : Bytes) : Out → Prop
  | .installKey id .group .aesCcm key r => r = some rsc ∧ CarriesGtk plain id key
  | .installKey id .group .aesCmac key _ => CarriesIgtk plain id key
  | _ => False

theorem Carried.ne_nil {rsc : Bytes} (h : Carried plain rsc o) : plain ≠ [] := by
  have hnone : kdes [] = [] := by
    rw [kdes]
    nofun
  rintro rfl
  unfold Carried at h
  split at h
  · obtain ⟨-, x, hx, -⟩ := h
    rw [hnone] at hx
    cases hx
  · obtain ⟨x, hx, -⟩ := h
    rw [hnone] at hx
    cases hx
  · exact h

theorem groupOuts_carried {k : Keys} {rsc : Bytes} (hkeys : s.keys = { parseKeys k plain with
      gtkRsc := s.keys.gtkRsc, replay := s.keys.replay }) (hrsc : s.keys.gtkLen ≠ 0 → s.keys.gtkRsc = rsc)
    (hgtk : k.gtkLen ≠ 0 → ∃ x ∈ kdes plain, IsGtk x)
    (higtk : s.jmfp = true → k.igtkId ≠ 0 → ∃ x ∈ kdes plain, IsIgtk x) : ∀ o ∈ groupOuts s,
      Carried plain rsc o := by
  have hg : s.keys.gtkLen = (parseKeys k plain).gtkLen ∧ s.keys.gtkId = (parseKeys k plain).gtkId ∧
      s.keys.gtk = (parseKeys k plain).gtk ∧ s.keys.igtkId = (parseKeys k plain).igtkId ∧
      s.keys.igtk = (parseKeys k plain).igtk := by
    rw [hkeys]
    exact ⟨rfl, rfl, rfl, rfl, rfl⟩
  obtain ⟨hlen, hid, hkey, hiid, hikey⟩ := hg
  intro o ho
  rw [groupOuts] at ho
  rcases List.mem_append.mp ho with ho | ho
  · split at ho
    · next hne =>
      rw [List.mem_singleton.mp ho]
      refine ⟨congrArg some (hrsc hne), ?_⟩
      rw [hid, hkey, hlen]
      rcases parseKeys_gtk k plain with ⟨hsame, hnone⟩ | hc
      · rw [hlen, hsame] at hne
        obtain ⟨x, hx, hgtk⟩ := hgtk hne
        exact absurd hgtk (hnone x hx)
      · exact hc
    · cases ho
  · split at ho
    · next hne =>
      rw [List.mem_singleton.mp ho, hiid, hikey]
      rcases parseKeys_igtk k plain with ⟨hsame, hnone⟩ | hc
      · rw [hiid, hsame] at hne
        obtain ⟨x, hx, higtk⟩ := higtk hne.1 hne.2
        exact absurd higtk (hnone x hx)
      · exact hc
    · cases ho

def Gives (P : Out → Prop) (s s' : Sta) : Prop := ∃ new, s'.out = s.out ++ new ∧ ∀ o ∈ new, o.isGroup = true → P o

variable {P : Out → Prop} {s₁ s₂ : Sta}

theorem gives_of_out (h : s₁.out = s.out) : Gives P s s₁ := ⟨[], by rw [h, List.append_nil], nofun⟩

theorem Gives.of_eq (h : Gives P s s₁) (hout : s₂.out = s₁.out) : Gives P s s₂ := by
  obtain ⟨new, he, hnew⟩ := h
  exact ⟨new, hout.trans he, hnew⟩

theorem Gives.emit (h : Gives P s s₁) (ho : o.isGroup = false) : Gives P s (s₁.emit o) := by
  obtain ⟨new, he, hnew⟩ := h
  refine ⟨new ++ [o], by rw [Sta.emit, he, List.append_assoc], fun x hx hg => ?_⟩
  rcases List.mem_append.mp hx with hx | hx
  · exact hnew x hx hg
  · rw [List.mem_singleton.mp hx, ho] at hg
    cases hg

theorem Gives.install (h : Gives P s s₁) (hp : ∀ o ∈ groupOuts s₁, P o) : Gives P s (installGroupKeys s₁) := by
  obtain ⟨new, he, hnew⟩ := h
  refine ⟨new ++ groupOuts s₁, by rw [installGroupKeys_eq, he, List.append_assoc], fun x hx hg => ?_⟩
  rcases List.mem_append.mp hx with hx | hx
  · exact hnew x hx hg
  · exact hp x hx

structure Took (s s' : Sta) (f plain : Bytes) : Prop where
  out : Gives (Carried plain (f.slice eapRsc 8)) s s'
  rx : s'.keys.rxReplay = f.slice eapReplay 8
  blank : s'.keys.hs ≠ 2 → s'.keys.gtkLen = 0 ∧ s'.keys.igtkId = 0
  up : s'.jstate = .up ∨ (s'.jstate = s.jstate ∧ s'.keys.hs = s.keys.hs)

theorem eapolMsg3_took (hblank : s.keys.hs ≠ 2 → s.keys.gtkLen = 0 ∧ s.keys.igtkId = 0)
    (hrx : s.keys.rxReplay = f.slice eapReplay 8) : Took s (eapolMsg3 C s f plain) f plain := by
  by_cases hs : s.keys.hs = 2
  · have hkeep : firstGroupKeys s plain = s := if_neg fun h => h.1 hs
    unfold eapolMsg3
    rw [hkeep]
    dsimp only
    rw [if_neg (not_not.mpr hs)]
    refine ⟨⟨_, rfl, fun o ho hg => ?_⟩, hrx, fun h => absurd hs h, .inr ⟨rfl, rfl⟩⟩
    rw [List.mem_singleton.mp ho] at hg
    cases hg
  · obtain ⟨hlen, hid⟩ := hblank hs
    have hfirst : (firstGroupKeys s plain).out = s.out ∧
      (firstGroupKeys s plain).keys.rxReplay = s.keys.rxReplay := by
      unfold firstGroupKeys
      split
      · exact ⟨rfl, (parseKeys_rest _ _).1⟩
      · exact ⟨rfl, rfl⟩
    have hcarried (s₂ : Sta) (hk : s₂.keys = { (firstGroupKeys s plain).keys with
        gtkRsc := f.slice eapRsc 8, replay := f.slice eapReplay 8 }) :
        ∀ o ∈ groupOuts s₂, Carried plain (f.slice eapRsc 8) o := by
      by_cases hplain : plain = []
      · have hsame : firstGroupKeys s plain = s := if_neg fun h => h.2 hplain
        rw [hsame] at hk
        have hnone : groupOuts s₂ = [] := by
          rw [groupOuts, hk]
          dsimp only
          rw [hlen, hid]
          simp
        rw [hnone]
        nofun
      · have hparse : firstGroupKeys s plain =
          { s with keys := parseKeys { s.keys with gtkLen := 0, igtkId := 0 } plain } :=
          if_pos ⟨hs, hplain⟩
        rw [hparse] at hk
        refine groupOuts_carried (k := { s.keys with gtkLen := 0, igtkId := 0 }) ?_ (fun _ => ?_)
          (absurd rfl) fun _ => absurd rfl
        · rw [hk]
        · rw [hk]
    unfold eapolMsg3
    generalize firstGroupKeys s plain = s₁ at hfirst hcarried ⊢
    dsimp only
    rw [if_pos hs]
    refine ⟨?_, ?_, fun h => absurd rfl h, .inl rfl⟩
    · have hstart : Gives (Carried plain (f.slice eapRsc 8)) s
          { s₁ with keys := { s₁.keys with gtkRsc := f.slice eapRsc 8, replay := f.slice eapReplay 8 } } :=
        gives_of_out hfirst.1
      refine Gives.emit (Gives.of_eq
        (Gives.emit (Gives.install (Gives.emit (Gives.emit hstart rfl) rfl) ?_) rfl) rfl) rfl
      exact hcarried _ rfl
    · rw [installGroupKeys_eq]
      exact hfirst.2.trans hrx

/-- A group message that may install keys: it is newer than any accepted, it has each key that is there
again, and its receive counter is the one at hand. -/
def Renews (C : Crypto) (s : Sta) (f : Bytes) : Prop :=
  unwrapKeys C s f ≠ [] → Bytes.memLt s.keys.rxReplay (f.slice eapReplay 8) = true ∧
    s.keys.gtkRsc = f.slice eapRsc 8 ∧
    (s.keys.gtkLen ≠ 0 → ∃ x ∈ kdes (unwrapKeys C s f), IsGtk x) ∧
    (s.jmfp = true → s.keys.igtkId ≠ 0 → ∃ x ∈ kdes (unwrapKeys C s f), IsIgtk x)

theorem eapolGroup_took (hs : s.keys.hs = 2) (hrx : s.keys.rxReplay = f.slice eapReplay 8)
    (hok : plain ≠ [] → s.keys.gtkRsc = f.slice eapRsc 8 ∧ (s.keys.gtkLen ≠ 0 → ∃ x ∈ kdes plain, IsGtk x) ∧
      (s.jmfp = true → s.keys.igtkId ≠ 0 → ∃ x ∈ kdes plain, IsIgtk x)) : Took s
        (eapolGroup C s f plain) f plain := by
  have hfirst : Gives (Carried plain (f.slice eapRsc 8)) s
      (if plain ≠ [] then installGroupKeys { s with keys := parseKeys s.keys plain } else s) ∧
      (if plain ≠ [] then installGroupKeys { s with keys := parseKeys s.keys plain } else s).keys.rxReplay =
        s.keys.rxReplay ∧
      (if plain ≠ [] then installGroupKeys { s with keys := parseKeys s.keys plain } else s).keys.hs = 2 ∧
      (if plain ≠ [] then installGroupKeys { s with keys := parseKeys s.keys plain } else s).jstate =
        s.jstate := by
    split
    · next hplain =>
      obtain ⟨hrsc, hgtk, higtk⟩ := hok hplain
      rw [installGroupKeys_eq]
      refine ⟨?_, (parseKeys_rest _ _).1, (parseKeys_kept _ _).1.trans hs, rfl⟩
      rw [← installGroupKeys_eq]
      refine (gives_of_out rfl).install (groupOuts_carried (k := s.keys) rfl (fun _ => ?_) hgtk higtk)
      exact (parseKeys_rest _ _).2.trans hrsc
    · exact ⟨gives_of_out rfl, rfl, hs, rfl⟩
  unfold eapolGroup
  generalize (if plain ≠ [] then _ else s) = s₁ at hfirst ⊢
  obtain ⟨hgives, hrx₁, hs₁, hj₁⟩ := hfirst
  exact ⟨(hgives.of_eq rfl).emit rfl, hrx₁.trans hrx, fun h => absurd hs₁ h, .inr ⟨hj₁, hs₁.trans hs.symm⟩⟩

theorem eapolVerified_took (hblank : s.keys.hs ≠ 2 → s.keys.gtkLen = 0 ∧ s.keys.igtkId = 0)
    (hok : isPairwise f = false → s.keys.hs = 2 → Renews C s f) :
    Took s (eapolVerified C s f) f (unwrapKeys C s f) := by
  have htake {s' : Sta} (h : Took { s with keys := { s.keys with rxReplay := f.slice eapReplay 8 } } s' f
    (unwrapKeys C s f)) :
      Took s s' f (unwrapKeys C s f) := ⟨h.out, h.rx, h.blank, h.up⟩
  refine htake ?_
  unfold eapolVerified
  dsimp only
  split
  · exact eapolMsg3_took (s := { s with keys := { s.keys with rxReplay := f.slice eapReplay 8 } }) hblank rfl
  split
  · next hg =>
    refine eapolGroup_took (s := { s with keys := { s.keys with rxReplay := f.slice eapReplay 8 } }) hg.2 rfl
      fun hplain => ?_
    obtain ⟨-, hrest⟩ := hok (by simpa using hg.1) hg.2 hplain
    exact hrest
  · exact ⟨gives_of_out rfl, rfl, hblank, .inr ⟨rfl, rfl⟩⟩

/-! ### Runs -/

/-- The driver, with the replay counters of the authenticated messages it has accepted from the network
it has picked. -/
structure Watch where
  sta : Sta := {}
  accepted : List Bytes := []

def accepts (C : Crypto) (s : Sta) (e : Event) : List Bytes :=
  ((frameOf e).map fun f => if Accepts C s f then [f.slice eapReplay 8] else []).getD []

def watch (C : Crypto) (w : Watch) (e : Event) : Watch :=
  let s := handle C w.sta e
  ⟨s, if w.sta.jstate = .find ∧ s.jstate = .start then [] else accepts C w.sta e ++ w.accepted⟩

/-- A message 1 leaves the replay counter where it is once one has been answered, and never sets it back; a
group message is as it must be. -/
def Careful (C : Crypto) (w : Watch) (e : Event) : Prop :=
  ∀ f ∈ frameOf e,
    (isMsg1 f = true → w.sta.jstate = .keys → Bytes.memLt (f.slice eapReplay 8) w.sta.keys.rxReplay = false ∧
      (w.sta.keys.hs ≠ 0 → f.slice eapReplay 8 = w.sta.keys.rxReplay)) ∧
    (Accepts C w.sta f → isPairwise f = false → w.sta.keys.hs = 2 → Renews C w.sta f)

/-- Each group key that an event installs comes from an authenticated message, with the receive counter of that
message, and from one of the group handshake only if it is newer than all accepted; the replay counter of a
link being keyed moves only with an authenticated message. -/
structure Fresh (C : Crypto) (w : Watch) (e : Event) : Prop where
  group : ∀ o ∈ (handle C w.sta e).out.drop w.sta.out.length, o.isGroup = true → ∃ f, frameOf e = some f ∧
    Accepts C w.sta f ∧
    Carried (unwrapKeys C w.sta f) (f.slice eapRsc 8) o ∧
    (isPairwise f = false → ∀ a ∈ w.accepted, Bytes.memLt a (f.slice eapReplay 8) = true)
  counter : (w.sta.jstate = .keys ∧ w.sta.keys.hs ≠ 0) ∨ w.sta.jstate = .up →
    (handle C w.sta e).keys.rxReplay ≠ w.sta.keys.rxReplay → ∃ f, frameOf e = some f ∧ Accepts C w.sta f

structure Tracked (w : Watch) : Prop where
  rx : w.sta.keys.rxReplay.length = 8
  early : w.sta.jstate.live = true → w.sta.jstate ≠ .up → w.sta.keys.hs ≠ 2
  blank : w.sta.jstate.live = true → w.sta.keys.hs ≠ 2 → w.sta.keys.gtkLen = 0 ∧ w.sta.keys.igtkId = 0
  seen : w.sta.jstate.live = true → ∀ a ∈ w.accepted, a.length = 8 ∧ Bytes.memLt w.sta.keys.rxReplay a = false

theorem Accepts.live (h : Accepts C s f) : s.jstate.live = true := by
  rcases h.2.1 with hj | hj
  · rw [hj]
    rfl
  · rw [hj]
    rfl

theorem length_replay (h : ¬ (f.length < eapKdata ∨ f.byte 1 ≠ 3)) : (f.slice eapReplay 8).length = 8 := by
  have hlen : ¬ f.length < eapKdata := fun hlt => h (.inl hlt)
  rw [eapKdata] at hlen
  exact Bytes.length_slice (by rw [eapReplay]; omega)

theorem Gives.mem (h : Gives P s s') (ho : o ∈ s'.out.drop s.out.length) (hg : o.isGroup = true) : P o := by
  obtain ⟨new, hout, hnew⟩ := h
  rw [hout, List.drop_left] at ho
  exact hnew o ho hg

theorem Calm.gives (h : Calm s s') : Gives (fun _ => False) s s' := by
  obtain ⟨new, hout, hnew⟩ := h.out
  exact ⟨new, hout, fun o ho hg => by rw [hnew o ho] at hg; cases hg⟩

theorem Picked.gives (h : Picked s s') : Gives (fun _ => False) s s' := by
  obtain ⟨new, hout, hnew⟩ := h.out
  exact ⟨new, hout, fun o ho hg => by rw [hnew o ho] at hg; cases hg⟩

variable {w : Watch} {e : Event}

theorem Tracked.calm (h : Tracked w) (hc : Calm w.sta s') {l : List Bytes} (hl : l ⊆ w.accepted) :
    Tracked ⟨s', l⟩ := by
  obtain ⟨pmk, hs, hkeys⟩ := hc.keys
  refine ⟨?_, fun hlive hne => ?_, fun hlive hne => ?_, fun hlive a ha => ?_⟩
  · rw [hkeys]
    exact h.rx
  · obtain ⟨hhs, hlive', hup⟩ := hc.live hlive
    rw [hhs]
    exact h.early hlive' fun hu => hne (hup hu)
  · obtain ⟨hhs, hlive', -⟩ := hc.live hlive
    rw [hhs] at hne
    rw [hkeys]
    exact h.blank hlive' hne
  · rw [hkeys]
    exact h.seen (hc.live hlive).2.1 a (hl ha)

theorem Fresh.calm (hc : Calm w.sta (handle C w.sta e)) : Fresh C w e := by
  refine ⟨fun o ho hg => (hc.gives.mem ho hg).elim, fun _ hne => ?_⟩
  obtain ⟨pmk, hs, hkeys⟩ := hc.keys
  rw [hkeys] at hne
  exact absurd rfl hne

theorem picked_step (hp : Picked w.sta (handle C w.sta e)) : Tracked (watch C w e) ∧ Fresh C w e := by
  have hstart (hlive : (handle C w.sta e).jstate.live = true) : (watch C w e).accepted = [] :=
    if_pos ⟨hp.find, hp.start hlive⟩
  refine ⟨⟨?_, fun _ _ => ?_, fun _ _ => hp.blank.2, fun hlive a ha => ?_⟩,
    fun o ho hg => (hp.gives.mem ho hg).elim, fun hj => ?_⟩
  · rw [watch, hp.rx]
    rfl
  · rw [watch, hp.blank.1]
    decide
  · rw [hstart hlive] at ha
    cases ha
  rw [hp.find] at hj
  rcases hj with hj | hj
  · cases hj.1
  · cases hj

theorem msg1_step (h : Tracked w) {rnd : Bytes} {now : Nat} (hm : isMsg1 f = true) (hj : w.sta.jstate = .keys)
    (he : handle C w.sta e = eapolMsg1 C w.sta f rnd now)
    (hold : Bytes.memLt (f.slice eapReplay 8) w.sta.keys.rxReplay = false)
    (hsame : w.sta.keys.hs ≠ 0 → f.slice eapReplay 8 = w.sta.keys.rxReplay) :
    Tracked ⟨handle C w.sta e, w.accepted⟩ ∧ Fresh C w e := by
  have hlive : w.sta.jstate.live = true := by rw [hj]; rfl
  have hlen : (f.slice eapReplay 8).length = 8 := length_replay (of_decide_eq_true hm).1
  have hmsg : (handle C w.sta e).keys.rxReplay = f.slice eapReplay 8 ∧ (handle C w.sta e).keys.hs = 1 ∧
      (handle C w.sta e).keys.gtkLen = w.sta.keys.gtkLen ∧ (handle C w.sta e).keys.igtkId = w.sta.keys.igtkId ∧
      Gives (fun _ => False) w.sta (handle C w.sta e) := by
    rw [he, eapolMsg1, if_neg (not_not.mpr hj)]
    exact ⟨rfl, rfl, rfl, rfl, Gives.of_eq (Gives.emit (gives_of_out rfl) rfl) rfl⟩
  obtain ⟨hrx, hhs, hgtk, higtk, hgives⟩ := hmsg
  refine ⟨⟨by rw [hrx, hlen], fun _ _ => by rw [hhs]; decide, fun _ _ => ?_, fun _ a ha => ?_⟩,
    fun o ho hg => (hgives.mem ho hg).elim, fun hkey hne => ?_⟩
  · rw [hgtk, higtk]
    exact h.blank hlive (h.early hlive (by rw [hj]; nofun))
  · obtain ⟨halen, hle⟩ := h.seen hlive a ha
    refine ⟨halen, ?_⟩
    rw [Bytes.memLt_eq_false_iff (by rw [hlen, h.rx])] at hold
    rw [Bytes.memLt_eq_false_iff (by rw [halen, h.rx])] at hle
    rw [hrx, Bytes.memLt_eq_false_iff (by rw [hlen, halen])]
    omega
  · rw [hj] at hkey
    rcases hkey with hkey | hkey
    · rw [hrx] at hne
      exact absurd (hsame hkey.2) hne
    · cases hkey

theorem accepts_step (h : Tracked w) (he : handle C w.sta e = eapolVerified C w.sta f) (hf : frameOf e = some f)
    (ha : Accepts C w.sta f) (hok : isPairwise f = false → w.sta.keys.hs = 2 → Renews C w.sta f) :
    Tracked ⟨handle C w.sta e, f.slice eapReplay 8 :: w.accepted⟩ ∧ Fresh C w e := by
  have hlive := ha.live
  have hlen : (f.slice eapReplay 8).length = 8 := length_replay ha.1
  have htook := eapolVerified_took (h.blank hlive) hok
  rw [← he] at htook
  have hself : Bytes.memLt (f.slice eapReplay 8) (f.slice eapReplay 8) = false := by
    rw [Bytes.memLt_eq_false_iff rfl]
  refine ⟨⟨by rw [htook.rx, hlen], fun _ hne => ?_, fun _ => htook.blank, fun _ a hmem => ?_⟩, fun o ho hg => ?_,
    fun _ _ => ⟨f, hf, ha⟩⟩
  · obtain ⟨hsame, hhs⟩ := htook.up.resolve_left hne
    rw [hhs]
    exact h.early hlive fun hu => hne (hsame.trans hu)
  · rw [htook.rx]
    rcases List.mem_cons.mp hmem with rfl | hmem
    · exact ⟨hlen, hself⟩
    obtain ⟨halen, hle⟩ := h.seen hlive a hmem
    refine ⟨halen, ?_⟩
    have hold := ha.2.2.2.1
    rw [Bytes.memLt_eq_false_iff (by rw [hlen, h.rx])] at hold
    rw [Bytes.memLt_eq_false_iff (by rw [halen, h.rx])] at hle
    rw [Bytes.memLt_eq_false_iff (by rw [hlen, halen])]
    omega
  · have hc := htook.out.mem ho hg
    refine ⟨f, hf, ha, hc, fun hpair a hmem => ?_⟩
    have hs : w.sta.keys.hs = 2 := by
      by_contra hs
      have hout : (eapolVerified C w.sta f).out = w.sta.out := by
        unfold eapolVerified
        dsimp only
        rw [if_neg (by simp [hpair]), if_neg fun h => hs h.2]
      rw [he, hout, List.drop_length] at ho
      cases ho
    obtain ⟨halen, hle⟩ := h.seen hlive a hmem
    have hnew := (hok hpair hs hc.ne_nil).1
    rw [Bytes.memLt_eq_false_iff (by rw [halen, h.rx])] at hle
    rw [Bytes.memLt_iff_value (by rw [hlen, h.rx])] at hnew
    rw [Bytes.memLt_iff_value (by rw [hlen, halen])]
    omega

theorem watch_step (h : Tracked w) (hok : Careful C w e) : Tracked (watch C w e) ∧ Fresh C w e := by
  cases hf : frameOf e with
  | none =>
    have hacc : accepts C w.sta e = [] := by rw [accepts, hf]; rfl
    rcases handle_cases (C := C) (s := w.sta) hf with hc | hp
    · refine ⟨?_, .calm hc⟩
      rw [watch, hacc]
      split
      · exact h.calm hc (List.nil_subset _)
      · exact h.calm hc (List.Subset.refl _)
    · exact picked_step hp
  | some f =>
    obtain ⟨hmsg, hgroup⟩ := hok f hf
    cases e with
    | msdu p rnd now =>
      have hrx : handle C w.sta (.msdu p rnd now) = eapolRx C w.sta f rnd now := by
        rw [handle, deliverLlc, show eapolOf p = some f from hf]
      rcases eapolRx_cases C w.sta f rnd now with ⟨ha, he⟩ | ⟨ha, hrest⟩
      · have hstep := accepts_step h (hrx.trans he) hf ha (hgroup ha)
        refine ⟨?_, hstep.2⟩
        have hjs : w.sta.jstate ≠ .find := fun hj => by
          have := ha.live
          rw [hj] at this
          cases this
        rw [watch, accepts, hf, Option.map_some, Option.getD_some, if_pos ha, if_neg fun hj => hjs hj.1]
        exact hstep.1
      · have hacc : accepts C w.sta (.msdu p rnd now) = [] := by
          rw [accepts, hf, Option.map_some, Option.getD_some, if_neg ha]
        have hcalm (hc : Calm w.sta (handle C w.sta (.msdu p rnd now))) :
            Tracked (watch C w (.msdu p rnd now)) ∧ Fresh C w (.msdu p rnd now) := by
          refine ⟨?_, .calm hc⟩
          rw [watch, hacc]
          split
          · exact h.calm hc (List.nil_subset _)
          · exact h.calm hc (List.Subset.refl _)
        rcases hrest with he | ⟨why, he⟩ | ⟨hm, hj, he⟩
        · exact hcalm (by rw [hrx, he]; exact .refl _)
        · exact hcalm (by rw [hrx, he]; exact joinFail_calm _ _)
        obtain ⟨hold, hsame⟩ := hmsg hm hj
        have hstep := msg1_step h hm hj (hrx.trans he) hold hsame
        refine ⟨?_, hstep.2⟩
        rw [watch, hacc, if_neg fun hx => by rw [hj] at hx; cases hx.1]
        exact hstep.1
    | _ => cases hf

/-- In every run of the driver in which message 1 and group messages are as they must be, each group key is
installed fresh. -/
theorem group_keys_fresh (C : Crypto) {s₀ : Sta} (h₀ : s₀.jstate = .idle) (hlen : s₀.keys.rxReplay.length = 8)
    {es : List Event}
    {e : Event} (hes : Along (Careful C) (watch C) ⟨s₀, []⟩ (es ++ [e])) :
    Fresh C (run (watch C) ⟨s₀, []⟩ es) e := by
  obtain ⟨hpre, hlast, -⟩ := hes.split
  have hinit : Tracked ⟨s₀, []⟩ := by
    refine ⟨hlen, ?_, ?_, ?_⟩ <;> intro hlive <;> rw [h₀] at hlive <;> cases hlive
  have htracked := invariant_run (P := Tracked) (fun w e h he => (watch_step h he).1) hinit hpre
  exact (watch_step htracked hlast).2

/-! ### A network with a group key -/

instance (x : U8 × Bytes) : Decidable (IsRsn x) := inferInstanceAs (Decidable (_ ∧ _))
instance (x : U8 × Bytes) : Decidable (IsGtk x) := inferInstanceAs (Decidable (_ ∧ _))
instance (x : U8 × Bytes) : Decidable (IsIgtk x) := inferInstanceAs (Decidable (_ ∧ _))

instance (C : Crypto) (s : Sta) (f : Bytes) : Decidable (Renews C s f) := inferInstanceAs (Decidable (_ → _))

instance (C : Crypto) (w : Watch) (e : Event) : Decidable (Careful C w e) :=
  inferInstanceAs (Decidable (∀ f ∈ frameOf e, _ ∧ _))

def kdeCrypto : Crypto :=
  { nullCrypto with aesUnwrap := fun _ _ _ => some ([0xdd, 22, 0x00, 0x0f, 0xac, 0x01, 1, 0] ++ Bytes.zeros 16) }

def keyFrame (info : Bytes) (count rsc : U8) : Bytes :=
  [1, 3, 0, 127, 2] ++ info ++ [0, 0] ++ (Bytes.zeros 7 ++ [count]) ++ Bytes.zeros 48 ++
    ([rsc] ++ Bytes.zeros 7) ++ Bytes.zeros 24 ++
    [0, 32] ++ Bytes.zeros 32

def keyed (count rsc : U8) : Event := .msdu (asMsdu (keyFrame [0x11, 0x48] count rsc)) [] 6

def rekeyed (count rsc : U8) : Event := .msdu (asMsdu (keyFrame [0x11, 0x00] count rsc)) [] 7

def groupKey (rsc : U8) : Out := .installKey 1 .group .aesCcm (Bytes.zeros 16) (some ([rsc] ++ Bytes.zeros 7))

def joinKeyed : List Event := joinAp ++ [msg1, keyed 1 5]

def tells (es : List Event) (e : Event) : List Out :=
  (handle kdeCrypto (run (watch kdeCrypto) {} es).sta e).out.drop (run (watch kdeCrypto) {} es).sta.out.length

theorem group_keys_fresh_rekeyed :
    groupKey 5 ∈ tells joinKeyed (rekeyed 2 5) ∧
      Fresh kdeCrypto (run (watch kdeCrypto) {} joinKeyed) (rekeyed 2 5) :=
  ⟨by decide +kernel, group_keys_fresh kdeCrypto rfl rfl (by decide +kernel)⟩

theorem Fresh.rsc {es : List Event} {e : Event} {id : Nat} {key : Bytes} {rsc : Option Bytes}
    (h : Fresh kdeCrypto (run (watch kdeCrypto) {} es) e) (hf : frameOf e = some f)
    (ho : .installKey id .group .aesCcm key rsc ∈ tells es e) : rsc = some (f.slice eapRsc 8) := by
  obtain ⟨f', hf', -, hc, -⟩ := h.group _ ho rfl
  cases hf.symm.trans hf'
  exact hc.1

/-- A group message with receive counter 9 installs its key with the counter 5 of message 3; the same frame
again installs the key again; and a second message 1, which has no MIC, sets the replay counter. -/
theorem group_keys_stale :
    groupKey 5 ∈ tells joinKeyed (rekeyed 2 9) ∧
      ¬ Fresh kdeCrypto (run (watch kdeCrypto) {} joinKeyed) (rekeyed 2 9) ∧
    groupKey 9 ∈ tells (joinKeyed ++ [rekeyed 2 9]) (rekeyed 2 9) ∧
      ¬ Fresh kdeCrypto (run (watch kdeCrypto) {} (joinKeyed ++ [rekeyed 2 9])) (rekeyed 2 9) ∧
    (run (watch kdeCrypto) {} (joinAp ++ [msg1])).sta.keys.rxReplay = Bytes.zeros 8 ∧
      (run (watch kdeCrypto) {} (joinAp ++ [msg1,
        .msdu (asMsdu (keyFrame [0x00, 0x08] 3 0)) [] 6])).sta.keys.rxReplay =
        Bytes.zeros 7 ++ [3] := by
  have hfirst : groupKey 5 ∈ tells joinKeyed (rekeyed 2 9) := by decide +kernel
  have hagain : groupKey 9 ∈ tells (joinKeyed ++ [rekeyed 2 9]) (rekeyed 2 9) := by decide +kernel
  refine ⟨hfirst, fun h => ?_, hagain, fun h => ?_, by decide +kernel, by decide +kernel⟩
  · have := h.rsc (f := keyFrame [0x11, 0x00] 2 9) (by decide +kernel) hfirst
    exact absurd this (by decide +kernel)
  obtain ⟨f, hf, -, -, hnew⟩ := h.group _ hagain rfl
  have hframe : frameOf (rekeyed 2 9) = some (keyFrame [0x11, 0x00] 2 9) := by decide +kernel
  cases hframe.symm.trans hf
  have hlt := hnew (by decide +kernel) (Bytes.zeros 7 ++ [2]) (by decide +kernel)
  exact absurd hlt (by decide +kernel)

end Sic.Ath
