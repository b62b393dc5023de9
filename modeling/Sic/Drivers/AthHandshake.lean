import Sic.Drivers.AthStage

/-! The handshake. A frame opens the port only if it is the first message 3 and
its MIC is right under the PTK at hand. -/

namespace Sic.Ath

variable {C : Crypto} {s s' : Sta} {n : List (Bytes × Bytes)}

theorem parseKde_kept (k : Keys) (id : U8) (v : Bytes) : (parseKde k id v).hs = k.hs ∧
    (parseKde k id v).pmk = k.pmk ∧ (parseKde k id v).ptk = k.ptk := by
  unfold parseKde
  split
  · split
    · exact ⟨rfl, rfl, rfl⟩
    split <;> exact ⟨rfl, rfl, rfl⟩
  · exact ⟨rfl, rfl, rfl⟩

theorem parseKeys_kept (k : Keys) (p : Bytes) : (parseKeys k p).hs = k.hs ∧ (parseKeys k p).pmk = k.pmk ∧
    (parseKeys k p).ptk = k.ptk := by
  induction k, p using parseKeys.induct with
  | case1 k id l rest hshort =>
    rw [parseKeys, if_pos hshort]
    exact ⟨rfl, rfl, rfl⟩
  | case2 k id l rest hfits ih =>
    rw [parseKeys, if_neg hfits]
    obtain ⟨h₁, h₂, h₃⟩ := parseKde_kept k id (rest.take l.toNat)
    exact ⟨ih.1.trans h₁, ih.2.1.trans h₂, ih.2.2.trans h₃⟩
  | case3 k p hp =>
    rw [parseKeys]
    · exact ⟨rfl, rfl, rfl⟩
    · exact hp

theorem Plain.trans_kept {s'' : Sta} (h : Plain s s') (h' : Plain s' s'') (hk : Kept s' s'') : Plain s s'' := by
  obtain ⟨new, hout, hnew⟩ := h.out
  obtain ⟨new', hout', hnew'⟩ := h'.out
  refine ⟨⟨new ++ new', by rw [hout', hout, List.append_assoc], fun hs o ho => ?_⟩, fun hu => ?_⟩
  · rcases List.mem_append.mp ho with ho | ho
    · exact hnew (hk.jb ▸ hs) o ho
    · exact hnew' hs o ho
  · rw [hk.jb]
    exact h.up (hk.jstate ▸ hu)

def Mild (s s' : Sta) : Prop := Plain s s' ∧ Kept s s'

theorem Mild.trans {s'' : Sta} (h : Mild s s') (h' : Mild s' s'') : Mild s s'' :=
  ⟨h.1.trans_kept h'.1 h'.2, h.2.trans h'.2⟩

theorem emit_mild (s : Sta) {o : Out} (ho : o.authorizing = false) : Mild s (s.emit o) :=
  ⟨.of_emit ho (plain_refl rfl id), rfl, rfl, rfl, rfl, rfl, rfl, rfl, rfl, rfl⟩

theorem keys_mild (s : Sta) {k : Keys} (hh : k.hs = s.keys.hs) (hp : k.pmk = s.keys.pmk)
    (ht : k.ptk = s.keys.ptk) : Mild s { s with keys := k } :=
  ⟨plain_refl rfl id, rfl, rfl, rfl, rfl, rfl, rfl, hh, hp, ht⟩

theorem mild_refl (s : Sta) : Mild s s := keys_mild s rfl rfl rfl

theorem Mild.safe (hm : Mild s s') (h : Stage C ⟨s, n⟩) : Safe C n s s' := ⟨hm.1, h.kept hm.2⟩

theorem installGroupKeys_mild (s : Sta) : Mild s (installGroupKeys s) := by
  have first : Mild s (if s.keys.gtkLen ≠ 0 then
      s.emit (.installKey s.keys.gtkId .group .aesCcm (s.keys.gtk.take s.keys.gtkLen) (some s.keys.gtkRsc))
      else s) := by
    split
    · exact emit_mild s rfl
    · exact mild_refl s
  unfold installGroupKeys
  generalize (if s.keys.gtkLen ≠ 0 then _ else s) = s₁ at first ⊢
  dsimp only
  split
  · exact first.trans (emit_mild s₁ rfl)
  · exact first

theorem eapolGroup_mild (C : Crypto) (s : Sta) (e plain : Bytes) : Mild s (eapolGroup C s e plain) := by
  have first : Mild s (if plain ≠ [] then installGroupKeys { s with keys := parseKeys s.keys plain } else s) := by
    split
    · obtain ⟨hh, hp, ht⟩ := parseKeys_kept s.keys plain
      exact (keys_mild s hh hp ht).trans (installGroupKeys_mild _)
    · exact mild_refl s
  unfold eapolGroup
  generalize (if plain ≠ [] then _ else s) = s₁ at first ⊢
  refine first.trans (.trans (keys_mild s₁ ?_ ?_ ?_) (emit_mild _ ?_)) <;> rfl

theorem eapolMsg3_again (C : Crypto) {s : Sta} (hs : s.keys.hs = 2) (e plain : Bytes) :
    Mild s (eapolMsg3 C s e plain) := by
  have hkeep : firstGroupKeys s plain = s := if_neg fun h => h.1 hs
  unfold eapolMsg3
  rw [hkeep]
  dsimp only
  rw [if_neg (not_not.mpr hs)]
  refine .trans (keys_mild s ?_ ?_ ?_) (emit_mild _ ?_) <;> rfl

theorem eapolMsg3_first (C : Crypto) {s : Sta} (hs : s.keys.hs ≠ 2) (e plain : Bytes) :
    (eapolMsg3 C s e plain).jstate = .up ∧ (eapolMsg3 C s e plain).keys.hs = 2 ∧
      (eapolMsg3 C s e plain).jb = s.jb := by
  have hjb : (firstGroupKeys s plain).jb = s.jb := by
    unfold firstGroupKeys
    split <;> rfl
  unfold eapolMsg3
  generalize firstGroupKeys s plain = s₁ at hjb
  dsimp only
  rw [if_pos hs]
  exact ⟨rfl, rfl, (installGroupKeys_mild _).2.jb.trans hjb⟩

theorem eapolMsg1_safe (h : Stage C ⟨s, n⟩) (hj : s.jstate = .keys) (e rnd : Bytes) (now : Nat) :
    Safe C ((e.slice eapNonce 32, rnd) :: n) s (eapolMsg1 C s e rnd now) := by
  have hst := h
  unfold Stage at hst
  simp only [hj] at hst
  have hres : eapolMsg1 C s e rnd now = if s.jstate ≠ .keys then s else _ := rfl
  rw [if_neg (not_not.mpr hj)] at hres
  generalize eapolMsg1 C s e rnd now = s' at hres
  have hfacts : s'.jstate = s.jstate ∧ s'.jb = s.jb ∧ s'.keys.hs = 1 ∧ (PmkCurrent C s' ↔ PmkCurrent C s) ∧
      s'.keys.ptk = pairwiseKey C s' (e.slice eapNonce 32) rnd := by
    rw [hres]
    exact ⟨rfl, rfl, rfl, Iff.rfl, rfl⟩
  refine ⟨plain_of_out (by rw [hres]; rfl) (by simp [Out.authorizing]) fun hu => hfacts.1 ▸ hu, ?_⟩
  obtain ⟨hj', hjb, hhs, hpmk, hptk⟩ := hfacts
  unfold Stage
  simp only [hj', hj]
  exact ⟨hjb ▸ hst.1, hpmk.mpr hst.2.1, .inr ⟨hhs, _, List.mem_cons_self .., hptk⟩⟩

theorem eapolVerified_spec (h : Stage C ⟨s, n⟩) (e : Bytes) :
    Stage C ⟨eapolVerified C s e, n⟩ ∧ (Grants s (eapolVerified C s e) →
      isPairwise e = true ∧ isInstall e = true ∧ s.keys.hs ≠ 2 ∧ (eapolVerified C s e).jb = s.jb) := by
  have quiet {s' : Sta} (hm : Mild s s') {P : Prop} : Stage C ⟨s', n⟩ ∧ (Grants s s' → P) :=
    ⟨h.kept hm.2, fun hg => absurd hg hm.1.not_grants⟩
  have seen (s₁ : Sta) (hrx : Mild s s₁) (plain : Bytes) {s' : Sta}
      (hs' : s' = if isPairwise e ∧ isInstall e then eapolMsg3 C s₁ e plain
        else if ¬ isPairwise e ∧ s₁.keys.hs = 2 then eapolGroup C s₁ e plain else s₁) :
      Stage C ⟨s', n⟩ ∧ (Grants s s' →
        isPairwise e = true ∧ isInstall e = true ∧ s.keys.hs ≠ 2 ∧ s'.jb = s.jb) := by
    by_cases h3 : isPairwise e ∧ isInstall e
    · rw [if_pos h3] at hs'
      by_cases hs : s₁.keys.hs = 2
      · exact quiet (hs' ▸ hrx.trans (eapolMsg3_again C hs e plain))
      obtain ⟨hup, hhs, hjb⟩ := eapolMsg3_first C hs e plain
      rw [← hs'] at hup hhs hjb
      refine ⟨?_, fun _ => ⟨h3.1, h3.2, hrx.2.hs ▸ hs, hjb.trans hrx.2.jb⟩⟩
      unfold Stage
      simp only [hup]
      exact fun _ => hhs
    rw [if_neg h3] at hs'
    split at hs'
    · exact quiet (hs' ▸ hrx.trans (eapolGroup_mild C s₁ e plain))
    · exact quiet (hs' ▸ hrx)
  exact seen { s with keys := { s.keys with rxReplay := e.slice eapReplay 8 } } (keys_mild s rfl rfl rfl) _ rfl

theorem eapolRx_spec (h : Stage C ⟨s, n⟩) (e rnd : Bytes) (now : Nat) :
    Stage C ⟨eapolRx C s e rnd now, heardFrame s e rnd ++ n⟩ ∧ (Grants s (eapolRx C s e rnd now) →
      isMsg3 e = true ∧ (s.jstate = .keys ∨ s.jstate = .up) ∧ s.keys.hs ≠ 2 ∧
        MicOk C s.jakm s.keys.ptk e ∧ (eapolRx C s e rnd now).jb = s.jb) := by
  have hmore : Stage C ⟨s, heardFrame s e rnd ++ n⟩ := h.nonces fun _ => List.subset_append_right ..
  have quiet {s' : Sta} {m : List (Bytes × Bytes)} (hm : Safe C m s s') {P : Prop} :
      Stage C ⟨s', m⟩ ∧ (Grants s s' → P) := ⟨hm.2, fun hg => absurd hg hm.1.not_grants⟩
  unfold eapolRx
  by_cases hlen : e.length < eapKdata ∨ e.byte 1 ≠ 3
  · rw [if_pos hlen]
    exact quiet hmore.safe
  rw [if_neg hlen]
  by_cases hj : s.jstate ≠ .keys ∧ s.jstate ≠ .up
  · rw [if_pos hj]
    exact quiet hmore.safe
  rw [if_neg hj]
  by_cases h1 : isPairwise e ∧ ¬ hasMic e
  · rw [if_pos h1]
    by_cases hk : s.jstate = .keys
    · have hheard : heardFrame s e rnd = [(e.slice eapNonce 32, rnd)] :=
        if_pos ⟨decide_eq_true ⟨hlen, h1⟩, hk⟩
      rw [hheard]
      exact quiet (eapolMsg1_safe h hk e rnd now)
    · have hsame : eapolMsg1 C s e rnd now = s := if_pos hk
      rw [hsame]
      exact quiet hmore.safe
  rw [if_neg h1]
  split
  · exact quiet hmore.safe
  next hmic =>
  split
  · exact quiet hmore.safe
  split
  · exact quiet hmore.safe
  split
  · split
    · exact quiet (joinFail_safe s _)
    · exact quiet hmore.safe
  next hok =>
  obtain ⟨hst, hg⟩ := eapolVerified_spec hmore e
  refine ⟨hst, fun hgr => ?_⟩
  obtain ⟨hp, hi, hhs, hjb⟩ := hg hgr
  refine ⟨?_, ?_, hhs, not_not.mp hok, hjb⟩
  · simp [isMsg3, hp, hi, not_not.mp hmic]
  by_cases hk : s.jstate = .keys
  · exact .inl hk
  · exact .inr (by_contra fun hu => hj ⟨hk, hu⟩)

theorem eapolRx_opens {s : Sta} {e : Bytes} (hj : s.jstate = .keys) (hs : s.keys.hs ≠ 2)
    (hlen : ¬ (e.length < eapKdata ∨ e.byte 1 ≠ 3)) (h3 : isMsg3 e = true)
    (hreplay : Bytes.memLt (e.slice eapReplay 8) s.keys.rxReplay = false) (hspan : (micSpan e).length ≤ 512)
    (hmic : MicOk C s.jakm s.keys.ptk e) (rnd : Bytes) (now : Nat) :
    (eapolRx C s e rnd now).jstate = .up ∧ (eapolRx C s e rnd now).jb = s.jb := by
  obtain ⟨hp, hm, hi⟩ := of_decide_eq_true h3
  unfold eapolRx
  rw [if_neg hlen, if_neg (fun h => h.1 hj), if_neg (fun h => h.2 hm), if_neg (not_not.mpr hm),
    if_neg (by simp [hreplay]), if_neg (Nat.not_lt.mpr hspan), if_neg (not_not.mpr hmic)]
  unfold eapolVerified
  dsimp only
  rw [if_pos ⟨hp, hi⟩]
  obtain ⟨hup, -, hjb⟩ := eapolMsg3_first C
    (s := { s with keys := { s.keys with rxReplay := e.slice eapReplay 8 } }) hs e (unwrapKeys C
      { s with keys := { s.keys with rxReplay := e.slice eapReplay 8 } } e)
  exact ⟨hup, hjb⟩

end Sic.Ath
