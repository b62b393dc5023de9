import Sic.Fs.Ext4
import Sic.Fs.ZaefsRecs

/-! A leaf block of an ext4 directory: putting a new entry into the slack of its records, and taking one out. -/

namespace Sic.Fs.Ext4

structure DirEnt where
  ino : Nat
  name : EntName
  type : U8
deriving DecidableEq, Repr

/-- A record of a leaf: its length, and its entry unless it is unused. -/
structure Slot where
  len : Nat
  ent : Option DirEnt
deriving DecidableEq, Repr

def slotAt (b : Block) (off : Nat) : Slot where
  len := (recAt b off).len
  ent := if (recAt b off).ino = 0 then none else some ⟨(recAt b off).ino, (recAt b off).name, (recAt b off).type⟩

def recNeed (n : Nat) : Nat := (8 + n + 3) / 4 * 4

def Slot.used (s : Slot) : Nat := (s.ent.map fun e => recNeed e.name.length).getD 0

def Geom.dirSpace (fs : Geom) : Nat := fs.bs - if fs.csum then 12 else 0

def isTail (b : Block) (off : Nat) : Bool :=
  leGet b off 4 = 0 ∧ leGet b (off + 4) 2 = 12 ∧ b (off + 6) = 0 ∧ b (off + 7) = 0xde

def leafInsert (stop : Nat) (b : Block) (name : EntName) (ino : Nat) (type : U8) (off : Nat) : Option Block :=
  if _h : off + 8 ≤ stop ∧ ¬((recAt b off).len < 8 ∨ stop < off + (recAt b off).len) then
    let rl := (recAt b off).len
    let used := (slotAt b off).used
    if used + recNeed name.length ≤ rl then
      let b := if used ≠ 0 then lePut b (off + 4) 2 used else b
      some (putEntry (lePut b (off + used + 4) 2 (rl - used)) (off + used) ino name type)
    else leafInsert stop b name ino type (off + rl)
  else none
termination_by stop - off
decreasing_by omega

def findEntry (bs : Nat) (b : Block) (name : EntName) (off : Nat) : Option Nat :=
  if _h : off + 8 ≤ bs ∧ ¬((recAt b off).len < 8 ∨ bs < off + (recAt b off).len) then
    if !isTail b off ∧ (recAt b off).ino ≠ 0 ∧ (recAt b off).name = name then some off
    else findEntry bs b name (off + (recAt b off).len)
  else none
termination_by bs - off
decreasing_by omega

def prevOf (b : Block) (e off : Nat) (prev : Option Nat) : Option Nat :=
  if _h : off < e ∧ ¬(recAt b off).len < 8 then prevOf b e (off + (recAt b off).len) (some off) else prev
termination_by e - off
decreasing_by omega

def foldEntry (b : Block) (e : Nat) : Block :=
  match prevOf b e 0 none with
  | some p =>
    if p + (recAt b p).len = e then lePut b (p + 4) 2 ((recAt b p).len + (recAt b e).len) else lePut b e 4 0
  | none => lePut b e 4 0

def removeEntry (fs : Geom) (b : Block) (name : EntName) : Option Block :=
  (findEntry fs.bs b name 0).map (foldEntry b)

structure Slot.Good (s : Slot) : Prop where
  aligned : 4 ∣ s.len
  eight : 8 ≤ s.len
  fits : s.used ≤ s.len

/-- From `off` up to `stop` the block is the given records, one behind the other. -/
inductive Chain (b : Block) (stop : Nat) : Nat → List Slot → Prop
  | done : Chain b stop stop []
  | step {off : Nat} {rs : List Slot} : (slotAt b off).Good → Chain b stop (off + (slotAt b off).len) rs →
      Chain b stop off (slotAt b off :: rs)

def entries (rs : List Slot) : List DirEnt := rs.filterMap Slot.ent

variable {b b' : Block} {off stop : Nat} {rs : List Slot} {name : EntName}

theorem recNeed_spec (n : Nat) : 8 + n ≤ recNeed n ∧ 8 ≤ recNeed n ∧ 4 ∣ recNeed n := by
  rw [recNeed]
  omega

theorem slotAt_len (b : Block) (off : Nat) : (slotAt b off).len = (recAt b off).len := rfl

theorem slotAt_congr (h : ∀ k, off ≤ k → k < off + 8 → b' k = b k)
    (hname : (recAt b off).ino ≠ 0 → ∀ k, off + 8 ≤ k → k < off + 8 + (recAt b off).name.length → b' k = b k) :
    slotAt b' off = slotAt b off := by
  have hino : (recAt b' off).ino = (recAt b off).ino := leGet_congr fun k h₁ h₂ => h k h₁ (by omega)
  have hlen : (recAt b' off).len = (recAt b off).len := leGet_congr fun k h₁ h₂ => h k (by omega) (by omega)
  by_cases hfree : (recAt b off).ino = 0
  · rw [slotAt, slotAt, hlen, hino, if_pos hfree, if_pos hfree]
  have hrec : recAt b' off = recAt b off := recAt_congr fun k h₁ h₂ => by
    by_cases hk : k < off + 8
    · exact h k h₁ hk
    · exact hname hfree k (by omega) h₂
  rw [slotAt, slotAt, hrec]

theorem used_of_live (h : (recAt b off).ino ≠ 0) : (slotAt b off).used = recNeed (recAt b off).name.length := by
  rw [Slot.used, slotAt]
  simp [h]

theorem used_of_free (h : (recAt b off).ino = 0) : (slotAt b off).used = 0 := by
  rw [Slot.used, slotAt]
  simp [h]

theorem slotAt_eq (hg : (slotAt b off).Good) (h : ∀ k, off ≤ k → k < off + (slotAt b off).len → b' k = b k) :
    slotAt b' off = slotAt b off := by
  have height := hg.eight
  refine slotAt_congr (fun k h₁ h₂ => h k h₁ (by omega)) fun hlive k h₁ h₂ => h k (by omega) ?_
  have hfits := hg.fits
  rw [used_of_live hlive] at hfits
  have := (recNeed_spec (recAt b off).name.length).1
  omega

namespace Chain

theorem le (h : Chain b stop off rs) : off ≤ stop := by
  induction h with
  | done => exact Nat.le_refl _
  | step _ _ ih => omega

theorem congr (h : Chain b stop off rs) (hb : ∀ k, off ≤ k → k < stop → b' k = b k) : Chain b' stop off rs := by
  induction h with
  | done => exact .done
  | @step off rs hg htail ih =>
    have hle := htail.le
    have hsame : slotAt b' off = slotAt b off := slotAt_eq hg fun k h₁ h₂ => hb k h₁ (by omega)
    rw [← hsame] at hg ih ⊢
    refine .step hg (ih fun k h₁ h₂ => hb k (by omega) h₂)

theorem append {mid : Nat} {post : List Slot} (h : Chain b mid off rs) (hpost : Chain b stop mid post) :
    Chain b stop off (rs ++ post) := by
  induction h with
  | done => exact hpost
  | step hg _ ih => exact .step hg ih

theorem split {post : List Slot} (h : Chain b stop off (rs ++ post)) :
    ∃ mid, Chain b mid off rs ∧ Chain b stop mid post := by
  induction rs generalizing off with
  | nil => exact ⟨off, .done, h⟩
  | cons s rs ih =>
    cases h with
    | step hg htail =>
      obtain ⟨mid, hpre, hpost⟩ := ih htail
      exact ⟨mid, .step hg hpre, hpost⟩

theorem eq_nil (h : Chain b stop stop rs) : rs = [] := by
  cases h with
  | done => rfl
  | step hg htail =>
    have := htail.le
    have := hg.eight
    omega

theorem eight_le (h : Chain b stop off rs) (hlt : off < stop) : 8 ≤ (slotAt b off).len := by
  cases h with
  | done => omega
  | step hg _ => exact hg.eight

theorem one {s : Slot} (h : Chain b stop off [s]) : s = slotAt b off ∧ s.Good ∧ stop = off + s.len := by
  cases h with
  | step hg htail =>
    cases htail
    exact ⟨rfl, hg, rfl⟩

end Chain

/-! ### Putting in -/

def Slot.Room (s : Slot) (name : EntName) : Prop := s.used + recNeed name.length ≤ s.len

instance (s : Slot) (name : EntName) : Decidable (s.Room name) := inferInstanceAs (Decidable (_ ≤ _))

def Slot.give (s : Slot) (new : DirEnt) : List Slot :=
  match s.ent with
  | some e => [⟨s.used, some e⟩, ⟨s.len - s.used, some new⟩]
  | none => [⟨s.len, some new⟩]

def putInto (b : Block) (off : Nat) (new : DirEnt) : Block :=
  let used := (slotAt b off).used
  let b' := if used ≠ 0 then lePut b (off + 4) 2 used else b
  putEntry (lePut b' (off + used + 4) 2 ((recAt b off).len - used)) (off + used) new.ino new.name new.type

variable {new : DirEnt}

theorem putInto_outside (hroom : (slotAt b off).Room new.name) {k : Nat}
    (hk : k < off ∨ off + (slotAt b off).len ≤ k) :
    putInto b off new k = b k := by
  have hneed := recNeed_spec new.name.length
  rw [Slot.Room] at hroom
  rw [putInto]
  rw [putEntry_of_apart (by omega), lePut, if_neg (by omega)]
  split
  · rw [lePut, if_neg (by omega)]
  · rfl

theorem slotAt_putInto (b : Block) (off : Nat) (hname : new.name.length < 256) (hino : new.ino < 2 ^ 32)
    (hpos : new.ino ≠ 0) :
    slotAt (putInto b off new) (off + (slotAt b off).used) =
      ⟨(slotAt b off).len - (slotAt b off).used, some new⟩ := by
  have h16 : (slotAt b off).len < 2 ^ 16 := leGet_lt b (off + 4) 2
  rw [slotAt, putInto]
  rw [recAt_putEntry _ _ new.type hname hino]
  simp only [hpos, if_false, leGet_lePut]
  congr 1
  exact Nat.mod_eq_of_lt (Nat.lt_of_le_of_lt (Nat.sub_le _ _) h16)

theorem slotAt_putInto_live (new : DirEnt) (hg : (slotAt b off).Good) (hlive : (recAt b off).ino ≠ 0) :
    slotAt (putInto b off new) off = ⟨(slotAt b off).used, (slotAt b off).ent⟩ := by
  have h16 : (slotAt b off).len < 2 ^ 16 := leGet_lt b (off + 4) 2
  have hused := used_of_live hlive
  have hold := recNeed_spec (recAt b off).name.length
  have hfits := hg.fits
  generalize hb' : putInto b off new = b'
  have hsame : ∀ k, off ≤ k → k < off + (slotAt b off).used → k ≠ off + 4 → k ≠ off + 5 → b' k = b k := by
    intro k h₁ h₂ h₃ h₄
    rw [← hb', putInto]
    rw [putEntry_of_apart (.inl h₂), lePut, if_neg (by omega), if_pos (by omega), lePut, if_neg (by omega)]
  have hlen : leGet b' (off + 4) 2 = (slotAt b off).used := by
    rw [← hb', putInto]
    refine (leGet_congr fun k h₁ h₂ => putEntry_of_apart (.inl (by omega))).trans ?_
    rw [leGet_lePut_of_apart _ _ (by omega), if_pos (by omega), leGet_lePut]
    exact Nat.mod_eq_of_lt (Nat.lt_of_le_of_lt hfits h16)
  have hino : leGet b' off 4 = leGet b off 4 :=
    leGet_congr fun k h₁ h₂ => hsame k h₁ (by omega) (by omega) (by omega)
  have hname : ∀ k ∈ List.range (b (off + 6)).toNat, b' (off + 8 + k) = b (off + 8 + k) := by
    intro k hk
    rw [List.mem_range, ← name_length] at hk
    exact hsame _ (by omega) (by omega) (by omega) (by omega)
  have h₆ := hsame (off + 6) (by omega) (by omega) (by omega) (by omega)
  have h₇ := hsame (off + 7) (by omega) (by omega) (by omega) (by omega)
  have hrec : recAt b' off = { recAt b off with len := (slotAt b off).used } := by
    conv_lhs => rw [recAt, hino, hlen, h₆, h₇, List.map_congr_left hname]
    rfl
  rw [slotAt, hrec]
  rfl

theorem Chain.putInto {rs : List Slot} (hg : (slotAt b off).Good)
    (htail : Chain b stop (off + (slotAt b off).len) rs)
    (hname : new.name.length < 256) (hino : new.ino < 2 ^ 32) (hpos : new.ino ≠ 0)
    (hroom : (slotAt b off).Room new.name) :
    Chain (Ext4.putInto b off new) stop off ((slotAt b off).give new ++ rs) := by
  have hnew := slotAt_putInto b off hname hino hpos
  have hneed := recNeed_spec new.name.length
  have htail' : Chain (Ext4.putInto b off new) stop (off + (slotAt b off).len) rs :=
    htail.congr fun k h₁ _ => putInto_outside hroom (.inr h₁)
  have hr := hroom
  rw [Slot.Room] at hr
  have hgood : Slot.Good ⟨(slotAt b off).len - (slotAt b off).used, some new⟩ := by
    have h4 : 4 ∣ (slotAt b off).used := by
      by_cases hlive : (recAt b off).ino = 0
      · rw [used_of_free hlive]
        exact Nat.dvd_zero 4
      · rw [used_of_live hlive]
        exact (recNeed_spec _).2.2
    exact ⟨Nat.dvd_sub hg.aligned h4, show 8 ≤ _ - _ by omega, show recNeed new.name.length ≤ _ - _ by omega⟩
  by_cases hlive : (recAt b off).ino = 0
  · have hused := used_of_free hlive
    have hent : (slotAt b off).ent = none := if_pos hlive
    rw [hused, Nat.add_zero, Nat.sub_zero] at hnew
    rw [hused, Nat.sub_zero] at hgood
    rw [Slot.give, hent]
    simp only [List.cons_append, List.nil_append]
    rw [← hnew]
    refine .step (by rw [hnew]; exact hgood) ?_
    rw [hnew]
    exact htail'
  · have hold := slotAt_putInto_live new hg hlive
    have hused := used_of_live hlive
    have hsize := recNeed_spec (recAt b off).name.length
    have hent : (slotAt b off).ent = some ⟨(recAt b off).ino, (recAt b off).name, (recAt b off).type⟩ :=
      if_neg hlive
    rw [Slot.give, hent]
    simp only [List.cons_append, List.nil_append]
    rw [hent] at hold
    rw [← hold]
    refine .step ?_ ?_
    · rw [hold]
      exact ⟨show 4 ∣ (slotAt b off).used by omega, show 8 ≤ (slotAt b off).used by omega,
        Nat.le_of_eq hused.symm⟩
    rw [hold]
    simp only
    rw [← hnew]
    refine .step (by rw [hnew]; exact hgood) ?_
    rw [hnew]
    simp only
    rw [show off + (slotAt b off).used + ((slotAt b off).len - (slotAt b off).used) =
      off + (slotAt b off).len by omega]
    exact htail'

theorem leafInsert_eq (stop : Nat) (b : Block) (new : DirEnt) (off : Nat) :
    leafInsert stop b new.name new.ino new.type off =
      if off + 8 ≤ stop ∧ ¬((recAt b off).len < 8 ∨ stop < off + (recAt b off).len) then
        if (slotAt b off).Room new.name then some (putInto b off new)
        else leafInsert stop b new.name new.ino new.type (off + (recAt b off).len)
      else none := by
  rw [leafInsert]
  split <;> rfl

theorem Chain.looks (hg : (slotAt b off).Good) (htail : Chain b stop (off + (slotAt b off).len) rs) :
    off + 8 ≤ stop ∧ ¬((recAt b off).len < 8 ∨ stop < off + (recAt b off).len) := by
  have hle := htail.le
  have h8 := hg.eight
  rw [slotAt_len] at hle h8
  omega

theorem Chain.not_looks (b : Block) (stop : Nat) :
    ¬(stop + 8 ≤ stop ∧ ¬((recAt b stop).len < 8 ∨ stop < stop + (recAt b stop).len)) := by omega

theorem leafInsert_spec (h : Chain b stop off rs) (hname : new.name.length < 256) (hino : new.ino < 2 ^ 32)
    (hpos : new.ino ≠ 0) :
    (leafInsert stop b new.name new.ino new.type off = none ∧ ∀ s ∈ rs, ¬ s.Room new.name) ∨
      ∃ pre s post b', rs = pre ++ s :: post ∧ s.Room new.name ∧
        leafInsert stop b new.name new.ino new.type off = some b' ∧
          Chain b' stop off (pre ++ (s.give new ++ post)) ∧
        ∀ k, k < off ∨ stop ≤ k → b' k = b k := by
  induction h with
  | done =>
    rw [leafInsert_eq, if_neg (Chain.not_looks b stop)]
    exact .inl ⟨rfl, nofun⟩
  | @step off rs hg htail ih =>
    have hle := htail.le
    rw [leafInsert_eq, if_pos (Chain.looks hg htail)]
    by_cases hroom : (slotAt b off).Room new.name
    · rw [if_pos hroom]
      refine .inr ⟨[], _, rs, _, rfl, hroom, rfl, Chain.putInto hg htail hname hino hpos hroom, ?_⟩
      intro k hk
      exact putInto_outside hroom (hk.imp_right fun h => Nat.le_trans hle h)
    · rw [if_neg hroom]
      obtain ⟨hnone, hall⟩ | ⟨pre, s, post, b', rfl, hs, hsome, hchain, hkeep⟩ := ih
      · exact .inl ⟨hnone, List.forall_mem_cons.mpr ⟨hroom, hall⟩⟩
      · refine .inr ⟨_ :: pre, s, post, b', rfl, hs, hsome, ?_, fun k hk => hkeep k (by omega)⟩
        have hsame : slotAt b' off = slotAt b off := slotAt_eq hg fun k _ h₂ => hkeep k (.inl h₂)
        rw [List.cons_append, ← hsame]
        refine .step (by rw [hsame]; exact hg) ?_
        rw [hsame]
        exact hchain

theorem entries_give (pre post : List Slot) (s : Slot) (new : DirEnt) :
    (entries (pre ++ (s.give new ++ post))).Perm (new :: entries (pre ++ s :: post)) := by
  have hgive : entries (s.give new) = (s.ent.toList ++ [new] : List DirEnt) := by
    rw [Slot.give]
    split
    next e he => simp [entries, he]
    next he => simp [entries, he]
  have hs : entries (s :: post) = s.ent.toList ++ entries post := by
    cases he : s.ent <;> simp [entries, he]
  simp only [entries, List.filterMap_append] at hgive hs ⊢
  rw [hgive, hs]
  simp only [List.append_assoc, List.singleton_append]
  refine List.Perm.trans (List.Perm.append_left _ List.perm_middle) List.perm_middle

/-! ### Taking out -/

theorem findEntry_eq (bs : Nat) (b : Block) (name : EntName) (off : Nat) :
    findEntry bs b name off =
      if off + 8 ≤ bs ∧ ¬((recAt b off).len < 8 ∨ bs < off + (recAt b off).len) then
        if (slotAt b off).ent.map DirEnt.name = some name then some off
        else findEntry bs b name (off + (recAt b off).len)
      else none := by
  have htail : isTail b off = true → (recAt b off).ino = 0 := by
    intro h
    rw [isTail, decide_eq_true_iff] at h
    exact h.1
  rw [findEntry]
  split
  next =>
    refine if_congr ?_ rfl rfl
    rw [slotAt]
    by_cases hfree : (recAt b off).ino = 0
    · simp [hfree]
    have : isTail b off = false := by
      cases ht : isTail b off with
      | true => exact absurd (htail ht) hfree
      | false => rfl
    simp [hfree, this]
  next => rfl

theorem findEntry_spec {bs : Nat} (h : Chain b stop off rs) (hle : stop ≤ bs)
    (hend : findEntry bs b name stop = none) :
    (findEntry bs b name off = none ∧ ∀ e ∈ entries rs, e.name ≠ name) ∨
      ∃ pre e post at_, rs = pre ++ slotAt b at_ :: post ∧ findEntry bs b name off = some at_ ∧
        Chain b at_ off pre ∧ (slotAt b at_).Good ∧ Chain b stop (at_ + (slotAt b at_).len) post ∧
        (slotAt b at_).ent = some e ∧ e.name = name ∧ ∀ s ∈ pre, s.ent.map DirEnt.name ≠ some name := by
  induction h with
  | done => exact .inl ⟨hend, nofun⟩
  | @step off rs hg htail ih =>
    have hlook := Chain.looks hg htail
    rw [findEntry_eq, if_pos (by omega)]
    by_cases hhit : (slotAt b off).ent.map DirEnt.name = some name
    · obtain ⟨e, he, hn⟩ := Option.map_eq_some_iff.mp hhit
      rw [if_pos hhit]
      exact .inr ⟨[], e, rs, off, rfl, rfl, .done, hg, htail, he, hn, nofun⟩
    · rw [if_neg hhit]
      obtain ⟨hnone, hall⟩ | ⟨pre, e, post, at_, rfl, hfind, hpre, hgood, hpost, he, hn, hno⟩ := ih
      · refine .inl ⟨hnone, fun e he => ?_⟩
        rw [entries, List.filterMap_cons] at he
        split at he
        next => exact hall e he
        next e' he' =>
          obtain rfl | he := List.mem_cons.mp he
          · intro hc
            exact hhit (by rw [he', ← hc]; rfl)
          · exact hall e he
      · refine .inr ⟨_ :: pre, e, post, at_, rfl, hfind, .step hg hpre, hgood, hpost, he, hn, ?_⟩
        exact List.forall_mem_cons.mpr ⟨hhit, hno⟩

theorem prevOf_self (b : Block) (e : Nat) (prev : Option Nat) : prevOf b e e prev = prev := by
  rw [prevOf, dif_neg (by omega)]

theorem prevOf_eq {mid : Nat} (h : Chain b mid off rs) (hg : (slotAt b mid).Good) (prev : Option Nat) :
    prevOf b (mid + (slotAt b mid).len) off prev = some mid := by
  induction h generalizing prev with
  | done =>
    have h8 := hg.eight
    rw [slotAt_len] at h8 ⊢
    rw [prevOf, dif_pos (by omega), prevOf_self]
  | @step off rs hg' htail ih =>
    have h8 := hg'.eight
    have hle := htail.le
    rw [slotAt_len] at h8 hle
    rw [prevOf, dif_pos (by omega)]
    exact ih _

theorem foldEntry_first (b : Block) : foldEntry b 0 = lePut b 0 4 0 := by
  rw [foldEntry, prevOf_self]

theorem foldEntry_next {mid : Nat} (h : Chain b mid 0 rs) (hg : (slotAt b mid).Good) :
    foldEntry b (mid + (slotAt b mid).len) =
      lePut b (mid + 4) 2 ((slotAt b mid).len + (slotAt b (mid + (slotAt b mid).len)).len) := by
  rw [foldEntry, prevOf_eq h hg]
  exact if_pos rfl

theorem slotAt_free (b : Block) (off : Nat) : slotAt (lePut b off 4 0) off = ⟨(slotAt b off).len, none⟩ := by
  rw [slotAt, recAt_free]
  rfl

theorem slotAt_resize (b : Block) (off n : Nat) :
    slotAt (lePut b (off + 4) 2 n) off = ⟨n % 2 ^ 16, (slotAt b off).ent⟩ := by
  have hb : ∀ k, k < off + 4 ∨ off + 6 ≤ k → lePut b (off + 4) 2 n k = b k := fun k hk => if_neg (by omega)
  have hino : leGet (lePut b (off + 4) 2 n) off 4 = leGet b off 4 := leGet_lePut_of_apart b n (.inl (by omega))
  have hlen : leGet (lePut b (off + 4) 2 n) (off + 4) 2 = n % 2 ^ 16 := leGet_lePut b (off + 4) 2 n
  have hrec : recAt (lePut b (off + 4) 2 n) off = { recAt b off with len := n % 2 ^ 16 } := by
    rw [recAt, recAt, hino, hlen, hb (off + 6) (by omega), hb (off + 7) (by omega)]
    congr 1
    exact List.map_congr_left fun k _ => hb _ (by omega)
  rw [slotAt, hrec]
  rfl

/-- A leaf block: records up to its end, or up to the tail that holds its checksum. -/
structure Leaf (fs : Geom) (b : Block) (rs : List Slot) : Prop where
  chain : Chain b fs.dirSpace 0 rs
  tail : fs.csum = true → isTail b fs.dirSpace = true

theorem isTail_congr (h : ∀ k, off ≤ k → b' k = b k) : isTail b' off = isTail b off := by
  have h₁ : leGet b' off 4 = leGet b off 4 := leGet_congr fun k hk _ => h k hk
  have h₂ : leGet b' (off + 4) 2 = leGet b (off + 4) 2 := leGet_congr fun k hk _ => h k (by omega)
  rw [isTail, isTail, h₁, h₂, h (off + 6) (by omega), h (off + 7) (by omega)]

variable {fs : Geom}

theorem Leaf.of_chain (h : Leaf fs b rs) {rs' : List Slot} (hc : Chain b' fs.dirSpace 0 rs')
    (hb : ∀ k, fs.dirSpace ≤ k → b' k = b k) : Leaf fs b' rs' :=
  ⟨hc, fun hs => (isTail_congr hb).trans (h.tail hs)⟩

theorem Leaf.findEntry_end (h : Leaf fs b rs) (name : EntName) : findEntry fs.bs b name fs.dirSpace = none := by
  rw [findEntry_eq]
  cases hs : fs.csum with
  | false =>
    rw [Geom.dirSpace, hs]
    exact if_neg (by simp)
  | true =>
    have ht := h.tail hs
    rw [isTail, decide_eq_true_iff] at ht
    have hfree : (slotAt b fs.dirSpace).ent = none := if_pos ht.1
    have hlen : (recAt b fs.dirSpace).len = 12 := ht.2.1
    split
    next hlook =>
      rw [hfree, hlen, Option.map_none, if_neg (by simp), findEntry_eq]
      refine if_neg fun hmore => ?_
      rw [Geom.dirSpace, if_pos hs] at hlook hmore
      omega
    next => rfl

def InsertOk (fs : Geom) (b : Block) (rs : List Slot) (new : DirEnt) : Prop :=
  match leafInsert fs.dirSpace b new.name new.ino new.type 0 with
  | some b' =>
    (∃ rs', Leaf fs b' rs' ∧ (entries rs').Perm (new :: entries rs)) ∧ ∀ k, fs.dirSpace ≤ k → b' k = b k
  | none => ∀ s ∈ rs, ¬ s.Room new.name

def RemoveOk (fs : Geom) (b : Block) (rs : List Slot) (name : EntName) : Prop :=
  match removeEntry fs b name with
  | some b' =>
    (∃ rs' e, Leaf fs b' rs' ∧ e.name = name ∧ (entries rs).Perm (e :: entries rs')) ∧
      ∀ k, fs.dirSpace ≤ k → b' k = b k
  | none => ∀ e ∈ entries rs, e.name ≠ name

/-- The name is in the second of two records that together are 64 KiB long. -/
def Wraps (rs : List Slot) (name : EntName) : Prop :=
  ∃ p s, rs = [p, s] ∧ p.len + s.len = 2 ^ 16 ∧ p.ent.map DirEnt.name ≠ some name ∧
    s.ent.map DirEnt.name = some name

theorem entries_append (pre post : List Slot) : entries (pre ++ post) = entries pre ++ entries post :=
  List.filterMap_append ..

theorem entries_cons_some {s : Slot} {e : DirEnt} (h : s.ent = some e) (rs : List Slot) :
    entries (s :: rs) = e :: entries rs := List.filterMap_cons_some h

theorem entries_cons_none {s : Slot} (h : s.ent = none) (rs : List Slot) : entries (s :: rs) = entries rs :=
  List.filterMap_cons_none h

theorem insertOk (h : Leaf fs b rs) (hname : new.name.length < 256) (hino : new.ino < 2 ^ 32)
    (hpos : new.ino ≠ 0) :
    InsertOk fs b rs new := by
  rw [InsertOk]
  obtain ⟨hnone, hall⟩ | ⟨pre, s, post, b', rfl, -, hsome, hchain, hkeep⟩ :=
    leafInsert_spec h.chain hname hino hpos
  · rw [hnone]
    exact hall
  · rw [hsome]
    have htail : ∀ k, fs.dirSpace ≤ k → b' k = b k := fun k hk => hkeep k (.inr hk)
    exact ⟨⟨_, h.of_chain hchain htail, entries_give pre post s new⟩, htail⟩

theorem dirSpace_le (hu : fs.Usable) : fs.dirSpace ≤ 2 ^ 16 := by
  have := hu.bs_le
  rw [Geom.dirSpace]
  omega

theorem chain_free {post : List Slot} (hg : (slotAt b 0).Good) (hpost : Chain b stop (slotAt b 0).len post) :
    Chain (lePut b 0 4 0) stop 0 (⟨(slotAt b 0).len, none⟩ :: post) := by
  have hfree := slotAt_free b 0
  have h8 := hg.eight
  rw [← hfree]
  refine .step ?_ ?_
  · rw [hfree]
    exact ⟨hg.aligned, h8, Nat.zero_le _⟩
  · rw [hfree, Nat.zero_add]
    exact hpost.congr fun k hk _ => if_neg (by omega)

theorem chain_fold {mid : Nat} {pre post : List Slot} (hpre : Chain b mid off pre) (hg : (slotAt b mid).Good)
    (hg' : (slotAt b (mid + (slotAt b mid).len)).Good)
    (hpost : Chain b stop (mid + (slotAt b mid).len + (slotAt b (mid + (slotAt b mid).len)).len) post)
    (hlt : (slotAt b mid).len + (slotAt b (mid + (slotAt b mid).len)).len < 2 ^ 16) :
    Chain (lePut b (mid + 4) 2 ((slotAt b mid).len + (slotAt b (mid + (slotAt b mid).len)).len)) stop off
      (pre ++ ⟨(slotAt b mid).len + (slotAt b (mid + (slotAt b mid).len)).len, (slotAt b mid).ent⟩ :: post) := by
  have h8 := hg.eight
  have hnew := slotAt_resize b mid ((slotAt b mid).len + (slotAt b (mid + (slotAt b mid).len)).len)
  rw [Nat.mod_eq_of_lt hlt] at hnew
  generalize hb' : lePut b (mid + 4) 2 ((slotAt b mid).len + (slotAt b (mid + (slotAt b mid).len)).len) = b' at *
  have hb : ∀ k, k < mid + 4 ∨ mid + 6 ≤ k → b' k = b k := by
    intro k hk
    rw [← hb']
    exact if_neg (by omega)
  refine (hpre.congr fun k _ hk => hb k (by omega)).append ?_
  rw [← hnew]
  refine .step ?_ ?_
  · rw [hnew]
    refine ⟨Nat.dvd_add hg.aligned hg'.aligned, show 8 ≤ _ + _ by omega, ?_⟩
    exact Nat.le_trans hg.fits (Nat.le_add_right _ _)
  · rw [hnew]
    simp only
    rw [← Nat.add_assoc]
    exact hpost.congr fun k hk _ => hb k (by omega)

/-- A name taken out of a leaf is gone and all else is as before, unless the length of the record that takes
in the entry's does not fit in 16 bits. -/
theorem removeOk_iff (hu : fs.Usable) (h : Leaf fs b rs) (name : EntName) :
    RemoveOk fs b rs name ↔ ¬ Wraps rs name := by
  have hle : fs.dirSpace ≤ fs.bs := Nat.sub_le _ _
  have h16 := dirSpace_le hu
  rw [RemoveOk, removeEntry]
  obtain ⟨hnone, hall⟩ | ⟨pre, e, post, at_, rfl, hfind, hpre, hg, hpost, he, hn, hno⟩ :=
    findEntry_spec h.chain hle (h.findEntry_end name)
  · rw [hnone]
    refine iff_of_true hall ?_
    rintro ⟨p, s, rfl, -, -, hs⟩
    obtain ⟨e, he, hn⟩ := Option.map_eq_some_iff.mp hs
    refine hall e ?_ hn
    rw [entries, List.mem_filterMap]
    exact ⟨s, by simp, he⟩
  rw [hfind]
  simp only [Option.map_some]
  obtain rfl | ⟨pre, p, rfl⟩ := pre.eq_nil_or_concat
  · cases hpre
    rw [foldEntry_first]
    refine iff_of_true ?_ ?_
    · rw [Nat.zero_add] at hpost
      have hb : ∀ k, fs.dirSpace ≤ k → lePut b 0 4 0 k = b k := by
        intro k hk
        have := hpost.le
        have := hg.eight
        exact if_neg (by omega)
      refine ⟨⟨_, e, h.of_chain (chain_free hg hpost) hb, hn, ?_⟩, hb⟩
      rw [List.nil_append, entries_cons_some he, entries_cons_none rfl]
    · rintro ⟨p, s, hrs, -, hp, -⟩
      cases hrs
      exact hp (by rw [he, ← hn]; rfl)
  · rw [List.concat_eq_append] at *
    obtain ⟨mid, hfirst, hlast⟩ := hpre.split
    obtain ⟨rfl, hgp, rfl⟩ := hlast.one
    have hend := hpost.le
    have hle0 := hfirst.le
    rw [foldEntry_next hfirst hgp]
    generalize hp : slotAt b mid = p at *
    generalize hs : slotAt b (mid + p.len) = s at *
    by_cases hlt : p.len + s.len < 2 ^ 16
    · refine iff_of_true ?_ ?_
      · have hb : ∀ k, fs.dirSpace ≤ k → lePut b (mid + 4) 2 (p.len + s.len) k = b k := by
          intro k hk
          have := hgp.eight
          exact if_neg (by omega)
        have hc := chain_fold hfirst (by rw [hp]; exact hgp) (by rw [hp, hs]; exact hg)
          (by rw [hp, hs]; exact hpost) (by rw [hp, hs]; exact hlt)
        rw [hp, hs] at hc
        refine ⟨⟨_, e, h.of_chain hc hb, hn, ?_⟩, hb⟩
        have hmerge : entries (⟨p.len + s.len, p.ent⟩ :: post) = entries [p] ++ entries post := by
          cases hpe : p.ent with
          | none => rw [entries_cons_none rfl, entries_cons_none hpe]; rfl
          | some x => rw [entries_cons_some rfl, entries_cons_some hpe]; rfl
        rw [entries_append, entries_append, entries_append, hmerge, entries_cons_some he, ← List.append_assoc]
        exact List.perm_middle
      · rintro ⟨q, t, hrs, hsum, -⟩
        have hlen := congrArg List.length hrs
        simp only [List.length_append, List.length_cons, List.length_nil] at hlen
        obtain rfl := List.eq_nil_of_length_eq_zero (show pre.length = 0 by omega)
        cases hrs
        omega
    · have hmid : mid = 0 := by omega
      have hstop : fs.dirSpace = mid + p.len + s.len := by omega
      rw [← hstop] at hpost
      subst hmid
      obtain rfl := hfirst.eq_nil
      obtain rfl := hpost.eq_nil
      have hp0 := hno p (by simp)
      refine iff_of_false ?_ (not_not.mpr ⟨p, s, rfl, by omega, hp0, by rw [he, ← hn]; rfl⟩)
      rintro ⟨⟨rs', e', hleaf, -⟩, -⟩
      have hzero := slotAt_resize b 0 (p.len + s.len)
      rw [show p.len + s.len = 2 ^ 16 by omega, Nat.mod_self] at hzero
      have h8 := hleaf.chain.eight_le (by omega)
      rw [show p.len + s.len = 2 ^ 16 by omega, hzero] at h8
      exact absurd h8 (show ¬8 ≤ 0 by decide)

/-- Putting an entry into a leaf always goes as it should; taking one out does unless it leaves one record of
64 KiB. -/
theorem leaf_edits (fs : Geom) (hu : fs.Usable) (b : Block) (rs : List Slot) (h : Leaf fs b rs) :
    (∀ new : DirEnt, new.name.length < 256 → new.ino < 2 ^ 32 → new.ino ≠ 0 → InsertOk fs b rs new) ∧
      ∀ name, RemoveOk fs b rs name ↔ ¬ Wraps rs name :=
  ⟨fun _ hname hino hpos => insertOk h hname hino hpos, removeOk_iff hu h⟩

def wideFs : Geom := { ofSb (sampleSb 16 8 0 0) with bs := 65536 }

def twoEntries : Block :=
  putEntry (lePut (putEntry (lePut zeroBlock 4 2 12) 0 5 [97] 1) (12 + 4) 2 65524) 12 6 [98] 1

def twoSlots : List Slot := [⟨12, some ⟨5, [97], 1⟩⟩, ⟨65524, some ⟨6, [98], 1⟩⟩]

theorem leaf_twoEntries : Leaf wideFs twoEntries twoSlots := by
  have h0 : slotAt twoEntries 0 = ⟨12, some ⟨5, [97], 1⟩⟩ := by decide +kernel
  have h1 : slotAt twoEntries 12 = ⟨65524, some ⟨6, [98], 1⟩⟩ := by decide +kernel
  have hspace : wideFs.dirSpace = 65536 := by decide +kernel
  refine ⟨?_, fun h => absurd h (by decide +kernel)⟩
  rw [twoSlots, hspace, ← h0, ← h1]
  refine .step (by rw [h0]; exact ⟨by decide, by decide, by decide⟩) ?_
  rw [show 0 + (slotAt twoEntries 0).len = 12 by rw [h0]; rfl]
  refine .step (by rw [h1]; exact ⟨by decide, by decide, by decide⟩) ?_
  rw [h1]
  exact .done

/-- With `b` taken out, the length of the first record is 0 and `a` is lost. -/
theorem remove_wraps :
    Leaf wideFs twoEntries twoSlots ∧ findEntry wideFs.bs twoEntries [97] 0 = some 0 ∧
      (removeEntry wideFs twoEntries [98]).map (fun b => ((slotAt b 0).len, findEntry wideFs.bs b [97] 0)) =
        some (0, none) :=
  ⟨leaf_twoEntries, by decide +kernel, by decide +kernel⟩

theorem leaf_edits_twoEntries :
    InsertOk wideFs twoEntries twoSlots ⟨7, [99], 1⟩ ∧ RemoveOk wideFs twoEntries twoSlots [97] := by
  have hu : wideFs.Usable := ⟨by decide +kernel, by decide +kernel, by decide +kernel⟩
  obtain ⟨hput, htake⟩ := leaf_edits wideFs hu twoEntries twoSlots leaf_twoEntries
  refine ⟨hput ⟨7, [99], 1⟩ (by decide) (by decide) (by decide), (htake [97]).mpr ?_⟩
  rintro ⟨p, s, hrs, -, hp, -⟩
  cases hrs
  exact hp rfl

end Sic.Fs.Ext4
