import Sic.Net.TcpLimits
import Sic.Net.TcpState
import Sic.Net.TcpAck

/-! The right edge of the receive window. What the receiver takes from the peer and the room it
has left add up, so the edge it advertises moves forward only. -/

namespace Sic.Tcp

def Seg.offers (g : Seg) : Bool := g.flags.ack && !g.flags.rst

def Seg.edge (g : Seg) : U32 := g.ack + BitVec.ofNat 32 g.wnd

def Pcb.edge (t : Pcb) : U32 := t.rcvNxt + BitVec.ofNat 32 t.rcvWnd

inductive Offers (nxt : U32) : Nat → Nat → List Seg → Prop where
  | nil {lo hi : Nat} (h : lo ≤ hi) : Offers nxt lo hi []
  | other {lo hi : Nat} {g : Seg} {l : List Seg} (h : Offers nxt lo hi l) (hg : g.offers = false) :
      Offers nxt lo hi (g :: l)
  | offer {lo mid hi j : Nat} {g : Seg} {l : List Seg} (h : Offers nxt lo mid l)
    (hack : g.ack = nxt + BitVec.ofNat 32 j)
      (hlo : mid ≤ j + g.wnd) (hhi : j + g.wnd ≤ hi) : Offers nxt lo hi (g :: l)

variable {nxt : U32} {lo mid hi : Nat} {l : List Seg}

theorem Offers.le (h : Offers nxt lo hi l) : lo ≤ hi := by
  induction h with
  | nil h => exact h
  | other h hg ih => exact ih
  | offer h hack hlo hhi ih => omega

theorem Offers.mono {hi' : Nat} (h : Offers nxt lo hi l) (hle : hi ≤ hi') : Offers nxt lo hi' l := by
  induction h with
  | nil h => exact .nil (h.trans hle)
  | other h hg ih => exact .other (ih hle) hg
  | offer h hack hlo hhi ih => exact .offer h hack hlo (hhi.trans hle)

theorem Offers.shift {k : Nat} (h : Offers (nxt + BitVec.ofNat 32 k) lo hi l) :
    Offers nxt (k + lo) (k + hi) l := by
  induction h with
  | nil h => exact .nil (Nat.add_le_add_left h k)
  | other h hg ih => exact .other ih hg
  | @offer mid hi j g l h hack hlo hhi ih =>
    refine .offer (j := k + j) ih ?_ (by omega) (by omega)
    rw [hack, BitVec.add_assoc, BitVec.ofNat_add]

theorem Offers.append {new : List Seg} (h : Offers nxt lo mid l) (h' : Offers nxt mid hi new) :
    Offers nxt lo hi (new ++ l) := by
  induction h' with
  | nil hle => exact h.mono hle
  | other h' hg ih => exact .other ih hg
  | offer h' hack hlo hhi ih => exact .offer ih hack hlo hhi

theorem offers_same {wnd : Nat} {new : List Seg} (h : ∀ g ∈ new, g.offers = true → g.ack = nxt ∧ g.wnd = wnd) :
    Offers nxt wnd wnd new := by
  induction new with
  | nil => exact .nil (Nat.le_refl wnd)
  | cons g new ih =>
    have hrest := ih fun g' hg' => h g' (List.mem_cons_of_mem g hg')
    cases hg : g.offers with
    | false => exact .other hrest hg
    | true =>
      obtain ⟨hack, hwnd⟩ := h g (List.mem_cons_self ..) hg
      refine .offer (j := 0) hrest ?_ (by omega) (by omega)
      rw [hack]
      exact (BitVec.add_zero nxt).symm

theorem Offers.sorted (h : Offers nxt lo hi l) (hhi : hi < 2 ^ 32) :
    let ps := (l.filter Seg.offers).map fun g => (g.edge - (nxt + BitVec.ofNat 32 lo)).toNat
    ps.Pairwise (· ≥ ·) ∧ ∀ p ∈ ps, lo + p ≤ hi := by
  dsimp only
  induction h with
  | nil h => simp
  | other h hg ih =>
    rw [List.filter_cons_of_neg (by simp [hg])]
    exact ih hhi
  | @offer mid hi j g l h hack hlo hle ih =>
    obtain ⟨hs, hp⟩ := ih (by omega)
    by_cases hg : g.offers = true
    · have hlm := h.le
      have hpos : (g.edge - (nxt + BitVec.ofNat 32 lo)).toNat + lo = j + g.wnd := by
        rw [Seg.edge, hack]
        bv_omega
      rw [List.filter_cons_of_pos hg, List.map_cons]
      refine ⟨List.pairwise_cons.mpr ⟨fun p hp' => ?_, hs⟩, fun p hp' => ?_⟩
      · have := hp p hp'
        omega
      rcases List.mem_cons.mp hp' with rfl | hp'
      · omega
      · have := hp p hp'
        omega
    · rw [List.filter_cons_of_neg hg]
      exact ⟨hs, fun p hp' => by have := hp p hp'; omega⟩

/-! ### The receiver -/

def Takes (x : Nat) (t t' : Pcb) : Prop :=
  (Sized t → Sized t') ∧ (t'.state = .synSent → t.state = .synSent) ∧
    ∃ k, t'.rcvNxt = t.rcvNxt + BitVec.ofNat 32 k ∧ t.rcvSpace ≤ k + t'.rcvSpace ∧
      k + t'.rcvSpace ≤ t.rcvSpace + x

variable {t t' t'' : Pcb} {x y : Nat}

theorem Takes.trans (h : Takes x t t') (h' : Takes y t' t'') : Takes (x + y) t t'' := by
  obtain ⟨hs, hsyn, k, hn, hlo, hhi⟩ := h
  obtain ⟨hs', hsyn', k', hn', hlo', hhi'⟩ := h'
  refine ⟨hs' ∘ hs, hsyn ∘ hsyn', k + k', ?_, by omega, by omega⟩
  rw [hn', hn, BitVec.add_assoc, BitVec.ofNat_add]

theorem Takes.same (hn : t'.rcvNxt = t.rcvNxt) (hr : t'.rcvbuf = t.rcvbuf) (hm : t'.mss = t.mss)
    (hb : t'.sndLen ≤ t.sndLen) (hsyn : t'.state = .synSent → t.state = .synSent) : Takes 0 t t' := by
  refine ⟨fun hs => ⟨hm ▸ hs.mss, hb.trans hs.buf⟩, hsyn, 0, ?_, ?_, ?_⟩
  · rw [hn]
    exact (BitVec.add_zero _).symm
  · rw [Pcb.rcvSpace, Pcb.rcvSpace, hr]
    omega
  · rw [Pcb.rcvSpace, Pcb.rcvSpace, hr]
    omega

theorem Takes.refl (t : Pcb) : Takes 0 t t := .same rfl rfl rfl (Nat.le_refl _) id

theorem Takes.mono (h : Takes x t t') (hxy : x ≤ y) : Takes y t t' := by
  obtain ⟨hs, hsyn, k, hn, hlo, hhi⟩ := h
  exact ⟨hs, hsyn, k, hn, hlo, by omega⟩

theorem rcvAppend_takes (t : Pcb) (data : List U8) : Takes 0 t (rcvAppend t data).1 := by
  refine ⟨fun hs => ⟨hs.mss, hs.buf⟩, id, min data.length t.rcvSpace, rfl, ?_⟩
  simp only [rcvAppend, Pcb.rcvSpace, Ring.push]
  omega

theorem tcpCheckFin_takes (t : Pcb) (now : Nat) : Takes 1 t (tcpCheckFin t now).1 := by
  have fin (u : Pcb) (hn : u.rcvNxt = t.rcvNxt + 1) (hr : u.rcvbuf = t.rcvbuf) (hm : u.mss = t.mss)
      (hb : u.sndbuf = t.sndbuf) (hst : u.state = .synSent → t.state = .synSent) : Takes 1 t u := by
    refine ⟨fun hs => ⟨hm ▸ hs.mss, by rw [Pcb.sndLen, hb]; exact hs.buf⟩, hst, 1, hn, ?_, ?_⟩
    · rw [Pcb.rcvSpace, Pcb.rcvSpace, hr]
      omega
    · rw [Pcb.rcvSpace, Pcb.rcvSpace, hr]
      omega
  unfold tcpCheckFin
  split
  · dsimp only
    split
    · exact fin _ rfl rfl rfl rfl (by simp)
    · exact fin _ rfl rfl rfl rfl (by simp)
    · split <;> exact fin _ rfl rfl rfl rfl (by simp)
    · exact fin _ rfl rfl rfl rfl (by simp)
    · exact fin _ rfl rfl rfl rfl id
  · exact (Takes.refl t).mono (Nat.zero_le 1)

theorem drainLoop_takes (q : List Ooo) (t : Pcb) : Takes 0 t (drainLoop q t) := by
  induction q generalizing t with
  | nil => exact .same rfl rfl rfl (Nat.le_refl _) id
  | cons o rest ih =>
    have hqueue (u : Pcb) (q : List Ooo) (n : Nat) : Takes 0 u { u with ooo := q, oooBytes := n } :=
      .same rfl rfl rfl (Nat.le_refl _) id
    have hbytes (u : Pcb) (n : Nat) : Takes 0 u { u with oooBytes := n } := .same rfl rfl rfl (Nat.le_refl _) id
    unfold drainLoop
    split
    · dsimp only
      split
      · split
        · exact (rcvAppend_takes t _).trans (hqueue _ _ _)
        · exact ((rcvAppend_takes t _).trans (hbytes _ _)).trans (ih _)
      · exact (hbytes t _).trans (ih _)
    · exact .same rfl rfl rfl (Nat.le_refl _) id

theorem oooDrain_takes (t : Pcb) (now : Nat) : Takes 1 t (oooDrain t now) :=
  (drainLoop_takes t.ooo t).trans (tcpCheckFin_takes _ now)

theorem oooInsert_takes (t : Pcb) (seq : U32) (data : List U8) (alloc : Bool) :
    Takes 0 t (oooInsert t seq data alloc) := by
  unfold oooInsert
  dsimp only
  split <;> exact .same rfl rfl rfl (Nat.le_refl _) id

theorem rxInOrder_takes (env : Env) (t : Pcb) (data : List U8) (old : Bool) :
    Takes 1 t (rxInOrder env t data old).1 := by
  have happ := rcvAppend_takes t data
  unfold rxInOrder
  dsimp only
  split
  · exact (happ.trans (oooInsert_takes _ _ _ _)).trans (oooDrain_takes _ _)
  · exact happ.trans (oooDrain_takes _ _)

theorem rxHole_takes (env : Env) (t : Pcb) (seq : U32) (data : List U8) (wnd : Nat) :
    Takes 0 t (rxHole env t seq data wnd) := by
  have hnewest (u : Pcb) : Takes 0 u { u with oooNewest := seq } := .same rfl rfl rfl (Nat.le_refl _) id
  unfold rxHole
  dsimp only
  split
  · exact (oooInsert_takes t _ _ _).trans (hnewest _)
  · exact .refl t

/-! ### Sockets -/

def Fwd (x : Nat) (s s' : Sock) : Prop :=
  Sized s.tcp → Sized s'.tcp ∧ (s'.tcp.state = .synSent → s.tcp.state = .synSent) ∧
    ∃ k new, s'.tcp.rcvNxt = s.tcp.rcvNxt + BitVec.ofNat 32 k ∧ k + s'.tcp.rcvSpace ≤ s.tcp.rcvSpace + x ∧
      s'.out = new ++ s.out ∧ Offers s.tcp.rcvNxt s.tcp.rcvWnd (k + s'.tcp.rcvWnd) new

variable {s s' s'' : Sock}

theorem Fwd.trans (h : Fwd x s s') (h' : Fwd y s' s'') : Fwd (x + y) s s'' := by
  intro hs
  obtain ⟨hs, hsyn, k, new, hn, hhi, ho, hoff⟩ := h hs
  obtain ⟨hs, hsyn', k', new', hn', hhi', ho', hoff'⟩ := h' hs
  rw [hn] at hoff'
  refine ⟨hs, hsyn ∘ hsyn', k + k', new' ++ new, ?_, by omega, by rw [ho', ho, List.append_assoc], ?_⟩
  · rw [hn', hn, BitVec.add_assoc, BitVec.ofNat_add]
  · rw [Nat.add_assoc]
    exact hoff.append hoff'.shift

theorem Takes.fwd (h : Takes x s.tcp s'.tcp) (ho : s'.out = s.out) : Fwd x s s' := by
  intro hs
  obtain ⟨hsz, hsyn, k, hn, hlo, hhi⟩ := h
  refine ⟨hsz hs, hsyn, k, [], hn, hhi, ho, .nil ?_⟩
  unfold Pcb.rcvWnd
  omega

theorem Fwd.refl (s : Sock) : Fwd 0 s s := (Takes.refl s.tcp).fwd rfl

theorem Fwd.mono (h : Fwd x s s') (hxy : x ≤ y) : Fwd y s s' := by
  intro hs
  obtain ⟨hs, hsyn, k, new, hn, hhi, hrest⟩ := h hs
  exact ⟨hs, hsyn, k, new, hn, by omega, hrest⟩

theorem Sends.fwd (h : Sends s s') (hout : Sized s.tcp → ∃ new, s'.out = new ++ s.out ∧
    ∀ g ∈ new, g.offers = true → g.ack = s.tcp.rcvNxt ∧ g.wnd = s.tcp.rcvWnd) : Fwd 0 s s' := by
  intro hs
  obtain ⟨new, ho, hnew⟩ := hout hs
  obtain ⟨-, -, -, hnxt, hring⟩ := h.fields
  have hwnd : s'.tcp.rcvWnd = s.tcp.rcvWnd := by
    rw [Pcb.rcvWnd, Pcb.rcvSpace, hring]
    rfl
  refine ⟨hs.sends h, fun hst => h.state ▸ hst, 0, new, ?_, ?_, ho, ?_⟩
  · rw [hnxt]
    exact (BitVec.add_zero _).symm
  · rw [Pcb.rcvSpace, hring, Pcb.rcvSpace]
    omega
  · rw [hwnd, Nat.zero_add]
    exact offers_same hnew

theorem tcpSendSeg_fwd (s : Sock) (seq : U32) (flags : Flags) (data : List U8) (w : Bool) :
    Fwd 0 s (tcpSendSeg s seq flags data w) := by
  refine (tcpSendSeg_sends ..).fwd fun _ => ?_
  obtain ⟨opts, ho⟩ := tcpSendSeg_seg s seq flags data w
  refine ⟨[_], ho, fun g hg _ => ?_⟩
  rw [List.mem_singleton.mp hg]
  exact ⟨rfl, rfl⟩

theorem tcpOutput_fwd (s : Sock) (now room : Nat) : Fwd 0 s (tcpOutput s now room) := by
  refine (tcpOutput_sends ..).fwd fun hs => ?_
  obtain ⟨new, ho, hnew⟩ := tcpOutput_outgoing hs now room
  exact ⟨new, ho, fun g hg _ => ⟨(hnew g hg).ack, (hnew g hg).win⟩⟩

theorem Fwd.setTcp {f : Pcb → Pcb} (h : Takes x s.tcp (f s.tcp)) : Fwd x s (s.setTcp f) := h.fwd rfl

theorem tcpSendAck_fwd (s : Sock) : Fwd 0 s (tcpSendAck s) := tcpSendSeg_fwd _ _ _ _ _

theorem tcpAckLater_fwd (s : Sock) (now datalen : Nat) : Fwd 0 s (tcpAckLater s now datalen) := by
  have hpend : Fwd 0 s (s.setTcp fun t =>
      { t with ackPending := true, ackSegs := if t.mss ≤ datalen then t.ackSegs + 1 else t.ackSegs }) :=
    .setTcp (.same rfl rfl rfl (Nat.le_refl _) id)
  unfold tcpAckLater
  dsimp only
  split
  · exact hpend.trans (tcpSendAck_fwd _)
  · exact hpend.trans (.setTcp (.same rfl rfl rfl (Nat.le_refl _) id))

theorem tcpSetClosed_fwd (s : Sock) (err : Option Errno) : Fwd 0 s (tcpSetClosed s err) := by
  unfold tcpSetClosed
  split
  · exact .refl s
  · exact Takes.fwd (.same rfl rfl rfl (Nat.le_refl _) (by simp)) rfl

theorem tcpAbort_fwd (s : Sock) (err : Option Errno) : Fwd 0 s (tcpAbort s err) := by
  unfold tcpAbort
  dsimp only
  split
  · exact (tcpSendSeg_fwd _ _ _ _ _).trans (tcpSetClosed_fwd _ err)
  · exact tcpSetClosed_fwd s err

theorem tcpRstReply_fwd (s : Sock) (g : Seg) : Fwd 0 s (tcpRstReply s g) := by
  intro hs
  have hreply (r : Seg) (hr : r.flags.rst = true) : Offers s.tcp.rcvNxt s.tcp.rcvWnd (0 + s.tcp.rcvWnd) [r] :=
    .other (.nil (by omega)) (by simp [Seg.offers, hr])
  have hn : s.tcp.rcvNxt = s.tcp.rcvNxt + BitVec.ofNat 32 0 := (BitVec.add_zero _).symm
  unfold tcpRstReply
  split
  · exact Fwd.refl s hs
  split
  · exact ⟨hs, id, 0, [_], hn, Nat.le_of_eq (Nat.zero_add _), rfl, hreply _ rfl⟩
  · exact ⟨hs, id, 0, [_], hn, Nat.le_of_eq (Nat.zero_add _), rfl, hreply _ rfl⟩

/-! ### Segments -/

theorem ackDrop_takes (t : Pcb) (g : Seg) : Takes 0 t (ackDrop t g) := by
  refine .same rfl rfl rfl ?_ id
  simp [ackDrop, Pcb.sndLen]

theorem noteSacked_takes (t : Pcb) (o : Opts) : Takes 0 t (noteSacked t o) := by
  obtain ⟨l, hl⟩ := noteSacked_eq t o
  rw [hl]
  exact .same rfl rfl rfl (Nat.le_refl _) id

theorem ackAdvance_takes (t : Pcb) (g : Seg) (now : Nat) : Takes 0 t (ackAdvance t g now) := by
  have htrim (u : Pcb) : Takes 0 u (trimSacked u) := .same rfl rfl rfl (Nat.le_refl _) id
  have htimer (u : Pcb) (n : Nat) : Takes 0 u
    { u with retries := 0, rtoMs := rtoMinMs, dupAcks := 0, rtoAt := n } :=
    .same rfl rfl rfl (Nat.le_refl _) id
  exact (((ackDrop_takes t g).trans (htrim _)).trans (noteSacked_takes _ g.opts)).trans (htimer _ _)

theorem ackDuplicate_fwd (env : Env) (s : Sock) (g : Seg) : Fwd 0 s (ackDuplicate env s g) := by
  have hcount (u : Pcb) (n : Nat) : Takes 0 u { u with dupAcks := n } := .same rfl rfl rfl (Nat.le_refl _) id
  have hnote : Fwd 0 s (s.setTcp fun t =>
    { noteSacked t g.opts with dupAcks := (noteSacked t g.opts).dupAcks + 1 }) :=
    .setTcp ((noteSacked_takes s.tcp g.opts).trans (hcount _ _))
  rw [ackDuplicate]
  dsimp only
  split
  · exact (hnote.trans (Fwd.setTcp (x := 0) (.same rfl rfl rfl (Nat.le_refl _) id))).trans (tcpOutput_fwd _ _ _)
  split
  · exact hnote.trans (tcpOutput_fwd _ _ _)
  · exact hnote

theorem rxAck_fwd (env : Env) (s : Sock) (g : Seg) : Fwd 0 s (rxAck env s g).1 := by
  unfold rxAck
  dsimp only
  split
  · split
    · exact tcpRstReply_fwd s g
    · exact .setTcp (.same rfl rfl rfl (Nat.le_refl _) (by simp))
  split
  · exact tcpSendAck_fwd s
  split
  · exact .setTcp (ackAdvance_takes _ _ _)
  split
  · exact ackDuplicate_fwd env s g
  · exact .refl s

theorem windowUpdate_takes (t : Pcb) (g : Seg) : Takes 0 t (windowUpdate t g) := by
  unfold windowUpdate
  split
  · exact .same rfl rfl rfl (Nat.le_refl _) id
  · exact .refl t

theorem rxClosing_fwd (now : Nat) (s : Sock) : Fwd 0 s (rxClosing now s).1 := by
  unfold rxClosing
  split
  · dsimp only
    split
    · exact .setTcp (.same rfl rfl rfl (Nat.le_refl _) (by simp))
    · exact .refl s
  · dsimp only
    split
    · exact .setTcp (.same rfl rfl rfl (Nat.le_refl _) (by simp))
    · exact .refl s
  · split
    · exact tcpSetClosed_fwd s none
    · exact .refl s
  · exact .setTcp (.same rfl rfl rfl (Nat.le_refl _) id)
  · exact .refl s

theorem rxPayload_fwd (env : Env) (s : Sock) (seq : U32) (data : List U8) (old : Bool) (wnd : Nat) :
    Fwd (data.length + 1) s (rxPayload env s seq data old wnd).1 := by
  unfold rxPayload
  split
  · split
    · refine .setTcp ⟨fun hs => ⟨hs.mss, hs.buf⟩, id, data.length, rfl, ?_, ?_⟩
      · change s.tcp.rcvSpace ≤ data.length + s.tcp.rcvSpace
        omega
      · change data.length + s.tcp.rcvSpace ≤ s.tcp.rcvSpace + (data.length + 1)
        omega
    · exact ((rxInOrder_takes env s.tcp data old).mono (Nat.le_add_left 1 _)).fwd rfl
  split
  · exact (Fwd.refl s).mono (Nat.zero_le _)
  · exact ((rxHole_takes env s.tcp seq data wnd).mono (Nat.zero_le _)).fwd rfl

theorem rxData_fwd (env : Env) (s : Sock) (g : Seg) (wnd : Nat) :
    Fwd (g.data.length + 1) s (rxData env s g wnd).1 := by
  unfold rxData
  dsimp only
  split
  · exact (Fwd.refl s).mono (Nat.zero_le _)
  split
  · split
    · refine (rxPayload_fwd env s _ _ true wnd).mono ?_
      simp
    · exact rxPayload_fwd env s _ _ false wnd
  · exact (Fwd.refl s).mono (Nat.zero_le _)

theorem rxFin_fwd (env : Env) (s : Sock) (g : Seg) (kind : AckKind) : Fwd 1 s (rxFin env s g kind) := by
  have hmark : Fwd 0 s (if g.flags.fin then s.setTcp fun t =>
    { t with hasFin := true, finSeq := g.seq + len32 g.data }
      else s) := by
    split
    · exact .setTcp (.same rfl rfl rfl (Nat.le_refl _) id)
    · exact .refl s
  unfold rxFin
  dsimp only
  generalize (if g.flags.fin then s.setTcp fun t => { t with hasFin := true, finSeq := g.seq + len32 g.data }
    else s) = s₁ at hmark ⊢
  have hfin : Fwd (0 + 1) s { s₁ with tcp := (tcpCheckFin s₁.tcp env.now).1 } :=
    hmark.trans ((tcpCheckFin_takes s₁.tcp env.now).fwd rfl)
  split
  · exact hfin.trans (tcpSendAck_fwd _)
  · exact hfin.trans (tcpAckLater_fwd _ _ _)
  · exact hfin

theorem rxSegment_fwd (env : Env) (s : Sock) (g : Seg) : Fwd (g.data.length + 2) s (rxSegment env s g) := by
  have still {s' : Sock} (h : Fwd 0 s s') : Fwd (g.data.length + 2) s s' := h.mono (Nat.zero_le _)
  unfold rxSegment
  split
  · split
    · exact still (.refl s)
    · exact still (tcpSendAck_fwd s)
  split
  · exact still (tcpSetClosed_fwd s _)
  split
  · exact still (tcpAbort_fwd s _)
  split
  · exact still (.refl s)
  have hack := rxAck_fwd env s g
  dsimp only
  rcases hrx : rxAck env s g with ⟨s₁, _ | _⟩
  · rw [hrx] at hack
    exact still hack
  rw [hrx] at hack
  have hupd : Fwd 0 s₁ (s₁.setTcp fun t => windowUpdate t g) := .setTcp (windowUpdate_takes s₁.tcp g)
  have hclose := (hack.trans hupd).trans (rxClosing_fwd env.now _)
  dsimp only
  rcases hrc : rxClosing env.now (s₁.setTcp fun t => windowUpdate t g) with ⟨s₂, _ | _⟩
  · rw [hrc] at hclose
    exact still hclose
  rw [hrc] at hclose
  have hrest := (hclose.trans (rxData_fwd env s₂ g s.tcp.rcvSpace)).trans
    ((rxFin_fwd env _ g (rxData env s₂ g s.tcp.rcvSpace).2).trans (tcpOutput_fwd _ env.now env.room'))
  exact hrest.mono (by omega)

/-! ### Timers and the socket layer -/

theorem rtoExpire_fwd (s : Sock) (now room : Nat) : Fwd 0 s (rtoExpire s now room) := by
  have hretry : Fwd 0 s (s.setTcp fun t => { t with retries := t.retries + 1 }) :=
    .setTcp (.same rfl rfl rfl (Nat.le_refl _) id)
  have hrewind (s : Sock) : Fwd 0 s (s.setTcp rtoRewind) := by
    refine .setTcp ?_
    rw [rtoRewind]
    split <;> exact .same rfl rfl rfl (Nat.le_refl _) id
  rw [rtoExpire]
  split
  · exact hretry.trans (tcpAbort_fwd _ _)
  · exact ((hretry.trans (hrewind _)).trans (tcpOutput_fwd _ now room)).trans
      (.setTcp (.same rfl rfl rfl (Nat.le_refl _) id))

theorem tcpTimer_fwd (env : Env) (s : Sock) : Fwd 0 s (tcpTimer env s) := by
  unfold tcpTimer
  dsimp only
  split
  · exact tcpSetClosed_fwd s none
  generalize hs₁ : (if s.tcp.ackPending ∧ s.tcp.delackAt ≠ 0 ∧ s.tcp.delackAt ≤ env.now then tcpSendAck s
    else s) = s₁
  have h₁ : Fwd 0 s s₁ := by
    rw [← hs₁]
    split
    · exact tcpSendAck_fwd s
    · exact .refl s
  generalize hs₂ : (if s₁.tcp.retryAt ≠ 0 ∧ s₁.tcp.retryAt ≤ env.now then
    tcpOutput (s₁.setTcp fun t => { t with retryAt := 0 }) env.now env.room else s₁) = s₂
  have h₂ : Fwd 0 s s₂ := by
    rw [← hs₂]
    split
    · exact (h₁.trans (.setTcp (.same rfl rfl rfl (Nat.le_refl _) id))).trans (tcpOutput_fwd _ _ _)
    · exact h₁
  split
  · exact h₂.trans (rtoExpire_fwd s₂ env.now env.room')
  · exact h₂

theorem tcpSend_fwd (env : Env) (s : Sock) (buf : List U8) : Fwd 0 s (tcpSend env s buf).1 := by
  unfold tcpSend
  dsimp only
  split_ifs with h₁ h₂ h₃ h₄
  iterate 4 exact .refl s
  refine Fwd.trans (x := 0) (y := 0) (.setTcp ⟨fun hs => ⟨hs.mss, ?_⟩, id, 0, (BitVec.add_zero _).symm, ?_, ?_⟩)
    (tcpOutput_fwd _ _ _)
  · change (s.tcp.sndbuf ++ buf.take (min buf.length (tcpBufSize - s.tcp.sndLen))).length ≤ tcpBufSize
    have hb := hs.buf
    rw [List.length_append, List.length_take]
    unfold Pcb.sndLen at hb ⊢
    omega
  · exact Nat.le_of_eq (Nat.zero_add _).symm
  · exact Nat.le_of_eq (Nat.zero_add _)

theorem recvEmpty_fwd (s : Sock) (peek : Bool) : Fwd 0 s (recvEmpty s peek).1 := by
  have herr : Fwd 0 s { s with err := none } := (Takes.refl s.tcp).fwd rfl
  unfold recvEmpty
  dsimp only
  split
  · exact .refl s
  split
  · split
    · split
      · exact .refl s
      · exact herr
    · split <;> exact .refl s
  · split <;> exact .refl s

theorem tcpRecv_fwd (env : Env) (s : Sock) (len : Nat) (peek : Bool) :
    Fwd (tcpBufSize + 4) s (tcpRecv env s len peek).1 := by
  have hdrain : Fwd 2 s { s with tcp :=
      if s.tcp.rcvbuf.len = 0 ∧ (∃ o ∈ s.tcp.ooo.head?, seqLeq o.seq s.tcp.rcvNxt = true) then
        (tcpCheckFin (oooDrain s.tcp env.now) env.now).1 else s.tcp } := by
    refine Takes.fwd ?_ rfl
    dsimp only
    split
    · exact (oooDrain_takes s.tcp env.now).trans (tcpCheckFin_takes _ _)
    · exact (Takes.refl s.tcp).mono (Nat.zero_le 2)
  unfold tcpRecv
  dsimp only
  generalize (if s.tcp.rcvbuf.len = 0 ∧ (∃ o ∈ s.tcp.ooo.head?, seqLeq o.seq s.tcp.rcvNxt = true) then
    (tcpCheckFin (oooDrain s.tcp env.now) env.now).1 else s.tcp) = t at hdrain ⊢
  have hpop (n : Nat) : Takes tcpBufSize t { t with rcvbuf := t.rcvbuf.pop tcpBufSize n } := by
    refine ⟨fun hs => ⟨hs.mss, hs.buf⟩, id, 0, (BitVec.add_zero _).symm, ?_, ?_⟩
    · simp only [Pcb.rcvSpace, Ring.pop]
      omega
    · simp only [Pcb.rcvSpace, Ring.pop]
      omega
  split
  · exact (hdrain.trans (recvEmpty_fwd _ _)).mono (by omega)
  split
  · exact hdrain.mono (by omega)
  have hread : Fwd (2 + (tcpBufSize + 1 + 1)) s { s with tcp := (tcpCheckFin
      (oooDrain { t with rcvbuf := t.rcvbuf.pop tcpBufSize (min len t.rcvbuf.len) } env.now) env.now).1 } :=
    hdrain.trans ((((hpop _).trans (oooDrain_takes _ env.now)).trans (tcpCheckFin_takes _ _)).fwd rfl)
  split
  · exact (hread.trans (tcpSendAck_fwd _)).mono (by omega)
  · exact hread.mono (by omega)

theorem tcpShutdownWr_fwd (env : Env) (s : Sock) : Fwd 0 s (tcpShutdownWr env s) := by
  have hfin (x : State) (hx : x ≠ .synSent) : Fwd 0 s
      (tcpOutput (s.setTcp fun t => { t with state := x, finQueued := true }) env.now env.room) := by
    refine Fwd.trans (x := 0) (y := 0) (.setTcp ?_) (tcpOutput_fwd _ _ _)
    exact .same rfl rfl rfl (Nat.le_refl _) fun h => absurd h hx
  unfold tcpShutdownWr
  dsimp only
  split
  · exact .refl s
  split
  · exact hfin _ (by simp)
  · exact hfin _ (by simp)
  · exact hfin _ (by simp)
  · exact .refl s

theorem sysShutdown_fwd (env : Env) (s : Sock) (rd wr : Bool) : Fwd 0 s (sysShutdown env s rd wr) := by
  have hflags (rd wr : Bool) : Fwd 0 s { s with shutRd := rd, shutWr := wr } := (Takes.refl s.tcp).fwd rfl
  unfold sysShutdown
  cases rd <;> cases wr
  · exact .refl s
  · exact (hflags _ _).trans (tcpShutdownWr_fwd env _)
  · exact hflags _ _
  · exact (hflags _ _).trans (tcpShutdownWr_fwd env _)

theorem tcpClose_fwd (env : Env) (s : Sock) : Fwd 0 s (tcpClose env s) := by
  have hclose : Fwd 0 s (if s.tcp.rcvbuf.len ≠ 0 then tcpAbort s none else tcpShutdownWr env s) := by
    split
    · exact tcpAbort_fwd s none
    · exact tcpShutdownWr_fwd env s
  unfold tcpClose
  split
  · exact tcpSetClosed_fwd s none
  iterate 3 exact hclose
  exact .refl s

end Sic.Tcp
