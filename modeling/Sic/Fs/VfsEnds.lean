import Sic.Fs.Vfs

/-! Path resolution comes to an end. A finished run of the three routines that
call each other is a derivation; every lookup has one, and the links it follows
are counted in it. -/

namespace Sic.Fs.Vfs

inductive Job where
  | follow (dir : Nat) (n : Option Nat)
  | walk (dir : Nat) (comps : List Name)
  | resolve (cwd : Option Nat) (path : List Char) (followLast : Bool)

/-- The call ends, having followed the links of the list. The result is a vnode,
with the component that is still to be looked up in it after a walk. -/
inductive Ends (D : Driver) : Job → Vfs × Nat → List Nat → Vfs × Nat → Option (Nat × Name) → Prop where
  | null {st : Vfs × Nat} {dir : Nat} : Ends D (.follow dir none) st [] st none
  | gone {s : Vfs} {d dir n : Nat} (hn : s.nodes n = none) :
      Ends D (.follow dir (some n)) (s, d) [] (s, d) none
  | plain {s : Vfs} {d dir n : Nat} {v : Vnode} (hn : s.nodes n = some v) (ht : v.type ≠ .link) :
      Ends D (.follow dir (some n)) (s, d) [] (s, d) (some (n, []))
  | loop {s : Vfs} {d dir n : Nat} {v : Vnode} (hn : s.nodes n = some v) (ht : v.type = .link)
      (hd : symloopMax < d + 1) :
      Ends D (.follow dir (some n)) (s, d) [] (s, d + 1) none
  | dangling {s : Vfs} {d dir n : Nat} {v : Vnode} (hn : s.nodes n = some v) (ht : v.type = .link)
      (hd : ¬ symloopMax < d + 1) (hl : v.link = none) :
      Ends D (.follow dir (some n)) (s, d) [] (s, d + 1) none
  | again {s : Vfs} {st₁ st₂ : Vfs × Nat} {d dir n : Nat} {v : Vnode} {path : List Char}
      {ls ls₁ : List Nat} {o o₁ : Option (Nat × Name)} (hn : s.nodes n = some v) (ht : v.type = .link)
      (hd : ¬ symloopMax < d + 1) (hl : v.link = some path)
      (hr : Ends D (.resolve (some dir) path true) (s, d + 1) ls st₁ o)
      (hf : Ends D (.follow dir (o.map Prod.fst)) st₁ ls₁ st₂ o₁) :
      Ends D (.follow dir (some n)) (s, d) (n :: (ls ++ ls₁)) st₂ o₁
  | nil {st : Vfs × Nat} {dir : Nat} : Ends D (.walk dir []) st [] st (some (dir, []))
  | last {st : Vfs × Nat} {dir : Nat} {name : Name} : Ends D (.walk dir [name]) st [] st (some (dir, name))
  | wall {s : Vfs} {d dir : Nat} {name next : Name} {rest : List Name}
      (hdir : s.isDir dir = false) : Ends D (.walk dir (name :: next :: rest)) (s, d) [] (s, d) none
  | stop {s s₁ : Vfs} {st₁ : Vfs × Nat} {d dir : Nat} {name next : Name} {rest : List Name}
      {ls : List Nat} {m : Option Nat} (hdir : s.isDir dir = true) (hfind : s.dirFind D dir name = (s₁, m))
      (hf : Ends D (.follow dir m) (s₁, d) ls st₁ none) :
      Ends D (.walk dir (name :: next :: rest)) (s, d) ls st₁ none
  | next {s s₁ : Vfs} {st₁ st₂ : Vfs × Nat} {d dir dir₁ : Nat} {name next : Name} {rest : List Name}
      {ls ls₁ : List Nat} {m : Option Nat} {e : Name} {o : Option (Nat × Name)} (hdir : s.isDir dir = true)
      (hfind : s.dirFind D dir name = (s₁, m)) (hf : Ends D (.follow dir m) (s₁, d) ls st₁ (some (dir₁, e)))
      (hw : Ends D (.walk dir₁ (next :: rest)) st₁ ls₁ st₂ o) :
      Ends D (.walk dir (name :: next :: rest)) (s, d) (ls ++ ls₁) st₂ o
  | empty {st : Vfs × Nat} {cwd : Option Nat} {fl : Bool} : Ends D (.resolve cwd [] fl) st [] st none
  | lost {s : Vfs} {st₁ : Vfs × Nat} {d : Nat} {cwd : Option Nat} {path : List Char} {fl : Bool}
      {ls : List Nat} (hp : path ≠ []) (hw :
      Ends D (.walk (s.start cwd path) (components path)) (s, d) ls st₁ none) :
      Ends D (.resolve cwd path fl) (s, d) ls st₁ none
  | whole {s : Vfs} {st₁ : Vfs × Nat} {d dir : Nat} {cwd : Option Nat} {path : List Char} {fl : Bool}
      {ls : List Nat} (hp : path ≠ [])
      (hw : Ends D (.walk (s.start cwd path) (components path)) (s, d) ls st₁ (some (dir, []))) :
      Ends D (.resolve cwd path fl) (s, d) ls st₁ (some (dir, []))
  | blocked {s : Vfs} {st₁ : Vfs × Nat} {d dir : Nat} {cwd : Option Nat} {path : List Char} {fl : Bool}
      {name : Name} {ls : List Nat} (hp : path ≠ [])
      (hw : Ends D (.walk (s.start cwd path) (components path)) (s, d) ls st₁ (some (dir, name)))
      (hname : name ≠ []) (hdir : st₁.1.isDir dir = false) : Ends D (.resolve cwd path fl) (s, d) ls st₁ none
  | found {s s₂ : Vfs} {st₁ : Vfs × Nat} {d dir : Nat} {cwd : Option Nat} {path : List Char}
      {name : Name} {ls : List Nat} {m : Option Nat} (hp : path ≠ [])
      (hw : Ends D (.walk (s.start cwd path) (components path)) (s, d) ls st₁ (some (dir, name)))
      (hname : name ≠ []) (hdir : st₁.1.isDir dir = true) (hfind : st₁.1.dirFind D dir name = (s₂, m)) :
      Ends D (.resolve cwd path false) (s, d) ls (s₂, st₁.2) (m.map (·, []))
  | led {s s₂ : Vfs} {st₁ st₂ : Vfs × Nat} {d dir : Nat} {cwd : Option Nat} {path : List Char}
      {name : Name} {ls ls₁ : List Nat} {m : Option Nat} {o : Option (Nat × Name)} (hp : path ≠ [])
      (hw : Ends D (.walk (s.start cwd path) (components path)) (s, d) ls st₁ (some (dir, name)))
      (hname : name ≠ []) (hdir : st₁.1.isDir dir = true) (hfind : st₁.1.dirFind D dir name = (s₂, m))
      (hf : Ends D (.follow dir m) (s₂, st₁.2) ls₁ st₂ o) :
      Ends D (.resolve cwd path true) (s, d) (ls ++ ls₁) st₂ o

variable {s s' : Vfs} {D : Driver} {st st' : Vfs × Nat} {d d' dir n k : Nat} {ls ls' : List Nat}
  {o : Option (Nat × Name)}

/-! ### A call has one outcome -/

def Sole (D : Driver) (j : Job) (st : Vfs × Nat) (ls : List Nat) (st' : Vfs × Nat) (o : Option (Nat × Name)) :
    Prop :=
  ∀ ls₁ st₁ o₁, Ends D j st ls₁ st₁ o₁ → ls = ls₁ ∧ st' = st₁ ∧ o = o₁

variable {v : Vnode} {path : List Char} {st₁ : Vfs × Nat} {o₁ : Option (Nat × Name)} {ok : Bool}

theorem sole_again
    (hn : s.nodes n = some v) (ht : v.type = .link) (hd : ¬ symloopMax < d + 1) (hl : v.link = some path)
    (hr : Sole D (.resolve (some dir) path true) (s, d + 1) ls st o)
    (hf : Sole D (.follow dir (o.map Prod.fst)) st ls' st₁ o₁) :
    Sole D (.follow dir (some n)) (s, d) (n :: (ls ++ ls')) st₁ o₁ := by
  intro _ _ _ h
  cases h with
  | again hn' ht' hd' hl' hr' hf' =>
    cases hn.symm.trans hn'
    cases hl.symm.trans hl'
    obtain ⟨rfl, rfl, rfl⟩ := hr _ _ _ hr'
    obtain ⟨rfl, rfl, rfl⟩ := hf _ _ _ hf'
    exact ⟨rfl, rfl, rfl⟩
  | _ => simp_all

theorem sole_step {s₁ : Vfs} {name next : Name} {rest : List Name} {m : Option Nat}
    {all : List Nat} (hall : ls ++ ls' = all) (hdir : s.isDir dir = true) (hfind : s.dirFind D dir name = (s₁, m))
    (hf : Sole D (.follow dir m) (s₁, d) ls st o)
    (hw : match o with
      | none => ls' = [] ∧ st₁ = st ∧ o₁ = none
      | some (dir₁, _) => Sole D (.walk dir₁ (next :: rest)) st ls' st₁ o₁) :
    Sole D (.walk dir (name :: next :: rest)) (s, d) all st₁ o₁ := by
  subst hall
  intro _ _ _ h
  cases h with
  | wall hdir' => simp_all
  | stop hdir' hfind' hf' =>
    cases hfind.symm.trans hfind'
    obtain ⟨rfl, rfl, rfl⟩ := hf _ _ _ hf'
    obtain ⟨rfl, rfl, rfl⟩ := hw
    exact ⟨List.append_nil _, rfl, rfl⟩
  | next hdir' hfind' hf' hw' =>
    cases hfind.symm.trans hfind'
    obtain ⟨rfl, rfl, rfl⟩ := hf _ _ _ hf'
    obtain ⟨rfl, rfl, rfl⟩ := hw _ _ _ hw'
    exact ⟨rfl, rfl, rfl⟩

theorem sole_resolve {cwd : Option Nat} {fl : Bool}
    {all : List Nat} (hall : ls ++ ls' = all) (hp : path ≠ [])
    (hw : Sole D (.walk (s.start cwd path) (components path)) (s, d) ls st o)
    (hend : match o with
      | none => ls' = [] ∧ st₁ = st ∧ o₁ = none
      | some (dir, name) =>
        if name = [] then ls' = [] ∧ st₁ = st ∧ o₁ = some (dir, [])
        else if st.1.isDir dir then
          if fl then Sole D (.follow dir (st.1.dirFind D dir name).2)
            ((st.1.dirFind D dir name).1, st.2) ls' st₁ o₁
          else ls' = [] ∧ st₁ = ((st.1.dirFind D dir name).1, st.2) ∧ o₁ = (st.1.dirFind D dir name).2.map (·, [])
        else ls' = [] ∧ st₁ = st ∧ o₁ = none) :
    Sole D (.resolve cwd path fl) (s, d) all st₁ o₁ := by
  subst hall
  intro _ _ _ h
  cases h with
  | empty => exact absurd rfl hp
  | lost hp' hw' =>
    obtain ⟨rfl, rfl, rfl⟩ := hw _ _ _ hw'
    simpa using hend
  | whole hp' hw' =>
    obtain ⟨rfl, rfl, rfl⟩ := hw _ _ _ hw'
    simpa using hend
  | blocked hp' hw' hname hdir =>
    obtain ⟨rfl, rfl, rfl⟩ := hw _ _ _ hw'
    simpa [hname, hdir] using hend
  | found hp' hw' hname hdir hfind =>
    obtain ⟨rfl, rfl, rfl⟩ := hw _ _ _ hw'
    simpa [hname, hdir, hfind] using hend
  | led hp' hw' hname hdir hfind hf =>
    obtain ⟨rfl, rfl, rfl⟩ := hw _ _ _ hw'
    simp only [hname, hdir, hfind, if_true, if_false] at hend
    obtain ⟨rfl, rfl, rfl⟩ := hend _ _ _ hf
    exact ⟨rfl, rfl, rfl⟩

theorem Ends.unique {j : Job} (h : Ends D j st ls st' o) : Sole D j st ls st' o := by
  induction h with
  | null | nil | last =>
    rintro _ _ _ ⟨⟩
    exact ⟨rfl, rfl, rfl⟩
  | gone | plain | loop | dangling | wall =>
    intro _ _ _ h
    cases h <;> simp_all
  | again hn ht hd hl _ _ ihr ihf => exact sole_again hn ht hd hl ihr ihf
  | stop hdir hfind _ ih => exact sole_step (List.append_nil _) hdir hfind ih ⟨rfl, rfl, rfl⟩
  | next hdir hfind _ _ ihf ihw => exact sole_step rfl hdir hfind ihf ihw
  | empty =>
    intro _ _ _ h
    cases h with
    | empty => exact ⟨rfl, rfl, rfl⟩
    | lost hp | whole hp | blocked hp | found hp | led hp => exact absurd rfl hp
  | lost hp _ ih => exact sole_resolve (List.append_nil _) hp ih ⟨rfl, rfl, rfl⟩
  | whole hp _ ih => exact sole_resolve (List.append_nil _) hp ih (by simp)
  | blocked hp _ hname hdir ih => exact sole_resolve (List.append_nil _) hp ih (by simp [hname, hdir])
  | found hp _ hname hdir hfind ih => exact sole_resolve (List.append_nil _) hp ih (by simp [hname, hdir, hfind])
  | led hp _ hname hdir hfind _ ihw ihf => exact sole_resolve rfl hp ihw (by simpa [hname, hdir, hfind] using ihf)

/-! ### What a finished call has found -/

theorem Ends.follow_plain {m : Option Nat} (h : Ends D (.follow dir m) st ls st' o) {e : Nat × Name}
    (ho : o = some e)
    (hv : st'.1.nodes e.1 = some v) : v.type ≠ .link := by
  generalize hj : Job.follow dir m = j at h
  induction h generalizing m with
  | plain hn ht =>
    cases ho
    cases hn.symm.trans hv
    exact ht
  | again _ _ _ _ _ _ _ ihf =>
    cases hj
    exact ihf ho hv rfl
  | null | gone | loop | dangling => exact nomatch ho
  | nil | last | wall | stop | next | empty | lost | whole | blocked | found | led => exact nomatch hj

theorem Ends.walk_bare {comps : List Name} (h : Ends D (.walk dir comps) st ls st' o) (hc : ∀ c ∈ comps, c ≠ [])
    (ho : o = some (n, [])) : comps = [] ∧ n = dir ∧ st' = st := by
  generalize hj : Job.walk dir comps = j at h
  induction h generalizing dir comps with
  | nil =>
    cases hj
    cases ho
    exact ⟨rfl, rfl, rfl⟩
  | last =>
    cases hj
    cases ho
    exact absurd rfl (hc [] (List.mem_cons_self ..))
  | wall => exact nomatch ho
  | stop => exact nomatch ho
  | next _ _ _ _ _ ihw =>
    cases hj
    exact nomatch (ihw (fun c h => hc c (List.mem_cons_of_mem _ h)) ho rfl).1
  | null | gone | plain | loop | dangling | again => exact nomatch hj
  | empty | lost | whole | blocked | found | led => exact nomatch hj

theorem component_ne_nil {c : Name} (hc : c ∈ components path) : c ≠ [] := by
  simpa using (List.mem_filter.mp hc).2

theorem start_of_bare (hp : path ≠ []) (hc : components path = []) (cwd : Option Nat) :
    s.start cwd path = s.vfsRoot := by
  refine if_pos ?_
  cases path with
  | nil => exact absurd rfl hp
  | cons c rest =>
    by_contra hne
    have hc0 : c ≠ '/' := fun he => hne (by rw [he]; rfl)
    have hmem : ∃ x ∈ (c :: rest).splitOn '/', x ≠ [] := by
      rw [List.splitOn, List.splitOnP_cons_eq_if_modifyHead, if_neg (by simpa using hc0)]
      cases hsplit : List.splitOnP (· == '/') rest with
      | nil => exact absurd hsplit (List.splitOn_ne_nil '/' rest)
      | cons y ys => exact ⟨c :: y, List.mem_cons_self .., nofun⟩
    obtain ⟨x, hx, hx0⟩ := hmem
    have : x ∈ components (c :: rest) := List.mem_filter.mpr ⟨hx, by simpa using hx0⟩
    rw [hc] at this
    exact nomatch this

theorem Ends.resolve_plain {cwd : Option Nat} (h : Ends D (.resolve cwd path true) st ls st' o)
    (hroot : ∀ v, st.1.nodes st.1.vfsRoot = some v → v.type ≠ .link) {e : Nat × Name} (ho : o = some e)
    (hv : st'.1.nodes e.1 = some v) : v.type ≠ .link := by
  cases h with
  | empty => exact nomatch ho
  | lost => exact nomatch ho
  | blocked => exact nomatch ho
  | whole hp hw =>
    cases ho
    obtain ⟨hc, rfl, rfl⟩ := hw.walk_bare (fun c => component_ne_nil) rfl
    rw [start_of_bare hp hc] at hv
    exact hroot v hv
  | led hp hw hname hdir hfind hf => exact hf.follow_plain ho hv

/-! ### Enough nesting -/

structure Counted (d : Nat) (ls : List Nat) (d' : Nat) (ok : Bool) : Prop where
  le : d + ls.length ≤ symloopMax
  low : d + ls.length ≤ d'
  high : d' ≤ d + ls.length + 1
  exact : ok = true → d' = d + ls.length

theorem Counted.refl (h : d ≤ symloopMax) (ok : Bool) : Counted d [] d ok :=
  ⟨h, Nat.le_refl _, Nat.le_succ _, fun _ => rfl⟩

theorem Counted.trans {e : Nat} (h : Counted d ls d' true) (h' : Counted d' ls' e ok) :
    Counted d (ls ++ ls') e ok := by
  have hd := h.exact rfl
  obtain ⟨hle, hlow, hhigh, hexact⟩ := h'
  rw [hd] at hle hlow hhigh hexact
  have hlen : (ls ++ ls').length = ls.length + ls'.length := List.length_append
  exact ⟨by omega, by omega, by omega, fun hok => by have := hexact hok; omega⟩

theorem Counted.cons (h : Counted (d + 1) ls d' ok) (n : Nat) : Counted d (n :: ls) d' ok := by
  obtain ⟨hle, hlow, hhigh, hexact⟩ := h
  have hlen : (n :: ls).length = ls.length + 1 := List.length_cons
  exact ⟨by omega, by omega, by omega, fun hok => by have := hexact hok; omega⟩

def Done (D : Driver) (j : Job) (st st' : Vfs × Nat) (o : Option (Nat × Name)) : Prop :=
  ∃ ls, Ends D j st ls st' o ∧ Counted st.2 ls st'.2 o.isSome

theorem Counted.fail (h : Counted d ls d' ok) : Counted d ls d' false :=
  ⟨h.le, h.low, h.high, fun hx => nomatch hx⟩

theorem Counted.next_le (h : Counted d ls d' ok) (hok : ok = true) : d' ≤ symloopMax :=
  h.exact hok ▸ h.le

def need (d : Nat) : Nat := 2 * (symloopMax - d)

theorem need_le (h : d ≤ d') : need d' ≤ need d := by
  unfold need
  omega

def FollowsDone (D : Driver) (k : Nat) : Prop :=
  ∀ s d dir n, d ≤ symloopMax → need d + 2 ≤ k →
    Done D (.follow dir n) (s, d) (follow D k (s, d) dir n).1 ((follow D k (s, d) dir n).2.map (·, []))

def ResolvesDone (D : Driver) (k : Nat) : Prop :=
  ∀ s d cwd path fl, d ≤ symloopMax → need d + 3 ≤ k →
    Done D (.resolve cwd path fl) (s, d) (resolve D k (s, d) cwd path fl).1
      ((resolve D k (s, d) cwd path fl).2.map (·, []))

theorem walkFrom_done (hfol : FollowsDone D k) {comps : List Name} (hd : d ≤ symloopMax) (hk : need d + 2 ≤ k) :
    Done D (.walk dir comps) (s, d) (walkFrom D (follow D k) (s, d) dir comps).1
      (walkFrom D (follow D k) (s, d) dir comps).2 := by
  induction comps generalizing s d dir with
  | nil => exact ⟨[], .nil, .refl hd _⟩
  | cons seg rest ih =>
    cases rest with
    | nil => exact ⟨[], .last, .refl hd _⟩
    | cons next rest =>
      rw [walkFrom]
      by_cases hdir : s.isDir dir = true
      · rw [if_pos hdir]
        generalize hfind : s.dirFind D dir seg = x
        obtain ⟨s₁, m⟩ := x
        dsimp only
        obtain ⟨ls, hf, hc⟩ := hfol s₁ d dir m hd hk
        generalize follow D k (s₁, d) dir m = y at hf hc
        obtain ⟨⟨s₂, d₂⟩, _ | e⟩ := y
        · exact ⟨ls, .stop hdir hfind hf, hc⟩
        · have hd₂ := hc.exact rfl
          have hle := hc.next_le rfl
          dsimp only at hd₂ hle
          have hneed : need d₂ ≤ need d := need_le (by omega)
          obtain ⟨ls', hw, hc'⟩ := ih (s := s₂) (d := d₂) hle (by omega)
          exact ⟨ls ++ ls', .next hdir hfind hf hw, hc.trans hc'⟩
      · rw [if_neg hdir]
        exact ⟨[], .wall (Bool.eq_false_iff.mpr hdir), .refl hd _⟩

theorem follow_done (ihf : FollowsDone D k) (ihr : ResolvesDone D k) : FollowsDone D (k + 1) := by
  intro s d dir n hd hk
  cases n with
  | none =>
    rw [follow]
    exact ⟨[], .null, .refl hd _⟩
  | some n =>
    rw [follow]
    cases hn : s.nodes n with
    | none => exact ⟨[], .gone hn, .refl hd _⟩
    | some v =>
      dsimp only
      by_cases ht : v.type = .link
      · rw [if_pos ht]
        by_cases hmax : symloopMax < d + 1
        · rw [if_pos hmax]
          exact ⟨[], .loop hn ht hmax, hd, Nat.le_succ _, Nat.le_refl _, fun hx => nomatch hx⟩
        rw [if_neg hmax]
        cases hl : v.link with
        | none => exact ⟨[], .dangling hn ht hmax hl, hd, Nat.le_succ _, Nat.le_refl _, fun hx => nomatch hx⟩
        | some path =>
          have hneed : need (d + 1) + 2 = need d := by
            unfold need
            omega
          dsimp only
          obtain ⟨ls, hr, hc⟩ := ihr s (d + 1) (some dir) path true (by omega) (by omega)
          generalize resolve D k (s, d + 1) (some dir) path true = y at hr hc
          obtain ⟨⟨s₁, d₁⟩, m⟩ := y
          dsimp only at hr hc ⊢
          cases m with
          | none =>
            have hnull : follow D k (s₁, d₁) dir none = ((s₁, d₁), none) := by
              cases k <;> rw [follow]
            rw [hnull]
            have hall := Ends.again hn ht hmax hl hr (.null)
            rw [List.append_nil] at hall
            exact ⟨n :: ls, hall, hc.cons n⟩
          | some e =>
            have hd₁ : d₁ = d + 1 + ls.length := hc.exact rfl
            have hneed₁ : need d₁ ≤ need (d + 1) := need_le (by omega)
            obtain ⟨ls', hf, hc'⟩ := ihf s₁ d₁ dir (some e) (hc.next_le rfl) (by omega)
            exact ⟨n :: (ls ++ ls'), .again hn ht hmax hl hr hf, (hc.trans hc').cons n⟩
      · rw [if_neg ht]
        exact ⟨[], .plain hn ht, .refl hd _⟩

theorem resolve_done (ihf : FollowsDone D k) : ResolvesDone D (k + 1) := by
  intro s d cwd path fl hd hk
  rw [resolve]
  by_cases hp : path = []
  · rw [if_pos hp, hp]
    exact ⟨[], .empty, .refl hd _⟩
  rw [if_neg hp]
  obtain ⟨ls, hw, hc⟩ := walkFrom_done ihf (s := s) hd (by omega)
  generalize walkFrom D (follow D k) (s, d) (s.start cwd path) (components path) = y at hw hc
  obtain ⟨⟨s₁, d₁⟩, _ | ⟨dir, last⟩⟩ := y
  · exact ⟨ls, .lost hp hw, hc⟩
  have hle := hc.next_le rfl
  have hd₁ := hc.exact rfl
  dsimp only at hle hd₁ ⊢
  by_cases hlast : last = []
  · rw [if_pos hlast]
    rw [hlast] at hw
    exact ⟨ls, .whole hp hw, hc⟩
  rw [if_neg hlast]
  by_cases hdir : s₁.isDir dir = true
  · rw [if_pos hdir]
    generalize hfind : s₁.dirFind D dir last = z
    obtain ⟨s₂, m⟩ := z
    dsimp only
    cases fl with
    | false =>
      rw [if_neg Bool.false_ne_true]
      exact ⟨ls, .found hp hw hlast hdir hfind, hc.le, hc.low, hc.high, fun _ => hd₁⟩
    | true =>
      rw [if_pos rfl]
      have hneed : need d₁ ≤ need d := need_le (by omega)
      obtain ⟨ls', hf, hc'⟩ := ihf s₂ d₁ dir m hle (by omega)
      exact ⟨ls ++ ls', .led hp hw hlast hdir hfind hf, hc.trans hc'⟩
  · rw [if_neg hdir]
    exact ⟨ls, .blocked hp hw hlast (Bool.eq_false_iff.mpr hdir), hc.fail⟩

theorem calls_done (D : Driver) (k : Nat) : FollowsDone D k ∧ ResolvesDone D k := by
  induction k with
  | zero => exact ⟨fun _ _ _ _ _ hk => absurd hk (by omega), fun _ _ _ _ _ _ hk => absurd hk (by omega)⟩
  | succ k ih => exact ⟨follow_done ih.1 ih.2, resolve_done ih.1⟩

/-- Every lookup ends, in one way; it follows at most sixteen links, fails if a
further one is met, and does not end at a link if it is to follow them. -/
theorem lookup_ends (s : Vfs) (D : Driver) (cwd : Option Nat) (path : List Char) (fl : Bool) :
    ∃ ls d', Ends D (.resolve cwd path fl) (s, 0) ls ((s.lookup D cwd path fl).1, d')
        ((s.lookup D cwd path fl).2.map (·, [])) ∧
      (∀ ls₁ st₁ o₁, Ends D (.resolve cwd path fl) (s, 0) ls₁ st₁ o₁ →
        ls₁ = ls ∧ st₁ = ((s.lookup D cwd path fl).1, d') ∧ o₁ = (s.lookup D cwd path fl).2.map (·, [])) ∧
      ls.length ≤ symloopMax ∧
      (symloopMax < d' → ls.length = symloopMax ∧ (s.lookup D cwd path fl).2 = none) ∧
      (fl = true → (∀ v, s.nodes s.vfsRoot = some v → v.type ≠ .link) →
        ∀ n v, (s.lookup D cwd path fl).2 = some n → (s.lookup D cwd path fl).1.nodes n = some v →
          v.type ≠ .link) := by
  obtain ⟨ls, hr, hc⟩ := (calls_done D nesting).2 s 0 cwd path fl (Nat.zero_le _) (by decide)
  have heq : s.lookup D cwd path fl =
      ((resolve D nesting (s, 0) cwd path fl).1.1, (resolve D nesting (s, 0) cwd path fl).2) := rfl
  rw [heq]
  generalize resolve D nesting (s, 0) cwd path fl = y at hr hc
  obtain ⟨⟨s', d'⟩, m⟩ := y
  dsimp only at hr hc ⊢
  refine ⟨ls, d', hr, fun ls₁ st₁ o₁ h₁ => h₁.unique _ _ _ hr, ?_, fun hmax => ⟨?_, ?_⟩, ?_⟩
  · have := hc.le
    omega
  · have := hc.le
    have := hc.high
    omega
  · cases m with
    | none => rfl
    | some e => exact absurd hmax (Nat.not_lt.mpr (hc.next_le rfl))
  · rintro rfl hroot n v hm hv
    cases hm
    exact hr.resolve_plain hroot rfl hv

def loopTree : Vfs where
  nodes
    | 0 => some { name := [], type := .dir, parent := none, children := [1], ops := .tmpfs }
    | 1 => some { name := ['a'], type := .link, parent := some 0, ops := .tmpfs, link := some ['a'] }
    | _ => none
  root := 0
  next := 2

def silent : Driver := ⟨fun _ _ => none⟩

theorem lookup_ends_loop : (loopTree.lookup silent none ['/', 'a'] true).2 = none ∧
    ∃ ls d', Ends silent (.resolve none ['/', 'a'] true) (loopTree, 0) ls
      ((loopTree.lookup silent none ['/', 'a'] true).1, d')
      ((loopTree.lookup silent none ['/', 'a'] true).2.map (·, [])) ∧ ls.length ≤ symloopMax := by
  obtain ⟨ls, d', hends, -, hlen, -⟩ := lookup_ends loopTree silent none ['/', 'a'] true
  exact ⟨by decide +kernel, ls, d', hends, hlen⟩

end Sic.Fs.Vfs
