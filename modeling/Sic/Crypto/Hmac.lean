import Sic.Crypto.Sha

/-! The streaming hashes, HMAC over several pieces and PBKDF2, and what RFC 2104 and RFC 8018 say they are. -/

namespace Sic.Sha

open Sic.BlockHash

def sha1Init (s : Ctx Sha1State) : Ctx Sha1State := init sha1 s

def sha1Update (s : Ctx Sha1State) (data : List U8) : Ctx Sha1State := update sha1 s data

def sha1Final (s : Ctx Sha1State) : List U8 := (final sha1 s).1

def sha256Init (s : Ctx Sha256State) : Ctx Sha256State := init sha256 s

def sha256Update (s : Ctx Sha256State) (data : List U8) : Ctx Sha256State := update sha256 s data

def sha256Final (s : Ctx Sha256State) : List U8 := (final sha256 s).1

def hmacVec {H : Type*} (A : Alg H) (s : Ctx H) (key : List U8) (data : List (List U8)) : List U8 :=
  let ks := if key.length > 64 then final A (update A (init A s) key) else (key, s)
  let k := ks.1 ++ List.replicate (64 - ks.1.length) 0
  let inner := final A (data.foldl (update A) (update A (init A ks.2) (k.map (· ^^^ 0x36))))
  (final A (update A (update A (init A inner.2) (k.map (· ^^^ 0x5c))) inner.1)).1

def hmacSha1Vec (s : Ctx Sha1State) (key : List U8) (data : List (List U8)) : List U8 := hmacVec sha1 s key data

def hmacSha256Vec (s : Ctx Sha256State) (key : List U8) (data : List (List U8)) : List U8 :=
  hmacVec sha256 s key data

def be32 (x : U32) : List U8 := (List.range 4).map fun i => (x >>> (24 - 8 * i)).setWidth 8

theorem be32_ofNat (i : Nat) : be32 (BitVec.ofNat 32 i) = octets 4 i :=
  (map_shift_eq_octets 4 _).trans ((congrArg (octets 4) (BitVec.toNat_ofNat i 32)).trans (octets_mod 4 i))

def xorBytes (t u : List U8) : List U8 := List.zipWith (· ^^^ ·) t u

def pbkdf2Block (s : Ctx Sha1State) (pass salt : List U8) (iters : Int) (blk : U32) : List U8 :=
  let u := hmacSha1Vec s pass [salt, be32 blk]
  ((List.range (iters - 1).toNat).foldl (fun ut _ =>
    let u := hmacSha1Vec s pass [ut.1]
    (u, xorBytes ut.2 u)) (u, u)).2

def pbkdf2Loop (s : Ctx Sha1State) (pass salt : List U8) (iters : Int) (blk : U32) (olen : Nat) : List U8 :=
  if olen = 0 then [] else
    (pbkdf2Block s pass salt iters blk).take (min olen 20) ++ pbkdf2Loop s pass salt iters (blk + 1)
      (olen - min olen 20)
termination_by olen
decreasing_by omega

def pbkdf2Sha1 (s : Ctx Sha1State) (pass salt : List U8) (iters : Int) (olen : Nat) : List U8 :=
  pbkdf2Loop s pass salt iters 1 olen

namespace Rfc

/-- RFC 2104, section 2, for a hash with blocks of 64 bytes. -/
def hmac (hash : List U8 → List U8) (key text : List U8) : List U8 :=
  let k := if key.length > 64 then hash key else key
  let k := k ++ List.replicate (64 - k.length) 0
  hash (k.map (· ^^^ 0x5c) ++ hash (k.map (· ^^^ 0x36) ++ text))

/-- `U_(j + 1)` of RFC 8018, section 5.2. -/
def u (prf : List U8 → List U8 → List U8) (p s : List U8) (i : Nat) : Nat → List U8
  | 0 => prf p (s ++ octets 4 i)
  | j + 1 => prf p (u prf p s i j)

def f (prf : List U8 → List U8 → List U8) (p s : List U8) (c i : Nat) : List U8 :=
  (List.range' 1 (c - 1)).foldl (fun t j => t.zipWith (· ^^^ ·) (u prf p s i j)) (u prf p s i 0)

def pbkdf2 (prf : List U8 → List U8 → List U8) (hLen : Nat) (p s : List U8) (c dkLen : Nat) : Option (List U8) :=
  if c = 0 ∨ dkLen > (2 ^ 32 - 1) * hLen then none
  else some (((List.range' 1 ((dkLen + hLen - 1) / hLen)).flatMap (f prf p s c)).take dkLen)

end Rfc

theorem hmacVec_eq {H : Type*} (A : Alg H) (s : Ctx H) (key : List U8) (data : List (List U8)) :
    hmacVec A s key data = Rfc.hmac (digest A) key data.flatten := by
  have hks : (if key.length > 64 then final A (update A (init A s) key) else (key, s)).1 =
      if key.length > 64 then digest A key else key := by
    split
    · exact final_eq (holds_update (holds_init s) key)
    · rfl
  rw [hmacVec, Rfc.hmac, hks]
  generalize (if key.length > 64 then digest A key else key) = k
  generalize (if key.length > 64 then final A (update A (init A s) key) else (key, s)).2 = s'
  rw [final_eq (holds_foldl (holds_update (holds_init s') _) data)]
  exact final_eq (holds_update (holds_update (holds_init _) _) _)

theorem hmacSha1Vec_eq (s : Ctx Sha1State) (key : List U8) (data : List (List U8)) :
    hmacSha1Vec s key data = Rfc.hmac (digest Fips.sha1) key data.flatten := by
  rw [← sha1_eq]
  exact hmacVec_eq sha1 s key data

theorem pbkdf2Block_eq (s : Ctx Sha1State) (pass salt : List U8) (iters : Int) (i : Nat) :
    pbkdf2Block s pass salt iters (BitVec.ofNat 32 i) =
      Rfc.f (Rfc.hmac (digest Fips.sha1)) pass salt iters.toNat i := by
  have hloop : ∀ n, (List.range n).foldl (fun (ut : List U8 × List U8) (_ : Nat) =>
      (hmacSha1Vec s pass [ut.1], xorBytes ut.2 (hmacSha1Vec s pass [ut.1])))
      (hmacSha1Vec s pass [salt, be32 (BitVec.ofNat 32 i)], hmacSha1Vec s pass [salt, be32 (BitVec.ofNat 32 i)]) =
      (Rfc.u (Rfc.hmac (digest Fips.sha1)) pass salt i n,
        (List.range' 1 n).foldl (fun t j => xorBytes t (Rfc.u (Rfc.hmac (digest Fips.sha1)) pass salt i j))
          (Rfc.u (Rfc.hmac (digest Fips.sha1)) pass salt i 0)) := by
    intro n
    induction n with
    | zero =>
      rw [hmacSha1Vec_eq, be32_ofNat]
      simp [Rfc.u]
    | succ n ih =>
      rw [List.range_succ, List.foldl_append, ih, List.range'_concat, List.foldl_append, List.foldl_cons,
        List.foldl_nil, hmacSha1Vec_eq, List.flatten_singleton, Nat.one_mul, Nat.add_comm 1 n]
      rfl
  rw [pbkdf2Block, Rfc.f, show iters.toNat - 1 = (iters - 1).toNat by omega]
  exact congrArg Prod.snd (hloop _)

theorem digest_length (m : List U8) : (digest Fips.sha1 m).length = 20 := by
  rw [← sha1_eq]
  simp [digest, sha1, outBytes]

theorem f_length (p s : List U8) (c i : Nat) : (Rfc.f (Rfc.hmac (digest Fips.sha1)) p s c i).length = 20 := by
  have hu : ∀ j, (Rfc.u (Rfc.hmac (digest Fips.sha1)) p s i j).length = 20 := by
    intro j
    cases j <;> exact digest_length _
  rw [Rfc.f]
  refine List.foldlRecOn (motive := fun t : List U8 => t.length = 20) _ _ (hu 0) fun t ht j _ => ?_
  rw [List.length_zipWith, ht, hu j, Nat.min_self]

theorem pbkdf2Loop_eq (s : Ctx Sha1State) (pass salt : List U8) (iters : Int) (i olen : Nat) :
    pbkdf2Loop s pass salt iters (BitVec.ofNat 32 i) olen =
      ((List.range' i ((olen + 20 - 1) / 20)).flatMap
        (Rfc.f (Rfc.hmac (digest Fips.sha1)) pass salt iters.toNat)).take olen := by
  induction olen using Nat.strongRecOn generalizing i with
  | ind olen ih =>
    rw [pbkdf2Loop]
    split
    · next hz => rw [hz, List.take_zero]
    next hne =>
    have hcount : (olen + 20 - 1) / 20 = (olen - min olen 20 + 20 - 1) / 20 + 1 := by omega
    have hlen := f_length pass salt iters.toNat i
    have htake : ∀ t : List U8, t.length = 20 → t.take (min olen 20) = t.take olen := fun t ht => by
      rw [← ht, List.take_eq_take_iff]
      omega
    rw [show BitVec.ofNat 32 i + 1 = BitVec.ofNat 32 (i + 1) from (BitVec.ofNat_add i 1).symm,
      ih (olen - min olen 20) (by omega), pbkdf2Block_eq, htake _ hlen, hcount, List.range'_succ,
        List.flatMap_cons,
      List.take_append, hlen, show olen - 20 = olen - min olen 20 by omega]

/-- The hashes do not depend on how the message is cut, HMAC is that of RFC 2104, and PBKDF2 gives the key that
RFC 8018 derives. -/
theorem streaming_hashes :
    (∀ s (ds : List (List U8)), sha1Final (ds.foldl sha1Update (sha1Init s)) = digest Fips.sha1 ds.flatten) ∧
      (∀ s (ds : List (List U8)), sha256Final (ds.foldl sha256Update (sha256Init s)) =
        digest Fips.sha256 ds.flatten) ∧
      (∀ s key data, hmacSha1Vec s key data = Rfc.hmac (digest Fips.sha1) key data.flatten) ∧
      (∀ s key data, hmacSha256Vec s key data = Rfc.hmac (digest Fips.sha256) key data.flatten) ∧
      ∀ s pass salt iters olen dk, Rfc.pbkdf2 (Rfc.hmac (digest Fips.sha1)) 20 pass salt iters.toNat olen =
        some dk →
        pbkdf2Sha1 s pass salt iters olen = dk := by
  refine ⟨fun s ds => ?_, fun s ds => ?_, hmacSha1Vec_eq, fun s key data => ?_,
    fun s pass salt iters olen dk h => ?_⟩
  · rw [← sha1_eq]
    exact final_pieces s ds
  · rw [← sha256_eq]
    exact final_pieces s ds
  · rw [← sha256_eq]
    exact hmacVec_eq sha256 s key data
  rw [Rfc.pbkdf2] at h
  split at h
  · cases h
  · cases h
    exact pbkdf2Loop_eq s pass salt iters 1 olen

end Sic.Sha
