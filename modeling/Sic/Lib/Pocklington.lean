import Mathlib.FieldTheory.Finite.Basic

/-! Primality from known primes in the predecessor: if `a` has order divisible by each of them modulo every prime
factor of `n`, and their product exceeds the square root of `n`, then `n` is prime. -/

namespace Sic.Pocklington

def powMod (n a : Nat) : Nat → Nat → Nat
  | 0, _ => 1 % n
  | fuel + 1, e =>
    let r := powMod n a fuel (e / 2)
    if e % 2 = 1 then r * r % n * a % n else r * r % n

theorem powMod_eq (n a fuel : Nat) {e : Nat} (h : e < 2 ^ fuel) : powMod n a fuel e = a ^ e % n := by
  induction fuel generalizing e with
  | zero =>
    rw [Nat.lt_one_iff.mp h]
    rfl
  | succ fuel ih =>
    have hhalf := ih (show e / 2 < 2 ^ fuel by rw [Nat.pow_succ] at h; omega)
    have hsq : powMod n a fuel (e / 2) * powMod n a fuel (e / 2) % n = a ^ (2 * (e / 2)) % n := by
      rw [hhalf, ← Nat.mul_mod, ← Nat.pow_add, Nat.two_mul]
    rw [powMod]
    split
    · next hodd =>
      rw [hsq, Nat.mod_mul_mod, ← Nat.pow_succ]
      congr 2
      omega
    · next heven =>
      rw [hsq]
      congr 2
      omega

variable {n a q : Nat}

theorem dvd_sub_one (hn : 0 < n) (hq : q.Prime) (hdvd : q ∣ n - 1) (hone : a ^ (n - 1) % n = 1)
    (hcop : Nat.Coprime (a ^ ((n - 1) / q) % n + (n - 1)) n) {r : Nat} (hr : r.Prime) (hrn : r ∣ n) :
    q ∣ r - 1 := by
  have : Fact r.Prime := ⟨hr⟩
  have : Fact q.Prime := ⟨hq⟩
  have hcast : ∀ x : Nat, ((x % n : Nat) : ZMod r) = x := fun x =>
    (ZMod.natCast_eq_natCast_iff' _ _ _).mpr (Nat.mod_mod_of_dvd x hrn)
  have hpow : ((a : ZMod r) ^ ((n - 1) / q)) ^ q = 1 := by
    rw [← pow_mul, Nat.div_mul_cancel hdvd, ← Nat.cast_pow, ← hcast, hone, Nat.cast_one]
  have hne : (a : ZMod r) ^ ((n - 1) / q) ≠ 1 := by
    intro heq
    have hzero : ((a ^ ((n - 1) / q) % n + (n - 1) : Nat) : ZMod r) = 0 := by
      rw [Nat.cast_add, hcast, Nat.cast_pow, heq, ← Nat.cast_one, ← Nat.cast_add, Nat.add_sub_cancel' hn]
      exact (ZMod.natCast_eq_zero_iff _ _).mpr hrn
    have hrd := (ZMod.natCast_eq_zero_iff _ _).mp hzero
    exact hr.one_lt.ne' (Nat.dvd_one.mp (hcop ▸ Nat.dvd_gcd hrd hrn))
  have hunit : (a : ZMod r) ^ ((n - 1) / q) ≠ 0 := by
    intro hz
    rw [hz, zero_pow hq.ne_zero] at hpow
    exact zero_ne_one hpow
  rw [← orderOf_eq_prime hpow hne]
  exact ZMod.orderOf_dvd_card_sub_one hunit

theorem prime_of_primes {s : Finset Nat} (hn : 1 < n) (hprime : ∀ q ∈ s, q.Prime) (hdvd : ∀ q ∈ s, q ∣ n - 1)
    (hone : a ^ (n - 1) % n = 1) (hcop : ∀ q ∈ s, Nat.Coprime (a ^ ((n - 1) / q) % n + (n - 1)) n)
    (hbig : n < (∏ q ∈ s, q + 1) ^ 2) : n.Prime := by
  by_contra hnot
  have hr : n.minFac.Prime := Nat.minFac_prime hn.ne'
  have hprod : ∏ q ∈ s, q ∣ n.minFac - 1 := by
    refine Finset.prod_primes_dvd _ (fun q hq => (hprime q hq).prime) fun q hq => ?_
    exact dvd_sub_one (Nat.lt_of_succ_lt hn) (hprime q hq) (hdvd q hq) hone (hcop q hq) hr n.minFac_dvd
  have hle : ∏ q ∈ s, q + 1 ≤ n.minFac := by
    have := Nat.le_of_dvd (Nat.sub_pos_of_lt hr.one_lt) hprod
    have := hr.one_lt
    omega
  have hsq := Nat.minFac_sq_le_self (Nat.lt_of_succ_lt hn) hnot
  exact absurd (Nat.pow_le_pow_left hle 2) (by omega)

def test (n a : Nat) (qs : List Nat) : Bool :=
  1 < n && n < 2 ^ 256 && powMod n a 256 (n - 1) = 1 &&
    (qs.all fun q => (n - 1) % q = 0 && Nat.gcd (powMod n a 256 ((n - 1) / q) + (n - 1)) n = 1) &&
    n < (qs.prod + 1) ^ 2

theorem prime_of_test {qs : List Nat} (hnodup : qs.Nodup) (hprime : ∀ q ∈ qs, q.Prime) (h : test n a qs) :
    n.Prime := by
  simp only [test, Bool.and_eq_true, decide_eq_true_eq, List.all_eq_true] at h
  obtain ⟨⟨⟨⟨hn, hsize⟩, hone⟩, hall⟩, hbig⟩ := h
  have hpow : ∀ e, e ≤ n - 1 → powMod n a 256 e = a ^ e % n := fun e he => powMod_eq n a 256 (by omega)
  have hprod : ∏ q ∈ qs.toFinset, q = qs.prod := by
    rw [List.prod_toFinset _ hnodup, List.map_id']
  refine prime_of_primes (a := a) hn (s := qs.toFinset) (fun q hq => hprime q (List.mem_toFinset.mp hq))
    (fun q hq => Nat.dvd_of_mod_eq_zero (hall q (List.mem_toFinset.mp hq)).1) ?_ (fun q hq => ?_) (hprod ▸ hbig)
  · rw [← hpow _ le_rfl, hone]
  · rw [← hpow _ (Nat.div_le_self _ _)]
    exact (hall q (List.mem_toFinset.mp hq)).2

end Sic.Pocklington
