import Mathlib.Tactic
import Mathlib.Data.BitVec
import Mathlib.Data.ZMod.Basic
import Mathlib.NumberTheory.Multiplicity

/-!
# Linear congruential generators

`step a c` is the affine map `x ↦ a·x + c`. Over any commutative ring it is
one-to-one when the multiplier is a unit, and its iterates are affine again. Over
words of `w` bits, with a multiplier that is 1 modulo 4 and an odd increment, a
state comes back exactly after the multiples of `2^w` steps.
-/

namespace EthernetSoc.Congruential

section Ring
variable {R : Type*} [CommRing R]

def step (a c x : R) : R := a*x + c

theorem step_injective {a : R} (ha : IsUnit a) (c : R) : Function.Injective (step a c) := by
  intro x y h
  exact ha.mul_right_injective (add_right_cancel h)

theorem iterate_step (a c x : R) (n : ℕ) :
    (step a c)^[n] x = a^n * x + (∑ i ∈ Finset.range n, a^i) * c := by
  induction n with
  | zero => simp
  | succ n ih =>
    rw [Function.iterate_succ_apply', ih, step, geom_sum_succ]
    ring

theorem iterate_step_sub (a c x : R) (n : ℕ) :
    (step a c)^[n] x - x = (∑ i ∈ Finset.range n, a^i) * ((a-1)*x + c) := by
  have hgeom := geom_sum_mul a n
  rw [iterate_step]
  linear_combination -x * hgeom

theorem mul_iterate_step (a c x : R) (n : ℕ) :
    (a-1) * (step a c)^[n] x + c = a^n * ((a-1)*x + c) := by
  have hgeom := geom_sum_mul a n
  rw [iterate_step]
  linear_combination c * hgeom

theorem map_iterate_step {S : Type*} [CommRing S] (f : R →+* S) (a c x : R) (n : ℕ) :
    f ((step a c)^[n] x) = (step (f a) (f c))^[n] (f x) := by
  simp only [iterate_step, map_add, map_mul, map_pow, map_sum]

end Ring

section Words
variable {w : ℕ}

theorem two_pow_dvd_geomSum_iff {a : ℕ} (ha : a % 4 = 1) (n : ℕ) :
    2^w ∣ ∑ i ∈ Finset.range n, a^i ↔ 2^w ∣ n := by
  rcases eq_or_ne a 1 with rfl | hne
  · simp
  have hlift := Int.two_pow_sub_pow' (x := (a : ℤ)) (y := 1) n (by omega) (by omega)
  have hgeom : (a : ℤ)^n - 1^n = (∑ i ∈ Finset.range n, (a : ℤ)^i) * (a-1) := by
    rw [geom_sum_mul, one_pow]
  have hfin : FiniteMultiplicity (2 : ℤ) ((a : ℤ) - 1) :=
    Int.finiteMultiplicity_iff.mpr ⟨by decide, by omega⟩
  rw [hgeom, emultiplicity_mul Int.prime_two, add_comm] at hlift
  have hsame := ENat.add_right_injective_of_ne_top
    (finiteMultiplicity_iff_emultiplicity_ne_top.mp hfin) hlift
  have hint : (2 : ℤ)^w ∣ ∑ i ∈ Finset.range n, (a : ℤ)^i ↔ (2 : ℤ)^w ∣ n := by
    rw [pow_dvd_iff_le_emultiplicity, pow_dvd_iff_le_emultiplicity, hsame]
  exact_mod_cast hint

instance charP_bitVec : CharP (BitVec w) (2^w) where
  cast_eq_zero_iff n := by
    rw [BitVec.natCast_eq_ofNat, ← BitVec.toNat_inj, BitVec.toNat_ofNat]
    exact Nat.dvd_iff_mod_eq_zero.symm

theorem natCast_toNat (x : BitVec w) : ((x.toNat : ℕ) : BitVec w) = x := by
  rw [BitVec.natCast_eq_ofNat, BitVec.ofNat_toNat, BitVec.setWidth_eq]

theorem isUnit_natCast {d : ℕ} (hd : Odd d) : IsUnit (d : BitVec w) := by
  have hcop : IsCoprime (d : ℤ) (2^w : ℕ) :=
    Nat.isCoprime_iff_coprime.mpr (hd.coprime_two_right.pow_right w)
  have hmap := hcop.map (Int.castRingHom (BitVec w))
  rw [eq_intCast, eq_intCast, Int.cast_natCast, Int.cast_natCast,
    CharP.cast_eq_zero (BitVec w) (2^w), isCoprime_zero_right] at hmap
  exact hmap

theorem isUnit_of_odd {x : BitVec w} (hx : Odd x.toNat) : IsUnit x := by
  rw [← natCast_toNat x]
  exact isUnit_natCast hx

theorem iterate_step_eq_self_iff {a c : BitVec w} (ha : a.toNat % 4 = 1) (hc : c.toNat % 2 = 1)
    (x : BitVec w) (n : ℕ) : (step a c)^[n] x = x ↔ 2^w ∣ n := by
  have hunit : IsUnit ((a-1)*x + c) := by
    have hcast : (a-1)*x + c = ((a.toNat - 1) * x.toNat + c.toNat : ℕ) := by
      rw [Nat.cast_add, Nat.cast_mul, Nat.cast_sub (by omega), Nat.cast_one, natCast_toNat,
        natCast_toNat, natCast_toNat]
    have heven : Even ((a.toNat - 1) * x.toNat) :=
      Even.mul_right ⟨2 * (a.toNat/4), by omega⟩ _
    rw [hcast]
    exact isUnit_natCast (heven.add_odd (Nat.odd_iff.mpr hc))
  have hsum : ∑ i ∈ Finset.range n, a^i = (∑ i ∈ Finset.range n, a.toNat^i : ℕ) := by
    rw [Nat.cast_sum]
    simp only [Nat.cast_pow, natCast_toNat]
  rw [← sub_eq_zero, iterate_step_sub, hunit.mul_left_eq_zero, hsum,
    CharP.cast_eq_zero_iff (BitVec w) (2^w), two_pow_dvd_geomSum_iff ha]

theorem iterate_step_ne {a c : BitVec w} (ha : a.toNat % 4 = 1) (hc : c.toNat % 2 = 1)
    (x : BitVec w) {m n : ℕ} (hmn : m < n) (hn : n < m + 2^w) :
    (step a c)^[m] x ≠ (step a c)^[n] x := by
  intro h
  have hperiod : (step a c)^[n-m] ((step a c)^[m] x) = (step a c)^[m] x := by
    rw [← Function.iterate_add_apply, Nat.sub_add_cancel hmn.le, h]
  have hdvd := (iterate_step_eq_self_iff ha hc _ _).mp hperiod
  have hle := Nat.le_of_dvd (by omega) hdvd
  omega

/-- The `n`-th state is tested for 0 without making the `n` steps, by one power
modulo `(a-1)·2^w`. -/
theorem iterate_step_eq_zero_iff {a : BitVec w} {p : ℕ} (hp : p ≠ 0) (ha : a.toNat = p+1)
    (c x : BitVec w) (n : ℕ) :
    (step a c)^[n] x = 0 ↔
      (p+1 : ZMod (p * 2^w))^n * (p * x.toNat + c.toNat) = c.toNat := by
  set y : ℤ := (step (p+1 : ℤ) c.toNat)^[n] x.toNat with hy
  have hword : (step a c)^[n] x = (y : BitVec w) := by
    have hmap := map_iterate_step (Int.castRingHom (BitVec w)) (a.toNat : ℤ) c.toNat x.toNat n
    simp only [eq_intCast, Int.cast_natCast, natCast_toNat] at hmap
    rw [← hmap, ha, hy]
    push_cast
    rfl
  have hmul : (p : ℤ) * y + c.toNat = (p+1)^n * (p * x.toNat + c.toNat) := by
    have h := mul_iterate_step (p+1 : ℤ) c.toNat x.toNat n
    rwa [add_sub_cancel_right] at h
  rw [hword, CharP.intCast_eq_zero_iff (BitVec w) (2^w),
    ← mul_dvd_mul_iff_left (Nat.cast_ne_zero.mpr hp : (p : ℤ) ≠ 0), ← Nat.cast_mul,
    ← ZMod.intCast_zmod_eq_zero_iff_dvd, ← add_eq_right (b := ((c.toNat : ℤ) : ZMod _)),
    ← Int.cast_add, hmul]
  push_cast
  rfl

end Words

end EthernetSoc.Congruential
