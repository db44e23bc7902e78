import Mathlib.Data.Nat.Bitwise
import Mathlib.Order.Bounds.Basic
import Mathlib.Tactic

/-!
# Clauses, models, and the least model below a bound

Variables are numbered from zero and a model is any `ℕ → Bool`. A candidate
assignment coded by a natural number gives variable `i` the value of bit `i`,
so that a formula over the first `n` variables has a model exactly when some
number below `2^n` codes one. `least` is the exhaustive search for the smallest
such number.
-/

namespace EthernetSoc.Cnf

structure Literal where
  var : ℕ
  neg : Bool
  deriving DecidableEq, Repr

abbrev Clause := List Literal

def Literal.eval (v : ℕ → Bool) (x : Literal) : Bool := if x.neg then !v x.var else v x.var

def eval (v : ℕ → Bool) (f : List Clause) : Bool := f.all fun c => c.any (Literal.eval v)

def Satisfiable (f : List Clause) : Prop := ∃ v, eval v f = true

def Below (n : ℕ) (f : List Clause) : Prop := ∀ c ∈ f, ∀ x ∈ c, x.var < n

theorem eval_eq_true_iff (v : ℕ → Bool) (f : List Clause) :
    eval v f = true ↔ ∀ c ∈ f, ∃ x ∈ c, x.eval v = true := by
  simp [eval, List.all_eq_true, List.any_eq_true]

theorem Literal.eval_congr {v w : ℕ → Bool} {x : Literal} (h : v x.var = w x.var) :
    x.eval v = x.eval w := by
  simp only [Literal.eval, h]

theorem eval_congr {n : ℕ} {f : List Clause} (hf : Below n f) {v w : ℕ → Bool}
    (h : ∀ i < n, v i = w i) : eval v f = eval w f := by
  rw [Bool.eq_iff_iff, eval_eq_true_iff, eval_eq_true_iff]
  apply forall₂_congr
  intro c hc
  apply exists_congr
  intro x
  apply and_congr_right
  intro hx
  rw [Literal.eval_congr (h x.var (hf c hc x hx))]

/-- A formula over the first `n` variables is satisfiable exactly when some
`n`-bit number codes a model of it. -/
theorem satisfiable_iff_exists_lt {n : ℕ} {f : List Clause} (hf : Below n f) :
    Satisfiable f ↔ ∃ a < 2^n, eval a.testBit f = true := by
  constructor
  · rintro ⟨v, hv⟩
    refine ⟨Nat.ofBits fun i : Fin n => v i, Nat.ofBits_lt_two_pow _, ?_⟩
    rw [← hv]
    apply eval_congr hf
    intro i hi
    rw [Nat.testBit_ofBits_lt _ _ hi]
  · rintro ⟨a, _, ha⟩
    exact ⟨a.testBit, ha⟩

def least (bound : ℕ) (p : ℕ → Bool) : Option ℕ := (List.range bound).find? p

theorem least_eq_some_iff {bound : ℕ} {p : ℕ → Bool} {a : ℕ} :
    least bound p = some a ↔ IsLeast {b | b < bound ∧ p b = true} a := by
  rw [least, List.find?_range_eq_some, List.mem_range]
  constructor
  · rintro ⟨hp, ha, hmin⟩
    refine ⟨⟨ha, hp⟩, ?_⟩
    rintro b ⟨_, hb⟩
    by_contra hlt
    have hnot := hmin b (not_le.mp hlt)
    simp [hb] at hnot
  · rintro ⟨⟨ha, hp⟩, hmin⟩
    refine ⟨hp, ha, ?_⟩
    intro b hb
    by_contra hnot
    have hle : a ≤ b := hmin ⟨hb.trans ha, by simpa using hnot⟩
    omega

theorem least_eq_none_iff {bound : ℕ} {p : ℕ → Bool} :
    least bound p = none ↔ ∀ a < bound, p a = false := by
  simp [least, List.find?_eq_none]

theorem least_isSome_iff {bound : ℕ} {p : ℕ → Bool} :
    (least bound p).isSome ↔ ∃ a < bound, p a = true := by
  rw [Option.isSome_iff_ne_none, ne_eq, least_eq_none_iff]
  push Not
  simp

theorem least_congr {bound : ℕ} {p q : ℕ → Bool} (h : ∀ a < bound, p a = q a) :
    least bound p = least bound q := by
  apply List.find?_congr
  intro a ha
  exact h a (List.mem_range.mp ha)

end EthernetSoc.Cnf
