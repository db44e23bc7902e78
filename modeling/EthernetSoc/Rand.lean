import EthernetSoc.SysArch
import EthernetSoc.Lib.Congruential

/-!
# The random numbers of the TCP firmware

`rand` steps a linear congruential generator and seeds it from `timer0` whenever
its state is 0. It reads the timer's latched value without refreshing it, and
lwIP's initialisation calls it before the first `sysNow`. So the seed is not the
count at which `rand` is called but the count at the last `sysNow` before it, and
at boot it is the register's reset value: every boot makes the same numbers until
the generator passes through 0.
-/

namespace EthernetSoc.Rand
open SysArch

structure State where
  timer : Timer0
  randState : BitVec 32

def seed (v : BitVec 32) : BitVec 32 := (~~~ v) ^^^ 0xdeadbeef

def rand (s : State) : BitVec 32 × State :=
  let r := if s.randState = 0 then seed s.timer.valueRead else s.randState
  let r := r * 1664525 + 1013904223
  ((r >>> 16) &&& 0x7fff, { s with randState := r })

def next : BitVec 32 → BitVec 32 := Congruential.step 1664525 1013904223

theorem seed_injective : Function.Injective seed := by
  intro v v' h
  exact BitVec.not_inj.mp ((BitVec.xor_left_inj _).mp h)

theorem next_injective : Function.Injective next :=
  Congruential.step_injective (Congruential.isUnit_of_odd (by decide)) _

theorem rand_value (s : State) : (rand s).1 = ((rand s).2.randState >>> 16) &&& 0x7fff := rfl

theorem randState_rand_of_zero {s : State} (h : s.randState = 0) :
    (rand s).2.randState = next (seed s.timer.latched) := by
  simp only [rand, if_pos h, Timer0.valueRead, next, Congruential.step, mul_comm]

theorem randState_rand_of_ne_zero {s : State} (h : s.randState ≠ 0) :
    (rand s).2.randState = next s.randState := by
  simp only [rand, if_neg h, next, Congruential.step, mul_comm]

theorem timer_rand (s : State) : (rand s).2.timer = s.timer := by
  -- against a variable, so that the two states are not compared as a whole
  obtain ⟨t, r⟩ := s
  change (rand ⟨t, r⟩).2.timer = t
  rfl

theorem rand_ne_iff_of_zero {s₁ s₂ : State} (h₁ : s₁.randState = 0) (h₂ : s₂.randState = 0) :
    (rand s₁).2.randState ≠ (rand s₂).2.randState ↔ s₁.timer.latched ≠ s₂.timer.latched := by
  rw [randState_rand_of_zero h₁, randState_rand_of_zero h₂, next_injective.ne_iff,
    seed_injective.ne_iff]

theorem rand_ne_iff_of_ne_zero {s₁ s₂ : State} (h₁ : s₁.randState ≠ 0) (h₂ : s₂.randState ≠ 0) :
    (rand s₁).2.randState ≠ (rand s₂).2.randState ↔ s₁.randState ≠ s₂.randState := by
  rw [randState_rand_of_ne_zero h₁, randState_rand_of_ne_zero h₂, next_injective.ne_iff]

inductive Event where
  | tick
  | sysNow
deriving DecidableEq

def Event.step (t : Timer0) : Event → Timer0
  | tick => t.tick
  | sysNow => (SysArch.sysNow t).2

def elapse (es : List Event) (t : Timer0) : Timer0 := es.foldl Event.step t

theorem elapse_cons (e : Event) (es : List Event) (t : Timer0) :
    elapse (e :: es) t = elapse es (e.step t) := rfl

theorem elapse_append (es es' : List Event) (t : Timer0) :
    elapse (es ++ es') t = elapse es' (elapse es t) := List.foldl_append

/-- The tick at which the last `sysNow` of a list of events happens, if there is
one and the first event comes after `n` ticks. -/
def lastCapture (n : ℕ) : List Event → Option ℕ
  | [] => none
  | .tick :: es => lastCapture (n+1) es
  | .sysNow :: es => some ((lastCapture n es).getD n)

theorem lastCapture_eq_none {es : List Event} (h : .sysNow ∉ es) (n : ℕ) :
    lastCapture n es = none := by
  induction es generalizing n with
  | nil => rfl
  | cons e es ih =>
    rw [List.mem_cons, not_or] at h
    cases e with
    | tick => exact ih h.2 (n+1)
    | sysNow => exact absurd rfl h.1

def countAt (n : ℕ) : BitVec 32 := 0xFFFFFFFF - BitVec.ofNat 32 n

theorem latched_elapse (es : List Event) {t : Timer0} {n : ℕ} (ht : t.count = countAt n) :
    (elapse es t).latched = (lastCapture n es).elim t.latched countAt := by
  induction es generalizing t n with
  | nil => rfl
  | cons e es ih =>
    rw [elapse_cons]
    cases e with
    | tick =>
      have hcount : t.tick.count = countAt (n+1) := by
        rw [Timer0.count_tick, ht, countAt, countAt, BitVec.ofNat_add]
        bv_omega
      exact ih hcount
    | sysNow =>
      -- the register now holds the count, which stays if no later `sysNow` comes
      have hlatch : (Event.sysNow.step t).latched = countAt n := ht
      rw [ih (t := Event.sysNow.step t) ht, hlatch, lastCapture]
      cases lastCapture n es with
      | none => rw [Option.elim_none, Option.getD_none, Option.elim_some]
      | some m => rw [Option.elim_some, Option.getD_some, Option.elim_some]

/-- A boot is what happens to the timer before each call of `rand`, the first
one included. -/
abbrev Boot := ℕ → List Event

def afterCalls (b : Boot) : ℕ → State
  | 0 => ⟨Timer0.start, 0⟩
  | k+1 =>
    let s := afterCalls b k
    (rand { s with timer := elapse (b k) s.timer }).2

def atCall (b : Boot) (k : ℕ) : State :=
  { afterCalls b k with timer := elapse (b k) (afterCalls b k).timer }

theorem afterCalls_succ (b : Boot) (k : ℕ) : afterCalls b (k+1) = (rand (atCall b k)).2 := rfl

theorem randState_atCall (b : Boot) (k : ℕ) :
    (atCall b k).randState = (afterCalls b k).randState := rfl

theorem timer_atCall (b : Boot) (k : ℕ) :
    (atCall b k).timer = elapse ((List.range (k+1)).flatMap b) Timer0.start := by
  induction k with
  | zero => simp only [atCall, afterCalls, zero_add, List.range_one, List.flatMap_singleton]
  | succ k ih =>
    rw [atCall, afterCalls_succ, timer_rand, ih, ← elapse_append, List.range_succ (n := k+1),
      List.flatMap_append, List.flatMap_singleton]

theorem latched_atCall (b : Boot) (k : ℕ) :
    (atCall b k).timer.latched =
      (lastCapture 0 ((List.range (k+1)).flatMap b)).elim 0 countAt := by
  have hcount : Timer0.start.count = countAt 0 := by decide
  have hreset : Timer0.start.latched = 0 := rfl
  rw [timer_atCall, latched_elapse _ hcount, hreset]

theorem latched_first_call {b : Boot} (hb : .sysNow ∉ b 0) : (atCall b 0).timer.latched = 0 := by
  rw [latched_atCall, List.range_one, List.flatMap_singleton, lastCapture_eq_none hb,
    Option.elim_none]

/-- No call after the first one, up to the `k`-th, finds the generator at 0. -/
def KeepsState (b : Boot) (k : ℕ) : Prop :=
  ∀ j, 1 ≤ j → j < k → (afterCalls b j).randState ≠ 0

theorem KeepsState.of_succ {b : Boot} {k : ℕ} (h : KeepsState b (k+1)) : KeepsState b k := by
  intro j hj hjk
  exact h j hj (by omega)

theorem KeepsState.atCall_ne_zero {b : Boot} {k : ℕ} (h : KeepsState b (k+1)) (hk : 1 ≤ k) :
    (atCall b k).randState ≠ 0 := by
  rw [randState_atCall]
  exact h k hk (by omega)

theorem keepsState_two {b : Boot} (h : (afterCalls b 1).randState ≠ 0) : KeepsState b 2 := by
  intro j hj hj2
  obtain rfl : j = 1 := by omega
  exact h

/-- The states of two boots differ after `k` calls of `rand` exactly when the
timer's registers held different counts at the first call; the live counts do not
matter. -/
theorem randState_ne_iff (b₁ b₂ : Boot) {k : ℕ} (hk : 1 ≤ k) (h₁ : KeepsState b₁ k)
    (h₂ : KeepsState b₂ k) :
    (afterCalls b₁ k).randState ≠ (afterCalls b₂ k).randState ↔
      (atCall b₁ 0).timer.latched ≠ (atCall b₂ 0).timer.latched := by
  induction k, hk using Nat.le_induction with
  | base =>
    exact rand_ne_iff_of_zero (randState_atCall b₁ 0) (randState_atCall b₂ 0)
  | succ k hk ih =>
    -- neither call reseeds, so the states differ after it exactly if they did before it
    rw [afterCalls_succ, afterCalls_succ,
      rand_ne_iff_of_ne_zero (h₁.atCall_ne_zero hk) (h₂.atCall_ne_zero hk), randState_atCall,
      randState_atCall]
    exact ih h₁.of_succ h₂.of_succ

def sysNowAfter (n : ℕ) : Boot := fun _ => List.replicate n .tick ++ [.sysNow]

theorem randState_ne_two_calls :
    (atCall (sysNowAfter 1) 0).timer.latched ≠ (atCall (sysNowAfter 2) 0).timer.latched ∧
      (afterCalls (sysNowAfter 1) 2).randState ≠ (afterCalls (sysNowAfter 2) 2).randState := by
  have hlatched : (atCall (sysNowAfter 1) 0).timer.latched ≠
      (atCall (sysNowAfter 2) 0).timer.latched := by decide
  exact ⟨hlatched, (randState_ne_iff _ _ (by norm_num) (keepsState_two (by decide))
    (keepsState_two (by decide))).mpr hlatched⟩

def ticksBefore (n : ℕ) : Boot := fun _ => List.replicate n .tick

theorem rand_same_after_one_and_two_ticks :
    .sysNow ∉ ticksBefore 1 0 ∧ .sysNow ∉ ticksBefore 2 0 ∧
      (atCall (ticksBefore 1) 0).timer.count ≠ (atCall (ticksBefore 2) 0).timer.count ∧
      (afterCalls (ticksBefore 1) 1).randState ≠ 0 ∧
      (afterCalls (ticksBefore 2) 1).randState ≠ 0 ∧
      (afterCalls (ticksBefore 1) 1).randState = (afterCalls (ticksBefore 2) 1).randState := by
  decide

/-! ### The numbers of every boot -/

theorem iterate_next_eq_zero_iff (k : ℕ) :
    next^[k] (seed 0) = 0 ↔
      (1664525 : ZMod (1664524 * 2^32))^k * (1664524 * 0x21524110 + 1013904223) = 1013904223 := by
  rw [next, Congruential.iterate_step_eq_zero_iff (p := 1664524) (by decide) (by decide),
    show (seed 0).toNat = 0x21524110 by decide,
    show (1013904223 : BitVec 32).toNat = 1013904223 by decide]
  norm_num only [Nat.cast_ofNat]

def firstZero : ℕ := 1772589616

theorem iterate_next_firstZero : next^[firstZero] (seed 0) = 0 := by
  rw [iterate_next_eq_zero_iff, firstZero]
  norm_num only
  reduce_mod_char

theorem iterate_next_ne_zero {k : ℕ} (hk : k < firstZero) : next^[k] (seed 0) ≠ 0 := by
  have hlt : firstZero < 2^32 := by decide
  intro h
  exact Congruential.iterate_step_ne (by decide) (by decide) (seed 0) hk (by omega)
    (h.trans iterate_next_firstZero.symm)

theorem randState_eq_iterate {b : Boot} (hb : .sysNow ∉ b 0) {k : ℕ} (hk : 1 ≤ k)
    (hz : k ≤ firstZero) : (afterCalls b k).randState = next^[k] (seed 0) := by
  induction k, hk using Nat.le_induction with
  | base =>
    rw [afterCalls_succ, randState_rand_of_zero (randState_atCall b 0), latched_first_call hb,
      Function.iterate_one]
  | succ k hk ih =>
    have hstate := ih (by omega)
    have hne : (atCall b k).randState ≠ 0 := by
      rw [randState_atCall, hstate]
      exact iterate_next_ne_zero (by omega)
    rw [afterCalls_succ, randState_rand_of_ne_zero hne, randState_atCall, hstate,
      Function.iterate_succ_apply']

theorem rand_same_in_every_boot {b₁ b₂ : Boot} (h₁ : .sysNow ∉ b₁ 0) (h₂ : .sysNow ∉ b₂ 0)
    {k : ℕ} (hk : k < firstZero) : (rand (atCall b₁ k)).1 = (rand (atCall b₂ k)).1 := by
  rw [rand_value, rand_value, ← afterCalls_succ, ← afterCalls_succ,
    randState_eq_iterate h₁ (by omega) hk, randState_eq_iterate h₂ (by omega) hk]

/-- The first call at which two boots can part is the one that finds the
generator back at 0. -/
theorem randState_parts_iff {b₁ b₂ : Boot} (h₁ : .sysNow ∉ b₁ 0) (h₂ : .sysNow ∉ b₂ 0) :
    (afterCalls b₁ (firstZero+1)).randState ≠ (afterCalls b₂ (firstZero+1)).randState ↔
      (atCall b₁ firstZero).timer.latched ≠ (atCall b₂ firstZero).timer.latched := by
  have hzero {b : Boot} (hb : .sysNow ∉ b 0) : (atCall b firstZero).randState = 0 := by
    rw [randState_atCall, randState_eq_iterate hb (by decide) le_rfl, iterate_next_firstZero]
  rw [afterCalls_succ, afterCalls_succ, rand_ne_iff_of_zero (hzero h₁) (hzero h₂)]

def ensureLocalPortRange (port : BitVec 32) : BitVec 16 :=
  ((port &&& 0x3fff) + 0xc000).setWidth 16

def tcpInit (s : State) : BitVec 16 × State :=
  let r := rand s
  (ensureLocalPortRange r.1, r.2)

theorem tcpInit_port {b : Boot} (hb : .sysNow ∉ b 0) : (tcpInit (atCall b 0)).1 = 52760 := by
  have hstate : (rand (atCall b 0)).2.randState = next (seed 0) := by
    rw [randState_rand_of_zero (randState_atCall b 0), latched_first_call hb]
  change ensureLocalPortRange (rand (atCall b 0)).1 = _
  rw [rand_value, hstate]
  decide

end EthernetSoc.Rand
