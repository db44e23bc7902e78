import Mathlib.Tactic

/-!
# The millisecond clock of the TCP firmware

`timer0` counts down from `0xFFFFFFFF` and reloads with it, one step a tick; its
value register is a latch that `sysNow` refreshes before it reads. The tick
count is thus known modulo `2^32` when it is divided into milliseconds, and the
result wraps at 85899 rather than at `2^32`: differences of two readings are
right within one round of the counter, and wrong across its end.
-/

namespace EthernetSoc.SysArch

structure Timer0 where
  count : BitVec 32
  latched : BitVec 32

namespace Timer0

def start : Timer0 := ⟨0xFFFFFFFF, 0⟩

def tick (t : Timer0) : Timer0 :=
  { t with count := if t.count = 0 then 0xFFFFFFFF else t.count - 1 }

def updateValue (t : Timer0) : Timer0 := { t with latched := t.count }

def valueRead (t : Timer0) : BitVec 32 := t.latched

theorem count_tick (t : Timer0) : t.tick.count = t.count - 1 := by
  simp only [tick]
  split_ifs with h
  · rw [h]
    rfl
  · rfl

theorem count_iterate (t : Timer0) (n : ℕ) : (tick^[n] t).count = t.count - BitVec.ofNat 32 n := by
  induction n with
  | zero => simp
  | succ n ih =>
    rw [Function.iterate_succ_apply', count_tick, ih, BitVec.ofNat_add]
    bv_omega

end Timer0

abbrev clockFrequency : ℕ := 50000000

def sysNow (t : Timer0) : BitVec 32 × Timer0 :=
  let t := t.updateValue
  (~~~ t.valueRead / BitVec.ofNat 32 (clockFrequency / 1000), t)

def nowAt (n : ℕ) : BitVec 32 := (sysNow (Timer0.tick^[n] Timer0.start)).1

theorem nowAt_toNat (n : ℕ) : (nowAt n).toNat = n % 2^32 / 50000 := by
  have hcount : ~~~ (Timer0.tick^[n] Timer0.start).count = BitVec.ofNat 32 n := by
    rw [Timer0.count_iterate]
    change ~~~ (BitVec.allOnes 32 - BitVec.ofNat 32 n) = _
    rw [BitVec.allOnes_sub_eq_not, BitVec.not_not]
  have hnow : nowAt n = ~~~ (Timer0.tick^[n] Timer0.start).count / BitVec.ofNat 32 50000 := rfl
  rw [hnow, hcount, BitVec.toNat_udiv, BitVec.toNat_ofNat]
  rfl

def timeLessThan (t compareTo : BitVec 32) : Bool := decide (t - compareTo > 0x7FFFFFFF)

def reached (now deadline : BitVec 32) : Prop := timeLessThan now deadline = false

theorem reached_iff (now start : BitVec 32) {m : ℕ} (hm : m ≤ 80000) (hn : now.toNat < 85900)
    (hs : start.toNat < 85900) :
    reached now (start + BitVec.ofNat 32 m) ↔ start.toNat + m ≤ now.toNat := by
  have hsub : (now - (start + BitVec.ofNat 32 m)).toNat =
      (2^32 - (start.toNat + m) + now.toNat) % 2^32 := by
    rw [BitVec.toNat_sub, BitVec.toNat_add, BitVec.toNat_ofNat]
    omega
  rw [reached, timeLessThan, decide_eq_false_iff_not, gt_iff_lt, BitVec.lt_def, hsub,
    show (0x7FFFFFFF : BitVec 32).toNat = 2147483647 from rfl]
  omega

def Measures (t₁ t₂ : ℕ) : Prop :=
  |((nowAt t₂ - nowAt t₁).toNat : ℤ) - ((t₂ - t₁) / 50000 : ℕ)| ≤ 1

/-- A deadline `m` milliseconds after the first reading is reached at the second
one if `m+1` milliseconds have passed, and only if `m-1` have. -/
def MeetsDeadlines (t₁ t₂ : ℕ) : Prop :=
  ∀ m : ℕ, m ≤ 80000 →
    ((m+1) * 50000 ≤ t₂ - t₁ → reached (nowAt t₂) (nowAt t₁ + BitVec.ofNat 32 m)) ∧
    (t₂ - t₁ < (m-1) * 50000 → ¬ reached (nowAt t₂) (nowAt t₁ + BitVec.ofNat 32 m))

theorem nowAt_lt (n : ℕ) : (nowAt n).toNat < 85900 := by
  rw [nowAt_toNat]
  omega

theorem elapsed_of_same_round {t₁ t₂ : ℕ} (h : t₁ ≤ t₂) (hr : t₁ / 2^32 = t₂ / 2^32) :
    (nowAt t₁).toNat + (t₂ - t₁) / 50000 ≤ (nowAt t₂).toNat ∧
      (nowAt t₂).toNat ≤ (nowAt t₁).toNat + (t₂ - t₁) / 50000 + 1 := by
  rw [nowAt_toNat, nowAt_toNat]
  omega

theorem readings_of_next_round {t₁ t₂ : ℕ} (h : t₁ ≤ t₂) (hlt : t₂ - t₁ < 2^32)
    (hr : t₁ / 2^32 ≠ t₂ / 2^32) :
    (nowAt t₂).toNat < (nowAt t₁).toNat ∨
      (nowAt t₂).toNat = (nowAt t₁).toNat ∧ 100000 ≤ t₂ - t₁ := by
  rw [nowAt_toNat, nowAt_toNat]
  omega

theorem measures_iff {t₁ t₂ : ℕ} (h : t₁ ≤ t₂) (hlt : t₂ - t₁ < 2^32) :
    Measures t₁ t₂ ↔ t₁ / 2^32 = t₂ / 2^32 := by
  have h₁ := nowAt_lt t₁
  have h₂ := nowAt_lt t₂
  have hsub : (nowAt t₂ - nowAt t₁).toNat =
      (2^32 - (nowAt t₁).toNat + (nowAt t₂).toNat) % 2^32 := BitVec.toNat_sub _ _
  rw [Measures, hsub, abs_le]
  constructor
  · intro hm
    by_contra hr
    have hnext := readings_of_next_round h hlt hr
    omega
  · intro hr
    have he := elapsed_of_same_round h hr
    omega

theorem meetsDeadlines_of_same_round {t₁ t₂ : ℕ} (h : t₁ ≤ t₂) (hr : t₁ / 2^32 = t₂ / 2^32) :
    MeetsDeadlines t₁ t₂ := by
  intro m hm
  have he := elapsed_of_same_round h hr
  rw [reached_iff _ _ hm (nowAt_lt t₂) (nowAt_lt t₁)]
  constructor
  · intro hpast
    have hq : m+1 ≤ (t₂ - t₁) / 50000 := (Nat.le_div_iff_mul_le (by norm_num)).mpr hpast
    omega
  · intro hearly hreached
    have hq : (t₂ - t₁) / 50000 < m-1 := (Nat.div_lt_iff_lt_mul (by norm_num)).mpr hearly
    omega

/-- Differences of two readings less than `2^32` ticks apart measure the elapsed
time, and deadlines are met, exactly when the tick counter has not wrapped
between them. -/
theorem sysNow_differences_iff {t₁ t₂ : ℕ} (h : t₁ ≤ t₂) (hlt : t₂ - t₁ < 2^32) :
    Measures t₁ t₂ ∧ MeetsDeadlines t₁ t₂ ↔ t₁ / 2^32 = t₂ / 2^32 := by
  rw [measures_iff h hlt]
  constructor
  · intro hboth
    exact hboth.1
  · intro hr
    exact ⟨hr, meetsDeadlines_of_same_round h hr⟩

theorem sysNow_differences_early : Measures 0 100000 ∧ MeetsDeadlines 0 100000 :=
  (sysNow_differences_iff (by norm_num) (by norm_num)).mpr (by norm_num)

/-- A deadline of one millisecond, set one millisecond before the counter wraps,
is not seen as reached when more than two have passed. -/
theorem sysNow_wraps_early :
    2^32 - 50000 ≤ 2^32 + 60000 ∧ (2^32 + 60000) - (2^32 - 50000) < 2^32 ∧
      ¬ Measures (2^32 - 50000) (2^32 + 60000) ∧
      (1+1) * 50000 ≤ (2^32 + 60000) - (2^32 - 50000) ∧
      ¬ reached (nowAt (2^32 + 60000)) (nowAt (2^32 - 50000) + BitVec.ofNat 32 1) := by
  have hle : 2^32 - 50000 ≤ 2^32 + 60000 := by norm_num
  have hlt : (2^32 + 60000) - (2^32 - 50000) < 2^32 := by norm_num
  refine ⟨hle, hlt, ?_, by norm_num, ?_⟩
  · rw [measures_iff hle hlt]
    norm_num
  · rw [reached_iff _ _ (by norm_num) (nowAt_lt _) (nowAt_lt _), nowAt_toNat, nowAt_toNat]
    norm_num

end EthernetSoc.SysArch
