import EthernetSoc.Lib.Cnf

/-!
# The brute-force solver core

One cycle of `BruteForceSAT` evaluates every clause against the candidate
assignment, and either stops with the candidate as model, stops at the last
candidate, or counts on. All registers have the widths of the source, so the
candidate and the bound `(1 << n_vars) - 1` are reduced to ten bits.

The search is described by the least candidate that satisfies the inputs:
`search_running` is the loop invariant, and `search_stopped` the state in which
every search ends and stays until the next start pulse.
-/

namespace EthernetSoc.BruteForceSat

abbrev maxVars : ℕ := 10
abbrev maxClauses : ℕ := 20
abbrev clauseLen : ℕ := 10

structure Inputs where
  start : Bool
  nVars : BitVec 4
  nClauses : BitVec 5
  litVar : Fin maxClauses → Fin clauseLen → BitVec 4
  litNeg : Fin maxClauses → Fin clauseLen → Bool
  litUsed : Fin maxClauses → Fin clauseLen → Bool

@[ext] structure Regs where
  assignment : BitVec maxVars
  running : Bool
  doneR : Bool
  satR : Bool
  modelR : BitVec maxVars
  cyclesR : BitVec 20
  deriving DecidableEq

def Regs.reset : Regs := ⟨0, false, false, false, 0, 0⟩

def varVal (s : Regs) (i : Inputs) (c : Fin maxClauses) (l : Fin clauseLen) : Bool :=
  -- an index past the width reads as zero
  s.assignment.getLsbD (i.litVar c l).toNat

def litVal (s : Regs) (i : Inputs) (c : Fin maxClauses) (l : Fin clauseLen) : Bool :=
  (if i.litNeg c l then !varVal s i c l else varVal s i c l) && i.litUsed c l

def clauseSat (s : Regs) (i : Inputs) (c : Fin maxClauses) : Bool :=
  (List.finRange clauseLen).any (litVal s i c)

def inactive (i : Inputs) (c : Fin maxClauses) : Bool := decide (i.nClauses.toNat ≤ c.val)

def allSat (s : Regs) (i : Inputs) : Bool :=
  (List.finRange maxClauses).all fun c => clauseSat s i c || inactive i c

/-- `(1 << n_vars) - 1`, truncated to the width of the counter. -/
def maxAssign (i : Inputs) : BitVec maxVars := BitVec.ofNat maxVars ((1 <<< i.nVars.toNat) - 1)

def step (s : Regs) (i : Inputs) : Regs :=
  if i.start then
    { assignment := 0, doneR := false, satR := false, modelR := 0, cyclesR := 0, running := true }
  else if s.running then
    if allSat s i then
      { s with cyclesR := s.cyclesR + 1, doneR := true, satR := true, modelR := s.assignment,
               running := false }
    else if s.assignment = maxAssign i then
      { s with cyclesR := s.cyclesR + 1, doneR := true, satR := false, running := false }
    else
      { s with cyclesR := s.cyclesR + 1, assignment := s.assignment + 1 }
  else s

/-! ## What one cycle can do -/

def fresh : Regs := ⟨0, true, false, false, 0, 0⟩

theorem step_start (s : Regs) {i : Inputs} (h : i.start = true) : step s i = fresh := by
  simp [step, h, fresh]

theorem step_stopped {s : Regs} {i : Inputs} (hi : i.start = false) (hs : s.running = false) :
    step s i = s := by
  simp [step, hi, hs]

theorem step_found {s : Regs} {i : Inputs} (hi : i.start = false) (hs : s.running = true)
    (ha : allSat s i = true) :
    step s i = { s with cyclesR := s.cyclesR + 1, doneR := true, satR := true,
                        modelR := s.assignment, running := false } := by
  simp [step, hi, hs, ha]

theorem step_exhausted {s : Regs} {i : Inputs} (hi : i.start = false) (hs : s.running = true)
    (ha : allSat s i = false) (hm : s.assignment = maxAssign i) :
    step s i = { s with cyclesR := s.cyclesR + 1, doneR := true, satR := false,
                        running := false } := by
  simp [step, hi, hs, ha, hm]

theorem step_next {s : Regs} {i : Inputs} (hi : i.start = false) (hs : s.running = true)
    (ha : allSat s i = false) (hm : s.assignment ≠ maxAssign i) :
    step s i = { s with cyclesR := s.cyclesR + 1, assignment := s.assignment + 1 } := by
  simp [step, hi, hs, ha, hm]

structure Regs.Consistent (s : Regs) : Prop where
  exclusive : s.running = true → s.doneR = false
  sat_done : s.satR = true → s.doneR = true
  model_zero : s.satR = false → s.modelR = 0

theorem consistent_reset : Regs.reset.Consistent := by
  constructor <;> simp [Regs.reset]

theorem consistent_fresh : fresh.Consistent := by
  constructor <;> simp [fresh]

theorem Regs.Consistent.satR_of_running {s : Regs} (h : s.Consistent) (hr : s.running = true) :
    s.satR = false := by
  cases hs : s.satR with
  | false => rfl
  | true => have hd := h.sat_done hs; rw [h.exclusive hr] at hd; cases hd

theorem Regs.Consistent.step {s : Regs} (h : s.Consistent) (i : Inputs) :
    (BruteForceSat.step s i).Consistent := by
  cases hi : i.start with
  | true => rw [step_start s hi]; exact consistent_fresh
  | false =>
    cases hr : s.running with
    | false => rw [step_stopped hi hr]; exact h
    | true =>
      have hz := h.model_zero (h.satR_of_running hr)
      cases ha : allSat s i with
      | true => rw [step_found hi hr ha]; constructor <;> simp
      | false =>
        by_cases hm : s.assignment = maxAssign i
        · rw [step_exhausted hi hr ha hm]; constructor <;> simp [hz]
        · rw [step_next hi hr ha hm]
          exact ⟨fun _ => h.exclusive hr, h.sat_done, h.model_zero⟩

theorem step_running {s : Regs} {i : Inputs} (hi : i.start = false) (hr : s.running = true) :
    (step s i).running = true ∨ ((step s i).running = false ∧ (step s i).doneR = true) := by
  cases ha : allSat s i with
  | true => rw [step_found hi hr ha]; exact Or.inr ⟨rfl, rfl⟩
  | false =>
    by_cases hm : s.assignment = maxAssign i
    · rw [step_exhausted hi hr ha hm]; exact Or.inr ⟨rfl, rfl⟩
    · rw [step_next hi hr ha hm]; exact Or.inl hr

/-! ## The formula on the inputs -/

def Satisfied (i : Inputs) (a : ℕ) : Prop :=
  ∀ c : Fin maxClauses, c.val < i.nClauses.toNat →
    ∃ l : Fin clauseLen, i.litUsed c l = true ∧
      a.testBit (i.litVar c l).toNat = !i.litNeg c l

instance (i : Inputs) (a : ℕ) : Decidable (Satisfied i a) :=
  inferInstanceAs (Decidable (∀ c : Fin maxClauses, c.val < i.nClauses.toNat →
    ∃ l : Fin clauseLen, i.litUsed c l = true ∧ a.testBit (i.litVar c l).toNat = !i.litNeg c l))

theorem litVal_eq_true_iff (s : Regs) (i : Inputs) (c : Fin maxClauses) (l : Fin clauseLen) :
    litVal s i c l = true ↔ i.litUsed c l = true ∧
      s.assignment.toNat.testBit (i.litVar c l).toNat = !i.litNeg c l := by
  simp only [litVal, varVal, BitVec.getLsbD, Bool.and_eq_true]
  cases i.litNeg c l <;> simp [and_comm]

theorem clauseSat_eq_true_iff (s : Regs) (i : Inputs) (c : Fin maxClauses) :
    clauseSat s i c = true ↔ ∃ l : Fin clauseLen, i.litUsed c l = true ∧
      s.assignment.toNat.testBit (i.litVar c l).toNat = !i.litNeg c l := by
  simp [clauseSat, List.any_eq_true, litVal_eq_true_iff]

theorem allSat_eq_true_iff (s : Regs) (i : Inputs) :
    allSat s i = true ↔ Satisfied i s.assignment.toNat := by
  simp only [allSat, List.all_eq_true, List.mem_finRange, true_implies, Bool.or_eq_true,
    clauseSat_eq_true_iff, inactive, decide_eq_true_eq, Satisfied]
  apply forall_congr'
  intro c
  rw [or_comm, ← not_lt, ← imp_iff_not_or]

theorem allSat_eq_false_iff (s : Regs) (i : Inputs) :
    allSat s i = false ↔ ¬ Satisfied i s.assignment.toNat := by
  rw [← allSat_eq_true_iff, Bool.not_eq_true]

/-! ## Whole searches -/

def space (i : Inputs) : ℕ := 2 ^ min i.nVars.toNat maxVars

theorem space_pos (i : Inputs) : 0 < space i := Nat.two_pow_pos _

theorem space_le (i : Inputs) : space i ≤ 2 ^ maxVars :=
  Nat.pow_le_pow_right (by norm_num) (min_le_right _ _)

theorem candidate_toNat {i : Inputs} {j : ℕ} (hj : j < space i) :
    (BitVec.ofNat maxVars j).toNat = j := by
  rw [BitVec.toNat_ofNat, Nat.mod_eq_of_lt (hj.trans_le (space_le i))]

theorem maxAssign_toNat (i : Inputs) : (maxAssign i).toNat = space i - 1 := by
  have hn : i.nVars.toNat < 16 := i.nVars.isLt
  simp only [maxAssign, space, BitVec.toNat_ofNat, Nat.one_shiftLeft]
  generalize i.nVars.toNat = n at hn
  interval_cases n <;> rfl

def search (i : Inputs) (j : ℕ) : Regs := (fun s => step s { i with start := false })^[j] fresh

theorem search_succ (i : Inputs) (j : ℕ) :
    search i (j+1) = step (search i j) { i with start := false } := by
  simp only [search, Function.iterate_succ_apply']

theorem satisfied_hold (i : Inputs) (b : Bool) (a : ℕ) :
    Satisfied { i with start := b } a ↔ Satisfied i a := Iff.rfl

/-- The loop invariant: while no candidate below `j` satisfies the formula, the
core has tried exactly these, and its result registers are clear. -/
theorem search_running (i : Inputs) {j : ℕ} (hj : j < space i)
    (hno : ∀ a < j, ¬ Satisfied i a) :
    search i j = ⟨BitVec.ofNat maxVars j, true, false, false, 0, BitVec.ofNat 20 j⟩ := by
  induction j with
  | zero => rfl
  | succ j ih =>
    have hs := ih (by omega) (fun a ha => hno a (by omega))
    have hnat := candidate_toNat (show j < space i by omega)
    have hall : allSat (search i j) { i with start := false } = false := by
      rw [allSat_eq_false_iff, satisfied_hold, hs]
      simpa only [hnat] using hno j (by omega)
    have hmax : (search i j).assignment ≠ maxAssign { i with start := false } := by
      intro he
      have hv := congrArg BitVec.toNat he
      rw [hs, hnat, maxAssign_toNat] at hv
      change j = space i - 1 at hv
      omega
    rw [search_succ, step_next rfl (by rw [hs]) hall hmax, hs]
    ext1 <;> simp [BitVec.ofNat_add]

def final (i : Inputs) : Option ℕ → Regs
  | some a => ⟨BitVec.ofNat maxVars a, false, true, true, BitVec.ofNat maxVars a,
      BitVec.ofNat 20 (a+1)⟩
  | none => ⟨BitVec.ofNat maxVars (space i - 1), false, true, false, 0, BitVec.ofNat 20 (space i)⟩

def outcome (i : Inputs) : Option ℕ := Cnf.least (space i) fun a => decide (Satisfied i a)

def duration (i : Inputs) : ℕ :=
  match outcome i with
  | some a => a+1
  | none => space i

theorem outcome_eq_some_iff {i : Inputs} {a : ℕ} :
    outcome i = some a ↔ IsLeast {b | b < space i ∧ Satisfied i b} a := by
  simp [outcome, Cnf.least_eq_some_iff]

theorem outcome_eq_none_iff {i : Inputs} :
    outcome i = none ↔ ∀ a < space i, ¬ Satisfied i a := by
  simp [outcome, Cnf.least_eq_none_iff]

theorem duration_le (i : Inputs) : duration i ≤ space i := by
  unfold duration
  cases h : outcome i with
  | none => exact le_rfl
  | some a => exact (outcome_eq_some_iff.mp h).1.1

theorem duration_pos (i : Inputs) : 0 < duration i := by
  unfold duration
  cases outcome i with
  | none => exact space_pos i
  | some a => exact Nat.succ_pos a

theorem not_satisfied_of_lt_duration {i : Inputs} {a j : ℕ} (ha : a < j) (hj : j < duration i) :
    ¬ Satisfied i a := by
  intro hsat
  have hspace := duration_le i
  unfold duration at hj
  cases h : outcome i with
  | none => exact outcome_eq_none_iff.mp h a (by rw [h] at hj; exact ha.trans hj) hsat
  | some b =>
    have hb := outcome_eq_some_iff.mp h
    rw [h] at hj
    dsimp only at hj
    have hle : b ≤ a := hb.2 ⟨by have := hb.1.1; omega, hsat⟩
    omega

theorem search_before (i : Inputs) {j : ℕ} (hj : j < duration i) :
    search i j = ⟨BitVec.ofNat maxVars j, true, false, false, 0, BitVec.ofNat 20 j⟩ :=
  search_running i (hj.trans_le (duration_le i))
    (fun _ ha => not_satisfied_of_lt_duration ha hj)

theorem search_finish (i : Inputs) : search i (duration i) = final i (outcome i) := by
  obtain ⟨j, hj⟩ : ∃ j, duration i = j+1 := ⟨duration i - 1, by have := duration_pos i; omega⟩
  have hdur := duration_le i
  have hs := search_before i (show j < duration i by omega)
  have hnat := candidate_toNat (show j < space i by omega)
  rw [hj, search_succ]
  cases h : outcome i with
  | some a =>
    -- the last candidate tried is the least model
    obtain rfl : j = a := by simpa [duration, h] using hj.symm
    have hall : allSat (search i j) { i with start := false } = true := by
      rw [allSat_eq_true_iff, satisfied_hold, hs]
      simpa only [hnat] using (outcome_eq_some_iff.mp h).1.2
    rw [step_found rfl (by rw [hs]) hall, hs]
    simp [final, BitVec.ofNat_add]
  | none =>
    -- the last candidate tried is the last there is
    have hsp : space i = j+1 := by simpa [duration, h] using hj
    have hall : allSat (search i j) { i with start := false } = false := by
      rw [allSat_eq_false_iff, satisfied_hold, hs]
      simpa only [hnat] using outcome_eq_none_iff.mp h j (by omega)
    have hmax : (search i j).assignment = maxAssign { i with start := false } := by
      apply BitVec.eq_of_toNat_eq
      rw [maxAssign_toNat, hs, hnat]
      change j = space i - 1
      omega
    rw [step_exhausted rfl (by rw [hs]) hall hmax, hs]
    simp [final, hsp, BitVec.ofNat_add]

theorem final_running (i : Inputs) (o : Option ℕ) : (final i o).running = false := by
  cases o <;> rfl

theorem final_doneR (i : Inputs) (o : Option ℕ) : (final i o).doneR = true := by
  cases o <;> rfl

theorem search_stopped (i : Inputs) {j : ℕ} (hj : duration i ≤ j) :
    search i j = final i (outcome i) := by
  induction j, hj using Nat.le_induction with
  | base => exact search_finish i
  | succ j _ ih => rw [search_succ, ih, step_stopped rfl (final_running i _)]

theorem foldl_step_stopped {s : Regs} (hs : s.running = false) (later : List Inputs)
    (hlater : ∀ x ∈ later, x.start = false) : later.foldl step s = s := by
  induction later with
  | nil => rfl
  | cons x later ih =>
    rw [List.foldl_cons, step_stopped (hlater x (by simp)) hs]
    exact ih (fun y hy => hlater y (by simp [hy]))

/-! ## Every search from every state -/

/-- With the inputs held after a one-cycle start pulse in state `s`, the search
ends after exactly `k` further cycles with the given outputs, and these stay
under any later inputs without a start pulse. -/
structure Finishes (s : Regs) (i : Inputs) (k : ℕ) (sat : Bool) (model cycles : ℕ) : Prop where
  busy : ∀ j < k, ((fun t => step t { i with start := false })^[j]
    (step s { i with start := true })).doneR = false
  outputs : ∀ later : List Inputs, (∀ x ∈ later, x.start = false) →
    let t := later.foldl step ((fun t => step t { i with start := false })^[k]
      (step s { i with start := true }))
    t.doneR = true ∧ t.satR = sat ∧ t.modelR.toNat = model ∧ t.cyclesR.toNat = cycles

theorem finishes (s : Regs) (i : Inputs) :
    Finishes s i (duration i) (outcome i).isSome ((outcome i).getD 0) (duration i) := by
  have hsearch (j : ℕ) : (fun t => step t { i with start := false })^[j]
      (step s { i with start := true }) = search i j := by
    rw [step_start s rfl, search]
  have hle := space_le i
  refine ⟨?_, ?_⟩
  · intro j hj
    rw [hsearch, search_before i hj]
  · intro later hlater
    rw [hsearch, search_finish, foldl_step_stopped (final_running i _) later hlater]
    unfold duration
    cases h : outcome i with
    | none =>
      refine ⟨rfl, rfl, rfl, ?_⟩
      simp only [final, BitVec.toNat_ofNat]
      exact Nat.mod_eq_of_lt (by norm_num at hle ⊢; omega)
    | some a =>
      have ha := (outcome_eq_some_iff.mp h).1.1
      refine ⟨rfl, rfl, candidate_toNat ha, ?_⟩
      simp only [final, BitVec.toNat_ofNat]
      exact Nat.mod_eq_of_lt (by norm_num at hle ⊢; omega)

/-- From any register state and for any formula, the core reports the least
model after one cycle per candidate up to it, and otherwise reports failure
after the whole space. -/
theorem search_correct (s : Regs) (i : Inputs) (hn : i.nVars.toNat ≤ maxVars) :
    ((∃ b < 2 ^ i.nVars.toNat, Satisfied i b) →
      ∃ a, IsLeast {b | b < 2 ^ i.nVars.toNat ∧ Satisfied i b} a ∧
        Finishes s i (a+1) true a (a+1)) ∧
    ((¬ ∃ b < 2 ^ i.nVars.toNat, Satisfied i b) →
      Finishes s i (2 ^ i.nVars.toNat) false 0 (2 ^ i.nVars.toNat)) := by
  have hspace : space i = 2 ^ i.nVars.toNat := by rw [space, min_eq_left hn]
  have hf := finishes s i
  rw [← hspace]
  cases h : outcome i with
  | none =>
    refine ⟨fun hex => absurd hex ?_, fun _ => by simpa [duration, h] using hf⟩
    simpa using outcome_eq_none_iff.mp h
  | some a =>
    have ha := outcome_eq_some_iff.mp h
    exact ⟨fun _ => ⟨a, ha, by simpa [duration, h] using hf⟩,
      fun hno => absurd ⟨a, ha.1.1, ha.1.2⟩ hno⟩

def unitInputs : Inputs where
  start := false
  nVars := 1
  nClauses := 1
  litVar := fun _ _ => 0
  litNeg := fun _ _ => false
  litUsed := fun _ l => l = 0

theorem search_correct_unit :
    unitInputs.nVars.toNat ≤ maxVars ∧ (∃ b < 2 ^ unitInputs.nVars.toNat, Satisfied unitInputs b) ∧
    ∃ a, IsLeast {b | b < 2 ^ unitInputs.nVars.toNat ∧ Satisfied unitInputs b} a ∧
      Finishes ⟨5, true, false, false, 0, 5⟩ unitInputs (a+1) true a (a+1) :=
  have hn : unitInputs.nVars.toNat ≤ maxVars := by decide
  have hsat : ∃ b < 2 ^ unitInputs.nVars.toNat, Satisfied unitInputs b := ⟨1, by decide, by decide⟩
  ⟨hn, hsat, (search_correct _ unitInputs hn).1 hsat⟩

end EthernetSoc.BruteForceSat
