import EthernetSoc.SatSlave

/-!
# Runs of the slave on the bus

The first part refines the slave to the plain register file under every
protocol-abiding master. The second part is about arbitrary bus cycles from
reset: which registers exclude each other, which search a `done` bit belongs
to, and how long a result stays readable.
-/

namespace EthernetSoc.SatSlave
open Wishbone (lastWrite)

/-! ## Refinement of the register file -/

def RegFile.ofWrites (ws : List (BitVec 9 × BitVec 32)) : RegFile where
  nVars := ((lastWrite ws 1).map (BitVec.setWidth 4)).getD 0
  nClauses := ((lastWrite ws 2).map (BitVec.setWidth 5)).getD 0
  lits := fun i =>
    ((lastWrite ws (BitVec.ofNat 9 (litBase + i.val))).map (BitVec.setWidth 6)).getD 0

theorem RegFile.ofWrites_append (ws : List (BitVec 9 × BitVec 32)) (a : BitVec 9) (d : BitVec 32) :
    ofWrites (ws ++ [(a, d)]) = (ofWrites ws).write a d := by
  ext1
  · simp only [ofWrites, write, Wishbone.lastWrite_append_singleton]
    split_ifs <;> rfl
  · simp only [ofWrites, write, Wishbone.lastWrite_append_singleton]
    split_ifs <;> rfl
  · funext i
    simp only [ofWrites, write, Wishbone.lastWrite_append_singleton]
    split_ifs <;> rfl

section Refinement
variable (u : Wishbone.Run target State.reset)

theorem run_state_succ (n : ℕ) : u.state (n+1) = step (u.state n) (u.bus n) := u.state_succ n

theorem regs_succ_of_begins {n : ℕ} {r : Request} (h : u.Begins n r) :
    (u.state (n+1)).regs =
      if r.we then (u.state n).regs.write r.adr r.datW else (u.state n).regs := by
  have ha : (u.state n).wbAck = false := u.begins_ack rfl h
  rw [run_state_succ, regs_step, h.2, activeWrite_lines ha]
  rfl

theorem regs_succ_of_quiet {n : ℕ} (h : ((u.bus n).strobe && !(u.state n).wbAck) = false) :
    (u.state (n+1)).regs = (u.state n).regs := by
  rw [run_state_succ, regs_step, activeWrite_of_quiet h]
  rfl

theorem regs_eq_ofWrites (n : ℕ) : (u.state n).regs = RegFile.ofWrites (u.writes n) := by
  induction n with
  | zero => rw [u.state_zero]; rfl
  | succ n ih =>
    rcases u.begins_or_quiet rfl n with ⟨r, hb, _⟩ | hq
    · rw [regs_succ_of_begins u hb, u.writes_succ_of_begins rfl hb, ih]
      cases r.we with
      | false => simp
      | true => exact (RegFile.ofWrites_append _ _ _).symm
    · rw [regs_succ_of_quiet u hq, u.writes_succ_of_quiet hq, ih]

theorem startR_iff (n : ℕ) :
    (u.state n).startR = true ↔
      ∃ r, u.Acked n r ∧ r.we = true ∧ r.adr = 0 ∧ r.datW.getLsbD 0 = true := by
  cases n with
  | zero =>
    constructor
    · intro h
      rw [u.state_zero] at h
      cases h
    · rintro ⟨r, hr, _⟩
      have hm := hr.1
      rw [u.master_zero] at hm
      cases hm
  | succ n =>
    rw [run_state_succ, startR_step]
    constructor
    · intro h
      rcases u.begins_or_quiet rfl n with ⟨r, hb, ha⟩ | hq
      · rw [hb.2, activeWrite_lines ha] at h
        refine ⟨r, u.acked_of_begins rfl hb, ?_⟩
        simpa [and_assoc] using h
      · rw [activeWrite_of_quiet hq] at h
        cases h
    · rintro ⟨r, hr, hw, ha, hd⟩
      have hb := (u.acked_iff_begins rfl n r).mp hr
      rw [hb.2, activeWrite_lines (u.begins_ack rfl hb)]
      simp [hw, ha, hd]

end Refinement

/-- Under every protocol-abiding master the slave is the plain register file:
each transaction is acknowledged once, in the cycle after its first; each write
changes the file at that one clock edge and nothing else does; the file always
holds the last acknowledged writes; and the start bit is the acknowledge cycle
of an odd write to word 0. -/
theorem refines_register_file (u : Wishbone.Run target State.reset) :
    (∀ n r, u.Begins n r → (u.state n).wbAck = false ∧ u.Acked (n+1) r ∧
      u.master (n+2) = .idle) ∧
    (∀ n, (u.state n).wbAck = true →
      (∃ m r, n = m+1 ∧ u.Begins m r ∧ u.Acked n r) ∧ (u.state (n+1)).wbAck = false) ∧
    (∀ n r, u.Begins n r → r.we = true →
      (u.state (n+1)).regs = (u.state n).regs.write r.adr r.datW) ∧
    (∀ n, (¬ ∃ r, u.Begins n r ∧ r.we = true) → (u.state (n+1)).regs = (u.state n).regs) ∧
    (∀ n, (u.state n).nVarsR = ((lastWrite (u.writes n) 1).map (BitVec.setWidth 4)).getD 0) ∧
    (∀ n, (u.state n).nClausesR = ((lastWrite (u.writes n) 2).map (BitVec.setWidth 5)).getD 0) ∧
    (∀ n i, (u.state n).litRegs i =
      ((lastWrite (u.writes n) (BitVec.ofNat 9 (litBase + i.val))).map
        (BitVec.setWidth 6)).getD 0) ∧
    (∀ n, (u.state n).startR = true ↔
      ∃ r, u.Acked n r ∧ r.we = true ∧ r.adr = 0 ∧ r.datW.getLsbD 0 = true) := by
  obtain ⟨honce, hack⟩ := u.handshake rfl
  refine ⟨honce, hack, ?_, ?_, ?_, ?_, ?_, startR_iff u⟩
  · intro n r h hw
    rw [regs_succ_of_begins u h, hw]
    rfl
  · intro n h
    rcases u.begins_or_quiet rfl n with ⟨r, hb, _⟩ | hq
    · have hw : r.we = false := by
        cases hw : r.we with
        | false => rfl
        | true => exact absurd ⟨r, hb, hw⟩ h
      rw [regs_succ_of_begins u hb, hw]
      rfl
    · exact regs_succ_of_quiet u hq
  · exact fun n => congrArg RegFile.nVars (regs_eq_ofWrites u n)
  · exact fun n => congrArg RegFile.nClauses (regs_eq_ofWrites u n)
  · exact fun n i => congrFun (congrArg RegFile.lits (regs_eq_ofWrites u n)) i

/-! ## Arbitrary bus cycles from reset -/

def trace (bus : ℕ → Bus) : ℕ → State
  | 0 => .reset
  | n+1 => step (trace bus n) (bus n)

/-- A write with bit 0 set to register 0 takes effect at the end of cycle `n`;
it is acknowledged in cycle `n+1`. -/
def StartWrite (bus : ℕ → Bus) (n : ℕ) : Prop :=
  activeWrite (trace bus n) (bus n) = true ∧ (bus n).adr = 0 ∧ (bus n).datW.getLsbD 0 = true

/-- A read of register `a` strobes first in cycle `n`; it is acknowledged, and
its data sampled, in cycle `n+1` with the address still driven. -/
def Read (bus : ℕ → Bus) (n : ℕ) (a : BitVec 9) : Prop :=
  (bus n).strobe = true ∧ (bus n).we = false ∧ (trace bus n).wbAck = false ∧
    (bus n).adr = a ∧ (bus (n+1)).adr = a

/-- The search begun by the start write of cycle `m` ends at the end of cycle
`v`: it ran without interruption from the cycle after the acknowledge. -/
structure SearchEnds (bus : ℕ → Bus) (m v : ℕ) : Prop where
  start : StartWrite bus m
  after : m+2 ≤ v
  fresh : (trace bus (m+2)).sat = BruteForceSat.fresh
  busy : ∀ j, m+2 ≤ j → j ≤ v →
    (trace bus j).sat.running = true ∧ (trace bus j).startR = false
  done : (trace bus (v+1)).sat.doneR = true ∧ (trace bus (v+1)).sat.running = false

section Trace
variable (bus : ℕ → Bus)

theorem startR_succ_iff (n : ℕ) : (trace bus (n+1)).startR = true ↔ StartWrite bus n := by
  simp only [trace, startR_step, StartWrite, Bool.and_eq_true, beq_iff_eq, and_assoc]

theorem sat_succ_of_start {n : ℕ} (h : (trace bus n).startR = true) :
    (trace bus (n+1)).sat = BruteForceSat.fresh :=
  BruteForceSat.step_start _ h

theorem sat_succ_of_stopped {n : ℕ} (hs : (trace bus n).startR = false)
    (hr : (trace bus n).sat.running = false) : (trace bus (n+1)).sat = (trace bus n).sat :=
  BruteForceSat.step_stopped hs hr

theorem consistent_trace (n : ℕ) : (trace bus n).sat.Consistent := by
  induction n with
  | zero => exact BruteForceSat.consistent_reset
  | succ n ih => exact ih.step _

def InProgress (m k : ℕ) : Prop :=
  StartWrite bus m ∧ m+2 ≤ k ∧ (trace bus (m+2)).sat = BruteForceSat.fresh ∧
    (∀ j, m+2 ≤ j → j < k → (trace bus j).sat.running = true ∧ (trace bus j).startR = false) ∧
    (trace bus k).sat.running = true

def Settled (m k : ℕ) : Prop :=
  ∃ v, SearchEnds bus m v ∧ v+1 ≤ k ∧ (trace bus k).sat = (trace bus (v+1)).sat

variable {bus}

theorem inProgress_of_start {m : ℕ} (h : StartWrite bus m) : InProgress bus m (m+2) := by
  have hf := sat_succ_of_start bus ((startR_succ_iff bus m).mpr h)
  refine ⟨h, le_rfl, hf, fun j hj hlt => absurd hlt (by omega), ?_⟩
  rw [hf]
  rfl

theorem InProgress.succ {m k : ℕ} (h : InProgress bus m k)
    (hs : (trace bus k).startR = false) : InProgress bus m (k+1) ∨ Settled bus m (k+1) := by
  obtain ⟨hw, hk, hf, hbusy, hrun⟩ := h
  have hall : ∀ j, m+2 ≤ j → j ≤ k →
      (trace bus j).sat.running = true ∧ (trace bus j).startR = false := by
    intro j hj hle
    rcases Nat.lt_or_eq_of_le hle with hlt | rfl
    · exact hbusy j hj hlt
    · exact ⟨hrun, hs⟩
  rcases BruteForceSat.step_running (i := satInputs (trace bus k)) hs hrun with hr | ⟨hr, hd⟩
  · exact Or.inl ⟨hw, by omega, hf, fun j hj hlt => hall j hj (by omega), hr⟩
  · exact Or.inr ⟨k, ⟨hw, hk, hf, hall, hd, hr⟩, le_rfl, rfl⟩

theorem Settled.succ {m k : ℕ} (h : Settled bus m k) (hs : (trace bus k).startR = false) :
    Settled bus m (k+1) := by
  obtain ⟨v, he, hv, hsat⟩ := h
  have hr : (trace bus k).sat.running = false := by rw [hsat]; exact he.done.2
  exact ⟨v, he, by omega, (sat_succ_of_stopped bus hs hr).trans hsat⟩

theorem owned_search {m k : ℕ} (h : StartWrite bus m) (hk : m+2 ≤ k) :
    ∃ m', m ≤ m' ∧ (InProgress bus m' k ∨ Settled bus m' k) := by
  induction k, hk using Nat.le_induction with
  | base => exact ⟨m, le_rfl, Or.inl (inProgress_of_start h)⟩
  | succ k hk ih =>
    cases hs : (trace bus k).startR with
    | true =>
      -- a later start write was acknowledged in cycle `k`
      obtain ⟨j, rfl⟩ : ∃ j, k = j+1 := ⟨k-1, by omega⟩
      have hj := (startR_succ_iff bus j).mp hs
      exact ⟨j, by omega, Or.inl (inProgress_of_start hj)⟩
    | false =>
      obtain ⟨m', hm, hp | hp⟩ := ih
      · exact ⟨m', hm, hp.succ hs⟩
      · exact ⟨m', hm, Or.inr (hp.succ hs)⟩

theorem sat_stable {i j : ℕ} (hij : i ≤ j) (hd : (trace bus i).sat.doneR = true)
    (hs : ∀ m, i ≤ m+1 → m+1 ≤ j → ¬ StartWrite bus m) :
    (trace bus j).sat = (trace bus i).sat := by
  have hrun : (trace bus i).sat.running = false := by
    cases hr : (trace bus i).sat.running with
    | false => rfl
    | true => rw [(consistent_trace bus i).exclusive hr] at hd; cases hd
  induction j, hij using Nat.le_induction with
  | base => rfl
  | succ j hij ih =>
    have hsat := ih (fun m hm hle => hs m hm (by omega))
    have hstart : (trace bus j).startR = false := by
      cases j with
      | zero => rfl
      | succ j =>
        rw [Bool.eq_false_iff, ne_eq, startR_succ_iff]
        exact hs j hij (by omega)
    rw [sat_succ_of_stopped bus hstart (by rw [hsat, hrun]), hsat]

end Trace

theorem datR_zero_getLsbD_zero (s : State) : (datR s 0).getLsbD 0 = s.sat.doneR := by
  cases hs : s.sat.satR <;> cases hd : s.sat.doneR <;> simp [datR, hs, hd]

/-- No result read over the bus is stale or unstable, for any sequence of bus
cycles from reset. -/
theorem no_stale_result (bus : ℕ → Bus) :
    (∀ n, ¬ ((trace bus n).sat.running = true ∧ (trace bus n).sat.doneR = true) ∧
      ((trace bus n).sat.satR = true → (trace bus n).sat.doneR = true) ∧
      ((trace bus n).sat.satR = false → (trace bus n).sat.modelR = 0)) ∧
    (∀ m n, StartWrite bus m → m+1 < n → Read bus n 0 →
      (datR (trace bus (n+1)) 0).getLsbD 0 = true →
      ∃ m' v, m ≤ m' ∧ SearchEnds bus m' v ∧ v ≤ n ∧
        (trace bus (n+1)).sat = (trace bus (v+1)).sat) ∧
    (∀ i j, i ≤ j → (trace bus i).sat.doneR = true →
      (∀ m, i ≤ m+1 → m+1 ≤ j → ¬ StartWrite bus m) →
      ∀ a, datR (trace bus j) a = datR (trace bus i) a) := by
  refine ⟨?_, ?_, ?_⟩
  · intro n
    have h := consistent_trace bus n
    refine ⟨fun hb => ?_, h.sat_done, h.model_zero⟩
    rw [h.exclusive hb.1] at hb
    exact absurd hb.2 (by simp)
  · intro m n hw hn _ hd
    rw [datR_zero_getLsbD_zero] at hd
    obtain ⟨m', hm, hp | ⟨v, he, hv, hsat⟩⟩ := owned_search hw (show m+2 ≤ n+1 by omega)
    · rw [(consistent_trace bus (n+1)).exclusive hp.2.2.2.2] at hd
      cases hd
    · exact ⟨m', v, hm, he, by omega, hsat⟩
  · intro i j hij hd hs a
    simp only [datR, sat_stable hij hd hs]

end EthernetSoc.SatSlave
