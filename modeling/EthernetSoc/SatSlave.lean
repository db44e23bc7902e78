import EthernetSoc.BruteForceSat
import EthernetSoc.Lib.Wishbone

/-!
# The Wishbone slave around the solver

`step` is one clock edge of `SATSlave`: the acknowledge, the write decoder over
the 512 word addresses, the self-clearing start bit and the solver core, which
sees the registers as they were before the edge. `datR` is the combinational
read decoder.

`RegFile` is the plain register file the slave stands for. An effective write
is one `RegFile.write`, every other edge leaves the file alone, and between
start pulses the core runs on inputs that depend on the file only.
-/

namespace EthernetSoc.SatSlave
open BruteForceSat (maxVars maxClauses clauseLen)

abbrev litCount : ℕ := maxClauses * clauseLen
abbrev litBase : ℕ := 8

abbrev Bus := Wishbone.Bus (BitVec 9) (BitVec 32)
abbrev Request := Wishbone.Request (BitVec 9) (BitVec 32)
abbrev Idle := Wishbone.Idle (BitVec 9) (BitVec 32)
abbrev Timing := Wishbone.Timing (BitVec 9) (BitVec 32)

@[ext] structure RegFile where
  nVars : BitVec 4
  nClauses : BitVec 5
  lits : Fin litCount → BitVec 6

@[ext] structure State where
  wbAck : Bool
  startR : Bool
  nVarsR : BitVec 4
  nClausesR : BitVec 5
  litRegs : Fin litCount → BitVec 6
  sat : BruteForceSat.Regs

def State.reset : State := ⟨false, false, 0, 0, fun _ => 0, .reset⟩

def slot (c : Fin maxClauses) (l : Fin clauseLen) : Fin litCount :=
  ⟨c.val * clauseLen + l.val, by
    have hc := c.isLt
    have hl := l.isLt
    simp only [litCount, maxClauses, clauseLen] at *
    omega⟩

/-- The wiring of the registers to the solver: literals are `{used, neg, var[3:0]}`. -/
def satInputs (s : State) : BruteForceSat.Inputs where
  start := s.startR
  nVars := s.nVarsR
  nClauses := s.nClausesR
  litVar := fun c l => (s.litRegs (slot c l)).setWidth 4
  litNeg := fun c l => (s.litRegs (slot c l)).getLsbD 4
  litUsed := fun c l => (s.litRegs (slot c l)).getLsbD 5

def activeWrite (s : State) (b : Bus) : Bool := b.cyc && b.stb && b.we && !s.wbAck

def step (s : State) (b : Bus) : State where
  wbAck := if b.cyc && b.stb && !s.wbAck then true else false
  -- the write to word 0 is assigned after the self-clear, so it wins
  startR := if activeWrite s b && b.adr == 0 then b.datW.getLsbD 0
    else if s.startR then false else s.startR
  nVarsR := if activeWrite s b && b.adr == 1 then b.datW.setWidth 4 else s.nVarsR
  nClausesR := if activeWrite s b && b.adr == 2 then b.datW.setWidth 5 else s.nClausesR
  litRegs := fun i => if activeWrite s b && b.adr == BitVec.ofNat 9 (litBase + i.val) then
    b.datW.setWidth 6 else s.litRegs i
  sat := BruteForceSat.step s.sat (satInputs s)

def datR (s : State) (adr : BitVec 9) : BitVec 32 :=
  if adr = 0 then (BitVec.ofBool s.sat.satR ++ BitVec.ofBool s.sat.doneR).setWidth 32
  else if adr = 3 then s.sat.modelR.setWidth 32
  else if adr = 4 then s.sat.cyclesR.setWidth 32
  else 0

def target : Wishbone.Target State (BitVec 9) (BitVec 32) where
  ack := State.wbAck
  step := step
  datR := datR
  ack_step := by
    intro s b
    simp only [step, Wishbone.Bus.strobe]
    cases b.cyc && b.stb && !s.wbAck <;> rfl

@[simp] theorem target_ack (s : State) : target.ack s = s.wbAck := rfl
@[simp] theorem target_step (s : State) (b : Bus) : target.step s b = step s b := rfl
@[simp] theorem target_datR (s : State) (a : BitVec 9) : target.datR s a = datR s a := rfl

theorem step_wbAck (s : State) (b : Bus) : (step s b).wbAck = (b.strobe && !s.wbAck) :=
  target.ack_step s b

theorem activeWrite_eq (s : State) (b : Bus) :
    activeWrite s b = (b.strobe && !s.wbAck && b.we) := by
  simp only [activeWrite, Wishbone.Bus.strobe, Bool.and_assoc, Bool.and_comm b.we]

theorem activeWrite_of_quiet {s : State} {b : Bus} (h : (b.strobe && !s.wbAck) = false) :
    activeWrite s b = false := by
  rw [activeWrite_eq, h, Bool.false_and]

/-! ## The register file -/

def State.regs (s : State) : RegFile := ⟨s.nVarsR, s.nClausesR, s.litRegs⟩

def RegFile.write (f : RegFile) (a : BitVec 9) (d : BitVec 32) : RegFile where
  nVars := if a = 1 then d.setWidth 4 else f.nVars
  nClauses := if a = 2 then d.setWidth 5 else f.nClauses
  lits := fun i => if a = BitVec.ofNat 9 (litBase + i.val) then d.setWidth 6 else f.lits i

def RegFile.inputs (f : RegFile) : BruteForceSat.Inputs where
  start := false
  nVars := f.nVars
  nClauses := f.nClauses
  litVar := fun c l => (f.lits (slot c l)).setWidth 4
  litNeg := fun c l => (f.lits (slot c l)).getLsbD 4
  litUsed := fun c l => (f.lits (slot c l)).getLsbD 5

theorem satInputs_eq (s : State) : satInputs s = { s.regs.inputs with start := s.startR } := rfl

theorem regs_step (s : State) (b : Bus) :
    (step s b).regs = if activeWrite s b then s.regs.write b.adr b.datW else s.regs := by
  cases h : activeWrite s b <;> simp [step, h, State.regs, RegFile.write]

theorem startR_step (s : State) (b : Bus) :
    (step s b).startR = (activeWrite s b && b.adr == 0 && b.datW.getLsbD 0) := by
  simp only [step]
  cases h : activeWrite s b && b.adr == 0 <;> cases s.startR <;> simp

theorem litAddress_injective {i j : Fin litCount}
    (h : BitVec.ofNat 9 (litBase + i.val) = BitVec.ofNat 9 (litBase + j.val)) : i = j := by
  have hi := i.isLt
  have hj := j.isLt
  have hv := congrArg BitVec.toNat h
  simp only [BitVec.toNat_ofNat] at hv
  apply Fin.ext
  simp only [litCount, litBase, maxClauses, clauseLen] at *
  omega

/-! ## Cycles without a write -/

def State.withAck (s : State) (a : Bool) : State := { s with wbAck := a }

theorem withAck_eq_self {s : State} {a : Bool} (h : s.wbAck = a) : s.withAck a = s := by
  subst h
  rfl

theorem withAck_withAck (s : State) (a b : Bool) : (s.withAck a).withAck b = s.withAck b := rfl

def advance (s : State) (n : ℕ) : State :=
  { s with sat := (fun t => BruteForceSat.step t s.regs.inputs)^[n] s.sat }

theorem step_quiet {s : State} {b : Bus} (hs : s.startR = false)
    (hb : activeWrite s b = false) :
    step s b = (advance s 1).withAck (b.strobe && !s.wbAck) := by
  have ha := step_wbAck s b
  ext1
  · exact ha
  all_goals simp [step, hb, hs, advance, State.withAck, satInputs_eq, State.regs, RegFile.inputs]

theorem advance_add (s : State) (m n : ℕ) : advance (advance s m) n = advance s (n+m) := by
  simp only [advance, State.regs, Function.iterate_add_apply]

theorem advance_withAck (s : State) (n : ℕ) (a : Bool) :
    advance (s.withAck a) n = (advance s n).withAck a := rfl

theorem idle_quiet {s : State} (hs : s.startR = false) (ha : s.wbAck = false) (gap : List Idle) :
    target.idle s gap = advance s gap.length := by
  induction gap generalizing s with
  | nil => rfl
  | cons b gap ih =>
    have hb : activeWrite s b.1 = false := activeWrite_of_quiet (by rw [b.2]; rfl)
    have hstep : step s b.1 = advance s 1 := by
      rw [step_quiet hs hb, b.2, Bool.false_and, withAck_eq_self (s := advance s 1) ha]
    rw [Wishbone.Target.idle_cons, target_step, hstep, ih (s := advance s 1) hs ha, advance_add]
    rfl

/-! ## Complete accesses -/

structure Ready (s : State) : Prop where
  ack : s.wbAck = false
  start : s.startR = false

theorem ready_idle (s : State) {gap : List Idle} (h : gap ≠ []) : Ready (target.idle s gap) := by
  cases gap with
  | nil => exact absurd rfl h
  | cons b gap =>
    have hb : activeWrite s b.1 = false := activeWrite_of_quiet (by rw [b.2]; rfl)
    have hs : (step s b.1).startR = false := by rw [startR_step, hb, Bool.false_and, Bool.false_and]
    have ha : (step s b.1).wbAck = false := target.ack_idle_step s b
    rw [Wishbone.Target.idle_cons, target_step, idle_quiet hs ha]
    exact ⟨ha, hs⟩

theorem transact_eq {s : State} (h : Ready s) (w : Timing) (r : Request) :
    target.transact w r s =
      let t := step (advance s w.wait.length) r.lines
      (step t (w.last r), datR t r.adr) := by
  have hidle := idle_quiet h.start h.ack w.wait
  have hdrive := target.drive_of_not_ack (s := advance s w.wait.length) h.ack r
  simp only [Wishbone.Target.transact, hidle, hdrive, target_step, target_datR]

theorem step_acked {s : State} (h : s.wbAck = true) (b : Bus) :
    (step s b).regs = s.regs ∧ Ready (step s b) ∧
      (step s b).sat = BruteForceSat.step s.sat (satInputs s) := by
  have hq : (b.strobe && !s.wbAck) = false := by rw [h]; simp
  have hb := activeWrite_of_quiet hq
  refine ⟨by rw [regs_step, hb]; rfl, ⟨by rw [step_wbAck, hq], ?_⟩, rfl⟩
  rw [startR_step, hb, Bool.false_and, Bool.false_and]

theorem step_lines_ack {s : State} (h : s.wbAck = false) (r : Request) :
    (step s r.lines).wbAck = true := by
  rw [step_wbAck, h]
  rfl

theorem activeWrite_lines {s : State} (h : s.wbAck = false) (r : Request) :
    activeWrite s r.lines = r.we := by
  simp [activeWrite_eq, h]

theorem transact_ready {s : State} (h : Ready s) (w : Timing) (r : Request) :
    Ready (target.transact w r s).1 := by
  rw [transact_eq h]
  exact (step_acked (step_lines_ack (s := advance s w.wait.length) h.ack r) _).2.1

theorem transact_write {s : State} (h : Ready s) (w : Timing) (a : BitVec 9) (d : BitVec 32) :
    (target.transact w ⟨true, a, d⟩ s).1.regs = s.regs.write a d := by
  have ha : (advance s w.wait.length).wbAck = false := h.ack
  rw [transact_eq h]
  rw [(step_acked (step_lines_ack ha ⟨true, a, d⟩) _).1, regs_step, activeWrite_lines ha]
  rfl

/-- A write of an odd value to word 0 leaves the solver freshly started: the
pulse and the reset it causes both fall before the next access can begin. -/
theorem transact_start {s : State} (h : Ready s) (w : Timing) {d : BitVec 32}
    (hd : d.getLsbD 0 = true) :
    (target.transact w ⟨true, 0, d⟩ s).1.sat = BruteForceSat.fresh := by
  have ha : (advance s w.wait.length).wbAck = false := h.ack
  rw [transact_eq h]
  rw [(step_acked (step_lines_ack ha ⟨true, 0, d⟩) _).2.2]
  apply BruteForceSat.step_start
  rw [satInputs_eq]
  change (step _ _).startR = true
  rw [startR_step, activeWrite_lines ha]
  simpa using hd

theorem step_acked_advance {s : State} (h : Ready s) (n : ℕ) (b : Bus) :
    step ((advance s n).withAck true) b = advance s (n+1) := by
  have hb := activeWrite_of_quiet (s := (advance s n).withAck true) (b := b)
    (by simp [State.withAck])
  have hq := step_quiet (s := (advance s n).withAck true) h.start hb
  rw [advance_withAck, advance_add, withAck_withAck, Nat.add_comm] at hq
  rw [hq]
  exact withAck_eq_self (h.ack.trans (by simp [State.withAck]))

theorem transact_read {s : State} (h : Ready s) (w : Timing) (a : BitVec 9) (d : BitVec 32) :
    target.transact w ⟨false, a, d⟩ s =
      (advance s (w.wait.length + 2), datR (advance s (w.wait.length + 1)) a) := by
  have ha : (advance s w.wait.length).wbAck = false := h.ack
  have hs : (advance s w.wait.length).startR = false := h.start
  have hstep : step (advance s w.wait.length) (Wishbone.Request.lines ⟨false, a, d⟩) =
      (advance s (w.wait.length + 1)).withAck true := by
    rw [step_quiet hs (activeWrite_lines ha _), advance_add, ha, Nat.add_comm]
    rfl
  rw [transact_eq h, hstep, Prod.mk.injEq]
  exact ⟨step_acked_advance h _ _, rfl⟩

end EthernetSoc.SatSlave
