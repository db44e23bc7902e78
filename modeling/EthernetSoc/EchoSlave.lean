import EthernetSoc.Lib.Wishbone

/-!
# The echo memory on the bus

`step` is one clock edge of `EchoSlave`: the guarded acknowledge, the write port
and the registered read port, which latches the word that the address lines
select before a write at the same edge. Read data do not depend on the address
lines in the cycle in which they are sampled, only on those of the cycle before.

Under every protocol-abiding master this is a plain memory, for every width of
the address lines and whatever the memory holds at first.
-/

namespace EthernetSoc.EchoSlave
open Wishbone (lastWrite)

variable {w : ℕ}

abbrev Bus (w : ℕ) := Wishbone.Bus (BitVec w) (BitVec 32)
abbrev Request (w : ℕ) := Wishbone.Request (BitVec w) (BitVec 32)
abbrev Idle (w : ℕ) := Wishbone.Idle (BitVec w) (BitVec 32)
abbrev Timing (w : ℕ) := Wishbone.Timing (BitVec w) (BitVec 32)

structure State (w : ℕ) where
  wbAck : Bool
  mem : BitVec w → BitVec 32
  rdData : BitVec 32

/-- The memory has no initial contents of its own, and neither has the register
of the read port. -/
def State.reset (mem : BitVec w → BitVec 32) (rdData : BitVec 32) : State w := ⟨false, mem, rdData⟩

def wrEn (s : State w) (b : Bus w) : Bool := b.cyc && b.stb && b.we && !s.wbAck

def step (s : State w) (b : Bus w) : State w where
  wbAck := if b.cyc && b.stb && !s.wbAck then true else false
  mem := if wrEn s b then Function.update s.mem b.adr b.datW else s.mem
  -- not transparent: the word as it was before this edge
  rdData := s.mem b.adr

def target : Wishbone.Target (State w) (BitVec w) (BitVec 32) where
  ack := State.wbAck
  step := step
  datR := fun s _ => s.rdData
  ack_step := by
    intro s b
    simp only [step, Wishbone.Bus.strobe]
    cases b.cyc && b.stb && !s.wbAck <;> rfl

theorem wrEn_eq (s : State w) (b : Bus w) : wrEn s b = ((b.strobe && !s.wbAck) && b.we) := by
  simp only [wrEn, Wishbone.Bus.strobe, Bool.and_assoc, Bool.and_comm b.we]

theorem mem_step_of_quiet {s : State w} {b : Bus w} (h : (b.strobe && !s.wbAck) = false) :
    (step s b).mem = s.mem := by
  simp [step, wrEn_eq, h]

theorem mem_step_lines {s : State w} (h : s.wbAck = false) (r : Request w) :
    (step s r.lines).mem = if r.we then Function.update s.mem r.adr r.datW else s.mem := by
  simp [step, wrEn_eq, h]

/-! ## Runs -/

section Run
variable {mem : BitVec w → BitVec 32} {rdData : BitVec 32}
variable (u : Wishbone.Run target (State.reset mem rdData))

theorem run_state_succ (n : ℕ) : u.state (n+1) = step (u.state n) (u.bus n) := u.state_succ n

theorem mem_succ_of_begins {n : ℕ} {r : Request w} (h : u.Begins n r) :
    (u.state (n+1)).mem =
      if r.we then Function.update (u.state n).mem r.adr r.datW else (u.state n).mem := by
  have ha : (u.state n).wbAck = false := u.begins_ack rfl h
  rw [run_state_succ, h.2, mem_step_lines ha]

theorem mem_succ_of_quiet {n : ℕ} (h : ((u.bus n).strobe && !(u.state n).wbAck) = false) :
    (u.state (n+1)).mem = (u.state n).mem := by
  rw [run_state_succ, mem_step_of_quiet h]

/-- The simulation: the memory always holds the acknowledged writes over its
first contents. A write is in the array from the edge at which its acknowledge
rises. -/
theorem mem_eq_lastWrite (n : ℕ) (a : BitVec w) :
    (u.state n).mem a = (lastWrite (u.writes n) a).getD (mem a) := by
  induction n with
  | zero => rw [u.state_zero]; rfl
  | succ n ih =>
    rcases u.begins_or_quiet rfl n with ⟨r, hb, _⟩ | hq
    · rw [mem_succ_of_begins u hb, u.writes_succ_of_begins rfl hb]
      cases r.we with
      | false => simpa using ih
      | true =>
        simp only [if_true, Wishbone.lastWrite_append_singleton]
        by_cases hadr : r.adr = a
        · rw [if_pos hadr, ← hadr, Function.update_self]
          rfl
        · rw [if_neg hadr, Function.update_of_ne (Ne.symm hadr), ih]
    · rw [mem_succ_of_quiet u hq, u.writes_succ_of_quiet hq, ih]

/-- What a read samples in its acknowledge cycle was latched one edge before, at
the edge that ended its first cycle. -/
theorem rdData_of_acked {n : ℕ} {r : Request w} (h : u.Acked (n+1) r) :
    (u.state (n+1)).rdData = (u.state n).mem r.adr := by
  have hb := (u.acked_iff_begins rfl n r).mp h
  rw [run_state_succ, hb.2]
  rfl

end Run

/-- Under every protocol-abiding master, for every address width and all initial
contents, the slave is a memory: each transaction is acknowledged once, in the
cycle after its first; each write changes its own word, at that one clock edge,
and nothing else changes a word; and a read returns the last write to its
address that was acknowledged before. -/
theorem refines_memory {w : ℕ} (mem : BitVec w → BitVec 32) (rdData : BitVec 32)
    (u : Wishbone.Run target (State.reset mem rdData)) :
    (∀ n r, u.Begins n r → (u.state n).wbAck = false ∧ u.Acked (n+1) r ∧
      u.master (n+2) = .idle) ∧
    (∀ n, (u.state n).wbAck = true →
      (∃ m r, n = m+1 ∧ u.Begins m r ∧ u.Acked n r) ∧ (u.state (n+1)).wbAck = false) ∧
    (∀ n r, u.Begins n r → r.we = true →
      (u.state (n+1)).mem = Function.update (u.state n).mem r.adr r.datW) ∧
    (∀ n, (¬ ∃ r, u.Begins n r ∧ r.we = true) → (u.state (n+1)).mem = (u.state n).mem) ∧
    (∀ n r, u.Acked (n+1) r → r.we = false →
      target.datR (u.state (n+1)) r.adr = (lastWrite (u.writes n) r.adr).getD (mem r.adr)) := by
  obtain ⟨honce, hack⟩ := u.handshake rfl
  refine ⟨honce, hack, ?_, ?_, ?_⟩
  · intro n r h hw
    rw [mem_succ_of_begins u h, hw]
    rfl
  · intro n h
    rcases u.begins_or_quiet rfl n with ⟨r, hb, _⟩ | hq
    · have hw : r.we = false := by
        rw [← Bool.not_eq_true]
        exact fun hw => h ⟨r, hb, hw⟩
      rw [mem_succ_of_begins u hb, hw]
      rfl
    · exact mem_succ_of_quiet u hq
  · intro n r h _
    exact (rdData_of_acked u h).trans (mem_eq_lastWrite u n r.adr)

example : ∃ u : Wishbone.Run target (State.reset (fun _ : BitVec 9 => 0) 0),
    u.Begins 0 ⟨true, 3, 7⟩ ∧ u.Begins 2 ⟨false, 3, 0⟩ ∧ u.Acked 3 ⟨false, 3, 0⟩ ∧
      target.datR (u.state 3) 3 = 7 :=
  ⟨Wishbone.backToBack target _ (fun k => ⟨k = 0, 3, if k = 0 then 7 else 0⟩) rfl,
    ⟨rfl, rfl⟩, ⟨rfl, rfl⟩, ⟨rfl, rfl⟩, rfl⟩

/-! ## Complete accesses -/

theorem mem_idle {s : State w} (gap : List (Idle w)) : (target.idle s gap).mem = s.mem := by
  induction gap generalizing s with
  | nil => rfl
  | cons b gap ih =>
    have hquiet : (b.1.strobe && !s.wbAck) = false := by rw [b.2]; rfl
    rw [Wishbone.Target.idle_cons, ih]
    exact mem_step_of_quiet hquiet

theorem transact_spec {s : State w} (h : s.wbAck = false) (t : Timing w) (r : Request w) :
    (target.transact t r s).1.mem =
      (if r.we then Function.update s.mem r.adr r.datW else s.mem) ∧
    (target.transact t r s).1.wbAck = false ∧ (target.transact t r s).2 = s.mem r.adr := by
  have hidle : (target.idle s t.wait).wbAck = false := target.ack_idle h t.wait
  have hdrive := target.drive_of_not_ack hidle r
  have hquiet : ((t.last r).strobe && !(step (target.idle s t.wait) r.lines).wbAck) = false := by
    have hack : (step (target.idle s t.wait) r.lines).wbAck = true := by
      change target.ack (target.step _ _) = true
      rw [← hdrive]
      exact target.ack_drive r _
    rw [hack, Bool.not_true, Bool.and_false]
  refine ⟨?_, target.ack_transact t r s, ?_⟩
  · simp only [Wishbone.Target.transact, hdrive]
    exact (mem_step_of_quiet hquiet).trans ((mem_step_lines hidle r).trans (by rw [mem_idle]))
  · simp only [Wishbone.Target.transact, hdrive]
    exact congrFun (mem_idle t.wait) r.adr

end EthernetSoc.EchoSlave
