import EthernetSoc.Lib.Words

/-!
# Assembly programs on a 32-bit machine

A program is a list of instructions as an assembly file has them, with labels
resolved to positions in the list; `addr` gives the address of a position. Loads
and stores move aligned words of a byte memory and must keep to what the bus can
read and write: `step` is `none` when one does not, and when the program counter
has left the list. `Leads P Q` says that the machine gets from `P` to `Q`, with
rules for sequences and for loops with a counter.
-/

namespace EthernetSoc.Assembly

abbrev Reg := BitVec 5

inductive Instr
  | csrw (csr : BitVec 12) (rs : Reg)
  | la (rd : Reg) (value : BitVec 32)
  | addi (rd rs : Reg) (imm : BitVec 32)
  | lw (rd : Reg) (offset : BitVec 32) (base : Reg)
  | sw (rs : Reg) (offset : BitVec 32) (base : Reg)
  | beq (rs rt : Reg) (target : ℕ)
  | j (target : ℕ)
  | call (target : ℕ)

structure Machine where
  pc : ℕ
  reg : Reg → BitVec 32
  mem : ℕ → BitVec 8
  csr : BitVec 12 → BitVec 32

structure Bus where
  reads : ℕ → Bool
  writes : ℕ → Bool

namespace Machine

-- Register 0 reads as zero whatever is written to it.
def get (m : Machine) (r : Reg) : BitVec 32 := if r = 0 then 0 else m.reg r

def set (m : Machine) (r : Reg) (v : BitVec 32) : Machine :=
  { m with reg := Function.update m.reg r v }

def write (m : Machine) (a : ℕ) (v : BitVec 32) : Machine :=
  { m with mem := Words.store 4 m.mem a v }

def setCsr (m : Machine) (c : BitVec 12) (v : BitVec 32) : Machine :=
  { m with csr := Function.update m.csr c v }

def next (m : Machine) : Machine := { m with pc := m.pc + 1 }

def goto (m : Machine) (target : ℕ) : Machine := { m with pc := target }

variable (m : Machine) (r : Reg) (v : BitVec 32) (n : ℕ) (c : BitVec 12)

@[simp]
theorem get_set (r' : Reg) :
    (m.set r v).get r' = if r' = 0 then 0 else if r' = r then v else m.get r' := by
  simp only [get, set, Function.update_apply]
  split_ifs <;> rfl

@[simp] theorem get_zero : m.get 0#5 = 0 := if_pos rfl
@[simp] theorem get_write : (m.write n v).get r = m.get r := rfl
@[simp] theorem get_setCsr : (m.setCsr c v).get r = m.get r := rfl
@[simp] theorem get_next : m.next.get r = m.get r := rfl
@[simp] theorem get_goto : (m.goto n).get r = m.get r := rfl
@[simp] theorem mem_set : (m.set r v).mem = m.mem := rfl
@[simp] theorem mem_write : (m.write n v).mem = Words.store 4 m.mem n v := rfl
@[simp] theorem mem_setCsr : (m.setCsr c v).mem = m.mem := rfl
@[simp] theorem mem_next : m.next.mem = m.mem := rfl
@[simp] theorem mem_goto : (m.goto n).mem = m.mem := rfl
@[simp] theorem csr_set : (m.set r v).csr = m.csr := rfl
@[simp] theorem csr_write : (m.write n v).csr = m.csr := rfl
@[simp] theorem csr_setCsr : (m.setCsr c v).csr = Function.update m.csr c v := rfl
@[simp] theorem csr_next : m.next.csr = m.csr := rfl
@[simp] theorem csr_goto : (m.goto n).csr = m.csr := rfl
@[simp] theorem pc_set : (m.set r v).pc = m.pc := rfl
@[simp] theorem pc_write : (m.write n v).pc = m.pc := rfl
@[simp] theorem pc_setCsr : (m.setCsr c v).pc = m.pc := rfl
@[simp] theorem pc_next : m.next.pc = m.pc + 1 := rfl
@[simp] theorem pc_goto : (m.goto n).pc = n := rfl

end Machine

section Step
variable (bus : Bus) (addr : ℕ → BitVec 32) (prog : List Instr)

def exec (m : Machine) : Instr → Option Machine
  | .csrw csr rs => some (m.setCsr csr (m.get rs)).next
  | .la rd value => some (m.set rd value).next
  | .addi rd rs imm => some (m.set rd (m.get rs + imm)).next
  | .lw rd offset base =>
    let a := (m.get base + offset).toNat
    if a % 4 = 0 ∧ bus.reads a then some (m.set rd (Words.load 4 m.mem a)).next else none
  | .sw rs offset base =>
    let a := (m.get base + offset).toNat
    if a % 4 = 0 ∧ bus.writes a then some (m.write a (m.get rs)).next else none
  | .beq rs rt target => some (if m.get rs = m.get rt then m.goto target else m.next)
  | .j target => some (m.goto target)
  | .call target => some ((m.set 1 (addr (m.pc + 1))).goto target)

def step (m : Machine) : Option Machine := prog[m.pc]?.bind (exec bus addr m)

def Steps : Machine → Machine → Prop :=
  Relation.ReflTransGen fun m m' => step bus addr prog m = some m'

def Leads (P Q : Machine → Prop) : Prop := ∀ m, P m → ∃ m', Steps bus addr prog m m' ∧ Q m'

end Step

section Rules
variable {bus : Bus} {addr : ℕ → BitVec 32} {prog : List Instr} {P Q R : Machine → Prop}

theorem step_of_fetch {m : Machine} {i : Instr} (h : prog[m.pc]? = some i) :
    step bus addr prog m = exec bus addr m i := by
  rw [step, h, Option.bind_some]

section Instructions
variable {m : Machine} {rd rs rt base : Reg} {offset v : BitVec 32} {a target : ℕ}

theorem step_csrw {c : BitVec 12} (h : prog[m.pc]? = some (.csrw c rs)) :
    step bus addr prog m = some (m.setCsr c (m.get rs)).next := step_of_fetch h

theorem step_la (h : prog[m.pc]? = some (.la rd v)) :
    step bus addr prog m = some (m.set rd v).next := step_of_fetch h

theorem step_addi (h : prog[m.pc]? = some (.addi rd rs v)) :
    step bus addr prog m = some (m.set rd (m.get rs + v)).next := step_of_fetch h

theorem step_lw (h : prog[m.pc]? = some (.lw rd offset base))
    (ha : (m.get base + offset).toNat = a) (h4 : a % 4 = 0) (hr : bus.reads a = true) :
    step bus addr prog m = some (m.set rd (Words.load 4 m.mem a)).next := by
  rw [step_of_fetch h, exec, ha]
  exact if_pos ⟨h4, hr⟩

theorem step_sw (h : prog[m.pc]? = some (.sw rs offset base))
    (ha : (m.get base + offset).toNat = a) (h4 : a % 4 = 0) (hw : bus.writes a = true) :
    step bus addr prog m = some (m.write a (m.get rs)).next := by
  rw [step_of_fetch h, exec, ha]
  exact if_pos ⟨h4, hw⟩

theorem step_beq_eq (h : prog[m.pc]? = some (.beq rs rt target)) (heq : m.get rs = m.get rt) :
    step bus addr prog m = some (m.goto target) := by
  rw [step_of_fetch h, exec, if_pos heq]

theorem step_beq_ne (h : prog[m.pc]? = some (.beq rs rt target)) (hne : m.get rs ≠ m.get rt) :
    step bus addr prog m = some m.next := by
  rw [step_of_fetch h, exec, if_neg hne]

theorem step_j (h : prog[m.pc]? = some (.j target)) :
    step bus addr prog m = some (m.goto target) := step_of_fetch h

theorem step_call (h : prog[m.pc]? = some (.call target)) :
    step bus addr prog m = some ((m.set 1 (addr (m.pc + 1))).goto target) := step_of_fetch h

end Instructions

theorem Leads.refl (h : ∀ m, P m → Q m) : Leads bus addr prog P Q :=
  fun m hm => ⟨m, .refl, h m hm⟩

theorem Leads.trans (h₁ : Leads bus addr prog P Q) (h₂ : Leads bus addr prog Q R) :
    Leads bus addr prog P R := by
  intro m hm
  obtain ⟨m₁, hsteps₁, hQ⟩ := h₁ m hm
  obtain ⟨m₂, hsteps₂, hR⟩ := h₂ m₁ hQ
  exact ⟨m₂, hsteps₁.trans hsteps₂, hR⟩

/-- A loop with `k` rounds to go, whose body leaves one less. -/
theorem Leads.loop {I : ℕ → Machine → Prop} (h : ∀ k, Leads bus addr prog (I (k+1)) (I k)) (k : ℕ) :
    Leads bus addr prog (I k) (I 0) := by
  induction k with
  | zero => exact .refl fun _ hm => hm
  | succ k ih => exact (h k).trans ih

end Rules

end EthernetSoc.Assembly
