import EthernetSoc.Lib.Assembly

/-!
# Start-up code and linker script

`crt0.S` runs from reset, before there is a C environment: it sets the stack
pointer, copies the initial values of `.data` from ROM to RAM, clears `.bss` and
calls `main`. The addresses it uses come from `rom.ld`, which places the sections
one after the other, each aligned to a word.
-/

namespace EthernetSoc.Startup
open Assembly

def align4 (n : ℕ) : ℕ := (n + 3) / 4 * 4

abbrev romSize : ℕ := 0x10000
abbrev ramOrigin : ℕ := 0x10000000
abbrev ramSize : ℕ := 0x4000

/-- The sizes of the input sections, and what `rom.ld` makes of them. They fit the two
memories: `.text`, `.rodata` and the values of `.data` in ROM, `.data` and `.bss` in RAM. -/
structure Sections where
  text : ℕ
  rodata : ℕ
  data : ℕ
  bss : ℕ
  rom_fits : align4 (align4 text + rodata) + align4 data ≤ romSize
  ram_fits : align4 data + align4 bss ≤ ramSize

def fdata : ℕ := align4 ramOrigin

namespace Sections
variable (S : Sections)

def etext : ℕ := align4 (align4 S.text + S.rodata)
def fdataRom : ℕ := S.etext
def edata : ℕ := align4 (fdata + S.data)
def fbss : ℕ := align4 S.edata
def ebss : ℕ := align4 (S.fbss + S.bss)

end Sections

def mie : BitVec 12 := 0x304
def mtvec : BitVec 12 := 0x305

def sp : Reg := 2
def t0 : Reg := 5
def a0 : Reg := 10
def a1 : Reg := 11
def a2 : Reg := 12

def trapHandler : ℕ := 21
def mainEntry : ℕ := 22

def crt0 (S : Sections) (addr : ℕ → BitVec 32) : List Instr :=
  [.csrw mie 0,
   .la t0 (addr trapHandler),
   .csrw mtvec t0,
   .la sp 0x10004000,
   .la a0 (BitVec.ofNat 32 S.fdataRom),
   .la a1 (BitVec.ofNat 32 fdata),
   .la a2 (BitVec.ofNat 32 S.edata),
   -- 1:
   .beq a1 a2 13,
   .lw t0 0 a0,
   .sw t0 0 a1,
   .addi a0 a0 4,
   .addi a1 a1 4,
   .j 7,
   -- 2:
   .la a0 (BitVec.ofNat 32 S.fbss),
   .la a1 (BitVec.ofNat 32 S.ebss),
   -- 3:
   .beq a0 a1 19,
   .sw 0 0 a0,
   .addi a0 a0 4,
   .j 15,
   -- 4:
   .call mainEntry,
   -- 5:
   .j 20,
   -- _trap_handler:
   .j trapHandler]

def bus : Bus where
  reads a := a < romSize || (ramOrigin ≤ a && a < ramOrigin + ramSize)
  writes a := ramOrigin ≤ a && a < ramOrigin + ramSize

theorem reads_rom {a : ℕ} (h : a < 0x10000) : bus.reads a = true := by
  simp [bus, h]

theorem writes_ram {a : ℕ} (h : 0x10000000 ≤ a ∧ a < 0x10004000) : bus.writes a = true := by
  simp [bus, ramOrigin, ramSize, h]

theorem ofNat_add_four (a : ℕ) : BitVec.ofNat 32 a + 4 = BitVec.ofNat 32 (a + 4) := by
  rw [BitVec.ofNat_add]
  rfl

theorem toNat_base {x : BitVec 32} {a : ℕ} (h : x = BitVec.ofNat 32 a) (ha : a < 2^32) :
    (x + 0).toNat = a := by
  rw [h]
  simpa using ha

section Layout
variable (S : Sections)

theorem fdata_eq : fdata = 0x10000000 := by decide

theorem edata_eq : S.edata = 0x10000000 + align4 S.data := by
  rw [Sections.edata, fdata_eq, align4, align4]
  omega

theorem fbss_eq : S.fbss = 0x10000000 + align4 S.data := by
  rw [Sections.fbss, edata_eq, align4, align4]
  omega

theorem ebss_eq : S.ebss = 0x10000000 + align4 S.data + align4 S.bss := by
  rw [Sections.ebss, fbss_eq, align4, align4, align4]
  omega

example : let S : Sections := ⟨40001, 1234, 10, 9001, by decide, by decide⟩
    S.fdataRom = 41240 ∧ S.edata = 0x1000000C ∧ S.ebss = 0x1000000C + 9004 := by decide

theorem fdataRom_le : S.fdataRom + align4 S.data ≤ 0x10000 := S.rom_fits

theorem four_dvd_fdataRom : 4 ∣ S.fdataRom := Nat.dvd_mul_left ..

theorem le_align4 (n : ℕ) : n ≤ align4 n := by
  rw [align4]
  omega

theorem exists_words (n : ℕ) : ∃ w, align4 n = 4 * w := ⟨(n + 3) / 4, Nat.mul_comm ..⟩

end Layout

section Run
variable (S : Sections) (addr : ℕ → BitVec 32) (mem : ℕ → BitVec 8)

def copied (n : ℕ) : ℕ → BitVec 8 := fun j =>
  if fdata ≤ j ∧ j < fdata + n then mem (S.fdataRom + (j - fdata)) else mem j

def cleared (n : ℕ) : ℕ → BitVec 8 := fun j =>
  if S.fbss ≤ j ∧ j < S.fbss + n then 0 else copied S mem (align4 S.data) j

structure Ready (m : Machine) : Prop where
  sp : m.get sp = 0x10004000
  mie : m.csr mie = 0
  mtvec : m.csr mtvec = addr trapHandler

/-- At the head of the copy loop with `k` words to go. -/
structure Copying (k : ℕ) (m : Machine) : Prop extends Ready addr m where
  pc : m.pc = 7
  le : 4*k ≤ align4 S.data
  a0 : m.get a0 = BitVec.ofNat 32 (S.fdataRom + (align4 S.data - 4*k))
  a1 : m.get a1 = BitVec.ofNat 32 (fdata + (align4 S.data - 4*k))
  a2 : m.get a2 = BitVec.ofNat 32 S.edata
  mem : m.mem = copied S mem (align4 S.data - 4*k)

structure Clearing (k : ℕ) (m : Machine) : Prop extends Ready addr m where
  pc : m.pc = 15
  le : 4*k ≤ align4 S.bss
  a0 : m.get a0 = BitVec.ofNat 32 (S.fbss + (align4 S.bss - 4*k))
  a1 : m.get a1 = BitVec.ofNat 32 S.ebss
  mem : m.mem = cleared S mem (align4 S.bss - 4*k)

variable {S addr mem}

theorem store_copied {n : ℕ} (hn : n + 4 ≤ align4 S.data) :
    Words.store 4 (copied S mem n) (fdata + n) (Words.load 4 (copied S mem n) (S.fdataRom + n)) =
      copied S mem (n + 4) := by
  have hrom := fdataRom_le S
  have hfdata := fdata_eq
  funext j
  rw [Words.store]
  by_cases hj : fdata + n ≤ j ∧ j < fdata + n + 4
  · have hsrc : S.fdataRom + n + (j - (fdata + n)) = S.fdataRom + (j - fdata) := by omega
    rw [if_pos hj, Words.load, Words.byteAt_pack _ (by omega), if_pos (by omega), copied, copied,
      if_neg (by omega), if_pos (by omega), hsrc]
  · rw [if_neg hj, copied, copied]
    by_cases hin : fdata ≤ j ∧ j < fdata + n
    · rw [if_pos hin, if_pos (by omega)]
    · rw [if_neg hin, if_neg (by omega)]

theorem store_cleared (n : ℕ) :
    Words.store 4 (cleared S mem n) (S.fbss + n) 0 = cleared S mem (n + 4) := by
  funext j
  rw [Words.store, cleared, cleared]
  by_cases hj : S.fbss + n ≤ j ∧ j < S.fbss + n + 4
  · have hzero : Words.byteAt 0 (j - (S.fbss + n)) = 0 := BitVec.extractLsb'_zero
    rw [if_pos hj, hzero, if_pos (by omega)]
  · rw [if_neg hj]
    by_cases hin : S.fbss ≤ j ∧ j < S.fbss + n
    · rw [if_pos hin, if_pos (by omega)]
    · rw [if_neg hin, if_neg (by omega)]

theorem copied_zero : copied S mem 0 = mem := by
  funext j
  rw [copied, if_neg (by omega)]

theorem cleared_zero : cleared S mem 0 = copied S mem (align4 S.data) := by
  funext j
  rw [cleared, if_neg (by omega)]

/-- One round of the copy loop: `beq`, `lw`, `sw`, the two `addi` and the jump back. -/
theorem copy_round (k : ℕ) :
    Leads bus addr (crt0 S addr) (Copying S addr mem (k+1)) (Copying S addr mem k) := by
  intro m h
  have hfdata := fdata_eq
  have hedata := edata_eq S
  have hrom := fdataRom_le S
  have hram : align4 S.data + align4 S.bss ≤ 0x4000 := S.ram_fits
  have hle := h.le
  obtain ⟨w, hw⟩ := exists_words S.data
  obtain ⟨v, hv⟩ := four_dvd_fdataRom S
  set n := align4 S.data - 4*(k+1) with hn
  have hn4 : align4 S.data - 4*k = n + 4 := by omega
  have hsrc : (m.get a0 + 0).toNat = S.fdataRom + n := toNat_base h.a0 (by omega)
  have hdst : (m.get a1 + 0).toNat = fdata + n := toNat_base h.a1 (by omega)
  have hne : m.get a1 ≠ m.get a2 := by
    intro heq
    rw [h.a1, h.a2] at heq
    have := congrArg BitVec.toNat heq
    rw [BitVec.toNat_ofNat, BitVec.toNat_ofNat] at this
    omega
  have hpc := h.pc
  have s₁ : step bus addr (crt0 S addr) m = some m.next := by
    refine step_beq_ne (by rw [hpc]; rfl) hne
  set m₁ := m.next with hm₁
  have s₂ : step bus addr (crt0 S addr) m₁ = some _ :=
    step_lw (by simp [hm₁, hpc]; rfl) (by simpa [hm₁] using hsrc) (by omega) (reads_rom (by omega))
  set m₂ := (m₁.set t0 (Words.load 4 m₁.mem (S.fdataRom + n))).next with hm₂
  have s₃ : step bus addr (crt0 S addr) m₂ = some _ :=
    step_sw (by simp [hm₂, hm₁, hpc]; rfl) (by simpa [hm₂, hm₁, a1, t0] using hdst) (by omega)
      (writes_ram (by omega))
  set m₃ := (m₂.write (fdata + n) (m₂.get t0)).next with hm₃
  have s₄ : step bus addr (crt0 S addr) m₃ = some _ :=
    step_addi (by simp [hm₃, hm₂, hm₁, hpc]; rfl)
  set m₄ := (m₃.set a0 (m₃.get a0 + 4)).next with hm₄
  have s₅ : step bus addr (crt0 S addr) m₄ = some _ :=
    step_addi (by simp [hm₄, hm₃, hm₂, hm₁, hpc]; rfl)
  set m₅ := (m₄.set a1 (m₄.get a1 + 4)).next with hm₅
  have s₆ : step bus addr (crt0 S addr) m₅ = some _ :=
    step_j (by simp [hm₅, hm₄, hm₃, hm₂, hm₁, hpc]; rfl)
  refine ⟨_, .head s₁ (.head s₂ (.head s₃ (.head s₄ (.head s₅ (.single s₆))))), ⟨?_, ?_, ?_⟩,
    rfl, by omega, ?_, ?_, ?_, ?_⟩
  · simpa [hm₅, hm₄, hm₃, hm₂, hm₁, sp, a0, a1, t0] using h.sp
  · simpa [hm₅, hm₄, hm₃, hm₂, hm₁] using h.mie
  · simpa [hm₅, hm₄, hm₃, hm₂, hm₁] using h.mtvec
  · have hget : (m₅.goto 7).get a0 = m.get a0 + 4 := by simp [hm₅, hm₄, hm₃, hm₂, hm₁, a0, a1, t0]
    rw [hget, h.a0, ofNat_add_four, hn4, Nat.add_assoc]
  · have hget : (m₅.goto 7).get a1 = m.get a1 + 4 := by simp [hm₅, hm₄, hm₃, hm₂, hm₁, a0, a1, t0]
    rw [hget, h.a1, ofNat_add_four, hn4, Nat.add_assoc]
  · simpa [hm₅, hm₄, hm₃, hm₂, hm₁, a0, a1, a2, t0] using h.a2
  · have hmem : (m₅.goto 7).mem = Words.store 4 m.mem (fdata + n)
        (Words.load 4 m.mem (S.fdataRom + n)) := by simp [hm₅, hm₄, hm₃, hm₂, hm₁, t0]
    rw [hmem, h.mem, ← hn, store_copied (by omega), hn4]

/-- One round of the loop that clears `.bss`. -/
theorem clear_round (k : ℕ) :
    Leads bus addr (crt0 S addr) (Clearing S addr mem (k+1)) (Clearing S addr mem k) := by
  intro m h
  have hfbss := fbss_eq S
  have hebss := ebss_eq S
  have hram : align4 S.data + align4 S.bss ≤ 0x4000 := S.ram_fits
  have hle := h.le
  obtain ⟨w, hw⟩ := exists_words S.data
  obtain ⟨v, hv⟩ := exists_words S.bss
  set n := align4 S.bss - 4*(k+1) with hn
  have hn4 : align4 S.bss - 4*k = n + 4 := by omega
  have hdst : (m.get a0 + 0).toNat = S.fbss + n := toNat_base h.a0 (by omega)
  have hne : m.get a0 ≠ m.get a1 := by
    intro heq
    rw [h.a0, h.a1] at heq
    have := congrArg BitVec.toNat heq
    rw [BitVec.toNat_ofNat, BitVec.toNat_ofNat] at this
    omega
  have hpc := h.pc
  have s₁ : step bus addr (crt0 S addr) m = some m.next := step_beq_ne (by rw [hpc]; rfl) hne
  set m₁ := m.next with hm₁
  have s₂ : step bus addr (crt0 S addr) m₁ = some _ :=
    step_sw (by simp [hm₁, hpc]; rfl) (by simpa [hm₁] using hdst) (by omega)
      (writes_ram (by omega))
  set m₂ := (m₁.write (S.fbss + n) (m₁.get 0)).next with hm₂
  have s₃ : step bus addr (crt0 S addr) m₂ = some _ := step_addi (by simp [hm₂, hm₁, hpc]; rfl)
  set m₃ := (m₂.set a0 (m₂.get a0 + 4)).next with hm₃
  have s₄ : step bus addr (crt0 S addr) m₃ = some _ := step_j (by simp [hm₃, hm₂, hm₁, hpc]; rfl)
  refine ⟨_, .head s₁ (.head s₂ (.head s₃ (.single s₄))), ⟨?_, ?_, ?_⟩, rfl, by omega, ?_, ?_, ?_⟩
  · simpa [hm₃, hm₂, hm₁, sp, a0] using h.sp
  · simpa [hm₃, hm₂, hm₁] using h.mie
  · simpa [hm₃, hm₂, hm₁] using h.mtvec
  · have hget : (m₃.goto 15).get a0 = m.get a0 + 4 := by simp [hm₃, hm₂, hm₁, a0]
    rw [hget, h.a0, ofNat_add_four, hn4, Nat.add_assoc]
  · simpa [hm₃, hm₂, hm₁, a0, a1] using h.a1
  · have hmem : (m₃.goto 15).mem = Words.store 4 m.mem (S.fbss + n) 0 := by simp [hm₃, hm₂, hm₁]
    rw [hmem, h.mem, ← hn, store_cleared, hn4]

/-- From reset to the head of the copy loop. -/
theorem reset_copying : Leads bus addr (crt0 S addr) (fun m => m.pc = 0 ∧ m.mem = mem)
    (Copying S addr mem (align4 S.data / 4)) := by
  rintro m ⟨hpc, hmem⟩
  obtain ⟨w, hw⟩ := exists_words S.data
  have s₁ : step bus addr (crt0 S addr) m = some _ := step_csrw (by rw [hpc]; rfl)
  set m₁ := (m.setCsr mie (m.get 0)).next with hm₁
  have s₂ : step bus addr (crt0 S addr) m₁ = some _ := step_la (by simp [hm₁, hpc]; rfl)
  set m₂ := (m₁.set t0 (addr trapHandler)).next with hm₂
  have s₃ : step bus addr (crt0 S addr) m₂ = some _ := step_csrw (by simp [hm₂, hm₁, hpc]; rfl)
  set m₃ := (m₂.setCsr mtvec (m₂.get t0)).next with hm₃
  have s₄ : step bus addr (crt0 S addr) m₃ = some _ :=
    step_la (by simp [hm₃, hm₂, hm₁, hpc]; rfl)
  set m₄ := (m₃.set sp 0x10004000).next with hm₄
  have s₅ : step bus addr (crt0 S addr) m₄ = some _ :=
    step_la (by simp [hm₄, hm₃, hm₂, hm₁, hpc]; rfl)
  set m₅ := (m₄.set a0 (BitVec.ofNat 32 S.fdataRom)).next with hm₅
  have s₆ : step bus addr (crt0 S addr) m₅ = some _ :=
    step_la (by simp [hm₅, hm₄, hm₃, hm₂, hm₁, hpc]; rfl)
  set m₆ := (m₅.set a1 (BitVec.ofNat 32 fdata)).next with hm₆
  have s₇ : step bus addr (crt0 S addr) m₆ = some _ :=
    step_la (by simp [hm₆, hm₅, hm₄, hm₃, hm₂, hm₁, hpc]; rfl)
  refine ⟨_, .head s₁ (.head s₂ (.head s₃ (.head s₄ (.head s₅ (.head s₆ (.single s₇)))))),
    ⟨?_, ?_, ?_⟩, ?_, by omega, ?_, ?_, ?_, ?_⟩
  · simp [hm₆, hm₅, hm₄, sp, a0, a1, a2]
  · simp [hm₆, hm₅, hm₄, hm₃, hm₂, hm₁, mie, mtvec]
  · simp [hm₆, hm₅, hm₄, hm₃, hm₂, mtvec, t0]
  · simp [hm₆, hm₅, hm₄, hm₃, hm₂, hm₁, hpc]
  · have hstart : align4 S.data - 4 * (align4 S.data / 4) = 0 := by omega
    simp [hm₆, hm₅, a0, a1, a2, hstart]
  · have hstart : align4 S.data - 4 * (align4 S.data / 4) = 0 := by omega
    simp [hm₆, a1, a2, hstart]
  · simp [a2]
  · have hstart : align4 S.data - 4 * (align4 S.data / 4) = 0 := by omega
    simp [hm₆, hm₅, hm₄, hm₃, hm₂, hm₁, hmem, hstart, copied_zero]

/-- From the end of the copy loop to the head of the loop that clears `.bss`. -/
theorem copying_clearing : Leads bus addr (crt0 S addr) (Copying S addr mem 0)
    (Clearing S addr mem (align4 S.bss / 4)) := by
  intro m h
  obtain ⟨w, hw⟩ := exists_words S.bss
  have hstart : align4 S.bss - 4 * (align4 S.bss / 4) = 0 := by omega
  have hend : m.get a1 = m.get a2 := by
    rw [h.a1, h.a2, edata_eq, fdata_eq, Nat.mul_zero, Nat.sub_zero]
  have hpc := h.pc
  have s₁ : step bus addr (crt0 S addr) m = some (m.goto 13) :=
    step_beq_eq (by rw [hpc]; rfl) hend
  have s₂ : step bus addr (crt0 S addr) (m.goto 13) = some _ := step_la rfl
  set m₂ := ((m.goto 13).set a0 (BitVec.ofNat 32 S.fbss)).next with hm₂
  have s₃ : step bus addr (crt0 S addr) m₂ = some _ := step_la rfl
  refine ⟨_, .head s₁ (.head s₂ (.single s₃)), ⟨?_, ?_, ?_⟩, rfl, by omega, ?_, ?_, ?_⟩
  · simpa [hm₂, sp, a0, a1] using h.sp
  · simpa [hm₂] using h.mie
  · simpa [hm₂] using h.mtvec
  · simp [hm₂, a0, a1, hstart]
  · simp [a1]
  · simp [hm₂, h.mem, hstart, cleared_zero]

/-- From the end of the second loop into `main`. -/
theorem clearing_main : Leads bus addr (crt0 S addr) (Clearing S addr mem 0) fun m =>
    m.pc = mainEntry ∧ Ready addr m ∧ m.mem = cleared S mem (align4 S.bss) := by
  intro m h
  have hend : m.get a0 = m.get a1 := by
    rw [h.a0, h.a1, ebss_eq, fbss_eq, Nat.mul_zero, Nat.sub_zero]
  have hpc := h.pc
  have s₁ : step bus addr (crt0 S addr) m = some (m.goto 19) :=
    step_beq_eq (by rw [hpc]; rfl) hend
  have s₂ : step bus addr (crt0 S addr) (m.goto 19) = some _ := step_call rfl
  refine ⟨_, .head s₁ (.single s₂), rfl, ⟨?_, ?_, ?_⟩, ?_⟩
  · simpa [sp] using h.sp
  · simpa using h.mie
  · simpa using h.mtvec
  · simpa using h.mem

variable (S addr)

theorem reset_main : Leads bus addr (crt0 S addr) (fun m => m.pc = 0 ∧ m.mem = mem) fun m =>
    m.pc = mainEntry ∧ Ready addr m ∧ m.mem = cleared S mem (align4 S.bss) :=
  reset_copying.trans <| (Leads.loop copy_round _).trans <| copying_clearing.trans <|
    (Leads.loop clear_round _).trans clearing_main

/-- Whatever the machine holds at reset, `crt0.S` reaches `main` without a bus error. There the
stack is empty at the top of RAM, above all of `.bss`, every byte of `.data` has its value from
ROM, every byte of `.bss` is zero, and no other byte of memory has changed. -/
theorem startup (m : Machine) :
    ∃ m', Steps bus addr (crt0 S addr) (m.goto 0) m' ∧ m'.pc = mainEntry ∧ m'.csr mie = 0 ∧
      m'.csr mtvec = addr trapHandler ∧ (m'.get sp).toNat = ramOrigin + ramSize ∧
      S.ebss ≤ (m'.get sp).toNat ∧
      (∀ i < S.data, m'.mem (fdata + i) = m.mem (S.fdataRom + i)) ∧
      (∀ i < S.bss, m'.mem (S.fbss + i) = 0) ∧
      ∀ a, a < fdata ∨ S.ebss ≤ a → m'.mem a = m.mem a := by
  obtain ⟨m', hsteps, hpc, hready, hmem⟩ := reset_main S addr (m.goto 0) ⟨rfl, rfl⟩
  have hfdata := fdata_eq
  have hfbss := fbss_eq S
  have hebss := ebss_eq S
  have hdata := le_align4 S.data
  have hbss := le_align4 S.bss
  have hram : align4 S.data + align4 S.bss ≤ 0x4000 := S.ram_fits
  have hsp : (m'.get sp).toNat = 0x10004000 := by rw [hready.sp]; rfl
  refine ⟨m', hsteps, hpc, hready.mie, hready.mtvec, hsp, by omega, ?_, ?_, ?_⟩
  · intro i hi
    rw [hmem, cleared, if_neg (by omega), copied, if_pos (by omega), Nat.add_sub_cancel_left,
      Machine.mem_goto]
  · intro i hi
    rw [hmem, cleared, if_pos (by omega)]
  · intro a ha
    rw [hmem, cleared, if_neg (by omega), copied, if_neg (by omega), Machine.mem_goto]

end Run

end EthernetSoc.Startup
