import EthernetSoc.Lib.SlotRing
import EthernetSoc.Pbuf

/-!
# Sending frames through the slots of the MAC

`low_level_output` copies a chain into the slot `txslot` of the MAC's memory and
queues a command for the DMA reader, which sends queued frames in order and
reads the bytes of a queued slot whenever it likes until it is done with it.
The copy is modelled byte by byte, and reads and completions of the reader come
between any two bytes. The reader is ready when it has room for one more command
than it holds, and there are as many slots as it has room for.

What makes it safe is that the queued slots are always the last ones taken, so
that a reader that is ready has no command for the slot to be taken next.
-/

namespace EthernetSoc.EthernetIf

structure Geometry where
  slotSize : ℕ
  rxSlots : ℕ
  txSlots : ℕ
  txSlots_pos : 0 < txSlots

namespace Geometry

def txBuf (g : Geometry) (slot : ℕ) : ℕ := g.slotSize * (g.rxSlots + slot)

def InSlot (g : Geometry) (slot a : ℕ) : Prop := g.txBuf slot ≤ a ∧ a < g.txBuf slot + g.slotSize

theorem slot_unique (g : Geometry) {i j a : ℕ} (hi : g.InSlot i a) (hj : g.InSlot j a) : i = j := by
  obtain ⟨hi₁, hi₂⟩ := hi
  obtain ⟨hj₁, hj₂⟩ := hj
  have hpos : 0 < g.slotSize := by omega
  have hdiv : ∀ k, g.txBuf k ≤ a → a < g.txBuf k + g.slotSize → a / g.slotSize = g.rxSlots + k := by
    intro k h₁ h₂
    rw [Nat.div_eq_iff hpos]
    rw [txBuf, Nat.mul_comm] at h₁ h₂
    exact ⟨h₁, by omega⟩
  have hki := hdiv i hi₁ hi₂
  have hkj := hdiv j hj₁ hj₂
  omega

end Geometry

inductive Err
  | ok
  | buf
  deriving DecidableEq

/-- A queued command, with the bytes of its slot that the reader has fetched. -/
structure Command where
  slot : ℕ
  length : ℕ
  fetched : ℕ → Option Byte

def Command.done (c : Command) : Bool := (List.range c.length).all fun j => (c.fetched j).isSome

def Command.frame (c : Command) : List Byte :=
  (List.range c.length).map fun j => (c.fetched j).getD 0

def Command.fetch (c : Command) (j : ℕ) (b : Byte) : Command :=
  { c with fetched := Function.update c.fetched j (some b) }

theorem Command.fetched_fetch (c : Command) (j : ℕ) (b : Byte) :
    (c.fetch j b).fetched = Function.update c.fetched j (some b) := rfl

/-- Where the processor is: outside the function, in the loop that waits for the
reader, or copying, with `src` left of the current segment and `rest` after it. -/
inductive Cpu
  | idle
  | waiting (p : List Pbuf)
  | copying (p : List Pbuf) (len : ℕ) (src : List Byte) (rest : List Pbuf)

structure State where
  txslot : ℕ
  mem : ℕ → Byte
  cpu : Cpu
  fifo : List Command
  wire : List (List Byte)
  returned : List (List Pbuf × Err)

def ethernetifInit (mem : ℕ → Byte) : State := ⟨0, mem, .idle, [], [], []⟩

section Step
variable (g : Geometry)

def readerReady (s : State) : Bool := decide (s.fifo.length < g.txSlots)

def State.ret (s : State) (p : List Pbuf) (e : Err) : State :=
  { s with cpu := .idle, returned := s.returned ++ [(p, e)] }

def State.putByte (s : State) (len : ℕ) (b : Byte) : State :=
  { s with mem := Function.update s.mem (g.txBuf s.txslot + len) b }

def State.readerStart (s : State) (len : ℕ) : State :=
  { s with
    fifo := s.fifo ++ [⟨s.txslot, len, fun _ => none⟩]
    txslot := (s.txslot + 1) % g.txSlots }

def lowLevelOutput (s : State) : State :=
  match s.cpu with
  | .idle => s
  | .waiting p => if readerReady g s then { s with cpu := .copying p 0 [] p } else s
  | .copying p len (b :: src) rest => { s.putByte g len b with cpu := .copying p (len+1) src rest }
  | .copying p len [] (q :: rest) =>
    if len + q.len > g.slotSize then s.ret p .buf
    else { s with cpu := .copying p len q.payload rest }
  | .copying p len [] [] => (s.readerStart g len).ret p .ok

inductive Act
  | call (p : List Pbuf)
  | cpu
  | read (k j : ℕ)
  | complete

def step (s : State) : Act → Option State
  | .call p =>
    match s.cpu with
    | .idle => some { s with cpu := .waiting p }
    | _ => none
  | .cpu => some (lowLevelOutput g s)
  | .read k j =>
    match s.fifo[k]? with
    | none => none
    | some c =>
      if j < c.length then
        some { s with fifo := s.fifo.set k (c.fetch j (s.mem (g.txBuf c.slot + j))) }
      else none
  | .complete =>
    match s.fifo with
    | [] => none
    | c :: rest =>
      if c.done then some { s with fifo := rest, wire := s.wire ++ [c.frame] } else none

def run (s : State) : List Act → Option State
  | [] => some s
  | a :: as =>
    match step g s a with
    | none => none
    | some s => run s as

end Step

/-! ## The invariant -/

def okFrames (returned : List (List Pbuf × Err)) : List (List Byte) :=
  returned.filterMap fun r => if r.2 = .ok then some (Pbuf.bytes r.1) else none

section Inv
variable (g : Geometry)

def slotBytes (mem : ℕ → Byte) (slot len : ℕ) : List Byte :=
  (List.range len).map fun j => mem (g.txBuf slot + j)

def queued (mem : ℕ → Byte) (c : Command) : List Byte := slotBytes g mem c.slot c.length

/-- A copy goes into a ring with room for its command, has fitted so far, and
what it has written is the part of the chain before the rest. -/
def CpuInv (s : State) : Prop :=
  match s.cpu with
  | .copying p len src rest =>
    s.fifo.length < g.txSlots ∧ len + src.length ≤ g.slotSize ∧
      Pbuf.bytes p = slotBytes g s.mem s.txslot len ++ src ++ Pbuf.bytes rest
  | _ => True

structure Inv (s : State) : Prop where
  room : s.fifo.length ≤ g.txSlots
  ring : ∃ n, s.txslot = n % g.txSlots ∧ s.fifo.length ≤ n ∧
    s.fifo.map Command.slot = SlotRing.recent g.txSlots n s.fifo.length
  cpu : CpuInv g s
  fits : ∀ c ∈ s.fifo, c.length ≤ g.slotSize
  fetched : ∀ c ∈ s.fifo, ∀ j < c.length, ∀ b, c.fetched j = some b →
    b = s.mem (g.txBuf c.slot + j)
  order : s.wire ++ s.fifo.map (queued g s.mem) = okFrames s.returned
  results : ∀ r ∈ s.returned, r.2 = .buf ↔ g.slotSize < (Pbuf.bytes r.1).length

theorem inv_init (mem : ℕ → Byte) : Inv g (ethernetifInit mem) :=
  ⟨Nat.zero_le _, ⟨0, (Nat.zero_mod _).symm, le_rfl, rfl⟩, trivial, by simp [ethernetifInit],
    by simp [ethernetifInit], rfl, by simp [ethernetifInit]⟩

variable {g}

theorem Inv.slot_ne {s : State} (h : Inv g s) (hroom : s.fifo.length < g.txSlots) {c : Command}
    (hc : c ∈ s.fifo) : c.slot ≠ s.txslot := by
  obtain ⟨n, htx, hle, hslots⟩ := h.ring
  intro heq
  apply SlotRing.next_not_mem hroom hle
  rw [← htx, ← heq, ← hslots]
  exact List.mem_map_of_mem hc

theorem mem_putByte_of_ne {s : State} {slot len : ℕ} (hslot : slot ≠ s.txslot)
    (hlen : len < g.slotSize) (b : Byte) {a : ℕ} (ha : g.InSlot slot a) :
    (s.putByte g len b).mem a = s.mem a := by
  have hne : a ≠ g.txBuf s.txslot + len := by
    intro h
    exact hslot (g.slot_unique ha (by rw [h]; exact ⟨by omega, by omega⟩))
  exact Function.update_of_ne hne _ _

theorem Inv.call {s : State} (h : Inv g s) (p : List Pbuf) :
    Inv g { s with cpu := .waiting p } :=
  ⟨h.room, h.ring, trivial, h.fits, h.fetched, h.order, h.results⟩

theorem Inv.beginCopy {s : State} (h : Inv g s) (hroom : s.fifo.length < g.txSlots)
    (p : List Pbuf) : Inv g { s with cpu := .copying p 0 [] p } :=
  ⟨h.room, h.ring, ⟨hroom, Nat.zero_le _, rfl⟩, h.fits, h.fetched, h.order, h.results⟩

theorem Inv.nextSegment {s : State} (h : Inv g s) {p rest : List Pbuf} {len : ℕ} {q : Pbuf}
    (hcpu : s.cpu = .copying p len [] (q :: rest)) (hfit : len + q.len ≤ g.slotSize) :
    Inv g { s with cpu := .copying p len q.payload rest } := by
  have hc := h.cpu
  simp only [CpuInv, hcpu] at hc
  obtain ⟨hroom, _, hbytes⟩ := hc
  refine ⟨h.room, h.ring, ⟨hroom, hfit, ?_⟩, h.fits, h.fetched, h.order, h.results⟩
  rw [hbytes, Pbuf.bytes_cons, List.append_nil, List.append_assoc]

theorem slotBytes_putByte (s : State) (len : ℕ) (b : Byte) :
    slotBytes g (s.putByte g len b).mem s.txslot (len+1) =
      slotBytes g s.mem s.txslot len ++ [b] := by
  rw [slotBytes, List.range_succ, List.map_append]
  congr 1
  · apply List.map_congr_left
    intro j hj
    have hlt := List.mem_range.mp hj
    exact Function.update_of_ne (by omega) _ _
  · simp [State.putByte]

theorem Inv.putByte {s : State} (h : Inv g s) {p rest : List Pbuf} {len : ℕ} {b : Byte}
    {src : List Byte} (hcpu : s.cpu = .copying p len (b :: src) rest) :
    Inv g { s.putByte g len b with cpu := .copying p (len+1) src rest } := by
  have hc := h.cpu
  simp only [CpuInv, hcpu, List.length_cons] at hc
  obtain ⟨hroom, hlen, hbytes⟩ := hc
  -- the written address is in no queued slot
  have hkeep : ∀ c ∈ s.fifo, ∀ j < c.length,
      (s.putByte g len b).mem (g.txBuf c.slot + j) = s.mem (g.txBuf c.slot + j) := by
    intro c hc j hj
    have hfit := h.fits c hc
    exact mem_putByte_of_ne (h.slot_ne hroom hc) (by omega) b ⟨by omega, by omega⟩
  have hqueued : ∀ c ∈ s.fifo, queued g (s.putByte g len b).mem c = queued g s.mem c := by
    intro c hc
    apply List.map_congr_left
    intro j hj
    exact hkeep c hc j (List.mem_range.mp hj)
  refine ⟨h.room, h.ring, ⟨hroom, by omega, ?_⟩, h.fits, ?_, ?_, h.results⟩
  · change Pbuf.bytes p = slotBytes g (s.putByte g len b).mem s.txslot (len+1) ++ src ++ _
    rw [hbytes, slotBytes_putByte]
    simp
  · intro c hc j hj v hv
    rw [h.fetched c hc j hj v hv]
    exact (hkeep c hc j hj).symm
  · change s.wire ++ s.fifo.map (queued g (s.putByte g len b).mem) = okFrames s.returned
    rw [List.map_congr_left hqueued]
    exact h.order

theorem Inv.giveUp {s : State} (h : Inv g s) {p rest : List Pbuf} {len : ℕ} {q : Pbuf}
    (hcpu : s.cpu = .copying p len [] (q :: rest)) (hfit : g.slotSize < len + q.len) :
    Inv g (s.ret p .buf) := by
  have hc := h.cpu
  simp only [CpuInv, hcpu] at hc
  obtain ⟨_, _, hbytes⟩ := hc
  refine ⟨h.room, h.ring, trivial, h.fits, h.fetched, ?_, ?_⟩
  · change s.wire ++ s.fifo.map (queued g s.mem) = okFrames (s.returned ++ [(p, .buf)])
    rw [h.order, okFrames, okFrames, List.filterMap_append]
    simp
  · intro r hr
    rcases List.mem_append.mp hr with hold | hnew
    · exact h.results r hold
    · obtain rfl : r = (p, .buf) := by simpa using hnew
      have hlen : q.len = q.payload.length := rfl
      simp only [true_iff, hbytes, List.length_append, Pbuf.bytes_cons, slotBytes, List.length_map,
        List.length_range]
      omega

theorem Inv.start {s : State} (h : Inv g s) {p : List Pbuf} {len : ℕ}
    (hcpu : s.cpu = .copying p len [] []) : Inv g ((s.readerStart g len).ret p .ok) := by
  have hc := h.cpu
  simp only [CpuInv, hcpu, List.length_nil, Nat.add_zero] at hc
  obtain ⟨hroom, hlen, hbytes⟩ := hc
  rw [List.append_nil, Pbuf.bytes_nil, List.append_nil] at hbytes
  obtain ⟨n, htx, hle, hslots⟩ := h.ring
  refine ⟨?_, ⟨n+1, ?_, ?_, ?_⟩, trivial, ?_, ?_, ?_, ?_⟩
  · simpa [State.readerStart, State.ret] using hroom
  · simp only [State.readerStart, State.ret, htx, Nat.mod_add_mod]
  · simpa [State.readerStart, State.ret] using hle
  · simp only [State.readerStart, State.ret, List.map_append, List.length_append,
      List.length_singleton, hslots, htx, SlotRing.recent_push hle, List.map_cons, List.map_nil]
  · intro c hc
    rcases List.mem_append.mp hc with hold | hnew
    · exact h.fits c hold
    · obtain rfl := List.mem_singleton.mp hnew
      exact hlen
  · intro c hc j hj b hb
    rcases List.mem_append.mp hc with hold | hnew
    · exact h.fetched c hold j hj b hb
    · obtain rfl := List.mem_singleton.mp hnew
      cases hb
  · change s.wire ++ (s.fifo ++ [(⟨s.txslot, len, fun _ => none⟩ : Command)]).map (queued g s.mem) =
      okFrames (s.returned ++ [(p, .ok)])
    rw [List.map_append, ← List.append_assoc, h.order, okFrames, okFrames, List.filterMap_append]
    simp [queued, hbytes]
  · intro r hr
    rcases List.mem_append.mp hr with hold | hnew
    · exact h.results r hold
    · obtain rfl : r = (p, .ok) := by simpa using hnew
      simpa [hbytes, slotBytes] using hlen

theorem lowLevelOutput_inv {s : State} (h : Inv g s) : Inv g (lowLevelOutput g s) := by
  cases hcpu : s.cpu with
  | idle => simpa only [lowLevelOutput, hcpu] using h
  | waiting p =>
    simp only [lowLevelOutput, hcpu, readerReady, decide_eq_true_eq]
    split_ifs with hroom
    · exact h.beginCopy hroom p
    · exact h
  | copying p len src rest =>
    match src, rest with
    | b :: src, rest => simpa only [lowLevelOutput, hcpu] using h.putByte hcpu
    | [], q :: rest =>
      simp only [lowLevelOutput, hcpu]
      split_ifs with hfit
      · exact h.giveUp hcpu hfit
      · exact h.nextSegment hcpu (by omega)
    | [], [] => simpa only [lowLevelOutput, hcpu] using h.start hcpu

theorem map_set_of_eq {α β : Type*} {l : List α} {k : ℕ} {a b : α} {f : α → β}
    (hk : l[k]? = some a) (hf : f b = f a) : (l.set k b).map f = l.map f := by
  have hka : (l.map f)[k]? = some (f a) := by simp [hk]
  obtain ⟨hlt, hget⟩ := List.getElem?_eq_some_iff.mp hka
  rw [List.map_set, hf, ← hget, List.set_getElem_self]

theorem CpuInv.shrink {s : State} (h : CpuInv g s) {fifo : List Command}
    (hlen : fifo.length ≤ s.fifo.length) (wire : List (List Byte)) :
    CpuInv g { s with fifo := fifo, wire := wire } := by
  cases hcpu : s.cpu with
  | idle => simp only [CpuInv]
  | waiting p => simp only [CpuInv]
  | copying p len src rest =>
    simp only [CpuInv, hcpu] at h ⊢
    exact ⟨hlen.trans_lt h.1, h.2⟩

theorem Inv.read {s : State} (h : Inv g s) {k j : ℕ} {c : Command} (hk : s.fifo[k]? = some c) :
    Inv g { s with fifo := s.fifo.set k (c.fetch j (s.mem (g.txBuf c.slot + j))) } := by
  have hc : c ∈ s.fifo := List.mem_of_getElem? hk
  have hlen : (s.fifo.set k (c.fetch j (s.mem (g.txBuf c.slot + j)))).length = s.fifo.length :=
    List.length_set
  refine ⟨hlen.trans_le h.room, ?_, ?_, ?_, ?_, ?_, h.results⟩
  · obtain ⟨n, htx, hle, hslots⟩ := h.ring
    refine ⟨n, htx, hlen.trans_le hle, ?_⟩
    rw [hlen, ← hslots]
    exact map_set_of_eq hk rfl
  · exact h.cpu.shrink hlen.le s.wire
  · intro d hd
    rcases List.mem_or_eq_of_mem_set hd with hold | rfl
    · exact h.fits d hold
    · exact h.fits c hc
  · intro d hd i hi b hb
    rcases List.mem_or_eq_of_mem_set hd with hold | rfl
    · exact h.fetched d hold i hi b hb
    · by_cases hij : i = j
      · subst hij
        rw [Command.fetched_fetch, Function.update_self] at hb
        exact (Option.some.inj hb).symm
      · rw [Command.fetched_fetch, Function.update_of_ne hij] at hb
        exact h.fetched c hc i hi b hb
  · have hsame : (s.fifo.set k (c.fetch j (s.mem (g.txBuf c.slot + j)))).map (queued g s.mem) =
        s.fifo.map (queued g s.mem) := map_set_of_eq hk rfl
    change s.wire ++ (s.fifo.set k _).map (queued g s.mem) = okFrames s.returned
    rw [hsame, h.order]

theorem frame_eq_queued {s : State} (h : Inv g s) {c : Command} (hc : c ∈ s.fifo)
    (hdone : c.done = true) : c.frame = queued g s.mem c := by
  apply List.map_congr_left
  intro j hj
  obtain ⟨b, hb⟩ := Option.isSome_iff_exists.mp (List.all_eq_true.mp hdone j hj)
  rw [hb, Option.getD_some]
  exact h.fetched c hc j (List.mem_range.mp hj) b hb

theorem Inv.complete {s : State} (h : Inv g s) {c : Command} {rest : List Command}
    (hfifo : s.fifo = c :: rest) (hdone : c.done = true) :
    Inv g { s with fifo := rest, wire := s.wire ++ [c.frame] } := by
  have hlen : s.fifo.length = rest.length + 1 := by rw [hfifo, List.length_cons]
  have hroom := h.room
  have hmem : ∀ d ∈ rest, d ∈ s.fifo := fun d hd => by rw [hfifo]; exact List.mem_cons_of_mem c hd
  refine ⟨by change rest.length ≤ _; omega, ?_, ?_, fun d hd => h.fits d (hmem d hd),
    fun d hd => h.fetched d (hmem d hd), ?_, h.results⟩
  · obtain ⟨n, htx, hle, hslots⟩ := h.ring
    refine ⟨n, htx, by change rest.length ≤ n; omega, ?_⟩
    rw [hlen, SlotRing.recent_pop (by omega), hfifo, List.map_cons] at hslots
    exact (List.cons_eq_cons.mp hslots).2
  · exact h.cpu.shrink (by omega) _
  · change s.wire ++ [c.frame] ++ rest.map (queued g s.mem) = okFrames s.returned
    rw [frame_eq_queued h (by rw [hfifo]; exact List.mem_cons_self) hdone, ← h.order, hfifo]
    simp

theorem step_cases {s s' : State} {a : Act} (hs : step g s a = some s') :
    (∃ p, a = .call p ∧ s' = { s with cpu := .waiting p }) ∨ s' = lowLevelOutput g s ∨
    (∃ k j c, s.fifo[k]? = some c ∧
      s' = { s with fifo := s.fifo.set k (c.fetch j (s.mem (g.txBuf c.slot + j))) }) ∨
    ∃ c rest, s.fifo = c :: rest ∧ c.done = true ∧
      s' = { s with fifo := rest, wire := s.wire ++ [c.frame] } := by
  cases a with
  | call p =>
    simp only [step] at hs
    split at hs
    · exact Or.inl ⟨p, rfl, (Option.some.inj hs).symm⟩
    · cases hs
  | cpu => exact Or.inr (Or.inl (Option.some.inj hs).symm)
  | read k j =>
    simp only [step] at hs
    split at hs
    · cases hs
    · next c hk =>
      split_ifs at hs
      exact Or.inr (Or.inr (Or.inl ⟨k, j, c, hk, (Option.some.inj hs).symm⟩))
  | complete =>
    simp only [step] at hs
    split at hs
    · cases hs
    · next c rest hfifo =>
      split_ifs at hs with hdone
      exact Or.inr (Or.inr (Or.inr ⟨c, rest, hfifo, hdone, (Option.some.inj hs).symm⟩))

theorem step_inv {s s' : State} {a : Act} (h : Inv g s) (hs : step g s a = some s') : Inv g s' := by
  obtain ⟨p, -, rfl⟩ | rfl | ⟨k, j, c, hk, rfl⟩ | ⟨c, rest, hfifo, hdone, rfl⟩ := step_cases hs
  · exact h.call p
  · exact lowLevelOutput_inv h
  · exact h.read hk
  · exact h.complete hfifo hdone

theorem run_cons_eq_some {s s' : State} {a : Act} {as : List Act} :
    run g s (a :: as) = some s' ↔ ∃ s₁, step g s a = some s₁ ∧ run g s₁ as = some s' := by
  rw [run]
  cases step g s a <;> simp

theorem run_inv {s s' : State} {as : List Act} (h : Inv g s) (hs : run g s as = some s') :
    Inv g s' := by
  induction as generalizing s with
  | nil =>
    obtain rfl := Option.some.inj hs
    exact h
  | cons a as ih =>
    obtain ⟨s₁, hstep, hrest⟩ := run_cons_eq_some.mp hs
    exact ih (step_inv h hstep) hrest

end Inv

/-! ## What a failed call leaves alone -/

def Command.key (c : Command) : ℕ × ℕ := (c.slot, c.length)

/-- No slot has been taken and no command queued, and the slots of the commands
that are still queued hold the same bytes. -/
structure Kept (g : Geometry) (s s' : State) : Prop where
  txslot : s'.txslot = s.txslot
  fifo : ∃ k, s'.fifo.map Command.key = (s.fifo.map Command.key).drop k
  bytes : ∀ c ∈ s'.fifo, ∀ a, g.InSlot c.slot a → s'.mem a = s.mem a

section Kept
variable {g : Geometry}

theorem Kept.refl (s : State) : Kept g s s := ⟨rfl, ⟨0, rfl⟩, fun _ _ _ _ => rfl⟩

theorem Kept.trans {s s₁ s' : State} (h : Kept g s s₁) (h' : Kept g s₁ s') : Kept g s s' := by
  obtain ⟨k, hk⟩ := h.fifo
  obtain ⟨k', hk'⟩ := h'.fifo
  refine ⟨h'.txslot.trans h.txslot, ⟨k + k', by rw [hk', hk, List.drop_drop]⟩, ?_⟩
  intro c hc a ha
  have hkey : c.key ∈ s₁.fifo.map Command.key := by
    apply List.mem_of_mem_drop (i := k')
    rw [← hk']
    exact List.mem_map_of_mem hc
  obtain ⟨d, hd, heq⟩ := List.mem_map.mp hkey
  have hslot : d.slot = c.slot := congrArg Prod.fst heq
  rw [h'.bytes c hc a ha, h.bytes d hd a (by rwa [hslot])]

theorem lowLevelOutput_kept {s : State} (h : Inv g s) :
    ∃ l, (lowLevelOutput g s).returned = s.returned ++ l ∧
      ((∀ r ∈ l, r.2 = Err.buf) → Kept g s (lowLevelOutput g s)) := by
  cases hcpu : s.cpu with
  | idle =>
    simp only [lowLevelOutput, hcpu]
    exact ⟨[], by simp, fun _ => .refl s⟩
  | waiting p =>
    simp only [lowLevelOutput, hcpu]
    split_ifs
    · exact ⟨[], by simp, fun _ => ⟨rfl, ⟨0, rfl⟩, fun _ _ _ _ => rfl⟩⟩
    · exact ⟨[], by simp, fun _ => .refl s⟩
  | copying p len src rest =>
    have hc := h.cpu
    simp only [CpuInv, hcpu] at hc
    match src, rest with
    | b :: src, rest =>
      simp only [lowLevelOutput, hcpu]
      refine ⟨[], by simp [State.putByte], fun _ => ⟨rfl, ⟨0, rfl⟩, ?_⟩⟩
      intro c hc' a ha
      have hlen : len < g.slotSize := by
        have := hc.2.1
        simp only [List.length_cons] at this
        omega
      exact mem_putByte_of_ne (h.slot_ne hc.1 hc') hlen b ha
    | [], q :: rest =>
      simp only [lowLevelOutput, hcpu]
      split_ifs
      · exact ⟨[(p, .buf)], rfl, fun _ => ⟨rfl, ⟨0, rfl⟩, fun _ _ _ _ => rfl⟩⟩
      · exact ⟨[], by simp, fun _ => ⟨rfl, ⟨0, rfl⟩, fun _ _ _ _ => rfl⟩⟩
    | [], [] =>
      simp only [lowLevelOutput, hcpu]
      refine ⟨[(p, .ok)], rfl, fun hbuf => ?_⟩
      exact absurd (hbuf (p, .ok) (by simp)) (by simp)

theorem step_kept {s s' : State} {a : Act} (h : Inv g s) (hs : step g s a = some s') :
    ∃ l, s'.returned = s.returned ++ l ∧ ((∀ r ∈ l, r.2 = Err.buf) → Kept g s s') := by
  obtain ⟨p, -, rfl⟩ | rfl | ⟨k, j, c, hk, rfl⟩ | ⟨c, rest, hfifo, _, rfl⟩ := step_cases hs
  · exact ⟨[], by simp, fun _ => ⟨rfl, ⟨0, rfl⟩, fun _ _ _ _ => rfl⟩⟩
  · exact lowLevelOutput_kept h
  · exact ⟨[], by simp, fun _ => ⟨rfl, ⟨0, map_set_of_eq hk rfl⟩, fun _ _ _ _ => rfl⟩⟩
  · exact ⟨[], by simp, fun _ => ⟨rfl, ⟨1, by simp [hfifo]⟩, fun _ _ _ _ => rfl⟩⟩

theorem run_kept {s s' : State} {as : List Act} (h : Inv g s) (hs : run g s as = some s') :
    ∃ l, s'.returned = s.returned ++ l ∧ ((∀ r ∈ l, r.2 = Err.buf) → Kept g s s') := by
  induction as generalizing s with
  | nil =>
    obtain rfl := Option.some.inj hs
    exact ⟨[], by simp, fun _ => .refl s⟩
  | cons a as ih =>
    obtain ⟨s₁, hstep, hrest⟩ := run_cons_eq_some.mp hs
    obtain ⟨l, hl, hkept⟩ := step_kept h hstep
    obtain ⟨l', hl', hkept'⟩ := ih (step_inv h hstep) hrest
    refine ⟨l ++ l', by rw [hl', hl, List.append_assoc], fun hbuf => ?_⟩
    exact (hkept fun r hr => hbuf r (List.mem_append_left _ hr)).trans
      (hkept' fun r hr => hbuf r (List.mem_append_right _ hr))

end Kept

/-! ## The reader on its own -/

def Act.OfReader : Act → Prop
  | .read _ _ => True
  | .complete => True
  | _ => False

section Drain
variable {g : Geometry}

theorem run_append {s s₁ : State} {as bs : List Act} (h : run g s as = some s₁) :
    run g s (as ++ bs) = run g s₁ bs := by
  induction as generalizing s with
  | nil =>
    obtain rfl := Option.some.inj h
    rfl
  | cons a as ih =>
    obtain ⟨s₂, hstep, hrest⟩ := run_cons_eq_some.mp h
    rw [List.cons_append, run, hstep]
    exact ih hrest

theorem run_fetch {s : State} {c : Command} {rest : List Command} (hfifo : s.fifo = c :: rest)
    {n : ℕ} (hn : n ≤ c.length) :
    ∃ c', run g s ((List.range n).map (.read 0)) = some { s with fifo := c' :: rest } ∧
      c'.length = c.length ∧ ∀ j < n, (c'.fetched j).isSome := by
  induction n with
  | zero => exact ⟨c, by rw [← hfifo]; rfl, rfl, fun j hj => absurd hj (Nat.not_lt_zero j)⟩
  | succ n ih =>
    obtain ⟨c', hrun, hlen, hfetched⟩ := ih (by omega)
    refine ⟨c'.fetch n (s.mem (g.txBuf c'.slot + n)), ?_, hlen, ?_⟩
    · have hlt : n < c'.length := by omega
      rw [List.range_succ, List.map_append, run_append hrun]
      simp [run, step, hlt]
    · intro j hj
      rw [Command.fetched_fetch]
      by_cases hjn : j = n
      · rw [hjn, Function.update_self]
        rfl
      · rw [Function.update_of_ne hjn]
        exact hfetched j (by omega)

theorem queue_drains {s : State} (h : Inv g s) :
    ∃ as s', (∀ a ∈ as, a.OfReader) ∧ run g s as = some s' ∧ s'.fifo = [] ∧
      s'.wire = okFrames s.returned := by
  induction hk : s.fifo generalizing s with
  | nil =>
    refine ⟨[], s, by simp, rfl, hk, ?_⟩
    rw [← h.order, hk, List.map_nil, List.append_nil]
  | cons c rest ih =>
    obtain ⟨c', hrun, hlen, hfetched⟩ := run_fetch (g := g) hk le_rfl
    have hdone : c'.done = true := by
      rw [Command.done, List.all_eq_true]
      intro j hj
      exact hfetched j (by rw [← hlen]; exact List.mem_range.mp hj)
    have hcomplete : run g s ((List.range c.length).map (.read 0) ++ [.complete]) =
        some { s with fifo := rest, wire := s.wire ++ [c'.frame] } := by
      rw [run_append hrun]
      simp [run, step, hdone]
    obtain ⟨as, s', hreader, hrest, hempty, hwire⟩ := ih (run_inv h hcomplete) rfl
    refine ⟨(List.range c.length).map (.read 0) ++ [.complete] ++ as, s', ?_, ?_, hempty, hwire⟩
    · intro a ha
      simp only [List.mem_append, List.mem_map, List.mem_singleton] at ha
      rcases ha with (⟨j, _, rfl⟩ | rfl) | ha
      · trivial
      · trivial
      · exact hreader a ha
    · rw [run_append hcomplete, hrest]

end Drain

/-- In every state reached from `ethernetif_init`: the byte about to be written
goes into the slot `txslot` and into no queued one; what has been sent, followed
by what is queued, is the frames of the calls that returned `ERR_OK` in order,
and the reader can always send the rest; calls returned `ERR_BUF` just for
chains longer than a slot; and over a stretch in which a call returned
`ERR_BUF`, `txslot` and the queued slots are kept, and the queue has only lost
commands that the reader completed. -/
theorem tx_ring_safe (g : Geometry) (mem : ℕ → Byte) {as : List Act} {s : State}
    (hrun : run g (ethernetifInit mem) as = some s) :
    (∀ p len b src rest, s.cpu = .copying p len (b :: src) rest →
      g.InSlot s.txslot (g.txBuf s.txslot + len) ∧
        ∀ c ∈ s.fifo, ¬ g.InSlot c.slot (g.txBuf s.txslot + len)) ∧
    s.wire ++ s.fifo.map (queued g s.mem) = okFrames s.returned ∧
    (∃ as' s', (∀ a ∈ as', a.OfReader) ∧ run g s as' = some s' ∧ s'.fifo = [] ∧
      s'.wire = okFrames s.returned) ∧
    (∀ r ∈ s.returned, r.2 = .buf ↔ g.slotSize < (Pbuf.bytes r.1).length) ∧
    ∀ as' s' p, run g s as' = some s' → s'.returned = s.returned ++ [(p, .buf)] →
      Kept g s s' := by
  have h := run_inv (inv_init g mem) hrun
  refine ⟨?_, h.order, queue_drains h, h.results, ?_⟩
  · intro p len b src rest hcpu
    have hc := h.cpu
    simp only [CpuInv, hcpu, List.length_cons] at hc
    have hin : g.InSlot s.txslot (g.txBuf s.txslot + len) := ⟨by omega, by omega⟩
    exact ⟨hin, fun c hmem hslot => h.slot_ne hc.1 hmem (g.slot_unique hslot hin)⟩
  · intro as' s' p hrun' hret
    obtain ⟨l, hl, hkept⟩ := run_kept h hrun'
    obtain rfl : [(p, Err.buf)] = l := List.append_cancel_left (hret.symm.trans hl)
    exact hkept (by simp)

def twoSlots : Geometry := ⟨4, 2, 2, by norm_num⟩

def shortAndLong : List Act :=
  [.call [⟨[7], by decide⟩], .cpu, .cpu, .cpu, .cpu, .read 0 0, .complete,
    .call [⟨[1, 2, 3, 4, 5], by decide⟩], .cpu, .cpu]

theorem tx_ring_safe_short_and_long :
    ∃ s, run twoSlots (ethernetifInit fun _ => 0) shortAndLong = some s ∧
      s.wire = [[7]] ∧ s.returned.map Prod.snd = [.ok, .buf] ∧
      s.wire ++ s.fifo.map (queued twoSlots s.mem) = okFrames s.returned := by
  have hrun : (run twoSlots (ethernetifInit fun _ => 0) shortAndLong).map
      (fun s => (s.wire, s.returned.map Prod.snd)) = some ([[7]], [.ok, .buf]) := by decide
  obtain ⟨s, hs, hout⟩ := Option.map_eq_some_iff.mp hrun
  exact ⟨s, hs, congrArg Prod.fst hout, congrArg Prod.snd hout,
    (tx_ring_safe twoSlots (fun _ => 0) hs).2.1⟩

end EthernetSoc.EthernetIf
