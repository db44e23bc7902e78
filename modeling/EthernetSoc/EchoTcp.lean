import EthernetSoc.EchoSlave
import EthernetSoc.Lib.Words
import EthernetSoc.Pbuf

/-!
# The TCP echo firmware

`echoThroughSlave` copies a segment word by word into the slave and back into a
buffer on the stack; every word is one complete bus access at a time the
environment chooses. It keeps a log of the bytes and words it touches and of the
operands of its unsigned subtractions. `echoRecv` is the receive callback with
its two error exits, and the results of `tcp_write` are the environment's.

Whatever the bus does, a call hands over the bytes of the chain and makes the
calls of `echo`, which knows neither the slave nor the stack. `run` is the
callback under its caller, which keeps a refused chain and delivers it again.
-/

namespace EthernetSoc.EchoTcp

abbrev tcpMss : ℕ := 1460
abbrev errOk : ℤ := 0
abbrev errMem : ℤ := -1
abbrev errAbrt : ℤ := -13

/-- The first LED access keeps the bus busy for at least one cycle before any
access to the slave. The buffer of the `k`th segment starts as `stack k`, and
`results k` is what `tcp_write` returns for it. -/
structure Env where
  entry : List (EchoSlave.Idle 9)
  entry_ne : entry ≠ []
  access : ℕ → EchoSlave.Timing 9
  stack : ℕ → ℕ → Byte
  results : ℕ → ℤ
  exit : List (EchoSlave.Idle 9)

inductive Access
  | input (k : ℕ)
  | output (k : ℕ)
  | slave (offset : ℕ)
  | sub (a b : BitVec 32)

structure Machine where
  slave : EchoSlave.State 9
  accesses : ℕ
  out : ℕ → Byte
  log : List Access

section Copy
variable (env : Env)

def Machine.note (m : Machine) (l : List Access) : Machine := { m with log := m.log ++ l }

def slaveWrite (m : Machine) (offset : ℕ) (value : BitVec 32) : Machine :=
  { m.note [.slave offset] with
    slave := (EchoSlave.target.transact (env.access m.accesses)
      ⟨true, BitVec.ofNat 9 offset, value⟩ m.slave).1
    accesses := m.accesses + 1 }

def slaveRead (m : Machine) (offset : ℕ) : Machine × BitVec 32 :=
  let r := EchoSlave.target.transact (env.access m.accesses)
    ⟨false, BitVec.ofNat 9 offset, 0⟩ m.slave
  ({ m.note [.slave offset] with slave := r.1, accesses := m.accesses + 1 }, r.2)

def remaining (len i : ℕ) : BitVec 32 := BitVec.ofNat 32 len - BitVec.ofNat 32 i * 4

def chunk (len i : ℕ) : ℕ :=
  if 4 ≤ (remaining len i).toNat then 4 else (remaining len i).toNat

def subAccess (len i : ℕ) : Access := .sub (BitVec.ofNat 32 len) (BitVec.ofNat 32 i * 4)

def writeWord (input : ℕ → Byte) (len : ℕ) (m : Machine) (i : ℕ) : Machine :=
  let n := chunk len i
  let m := m.note (subAccess len i :: (List.range n).map fun k => .input (i*4 + k))
  slaveWrite env m i (Words.load n input (i*4))

def readWord (len : ℕ) (m : Machine) (i : ℕ) : Machine :=
  let r := slaveRead env m i
  let n := chunk len i
  let m := r.1.note (subAccess len i :: (List.range n).map fun k => .output (i*4 + k))
  { m with out := Words.store n m.out (i*4) r.2 }

def echoThroughSlave (input : ℕ → Byte) (len : ℕ) (m : Machine) : Machine :=
  let words := (len + 3) / 4
  let m := (List.range words).foldl (writeWord env input len) m
  (List.range words).foldl (readWord env len) m

end Copy

/-! ## The receive callback -/

inductive PcbCall
  | close
  | write (data : List Byte) (result : ℤ)
  | output
  | recved (n : ℕ)
  | free
  deriving DecidableEq

/-- What the walk along a chain leaves: the slave, the calls made, the code of
an early return, and each copied segment with the machine after its copy. -/
structure Walk where
  slave : EchoSlave.State 9
  calls : List PcbCall
  early : Option ℤ
  copies : List (Pbuf × Machine)

def walk (env : Env) (p : List Pbuf) (s : EchoSlave.State 9) (accesses k : ℕ) :
    List Pbuf → Walk
  | [] => ⟨s, [], none, []⟩
  | q :: rest =>
    if q.len > tcpMss then ⟨s, [.recved (Pbuf.totLen p), .free], some errMem, []⟩
    else
      let m := echoThroughSlave env q.byte q.len ⟨s, accesses, env.stack k, []⟩
      let e := env.results k
      let call := .write ((List.range q.len).map m.out) e
      if e ≠ errOk then ⟨m.slave, [call, .recved (Pbuf.totLen p), .free], some e, [(q, m)]⟩
      else
        let next := walk env p m.slave m.accesses (k+1) rest
        { next with calls := call :: next.calls, copies := (q, m) :: next.copies }

structure Return where
  slave : EchoSlave.State 9
  calls : List PcbCall
  ret : ℤ
  copies : List (Pbuf × Machine)

def echoRecv (env : Env) (s : EchoSlave.State 9) (p : List Pbuf) (err : ℤ) : Return :=
  if err ≠ errOk ∨ p = [] then
    ⟨EchoSlave.target.idle s env.exit, .close :: if p = [] then [] else [.free], errOk, []⟩
  else
    let r := walk env p (EchoSlave.target.idle s env.entry) 0 0 p
    match r.early with
    | some e => ⟨r.slave, r.calls, e, r.copies⟩
    | none => ⟨EchoSlave.target.idle r.slave env.exit,
        r.calls ++ [.output, .recved (Pbuf.totLen p), .free], errOk, r.copies⟩

/-! ## Through the slave and back -/

def Access.InBounds (len : ℕ) : Access → Prop
  | .input k => k < len
  | .output k => k < len
  | .slave offset => offset < (len + 3) / 4
  | .sub a b => b.toNat ≤ a.toNat

/-- What the copy of `q` leaves of a buffer that held `out` and a slave that held `mem`. -/
structure Copied (q : Pbuf) (out : ℕ → Byte) (mem : BitVec 9 → BitVec 32) (m : Machine) :
    Prop where
  out : ∀ j, m.out j = if j < q.len then q.byte j else out j
  mem : ∀ a, m.slave.mem a =
    if a.toNat < (q.len + 3) / 4 then Words.load (Words.part q.len a.toNat) q.byte (a.toNat * 4)
    else mem a

/-- The copies of a chain from the `k`th on: each finds its own buffer, and the slave as the one
before left it. -/
def CopiedAll (env : Env) : ℕ → (BitVec 9 → BitVec 32) → List (Pbuf × Machine) →
    (BitVec 9 → BitVec 32) → Prop
  | _, mem, [], mem' => mem' = mem
  | k, mem, (q, m) :: copies, mem' =>
    Copied q (env.stack k) mem m ∧ CopiedAll env (k+1) m.slave.mem copies mem'

theorem remaining_toNat {len i : ℕ} (hlen : len < 2^16) (hi : i < (len + 3) / 4) :
    (BitVec.ofNat 32 i * 4 : BitVec 32).toNat = i*4 ∧ (BitVec.ofNat 32 len).toNat = len ∧
      (remaining len i).toNat = len - i*4 := by
  have hmul : (BitVec.ofNat 32 i * 4 : BitVec 32).toNat = i*4 := by
    rw [BitVec.toNat_mul, BitVec.toNat_ofNat]
    change i % 2^32 * 4 % 2^32 = i*4
    omega
  have hle : (BitVec.ofNat 32 len).toNat = len := by
    rw [BitVec.toNat_ofNat]
    omega
  refine ⟨hmul, hle, ?_⟩
  rw [remaining, BitVec.toNat_sub, hmul, hle]
  omega

theorem chunk_eq {len i : ℕ} (hlen : len < 2^16) (hi : i < (len + 3) / 4) :
    chunk len i = Words.part len i := by
  rw [chunk, (remaining_toNat hlen hi).2.2, Words.part]
  split_ifs <;> omega

theorem subAccess_inBounds {len i : ℕ} (hlen : len < 2^16) (hi : i < (len + 3) / 4) :
    (subAccess len i).InBounds len := by
  obtain ⟨hmul, hle, _⟩ := remaining_toNat hlen hi
  change (BitVec.ofNat 32 i * 4 : BitVec 32).toNat ≤ (BitVec.ofNat 32 len).toNat
  rw [hmul, hle]
  omega

section Spec
variable (env : Env)

/-- The write loop after `n` words: the slave holds them, the buffer on the
stack is untouched, and every access was in bounds. -/
theorem writeLoop_spec (input : ℕ → Byte) {len : ℕ} (hlen : len < 2^16) {m : Machine}
    (hack : m.slave.wbAck = false) (hlog : ∀ a ∈ m.log, a.InBounds len) {n : ℕ}
    (hn : n ≤ (len + 3) / 4) :
    let m' := (List.range n).foldl (writeWord env input len) m
    m'.slave.wbAck = false ∧ m'.out = m.out ∧ (∀ a ∈ m'.log, a.InBounds len) ∧
      m'.slave.mem = Words.fill (BitVec.ofNat 9)
        (fun i => Words.load (Words.part len i) input (i*4)) n m.slave.mem := by
  intro m'
  induction n with
  | zero => exact ⟨hack, rfl, hlog, rfl⟩
  | succ n ih =>
    obtain ⟨hack', hout, hlog', hmem⟩ := ih (by omega)
    have hchunk := chunk_eq hlen (show n < (len + 3) / 4 by omega)
    have hstep : m' = writeWord env input len
        ((List.range n).foldl (writeWord env input len) m) n := by
      simp [m', List.range_succ]
    generalize (List.range n).foldl (writeWord env input len) m = t at *
    obtain ⟨hw, hwack, _⟩ := EchoSlave.transact_spec hack' (env.access t.accesses)
      ⟨true, BitVec.ofNat 9 n, Words.load (chunk len n) input (n*4)⟩
    rw [hstep]
    refine ⟨hwack, hout, ?_, ?_⟩
    · intro a ha
      simp only [writeWord, slaveWrite, Machine.note, List.mem_append, List.mem_cons, List.mem_map,
        List.mem_range, List.not_mem_nil, or_false] at ha
      obtain (hold | rfl | ⟨k, hk, rfl⟩) | rfl := ha
      · exact hlog' a hold
      · exact subAccess_inBounds hlen (by omega)
      · rw [hchunk, Words.part] at hk
        change n*4 + k < len
        omega
      · change n < (len + 3) / 4
        omega
    · rw [Words.fill_succ, ← hmem, ← hchunk]
      exact hw

/-- The read loop after `n` words: the buffer holds them, the slave is as it
was, and every access was in bounds. -/
theorem readLoop_spec {len : ℕ} (hlen : len < 2^16) {m : Machine}
    (hack : m.slave.wbAck = false) (hlog : ∀ a ∈ m.log, a.InBounds len) {n : ℕ}
    (hn : n ≤ (len + 3) / 4) :
    let m' := (List.range n).foldl (readWord env len) m
    m'.slave.wbAck = false ∧ m'.slave.mem = m.slave.mem ∧ (∀ a ∈ m'.log, a.InBounds len) ∧
      m'.out = Words.drainUpto (BitVec.ofNat 9) len m.slave.mem n m.out := by
  intro m'
  induction n with
  | zero => exact ⟨hack, rfl, hlog, rfl⟩
  | succ n ih =>
    obtain ⟨hack', hmem, hlog', hout⟩ := ih (by omega)
    have hchunk := chunk_eq hlen (show n < (len + 3) / 4 by omega)
    have hstep : m' = readWord env len ((List.range n).foldl (readWord env len) m) n := by
      simp [m', List.range_succ]
    generalize (List.range n).foldl (readWord env len) m = t at *
    obtain ⟨hr, hrack, hdata⟩ := EchoSlave.transact_spec hack' (env.access t.accesses)
      ⟨false, BitVec.ofNat 9 n, 0⟩
    rw [hstep]
    refine ⟨hrack, hr.trans hmem, ?_, ?_⟩
    · intro a ha
      simp only [readWord, slaveRead, Machine.note, List.mem_append, List.mem_cons, List.mem_map,
        List.mem_range, List.not_mem_nil, or_false] at ha
      obtain (hold | rfl) | rfl | ⟨k, hk, rfl⟩ := ha
      · exact hlog' a hold
      · change n < (len + 3) / 4
        omega
      · exact subAccess_inBounds hlen (by omega)
      · rw [hchunk, Words.part] at hk
        change n*4 + k < len
        omega
    · rw [Words.drainUpto_succ, ← hout, ← hchunk, ← hmem]
      exact congrArg (Words.store (chunk len n) t.out (n*4)) hdata

theorem echoThroughSlave_spec (q : Pbuf) (hlen : q.len ≤ tcpMss) {m : Machine}
    (hack : m.slave.wbAck = false) (hlog : ∀ a ∈ m.log, a.InBounds q.len) :
    let m' := echoThroughSlave env q.byte q.len m
    m'.slave.wbAck = false ∧ Copied q m.out m.slave.mem m' ∧ ∀ a ∈ m'.log, a.InBounds q.len := by
  intro m'
  have hmss : q.len ≤ 1460 := hlen
  obtain ⟨hack₁, hout₁, hlog₁, hmem₁⟩ :=
    writeLoop_spec env q.byte (by omega) hack hlog (le_refl ((q.len + 3) / 4))
  obtain ⟨hack₂, hmem₂, hlog₂, hout₂⟩ :=
    readLoop_spec env (by omega) hack₁ hlog₁ (le_refl ((q.len + 3) / 4))
  refine ⟨hack₂, ⟨?_, ?_⟩, hlog₂⟩
  · intro j
    change ((List.range _).foldl (readWord env q.len) _).out j = _
    rw [hout₂, hmem₁, hout₁]
    exact Words.drainUpto_fill (N := 512) (Words.ofNat_injOn (w := 9)) q.byte m.slave.mem
      (by omega) m.out j
  · intro a
    change ((List.range _).foldl (readWord env q.len) _).slave.mem a = _
    rw [hmem₂, hmem₁]
    exact Words.fill_ofNat _ m.slave.mem (by omega) a

end Spec

/-! ## The calls of one delivery -/

def echoCalls (results : ℕ → ℤ) (p : List Pbuf) : ℕ → List Pbuf → List PcbCall × Option ℤ
  | _, [] => ([], none)
  | k, q :: rest =>
    if q.len > tcpMss then ([.recved (Pbuf.totLen p), .free], some errMem)
    else if results k ≠ errOk then
      ([.write q.payload (results k), .recved (Pbuf.totLen p), .free], some (results k))
    else
      let next := echoCalls results p (k+1) rest
      (.write q.payload errOk :: next.1, next.2)

def echo (results : ℕ → ℤ) (p : List Pbuf) : List PcbCall × ℤ :=
  if p = [] then ([.close], errOk)
  else
    let r := echoCalls results p 0 p
    match r.2 with
    | some e => (r.1, e)
    | none => (r.1 ++ [.output, .recved (Pbuf.totLen p), .free], errOk)

theorem echoCalls_early {results : ℕ → ℤ} {p rest : List Pbuf} {k : ℕ} {e : ℤ}
    (h : (echoCalls results p k rest).2 = some e) : e ≠ errOk := by
  induction rest generalizing k with
  | nil => cases h
  | cons q rest ih =>
    rw [echoCalls] at h
    split_ifs at h with hlen he
    · obtain rfl := Option.some.inj h
      decide
    · obtain rfl := Option.some.inj h
      exact he
    · exact ih h

theorem walk_spec (env : Env) (p : List Pbuf) {s : EchoSlave.State 9} (hs : s.wbAck = false)
    (accesses k : ℕ) (rest : List Pbuf) :
    let r := walk env p s accesses k rest
    (r.calls, r.early) = echoCalls env.results p k rest ∧
      (r.early = none → r.copies.map Prod.fst = rest) ∧
      CopiedAll env k s.mem r.copies r.slave.mem ∧
      ∀ c ∈ r.copies, c.1.len ≤ tcpMss ∧ ∀ a ∈ c.2.log, a.InBounds c.1.len := by
  induction rest generalizing s accesses k with
  | nil => exact ⟨rfl, fun _ => rfl, rfl, by simp [walk]⟩
  | cons q rest ih =>
    rw [walk, echoCalls]
    by_cases hlen : q.len > tcpMss
    · rw [if_pos hlen, if_pos hlen]
      exact ⟨rfl, nofun, rfl, by simp⟩
    rw [if_neg hlen, if_neg hlen]
    obtain ⟨hack, hcopied, hlog⟩ := echoThroughSlave_spec env q (not_lt.mp hlen)
      (m := ⟨s, accesses, env.stack k, []⟩) hs (by simp)
    generalize echoThroughSlave env q.byte q.len ⟨s, accesses, env.stack k, []⟩ = m at *
    have hdata : (List.range q.len).map m.out = q.payload := by
      rw [← Pbuf.map_byte_len q]
      apply List.map_congr_left
      intro j hj
      rw [hcopied.out, if_pos (List.mem_range.mp hj)]
    simp only [hdata]
    by_cases he : env.results k ≠ errOk
    · rw [if_pos he, if_pos he]
      refine ⟨rfl, nofun, ⟨hcopied, rfl⟩, ?_⟩
      intro c hc
      obtain rfl := List.mem_singleton.mp hc
      exact ⟨not_lt.mp hlen, hlog⟩
    · rw [if_neg he, if_neg he, not_not.mp he]
      obtain ⟨hcalls, hall, hframes, hcopies⟩ := ih hack m.accesses (k+1)
      refine ⟨?_, ?_, ⟨hcopied, hframes⟩, ?_⟩
      · rw [← hcalls]
      · intro hearly
        exact congrArg (List.cons q) (hall hearly)
      · intro c hc
        rcases List.mem_cons.mp hc with rfl | hmem
        · exact ⟨not_lt.mp hlen, hlog⟩
        · exact hcopies c hmem

theorem echoRecv_spec (env : Env) (s : EchoSlave.State 9) (p : List Pbuf) :
    let r := echoRecv env s p errOk
    (r.calls, r.ret) = echo env.results p ∧ (r.ret = errOk → r.copies.map Prod.fst = p) ∧
      CopiedAll env 0 s.mem r.copies r.slave.mem ∧
      ∀ c ∈ r.copies, c.1.len ≤ tcpMss ∧ ∀ a ∈ c.2.log, a.InBounds c.1.len := by
  have hack : (EchoSlave.target.idle s env.entry).wbAck = false :=
    EchoSlave.target.ack_idle_of_ne env.entry_ne s
  rw [echoRecv, echo]
  by_cases hp : p = []
  · simp [hp, CopiedAll, EchoSlave.mem_idle]
  have hcond : ¬ (errOk ≠ errOk ∨ p = []) := by simp [hp]
  rw [if_neg hcond, if_neg hp]
  obtain ⟨hcalls, hall, hframes, hcopies⟩ := walk_spec env p hack 0 0 p
  rw [EchoSlave.mem_idle] at hframes
  generalize walk env p (EchoSlave.target.idle s env.entry) 0 0 p = r at *
  rw [← hcalls]
  cases hearly : r.early with
  | none =>
    simp only [hearly]
    exact ⟨trivial, fun _ => hall hearly, (EchoSlave.mem_idle env.exit).symm ▸ hframes, hcopies⟩
  | some e =>
    simp only [hearly]
    refine ⟨trivial, fun hret => ?_, hframes, hcopies⟩
    have hne := echoCalls_early (e := e) (by rw [← hcalls, hearly])
    exact absurd hret hne

theorem echoRecv_calls (env : Env) (s : EchoSlave.State 9) (p : List Pbuf) :
    (echoRecv env s p errOk).calls = (echo env.results p).1 :=
  congrArg Prod.fst (echoRecv_spec env s p).1

theorem echoRecv_ret (env : Env) (s : EchoSlave.State 9) (p : List Pbuf) :
    (echoRecv env s p errOk).ret = (echo env.results p).2 :=
  congrArg Prod.snd (echoRecv_spec env s p).1

def accepted (calls : List PcbCall) : List Byte :=
  calls.flatMap fun
    | .write data e => if e = errOk then data else []
    | _ => []

theorem accepted_append (l l' : List PcbCall) : accepted (l ++ l') = accepted l ++ accepted l' :=
  List.flatMap_append

/-- No segment from the `k`th on is longer than the buffer and every `tcp_write`
for them succeeds. -/
def CleanFrom (results : ℕ → ℤ) (k : ℕ) (rest : List Pbuf) : Prop :=
  ∀ j q, rest[j]? = some q → q.len ≤ tcpMss ∧ results (k+j) = errOk

def Clean (results : ℕ → ℤ) (p : List Pbuf) : Prop := CleanFrom results 0 p

theorem cleanFrom_cons {results : ℕ → ℤ} {k : ℕ} {q : Pbuf} {rest : List Pbuf} :
    CleanFrom results k (q :: rest) ↔
      q.len ≤ tcpMss ∧ results k = errOk ∧ CleanFrom results (k+1) rest := by
  constructor
  · intro h
    obtain ⟨hlen, he⟩ := h 0 q rfl
    refine ⟨hlen, he, ?_⟩
    intro j q' hq
    rw [Nat.add_right_comm, Nat.add_assoc]
    exact h (j+1) q' hq
  · rintro ⟨hlen, he, h⟩ j q' hq
    cases j with
    | zero =>
      obtain rfl : q = q' := Option.some.inj hq
      exact ⟨hlen, he⟩
    | succ j =>
      have hj := h j q' hq
      rwa [Nat.add_right_comm, Nat.add_assoc] at hj

theorem echoCalls_clean {results : ℕ → ℤ} (p : List Pbuf) {k : ℕ} {rest : List Pbuf}
    (h : CleanFrom results k rest) :
    echoCalls results p k rest = (rest.map fun q => .write q.payload errOk, none) := by
  induction rest generalizing k with
  | nil => rfl
  | cons q rest ih =>
    obtain ⟨hlen, he, hrest⟩ := cleanFrom_cons.mp h
    rw [echoCalls, if_neg (not_lt.mpr hlen), if_neg (not_not.mpr he), ih hrest]
    rfl

theorem echoCalls_unclean {results : ℕ → ℤ} (p : List Pbuf) {k : ℕ} {rest : List Pbuf}
    (h : ¬ CleanFrom results k rest) :
    ∃ e, (echoCalls results p k rest).2 = some e ∧ e ≠ errOk ∧
      .free ∈ (echoCalls results p k rest).1 := by
  induction rest generalizing k with
  | nil => exact absurd (fun j q hq => by simp at hq) h
  | cons q rest ih =>
    rw [echoCalls]
    by_cases hlen : q.len > tcpMss
    · rw [if_pos hlen]
      exact ⟨errMem, rfl, by decide, by simp⟩
    rw [if_neg hlen]
    by_cases he : results k ≠ errOk
    · rw [if_pos he]
      exact ⟨results k, rfl, he, by simp⟩
    rw [if_neg he]
    have hrest : ¬ CleanFrom results (k+1) rest :=
      fun hr => h (cleanFrom_cons.mpr ⟨not_lt.mp hlen, not_not.mp he, hr⟩)
    obtain ⟨e, hret, hne, hfree⟩ := ih hrest
    exact ⟨e, hret, hne, List.mem_cons_of_mem _ hfree⟩

theorem accepted_writes (p : List Pbuf) :
    accepted (p.map fun q => .write q.payload errOk) = Pbuf.bytes p := by
  induction p with
  | nil => rfl
  | cons q p ih =>
    rw [Pbuf.bytes_cons, ← ih]
    rfl

theorem echo_clean {results : ℕ → ℤ} {p : List Pbuf} (h : Clean results p) :
    accepted (echo results p).1 = Pbuf.bytes p ∧ (echo results p).2 = errOk := by
  rw [echo]
  by_cases hp : p = []
  · rw [if_pos hp, hp]
    exact ⟨rfl, rfl⟩
  · rw [if_neg hp, echoCalls_clean p h]
    refine ⟨?_, rfl⟩
    rw [accepted_append, accepted_writes]
    exact List.append_nil _

theorem echo_unclean {results : ℕ → ℤ} {p : List Pbuf} (h : ¬ Clean results p) :
    (echo results p).2 ≠ errOk ∧ .free ∈ (echo results p).1 := by
  obtain ⟨e, hret, hne, hfree⟩ := echoCalls_unclean p h
  have hp : p ≠ [] := by
    rintro rfl
    exact h (fun j q hq => by simp at hq)
  rw [echo, if_neg hp]
  simp only [hret]
  exact ⟨hne, hfree⟩

/-- With every `tcp_write` succeeding, a chain of segments that fit the buffer is
queued as it is, whatever the slave and the stack hold and whatever the timing;
each segment is copied once, and its copy stays inside the segment, the buffer
and the words it needs, leaves every other byte and word as it was, and none of
its subtractions wraps. -/
theorem echo_identity (env : Env) (s : EchoSlave.State 9) (p : List Pbuf)
    (hlen : ∀ q ∈ p, q.len ≤ tcpMss) (hok : ∀ k, env.results k = errOk) :
    let r := echoRecv env s p errOk
    accepted r.calls = Pbuf.bytes p ∧ r.ret = errOk ∧ r.copies.map Prod.fst = p ∧
      CopiedAll env 0 s.mem r.copies r.slave.mem ∧
      ∀ c ∈ r.copies, (c.1.len + 3) / 4 ≤ 365 ∧ ∀ a ∈ c.2.log, a.InBounds c.1.len := by
  intro r
  have hclean : Clean env.results p :=
    fun j q hq => ⟨hlen q (List.mem_of_getElem? hq), hok _⟩
  obtain ⟨haccepted, hok'⟩ := echo_clean hclean
  obtain ⟨_, hall, hframes, hcopies⟩ := echoRecv_spec env s p
  have hret : r.ret = errOk := (echoRecv_ret env s p).trans hok'
  refine ⟨by rw [echoRecv_calls, haccepted], hret, hall hret, hframes, ?_⟩
  intro c hc
  obtain ⟨hmss, hlog⟩ := hcopies c hc
  have hmss' : c.1.len ≤ 1460 := hmss
  exact ⟨by omega, hlog⟩

def ledAccess : EchoSlave.Idle 9 := ⟨⟨false, true, true, 0, 0⟩, rfl⟩

def promptEnv (results : ℕ → ℤ) : Env where
  entry := [ledAccess]
  entry_ne := by simp
  access := fun _ => ⟨[], none⟩
  stack := fun _ _ => 0xCC
  results := results
  exit := []

theorem echo_identity_three_segments :
    accepted (echoRecv (promptEnv fun _ => errOk) (.reset (fun _ => 0xFFFFFFFF) 0)
      [⟨[1, 2, 3, 4, 5], by decide⟩, ⟨[], by decide⟩, ⟨[6], by decide⟩] errOk).calls =
        [1, 2, 3, 4, 5, 6] :=
  (echo_identity (promptEnv fun _ => errOk) (.reset (fun _ => 0xFFFFFFFF) 0)
    [⟨[1, 2, 3, 4, 5], by decide⟩, ⟨[], by decide⟩, ⟨[6], by decide⟩] (by decide)
    (fun _ => rfl)).1

/-! ## A connection -/

structure Delivery where
  chain : List Pbuf
  fresh : Bool
  calls : List PcbCall
  ret : ℤ

/-- The chain of the next call, whether it is fresh, and the chains after it: a
refused chain comes before any other. -/
def nextChain : Option (List Pbuf) → List (List Pbuf) →
    Option (List Pbuf × Bool × List (List Pbuf))
  | some p, chains => some (p, false, chains)
  | none, p :: chains => some (p, true, chains)
  | none, [] => none

/-- The caller keeps a chain that was refused; after `ERR_ABRT` there is no
connection any more. Each call takes the next environment. -/
def run (s : EchoSlave.State 9) (refused : Option (List Pbuf)) (chains : List (List Pbuf)) :
    List Env → List Delivery
  | [] => []
  | env :: envs =>
    match nextChain refused chains with
    | none => []
    | some (p, fresh, chains) =>
      let r := echoRecv env s p errOk
      ⟨p, fresh, r.calls, r.ret⟩ ::
        if r.ret = errOk then run r.slave none chains envs
        else if r.ret = errAbrt then []
        else run r.slave (some p) chains envs

def delivered (ds : List Delivery) : List Byte :=
  (ds.filter Delivery.fresh).flatMap fun d => Pbuf.bytes d.chain

/-- At every moment, that is after any part `calls` of the calls of any delivery
`d`, the accepted bytes are a prefix of the delivered ones; and a call that
reports a refusal has neither freed the chain, nor credited the window, nor
queued a byte. -/
structure ExactlyOnce (ds : List Delivery) : Prop where
  once : ∀ before d after, ds = before ++ d :: after → ∀ calls, calls <+: d.calls →
    accepted (before.flatMap Delivery.calls ++ calls) <+: delivered (before ++ [d])
  refused : ∀ d ∈ ds, d.ret ≠ errOk →
    .free ∉ d.calls ∧ (∀ n, .recved n ∉ d.calls) ∧ accepted d.calls = []

structure Delivery.Echoed (d : Delivery) : Prop where
  fresh : d.fresh = true
  ret : d.ret = errOk
  accepted : accepted d.calls = Pbuf.bytes d.chain

theorem accepted_flatMap {ds : List Delivery} (h : ∀ d ∈ ds, d.Echoed) :
    accepted (ds.flatMap Delivery.calls) = delivered ds := by
  induction ds with
  | nil => rfl
  | cons d ds ih =>
    have hd := h d (by simp)
    rw [List.flatMap_cons, accepted_append, hd.accepted, ih (fun e he => h e (by simp [he])),
      delivered, delivered, List.filter_cons_of_pos hd.fresh]
    rfl

theorem accepted_prefix {l l' : List PcbCall} (h : l <+: l') : accepted l <+: accepted l' := by
  obtain ⟨t, rfl⟩ := h
  rw [accepted_append]
  exact List.prefix_append _ _

theorem exactlyOnce_of_echoed {ds : List Delivery} (h : ∀ d ∈ ds, d.Echoed) : ExactlyOnce ds := by
  refine ⟨?_, ?_⟩
  · rintro before d after rfl calls hcalls
    have hall : ∀ e ∈ before ++ [d], e.Echoed := by
      intro e he
      apply h e
      rw [List.append_cons]
      exact List.mem_append_left _ he
    rw [← accepted_flatMap hall, List.flatMap_append]
    apply accepted_prefix
    apply List.prefix_append_right_inj _ |>.mpr
    simpa using hcalls
  · intro d hd hret
    exact absurd (h d hd).ret hret

theorem run_echoed {s : EchoSlave.State 9} {chains : List (List Pbuf)} {envs : List Env}
    (h : ∀ x ∈ envs.zip chains, Clean x.1.results x.2) :
    ∀ d ∈ run s none chains envs, d.Echoed := by
  induction envs generalizing s chains with
  | nil => simp [run]
  | cons env envs ih =>
    cases chains with
    | nil => simp [run, nextChain]
    | cons p chains =>
      have hclean : Clean env.results p := h (env, p) (by simp)
      obtain ⟨haccepted, hok⟩ := echo_clean hclean
      simp only [run, nextChain, echoRecv_ret, echoRecv_calls, hok, if_true]
      intro d hd
      rcases List.mem_cons.mp hd with rfl | hrest
      · exact ⟨rfl, rfl, haccepted⟩
      · exact ih (fun x hx => h x (by simp [hx])) d hrest

theorem clean_of_run_ok {s : EchoSlave.State 9} {chains : List (List Pbuf)} {envs : List Env}
    (h : ∀ d ∈ run s none chains envs, d.ret ≠ errOk → .free ∉ d.calls) :
    ∀ x ∈ envs.zip chains, Clean x.1.results x.2 := by
  induction envs generalizing s chains with
  | nil => simp
  | cons env envs ih =>
    cases chains with
    | nil => simp
    | cons p chains =>
      simp only [run, nextChain, echoRecv_ret, echoRecv_calls] at h
      -- an unclean first call would have returned an error and freed the chain
      have hclean : Clean env.results p := by
        by_contra hnot
        obtain ⟨hne, hfree⟩ := echo_unclean hnot
        exact h _ List.mem_cons_self hne hfree
      rw [(echo_clean hclean).2, if_pos rfl] at h
      have hrest := ih (fun d hd => h d (List.mem_cons_of_mem _ hd))
      intro x hx
      rw [List.zip_cons_cons] at hx
      rcases List.mem_cons.mp hx with rfl | hmem
      · exact hclean
      · exact hrest x hmem

/-- On every connection, the echo is exactly-once if and only if no delivered
segment is longer than the buffer and no `tcp_write` fails. -/
theorem exactlyOnce_iff (s : EchoSlave.State 9) (chains : List (List Pbuf)) (envs : List Env) :
    ExactlyOnce (run s none chains envs) ↔ ∀ x ∈ envs.zip chains, Clean x.1.results x.2 := by
  constructor
  · intro h
    exact clean_of_run_ok fun d hd hret => (h.refused d hd hret).1
  · intro h
    exact exactlyOnce_of_echoed (run_echoed h)

def twoSegments : List Pbuf := [⟨[1], by decide⟩, ⟨[2], by decide⟩]

/-- The second `tcp_write` of a chain of two segments fails for want of memory:
the chain is freed and its window credited, and then refused, so that it comes
again and its first byte is sent twice. -/
theorem echo_repeats_after_failed_write :
    (run (.reset (fun _ => 0) 0) none [twoSegments]
        [promptEnv fun k => if k = 1 then errMem else errOk, promptEnv fun _ => errOk]).map
      (fun d => (d.fresh, d.calls, d.ret)) =
      [(true, [.write [1] errOk, .write [2] errMem, .recved 2, .free], errMem),
       (false, [.write [1] errOk, .write [2] errOk, .output, .recved 2, .free], errOk)] ∧
    ¬ ExactlyOnce (run (.reset (fun _ => 0) 0) none [twoSegments]
        [promptEnv fun k => if k = 1 then errMem else errOk, promptEnv fun _ => errOk]) := by
  have hfail : echo (fun k => if k = 1 then errMem else errOk) twoSegments =
      ([.write [1] errOk, .write [2] errMem, .recved 2, .free], errMem) := by decide
  have hagain : echo (fun _ => errOk) twoSegments =
      ([.write [1] errOk, .write [2] errOk, .output, .recved 2, .free], errOk) := by decide
  refine ⟨?_, fun h => ?_⟩
  · simp [run, nextChain, echoRecv_calls, echoRecv_ret, promptEnv, hfail, hagain]
  · have hclean := clean_of_run_ok (fun d hd hret => (h.refused d hd hret).1) _ List.mem_cons_self
    have hsecond := (hclean 1 ⟨[2], by decide⟩ rfl).2
    exact absurd hsecond (by decide)

end EthernetSoc.EchoTcp
