import EthernetSoc.SysArch

/-!
# The timeouts of timeouts.c on the firmware's clock

lwIP keeps one list of timeouts, sorted by the time they are due, and
`sys_check_timeouts` calls those that are due when it is entered; `turn` is one
turn of its loop. The firmware has two: `etharp_tmr` every second, and `tcp_tmr`,
which is started on demand, every 250 ms while there is a connection. Each call
of `sys_now` happens at some tick of the counter, and what `tcp_tmr` leaves of
the connections is up to the rest of the stack; both are arguments of the
actions. `none` is an assertion that fails.

The clock never reads more than 85899, so a timeout that is due later than that
is never called, and nothing removes it.
-/

namespace EthernetSoc.Timeouts
open SysArch

inductive CyclicTimer
  | tcpTmr
  | etharpTmr
deriving DecidableEq

def CyclicTimer.intervalMs : CyclicTimer → ℕ
  | .tcpTmr => 250
  | .etharpTmr => 1000

def startedTimers : List CyclicTimer := [.etharpTmr]

inductive Handler
  | tcpipTcpTimer
  | lwipCyclicTimer (arg : CyclicTimer)
deriving DecidableEq

structure SysTimeo where
  time : BitVec 32
  h : Handler
deriving DecidableEq

structure State where
  nextTimeout : List SysTimeo
  currentTimeoutDueTime : BitVec 32
  tcpipTcpTimerActive : Bool
deriving DecidableEq

-- `MEMP_NUM_SYS_TIMEOUT`: one for each cyclic timer
abbrev numSysTimeout : ℕ := 2

def earlier (a b : SysTimeo) : Prop := timeLessThan a.time b.time = true

instance : DecidableRel earlier := fun a b => decEq (timeLessThan a.time b.time) true

def sysTimeoutAbs (absTime : BitVec 32) (h : Handler) (s : State) : Option State :=
  if s.nextTimeout.length < numSysTimeout then
    some { s with nextTimeout := s.nextTimeout.orderedInsert earlier ⟨absTime, h⟩ }
  else none

def sysTimeout (msecs : ℕ) (h : Handler) (now : BitVec 32) (s : State) : Option State :=
  if msecs ≤ (2^32 - 1) / 4 then sysTimeoutAbs (now + BitVec.ofNat 32 msecs) h s else none

def lwipCyclicTimer (cyclic : CyclicTimer) (now : BitVec 32) (s : State) : Option State :=
  let next := s.currentTimeoutDueTime + BitVec.ofNat 32 cyclic.intervalMs
  if timeLessThan next now then
    sysTimeoutAbs (now + BitVec.ofNat 32 cyclic.intervalMs) (.lwipCyclicTimer cyclic) s
  else sysTimeoutAbs next (.lwipCyclicTimer cyclic) s

def tcpipTcpTimer (pcbs : Bool) (now : BitVec 32) (s : State) : Option State :=
  if pcbs then sysTimeout CyclicTimer.tcpTmr.intervalMs .tcpipTcpTimer now s
  else some { s with tcpipTcpTimerActive := false }

def tcpTimerNeeded (pcbs : Bool) (now : BitVec 32) (s : State) : Option State :=
  if !s.tcpipTcpTimerActive && pcbs then
    sysTimeout CyclicTimer.tcpTmr.intervalMs .tcpipTcpTimer now
      { s with tcpipTcpTimerActive := true }
  else some s

def sysTimeoutsInit (now : BitVec 32) : Option State :=
  startedTimers.foldlM (fun s cyclic =>
    sysTimeout cyclic.intervalMs (.lwipCyclicTimer cyclic) now s) ⟨[], 0, false⟩

def Handler.call (pcbs : Bool) (now : BitVec 32) (s : State) : Handler → Option State
  | .tcpipTcpTimer => Timeouts.tcpipTcpTimer pcbs now s
  | .lwipCyclicTimer arg => Timeouts.lwipCyclicTimer arg now s

def Handler.tmr : Handler → CyclicTimer
  | .tcpipTcpTimer => .tcpTmr
  | .lwipCyclicTimer arg => arg

/-- `now` is the reading that a call of `sys_check_timeouts` under way has taken, and `calls`
records the functions of the stack that the timeouts have called. -/
structure Sys extends State where
  now : Option (BitVec 32)
  calls : List CyclicTimer
deriving DecidableEq

def turn (now : BitVec 32) (pcbs : Bool) (now' : BitVec 32) (s : Sys) : Option Sys :=
  match s.nextTimeout with
  | [] => some { s with now := none }
  | t :: ts =>
    if timeLessThan now t.time then some { s with now := none }
    else
      (t.h.call pcbs now' ⟨ts, t.time, s.tcpipTcpTimerActive⟩).map fun s' =>
        ⟨s', some now, t.h.tmr :: s.calls⟩

inductive Act
  | check (tick : ℕ)
  | loop (tick : ℕ) (pcbs : Bool)
  | needed (tick : ℕ) (pcbs : Bool)

def step (s : Sys) : Act → Option Sys
  | .check n => some { s with now := s.now.orElse fun _ => some (nowAt n) }
  | .loop n pcbs => s.now.elim (some s) fun now => turn now pcbs (nowAt n) s
  | .needed n pcbs =>
    (tcpTimerNeeded pcbs (nowAt n) s.toState).map fun s' => { s with toState := s' }

def run (s : Sys) (acts : List Act) : Option Sys := acts.foldlM step s

def boot (n : ℕ) : Option Sys := (sysTimeoutsInit (nowAt n)).map fun s => ⟨s, none, []⟩

section Queue
variable {t : SysTimeo} {l : List SysTimeo}

theorem timeLessThan_iff {a b : BitVec 32} (ha : a.toNat < 2^31) (hb : b.toNat < 2^31) :
    timeLessThan a b = true ↔ a.toNat < b.toNat := by
  rw [timeLessThan, decide_eq_true_iff, gt_iff_lt, BitVec.lt_def, BitVec.toNat_sub,
    show (0x7FFFFFFF : BitVec 32).toNat = 2147483647 from rfl]
  omega

def Sorted (l : List SysTimeo) : Prop := l.Pairwise fun a b => a.time.toNat ≤ b.time.toNat

def Before (limit : ℕ) (l : List SysTimeo) : Prop := ∀ t ∈ l, t.time.toNat < limit

theorem before_orderedInsert {limit : ℕ} (ht : t.time.toNat < limit) (hl : Before limit l) :
    Before limit (l.orderedInsert earlier t) := by
  intro u hu
  rcases (List.mem_orderedInsert _).mp hu with rfl | hu
  · exact ht
  · exact hl u hu

theorem sorted_orderedInsert (ht : t.time.toNat < 2^31) (hl : Before (2^31) l) (hs : Sorted l) :
    Sorted (l.orderedInsert earlier t) := by
  induction l with
  | nil => exact List.pairwise_singleton _ t
  | cons u us ih =>
    obtain ⟨hu, hus⟩ := List.pairwise_cons.mp hs
    obtain ⟨hlu, hlus⟩ := List.forall_mem_cons.mp hl
    have hearlier : earlier t u ↔ t.time.toNat < u.time.toNat := timeLessThan_iff ht hlu
    rw [List.orderedInsert_cons]
    split_ifs with hlt
    · rw [hearlier] at hlt
      refine List.pairwise_cons.mpr ⟨fun v hv => ?_, hs⟩
      rcases List.mem_cons.mp hv with rfl | hv
      · exact hlt.le
      · exact hlt.le.trans (hu v hv)
    · rw [hearlier, not_lt] at hlt
      refine List.pairwise_cons.mpr ⟨fun v hv => ?_, ih hlus hus⟩
      rcases (List.mem_orderedInsert _).mp hv with rfl | hv
      · exact hlt
      · exact hu v hv

theorem map_orderedInsert_perm :
    ((l.orderedInsert earlier t).map SysTimeo.h).Perm (t.h :: l.map SysTimeo.h) :=
  (List.perm_orderedInsert earlier t l).map SysTimeo.h

end Queue

def pending (active : Bool) : List Handler :=
  .lwipCyclicTimer .etharpTmr :: if active then [.tcpipTcpTimer] else []

/-- The list holds `etharp_tmr` once, and `tcp_tmr` once if it is active. After `k` calls of
`etharp_tmr`, it is due in second `k+1` at the earliest. -/
structure Inv (s : Sys) : Prop where
  once : (s.nextTimeout.map SysTimeo.h).Perm (pending s.tcpipTcpTimerActive)
  before : Before 86900 s.nextTimeout
  sorted : Sorted s.nextTimeout
  seconds : ∀ t ∈ s.nextTimeout, t.h = .lwipCyclicTimer .etharpTmr →
    1000 * (s.calls.count .etharpTmr + 1) ≤ t.time.toNat
  calls : s.calls.count .etharpTmr ≤ 85
  reading : ∀ now ∈ s.now, now.toNat < 85900

theorem toNat_add_ofNat {a : BitVec 32} (ha : a.toNat < 86900) {m : ℕ} (hm : m ≤ 1000) :
    (a + BitVec.ofNat 32 m).toNat = a.toNat + m := by
  rw [BitVec.toNat_add, BitVec.toNat_ofNat]
  omega

section Steps
variable {s : Sys}

theorem sysTimeoutAbs_inv (s : State) (now : Option (BitVec 32)) (calls : List CyclicTimer)
    (time : BitVec 32) (h : Handler)
    (honce : (h :: s.nextTimeout.map SysTimeo.h).Perm (pending s.tcpipTcpTimerActive))
    (hbefore : Before 86900 s.nextTimeout) (hsorted : Sorted s.nextTimeout)
    (hseconds : ∀ t ∈ s.nextTimeout, t.h = .lwipCyclicTimer .etharpTmr →
      1000 * (calls.count .etharpTmr + 1) ≤ t.time.toNat)
    (hcalls : calls.count .etharpTmr ≤ 85) (hreading : ∀ r ∈ now, r.toNat < 85900)
    (htime : time.toNat < 86900)
    (hnew : h = .lwipCyclicTimer .etharpTmr → 1000 * (calls.count .etharpTmr + 1) ≤ time.toNat) :
    sysTimeoutAbs time h s =
        some { s with nextTimeout := s.nextTimeout.orderedInsert earlier ⟨time, h⟩ } ∧
      Inv ⟨{ s with nextTimeout := s.nextTimeout.orderedInsert earlier ⟨time, h⟩ }, now,
        calls⟩ := by
  have hlen : s.nextTimeout.length < numSysTimeout := by
    have hle : (pending s.tcpipTcpTimerActive).length ≤ 2 := by
      rw [pending]
      split_ifs <;> decide
    have hlength := honce.length_eq
    rw [List.length_cons, List.length_map] at hlength
    simp only [numSysTimeout]
    omega
  refine ⟨if_pos hlen, map_orderedInsert_perm.trans honce, before_orderedInsert htime hbefore,
    sorted_orderedInsert (by simp only; omega) (fun t ht => (hbefore t ht).trans (by norm_num))
      hsorted, fun t ht hh => ?_, hcalls, hreading⟩
  rcases (List.mem_orderedInsert _).mp ht with rfl | ht
  · exact hnew hh
  · exact hseconds t ht hh

theorem boot_inv (n : ℕ) : ∃ s, boot n = some s ∧ Inv s := by
  have hn := nowAt_lt n
  have hadd : (nowAt n + BitVec.ofNat 32 1000).toNat = (nowAt n).toNat + 1000 :=
    toNat_add_ofNat (by omega) le_rfl
  obtain ⟨harm, hinv⟩ := sysTimeoutAbs_inv ⟨[], 0, false⟩ none [] (nowAt n + BitVec.ofNat 32 1000)
    (.lwipCyclicTimer .etharpTmr) (List.Perm.refl _) (fun t ht => absurd ht List.not_mem_nil)
    List.Pairwise.nil (fun t ht => absurd ht List.not_mem_nil) (by decide)
    (fun r hr => by cases hr) (by omega) (fun _ => by rw [hadd]; exact Nat.le_add_left _ _)
  refine ⟨_, ?_, hinv⟩
  have hinit : sysTimeout 1000 (.lwipCyclicTimer .etharpTmr) (nowAt n) ⟨[], 0, false⟩ = _ :=
    (if_pos (by decide)).trans harm
  rw [boot, sysTimeoutsInit, startedTimers, List.foldlM_cons,
    show CyclicTimer.etharpTmr.intervalMs = 1000 from rfl, hinit]
  rfl

/-- What calling `t` leaves in the list `ts` of the others: `tcp_tmr` is armed again, 250 ms
after the reading its handler takes, if there is a connection left. -/
def Rearms (pcbs : Bool) (now : BitVec 32) (t : SysTimeo) (ts l : List SysTimeo) : Prop :=
  (t.h = .tcpipTcpTimer ∧ pcbs = false ∧ l = ts) ∨
    ∃ time, l = ts.orderedInsert earlier ⟨time, t.h⟩ ∧
      (t.h = .tcpipTcpTimer → time = now + BitVec.ofNat 32 250)

section Call
variable {active : Bool} {calls : List CyclicTimer} {now time : BitVec 32} {ts : List SysTimeo}
  (hbefore : Before 86900 ts) (hsorted : Sorted ts) (hcalls : calls.count .etharpTmr ≤ 85)
  (hnow : now.toNat < 85900) (n : ℕ) (pcbs : Bool)
include hbefore hsorted hcalls hnow

theorem tcpipTcpTimer_inv
    (honce : (.tcpipTcpTimer :: ts.map SysTimeo.h).Perm (pending active))
    (hseconds : ∀ t ∈ ts, t.h = .lwipCyclicTimer .etharpTmr →
      1000 * (calls.count .etharpTmr + 1) ≤ t.time.toNat) :
    ∃ s', tcpipTcpTimer pcbs (nowAt n) ⟨ts, time, active⟩ = some s' ∧
      Rearms pcbs (nowAt n) ⟨time, .tcpipTcpTimer⟩ ts s'.nextTimeout ∧
      Inv ⟨s', some now, .tcpTmr :: calls⟩ := by
  have hn := nowAt_lt n
  have hreading : ∀ r ∈ some now, r.toNat < 85900 := fun r hr => by cases hr; exact hnow
  have hactive : active = true := by
    by_contra hne
    rw [Bool.eq_false_iff.mpr hne] at honce
    have hmem := honce.subset (List.mem_cons_self ..)
    simp [pending] at hmem
  subst hactive
  by_cases hpcbs : pcbs = true
  · have hadd : (nowAt n + BitVec.ofNat 32 250).toNat = (nowAt n).toNat + 250 :=
      toNat_add_ofNat (by omega) (by norm_num)
    obtain ⟨harm, hinv⟩ := sysTimeoutAbs_inv ⟨ts, time, true⟩ (some now) (.tcpTmr :: calls)
      (nowAt n + BitVec.ofNat 32 250) .tcpipTcpTimer honce hbefore hsorted
      (by simpa using hseconds) (by simpa using hcalls) hreading (by omega) (fun h => by cases h)
    refine ⟨_, ?_, .inr ⟨_, rfl, fun _ => rfl⟩, hinv⟩
    rw [tcpipTcpTimer, if_pos hpcbs]
    exact (if_pos (by decide)).trans harm
  · have hoff : pcbs = false := Bool.eq_false_iff.mpr hpcbs
    refine ⟨⟨ts, time, false⟩, if_neg hpcbs, .inl ⟨rfl, hoff, rfl⟩, ?_, hbefore, hsorted,
      by simpa using hseconds, by simpa using hcalls, hreading⟩
    have hswap : (pending true).Perm (.tcpipTcpTimer :: pending false) := List.Perm.swap ..
    exact (List.perm_cons _).mp (honce.trans hswap)

theorem lwipCyclicTimer_inv
    (honce : (.lwipCyclicTimer .etharpTmr :: ts.map SysTimeo.h).Perm (pending active))
    (hdue : 1000 * (calls.count .etharpTmr + 1) ≤ time.toNat) (htime : time.toNat ≤ now.toNat) :
    ∃ s', lwipCyclicTimer .etharpTmr (nowAt n) ⟨ts, time, active⟩ = some s' ∧
      Rearms pcbs (nowAt n) ⟨time, .lwipCyclicTimer .etharpTmr⟩ ts s'.nextTimeout ∧
      Inv ⟨s', some now, .etharpTmr :: calls⟩ := by
  have hn := nowAt_lt n
  have hreading : ∀ r ∈ some now, r.toNat < 85900 := fun r hr => by cases hr; exact hnow
  have hcount : (CyclicTimer.etharpTmr :: calls).count .etharpTmr =
      calls.count .etharpTmr + 1 := List.count_cons_self
  have hnone : ∀ t ∈ ts, t.h = .lwipCyclicTimer .etharpTmr →
      1000 * ((CyclicTimer.etharpTmr :: calls).count .etharpTmr + 1) ≤ t.time.toNat := by
    intro t ht hh
    have hmem : Handler.lwipCyclicTimer .etharpTmr ∈ ts.map SysTimeo.h :=
      List.mem_map.mpr ⟨t, ht, hh⟩
    have hrest := ((List.perm_cons _).mp honce).subset hmem
    split_ifs at hrest <;> simp at hrest
  have hnext : (time + BitVec.ofNat 32 1000).toNat = time.toNat + 1000 :=
    toNat_add_ofNat (by omega) le_rfl
  have hadd : (nowAt n + BitVec.ofNat 32 1000).toNat = (nowAt n).toNat + 1000 :=
    toNat_add_ofNat (by omega) le_rfl
  have hless : timeLessThan (time + BitVec.ofNat 32 1000) (nowAt n) = true ↔
      (time + BitVec.ofNat 32 1000).toNat < (nowAt n).toNat :=
    timeLessThan_iff (by omega) (by omega)
  have harm := fun due hlow hhigh => sysTimeoutAbs_inv ⟨ts, time, active⟩ (some now)
    (.etharpTmr :: calls) due (.lwipCyclicTimer .etharpTmr) honce hbefore hsorted hnone
    (by omega) hreading hhigh fun _ => hlow
  rw [lwipCyclicTimer, show CyclicTimer.etharpTmr.intervalMs = 1000 from rfl]
  simp only
  by_cases hlate : (time + BitVec.ofNat 32 1000).toNat < (nowAt n).toNat
  · obtain ⟨heq, hinv⟩ := harm (nowAt n + BitVec.ofNat 32 1000) (by omega) (by omega)
    refine ⟨_, ?_, .inr ⟨_, rfl, fun h => by cases h⟩, hinv⟩
    rw [if_pos (hless.mpr hlate), heq]
  · obtain ⟨heq, hinv⟩ := harm (time + BitVec.ofNat 32 1000) (by omega) (by omega)
    refine ⟨_, ?_, .inr ⟨_, rfl, fun h => by cases h⟩, hinv⟩
    rw [if_neg fun h => hlate (hless.mp h), heq]

end Call

theorem turn_inv (hinv : Inv s) {now : BitVec 32} (hnow : s.now = some now) (n : ℕ) (pcbs : Bool) :
    (turn now pcbs (nowAt n) s = some { s with now := none } ∧
      Inv { s with now := none } ∧ ∀ t ∈ s.nextTimeout, now.toNat < t.time.toNat) ∨
    ∃ t ts s', s.nextTimeout = t :: ts ∧ t.time.toNat ≤ now.toNat ∧
      turn now pcbs (nowAt n) s = some ⟨s', some now, t.h.tmr :: s.calls⟩ ∧
      Rearms pcbs (nowAt n) t ts s'.nextTimeout ∧
      Inv ⟨s', some now, t.h.tmr :: s.calls⟩ := by
  obtain ⟨honce, hbefore, hsorted, hseconds, hcalls, hreading⟩ := hinv
  have hlt := hreading now (by rw [hnow]; rfl)
  have hn := nowAt_lt n
  have hidle : Inv { s with now := none } :=
    ⟨honce, hbefore, hsorted, hseconds, hcalls, fun r hr => by cases hr⟩
  rcases hlist : s.nextTimeout with - | ⟨t, ts⟩
  · left
    refine ⟨?_, hidle, fun t ht => absurd ht List.not_mem_nil⟩
    rw [turn, hlist]
  · rw [hlist] at honce hbefore hsorted hseconds
    obtain ⟨ht, hts⟩ := List.forall_mem_cons.mp hbefore
    obtain ⟨hfirst, hrest⟩ := List.pairwise_cons.mp hsorted
    have hless : timeLessThan now t.time = true ↔ now.toNat < t.time.toNat :=
      timeLessThan_iff (by omega) (by omega)
    by_cases hdue : now.toNat < t.time.toNat
    · left
      refine ⟨?_, hidle, fun u hu => ?_⟩
      · rw [turn, hlist]
        exact if_pos (hless.mpr hdue)
      · rcases List.mem_cons.mp hu with rfl | hu
        · exact hdue
        · exact hdue.trans_le (hfirst u hu)
    · right
      have hturn : turn now pcbs (nowAt n) s =
          (t.h.call pcbs (nowAt n) ⟨ts, t.time, s.tcpipTcpTimerActive⟩).map fun s' =>
            ⟨s', some now, t.h.tmr :: s.calls⟩ := by
        rw [turn, hlist]
        exact if_neg fun h => hdue (hless.mp h)
      have hcall : ∃ s', t.h.call pcbs (nowAt n) ⟨ts, t.time, s.tcpipTcpTimerActive⟩ = some s' ∧
          Rearms pcbs (nowAt n) t ts s'.nextTimeout ∧
          Inv ⟨s', some now, t.h.tmr :: s.calls⟩ := by
        obtain ⟨time, h⟩ := t
        rw [List.map_cons] at honce
        rcases hh : h with - | - | - <;> rw [Handler.call, Handler.tmr]
        · rw [hh] at honce
          exact tcpipTcpTimer_inv hts hrest hcalls hlt n pcbs honce fun u hu =>
            hseconds u (List.mem_cons_of_mem _ hu)
        · -- `tcp_tmr` is never in the list as a cyclic timer
          have hmem := honce.subset (List.mem_cons_self ..)
          rw [hh, pending] at hmem
          split_ifs at hmem <;> simp at hmem
        · rw [hh] at honce
          exact lwipCyclicTimer_inv hts hrest hcalls hlt n pcbs honce
            (hseconds ⟨time, h⟩ (List.mem_cons_self ..) hh) (not_lt.mp hdue)
      obtain ⟨s', heq, hrearms, hinv⟩ := hcall
      refine ⟨t, ts, s', rfl, not_lt.mp hdue, ?_, hrearms, hinv⟩
      rw [hturn, heq, Option.map_some]

theorem tcpTimerNeeded_inv (hinv : Inv s) (n : ℕ) (pcbs : Bool) :
    ∃ s', tcpTimerNeeded pcbs (nowAt n) s.toState = some s' ∧ Inv { s with toState := s' } ∧
      ∀ t ∈ s.nextTimeout, t ∈ s'.nextTimeout := by
  have hn := nowAt_lt n
  rw [tcpTimerNeeded]
  by_cases hstart : (!s.tcpipTcpTimerActive && pcbs) = true
  · have hadd : (nowAt n + BitVec.ofNat 32 250).toNat = (nowAt n).toNat + 250 :=
      toNat_add_ofNat (by omega) (by norm_num)
    have hoff : s.tcpipTcpTimerActive = false := by
      rw [Bool.and_eq_true, Bool.not_eq_true'] at hstart
      exact hstart.1
    have honce := hinv.once
    rw [hoff] at honce
    have hfull : (Handler.tcpipTcpTimer :: s.nextTimeout.map SysTimeo.h).Perm (pending true) :=
      (honce.cons _).trans (List.Perm.swap ..)
    obtain ⟨harm, hinv'⟩ := sysTimeoutAbs_inv { s.toState with tcpipTcpTimerActive := true } s.now
      s.calls (nowAt n + BitVec.ofNat 32 250) .tcpipTcpTimer hfull hinv.before hinv.sorted
      hinv.seconds hinv.calls hinv.reading (by omega) (fun h => by cases h)
    refine ⟨_, ?_, hinv', fun t ht => (List.mem_orderedInsert _).mpr (.inr ht)⟩
    rw [if_pos hstart]
    exact (if_pos (by decide)).trans harm
  · exact ⟨s.toState, if_neg hstart, hinv, fun t ht => ht⟩

theorem step_inv (hinv : Inv s) (a : Act) : ∃ s', step s a = some s' ∧ Inv s' := by
  cases a with
  | check n =>
    refine ⟨_, rfl, hinv.once, hinv.before, hinv.sorted, hinv.seconds, hinv.calls, fun r hr => ?_⟩
    rcases hnow : s.now with - | now
    · simp only [hnow] at hr
      cases hr
      exact nowAt_lt n
    · simp only [hnow] at hr
      refine hinv.reading r ?_
      rwa [hnow]
  | loop n pcbs =>
    rcases hnow : s.now with - | now
    · refine ⟨s, ?_, hinv⟩
      rw [step, hnow, Option.elim_none]
    · rw [step, hnow, Option.elim_some]
      obtain ⟨heq, hinv', -⟩ | ⟨t, ts, s', -, -, heq, -, hinv'⟩ := turn_inv hinv hnow n pcbs
      · exact ⟨_, heq, hinv'⟩
      · exact ⟨_, heq, hinv'⟩
  | needed n pcbs =>
    obtain ⟨s', heq, hinv', -⟩ := tcpTimerNeeded_inv hinv n pcbs
    refine ⟨_, ?_, hinv'⟩
    rw [step, heq, Option.map_some]

theorem Rearms.subset {pcbs : Bool} {now : BitVec 32} {t : SysTimeo} {ts l : List SysTimeo}
    (h : Rearms pcbs now t ts l) : ∀ u ∈ ts, u ∈ l := by
  intro u hu
  obtain ⟨-, -, rfl⟩ | ⟨time, rfl, -⟩ := h
  · exact hu
  · exact (List.mem_orderedInsert _).mpr (.inr hu)

theorem Inv.handler (hinv : Inv s) {t : SysTimeo} (ht : t ∈ s.nextTimeout) :
    t.h = .lwipCyclicTimer .etharpTmr ∨ t.h = .tcpipTcpTimer := by
  have hmem := hinv.once.subset (List.mem_map_of_mem ht)
  rw [pending] at hmem
  split_ifs at hmem
  · simpa using hmem
  · exact .inl (List.mem_singleton.mp hmem)

theorem Inv.head_ne (hinv : Inv s) {t u : SysTimeo} {ts : List SysTimeo}
    (hlist : s.nextTimeout = t :: ts) (hu : u ∈ ts) : t.h ≠ u.h := by
  have hnodup : (pending s.tcpipTcpTimerActive).Nodup := by
    rw [pending]
    split_ifs <;> decide
  have hmap := hinv.once.nodup_iff.mpr hnodup
  rw [hlist, List.map_cons, List.nodup_cons] at hmap
  intro heq
  exact hmap.1 (heq ▸ List.mem_map_of_mem hu)

theorem step_stuck (hinv : Inv s) {t : SysTimeo} (ht : t ∈ s.nextTimeout)
    (hh : t.h = .tcpipTcpTimer) (hlate : 85900 ≤ t.time.toNat) {a : Act} {s' : Sys}
    (hstep : step s a = some s') :
    t ∈ s'.nextTimeout ∧ s'.calls.count .tcpTmr = s.calls.count .tcpTmr := by
  cases a with
  | check n =>
    cases hstep
    exact ⟨ht, rfl⟩
  | loop n pcbs =>
    rcases hnow : s.now with - | now
    · rw [step, hnow, Option.elim_none] at hstep
      cases hstep
      exact ⟨ht, rfl⟩
    · rw [step, hnow, Option.elim_some] at hstep
      have hlt := hinv.reading now (by rw [hnow]; rfl)
      obtain ⟨heq, -, -⟩ | ⟨u, us, s'', hlist, hdue, heq, hrearms, -⟩ := turn_inv hinv hnow n pcbs
      · cases hstep.symm.trans heq
        exact ⟨ht, rfl⟩
      · cases hstep.symm.trans heq
        have hmem : t ∈ us := by
          rw [hlist] at ht
          rcases List.mem_cons.mp ht with rfl | ht
          · omega
          · exact ht
        have harp : u.h = .lwipCyclicTimer .etharpTmr := by
          have hu : u ∈ s.nextTimeout := by
            rw [hlist]
            exact List.mem_cons_self ..
          exact (hinv.handler hu).resolve_right fun h => hinv.head_ne hlist hmem (h.trans hh.symm)
        refine ⟨hrearms.subset t hmem, ?_⟩
        rw [harp]
        rfl
  | needed n pcbs =>
    obtain ⟨s'', heq, -, hsub⟩ := tcpTimerNeeded_inv hinv n pcbs
    rw [step, heq, Option.map_some] at hstep
    cases hstep
    exact ⟨hsub t ht, rfl⟩

theorem run_inv (hinv : Inv s) (acts : List Act) : ∃ s', run s acts = some s' ∧ Inv s' := by
  induction acts generalizing s with
  | nil => exact ⟨s, rfl, hinv⟩
  | cons a acts ih =>
    obtain ⟨s', heq, hinv'⟩ := step_inv hinv a
    obtain ⟨s'', hrun, hinv''⟩ := ih hinv'
    refine ⟨s'', ?_, hinv''⟩
    rw [run, List.foldlM_cons, heq]
    exact hrun

end Steps

/-- Whatever the clock reads and whatever becomes of the connections, no call finds the pool
of timeouts empty: `etharp_tmr` is in the list once, `tcp_tmr` once while it is active. -/
theorem timeouts_run (n : ℕ) (acts : List Act) :
    ∃ s₀ s, boot n = some s₀ ∧ run s₀ acts = some s ∧
      (s.nextTimeout.map SysTimeo.h).Perm (pending s.tcpipTcpTimerActive) := by
  obtain ⟨s₀, hboot, hinv₀⟩ := boot_inv n
  obtain ⟨s, hrun, hinv⟩ := run_inv hinv₀ acts
  exact ⟨s₀, s, hboot, hrun, hinv.once⟩

section Runs
variable {n : ℕ} {acts : List Act} {s₀ s : Sys}

theorem inv_of_run (hboot : boot n = some s₀) (hrun : run s₀ acts = some s) : Inv s := by
  obtain ⟨s₁, hboot', hinv₁⟩ := boot_inv n
  cases hboot.symm.trans hboot'
  obtain ⟨s₂, hrun', hinv₂⟩ := run_inv hinv₁ acts
  cases hrun.symm.trans hrun'
  exact hinv₂

def connected (n m : ℕ) (now : Option (BitVec 32)) : Sys :=
  ⟨⟨[⟨nowAt n + BitVec.ofNat 32 1000, .lwipCyclicTimer .etharpTmr⟩].orderedInsert earlier
    ⟨nowAt m + BitVec.ofNat 32 250, .tcpipTcpTimer⟩, 0, true⟩, now, []⟩

theorem boot_eq (n : ℕ) : boot n = some ⟨⟨[⟨nowAt n + BitVec.ofNat 32 1000,
    .lwipCyclicTimer .etharpTmr⟩], 0, false⟩, none, []⟩ := rfl

theorem run_connected (n m k : ℕ) :
    run ⟨⟨[⟨nowAt n + BitVec.ofNat 32 1000, .lwipCyclicTimer .etharpTmr⟩], 0, false⟩, none, []⟩
      [.needed m true, .check k] = some (connected n m (some (nowAt k))) := rfl

/-- A turn of `sys_check_timeouts` calls a handler that is due, or returns with nothing left
that was due when it was entered. -/
theorem check_turn (hboot : boot n = some s₀) (hrun : run s₀ acts = some s) {now : BitVec 32}
    (hnow : s.now = some now) {tick : ℕ} {pcbs : Bool} {s' : Sys}
    (hstep : step s (.loop tick pcbs) = some s') :
    (s'.now = none ∧ s'.calls = s.calls ∧ ∀ t ∈ s'.nextTimeout, now.toNat < t.time.toNat) ∨
    ∃ t ∈ s.nextTimeout, t.time.toNat ≤ now.toNat ∧ s'.calls = t.h.tmr :: s.calls ∧
      s'.now = some now := by
  rw [step, hnow, Option.elim_some] at hstep
  obtain ⟨heq, -, hleft⟩ | ⟨t, ts, u, hlist, hdue, heq, -, -⟩ :=
    turn_inv (inv_of_run hboot hrun) hnow tick pcbs
  · cases hstep.symm.trans heq
    exact .inl ⟨rfl, rfl, hleft⟩
  · cases hstep.symm.trans heq
    refine .inr ⟨t, ?_, hdue, rfl, rfl⟩
    rw [hlist]
    exact List.mem_cons_self ..

theorem armed_connected (n m : ℕ) (now : Option (BitVec 32)) :
    ⟨nowAt m + BitVec.ofNat 32 250, .tcpipTcpTimer⟩ ∈ (connected n m now).nextTimeout :=
  (List.mem_orderedInsert _).mpr (.inl rfl)

theorem mem_connected {n m : ℕ} {now : Option (BitVec 32)} {t : SysTimeo}
    (ht : t ∈ (connected n m now).nextTimeout) (hh : t.h = .lwipCyclicTimer .etharpTmr) :
    t.time = nowAt n + BitVec.ofNat 32 1000 := by
  rcases (List.mem_orderedInsert _).mp ht with rfl | ht
  · cases hh
  · rw [List.mem_singleton.mp ht]

theorem toNat_nowAt_add (n : ℕ) {m : ℕ} (hm : m ≤ 1000) :
    (nowAt n + BitVec.ofNat 32 m).toNat = n % 2^32 / 50000 + m := by
  rw [toNat_add_ofNat ((nowAt_lt n).trans (by norm_num)) hm, nowAt_toNat]

theorem check_turn_connected : ∃ k s', (nowAt k).toNat = 250 ∧
    step (connected 0 0 (some (nowAt k))) (.loop k true) = some s' ∧
    ∃ t ∈ (connected 0 0 (some (nowAt k))).nextTimeout, t.time.toNat ≤ (nowAt k).toNat ∧
      s'.calls = [t.h.tmr] ∧ s'.now = some (nowAt k) := by
  obtain ⟨k, hk⟩ : ∃ k, (nowAt k).toNat = 250 := ⟨12500000, by rw [nowAt_toNat]; norm_num⟩
  have hdue : (nowAt 0 + BitVec.ofNat 32 250).toNat ≤ (nowAt k).toNat := by
    rw [toNat_nowAt_add _ (by norm_num), hk]
    norm_num
  have hinv := inv_of_run (boot_eq 0) (run_connected 0 0 k)
  obtain ⟨-, -, hleft⟩ | ⟨t, ts, s', -, -, heq, -, -⟩ := turn_inv hinv rfl k true
  · exact absurd (hleft _ (armed_connected ..)) (not_lt.mpr hdue)
  · refine ⟨k, _, hk, heq, (check_turn (boot_eq 0) (run_connected 0 0 k) rfl heq).resolve_left ?_⟩
    rintro ⟨hnone, -, -⟩
    cases hnone

/-- Once `tcp_tmr` has been armed in the last 250 ms before the clock starts over, it is never
called again: what the list then holds for it is never due, and stays. -/
theorem tcpTmr_stops (hboot : boot n = some s₀) (hrun : run s₀ acts = some s) {t : SysTimeo}
    (ht : t ∈ s.nextTimeout) (hh : t.h = .tcpipTcpTimer) (hlate : 85900 ≤ t.time.toNat)
    {acts' : List Act} {s' : Sys} (hrun' : run s acts' = some s') :
    t ∈ s'.nextTimeout ∧ s'.calls.count .tcpTmr = s.calls.count .tcpTmr := by
  have hinv := inv_of_run hboot hrun
  clear hboot hrun
  induction acts' generalizing s with
  | nil =>
    cases hrun'
    exact ⟨ht, rfl⟩
  | cons a acts' ih =>
    obtain ⟨s₁, hstep, hinv₁⟩ := step_inv hinv a
    rw [run, List.foldlM_cons, hstep] at hrun'
    obtain ⟨ht₁, hcount⟩ := step_stuck hinv ht hh hlate hstep
    obtain ⟨ht', hcount'⟩ := ih ht₁ hrun' hinv₁
    exact ⟨ht', hcount'.trans hcount⟩

theorem tcpTmr_stops_connected :
    ∃ s', run (connected 0 4285000000 (some (nowAt 4290000000))) [.loop 4290000000 true] = some s' ∧
      s'.calls.count .tcpTmr = 0 := by
  have hlate : 85900 ≤ (nowAt 4285000000 + BitVec.ofNat 32 250).toNat := by
    rw [toNat_nowAt_add _ (by norm_num)]
    norm_num
  have hrun := run_connected 0 4285000000 4290000000
  obtain ⟨s', hrun', -⟩ := run_inv (inv_of_run (boot_eq 0) hrun) [.loop 4290000000 true]
  exact ⟨s', hrun', (tcpTmr_stops (boot_eq 0) hrun (armed_connected ..) rfl hlate hrun').2⟩

/-- If the clock starts over while `sys_check_timeouts` is running, the call does not return
before the clock has come round again to 250 ms before where it was: every reading before
that makes `tcp_tmr` due at once. -/
theorem tcpTmr_storm (hboot : boot n = some s₀) (hrun : run s₀ acts = some s) {now : BitVec 32}
    (hnow : s.now = some now) (hdue : ∃ t ∈ s.nextTimeout, t.h = .tcpipTcpTimer ∧
      t.time.toNat ≤ now.toNat)
    (harp : ∀ t ∈ s.nextTimeout, t.h = .lwipCyclicTimer .etharpTmr → now.toNat < t.time.toNat)
    {ticks : List ℕ} (hticks : ∀ k ∈ ticks, (nowAt k).toNat + 250 ≤ now.toNat) :
    ∃ s', run s (ticks.map fun k => .loop k true) = some s' ∧ s'.now = some now ∧
      s'.calls = List.replicate ticks.length .tcpTmr ++ s.calls := by
  have hinv := inv_of_run hboot hrun
  clear hboot hrun
  induction ticks generalizing s with
  | nil => exact ⟨s, rfl, hnow, rfl⟩
  | cons k ticks ih =>
    obtain ⟨hk, hticks⟩ := List.forall_mem_cons.mp hticks
    obtain ⟨t, ht, hh, htime⟩ := hdue
    obtain ⟨-, -, hleft⟩ | ⟨u, us, s₁, hlist, hdue', heq, hrearms, hinv₁⟩ :=
      turn_inv hinv hnow k true
    · exact absurd (hleft t ht) (not_lt.mpr htime)
    · have hu : u ∈ s.nextTimeout := by
        rw [hlist]
        exact List.mem_cons_self ..
      have htcp : u.h = .tcpipTcpTimer :=
        (hinv.handler hu).resolve_left fun h => absurd (harp u hu h) (not_lt.mpr hdue')
      obtain ⟨-, hoff, -⟩ | ⟨time, hl, hagain⟩ := hrearms
      · cases hoff
      have hadd : (nowAt k + BitVec.ofNat 32 250).toNat = (nowAt k).toNat + 250 :=
        toNat_add_ofNat ((nowAt_lt k).trans (by norm_num)) (by norm_num)
      have hdue₁ : ∃ v ∈ s₁.nextTimeout, v.h = .tcpipTcpTimer ∧ v.time.toNat ≤ now.toNat := by
        refine ⟨⟨time, u.h⟩, ?_, htcp, ?_⟩
        · rw [hl]
          exact (List.mem_orderedInsert _).mpr (.inl rfl)
        · rw [hagain htcp, hadd]
          exact hk
      have harp₁ : ∀ v ∈ s₁.nextTimeout, v.h = .lwipCyclicTimer .etharpTmr →
          now.toNat < v.time.toNat := by
        intro v hv hvh
        rw [hl] at hv
        rcases (List.mem_orderedInsert _).mp hv with rfl | hv
        · cases htcp.symm.trans hvh
        · refine harp v ?_ hvh
          rw [hlist]
          exact List.mem_cons_of_mem _ hv
      obtain ⟨s', hrun', hnow', hcalls'⟩ := ih rfl hdue₁ harp₁ hticks hinv₁
      refine ⟨s', ?_, hnow', ?_⟩
      · rw [List.map_cons, run, List.foldlM_cons, step, hnow, Option.elim_some, heq]
        exact hrun'
      · rw [hcalls', htcp, List.length_cons, List.replicate_succ', List.append_assoc]
        rfl

theorem tcpTmr_storm_connected :
    ∃ s', run (connected 4250000000 4250000000 (some (nowAt 4294950000)))
        ([2^32, 2^32 + 50000].map fun k => .loop k true) = some s' ∧
      s'.now = some (nowAt 4294950000) ∧ s'.calls.count .tcpTmr = 2 := by
  have hdue : (nowAt 4250000000 + BitVec.ofNat 32 250).toNat ≤ (nowAt 4294950000).toNat := by
    rw [toNat_nowAt_add _ (by norm_num), nowAt_toNat]
    norm_num
  have harp : ∀ t ∈ (connected 4250000000 4250000000 (some (nowAt 4294950000))).nextTimeout,
      t.h = .lwipCyclicTimer .etharpTmr → (nowAt 4294950000).toNat < t.time.toNat := by
    intro t ht hh
    rw [mem_connected ht hh, toNat_nowAt_add _ le_rfl, nowAt_toNat]
    norm_num
  have hticks : ∀ k ∈ [2^32, 2^32 + 50000], (nowAt k).toNat + 250 ≤ (nowAt 4294950000).toNat := by
    intro k hk
    rw [nowAt_toNat, nowAt_toNat]
    rcases List.mem_cons.mp hk with rfl | hk
    · norm_num
    · rw [List.mem_singleton.mp hk]
      norm_num
  obtain ⟨s', hrun, hnow, hcalls⟩ := tcpTmr_storm (boot_eq 4250000000)
    (run_connected 4250000000 4250000000 4294950000) rfl ⟨_, armed_connected .., rfl, hdue⟩ harp
    hticks
  refine ⟨s', hrun, hnow, ?_⟩
  rw [hcalls, connected, List.append_nil, List.count_replicate_self]
  rfl

theorem etharpTmr_calls (hboot : boot n = some s₀) (hrun : run s₀ acts = some s) :
    s.calls.count .etharpTmr ≤ 85 :=
  (inv_of_run hboot hrun).calls

theorem timeLessThan_ofNat {a b : ℕ} (ha : a < 2^31) (hb : b < 2^31) :
    timeLessThan (BitVec.ofNat 32 a) (BitVec.ofNat 32 b) = decide (a < b) := by
  have hle : ∀ {c : ℕ}, c < 2^31 → (BitVec.ofNat 32 c).toNat = c := fun hc => by
    rw [BitVec.toNat_ofNat, Nat.mod_eq_of_lt (by omega)]
  rw [Bool.eq_iff_iff, timeLessThan_iff (by rw [hle ha]; exact ha) (by rw [hle hb]; exact hb),
    hle ha, hle hb, decide_eq_true_iff]

/-- A check in every second, until the clock starts over. -/
def everySecond (seconds : ℕ) : List Act :=
  (List.range seconds).flatMap fun i =>
    [.check ((i+1) * 50000000), .loop ((i+1) * 50000000) false, .loop ((i+1) * 50000000) false]

def afterSeconds (i : ℕ) : Sys :=
  ⟨⟨[⟨BitVec.ofNat 32 (1000 * (i+1)), .lwipCyclicTimer .etharpTmr⟩], BitVec.ofNat 32 (1000 * i),
    false⟩, none, List.replicate i .etharpTmr⟩

theorem run_second {i : ℕ} (hi : i < 85) :
    run (afterSeconds i) [.check ((i+1) * 50000000), .loop ((i+1) * 50000000) false,
      .loop ((i+1) * 50000000) false] = some (afterSeconds (i+1)) := by
  have hnow : nowAt ((i+1) * 50000000) = BitVec.ofNat 32 (1000 * (i+1)) := by
    apply BitVec.eq_of_toNat_eq
    rw [nowAt_toNat, BitVec.toNat_ofNat, Nat.mod_eq_of_lt (by omega), Nat.mod_eq_of_lt (by omega)]
    omega
  have hnext : BitVec.ofNat 32 (1000 * (i+1)) + BitVec.ofNat 32 1000 =
      BitVec.ofNat 32 (1000 * (i+1+1)) := by
    rw [← BitVec.ofNat_add]
    rfl
  have hdue : timeLessThan (BitVec.ofNat 32 (1000 * (i+1))) (BitVec.ofNat 32 (1000 * (i+1))) =
      false := by
    rw [timeLessThan_ofNat (by omega) (by omega)]
    simp
  have hearly : timeLessThan (BitVec.ofNat 32 (1000 * (i+1+1))) (BitVec.ofNat 32 (1000 * (i+1))) =
      false := by
    rw [timeLessThan_ofNat (by omega) (by omega)]
    simp
  have hlater : timeLessThan (BitVec.ofNat 32 (1000 * (i+1))) (BitVec.ofNat 32 (1000 * (i+1+1))) =
      true := by
    rw [timeLessThan_ofNat (by omega) (by omega)]
    simp
  simp [run, step, turn, afterSeconds, Handler.call, lwipCyclicTimer, sysTimeoutAbs,
    CyclicTimer.intervalMs, Handler.tmr, hnow, hnext, hdue, hearly, hlater, List.replicate_succ]

theorem run_everySecond {i : ℕ} (hi : i ≤ 85) :
    run (afterSeconds 0) (everySecond i) = some (afterSeconds i) := by
  induction i with
  | zero => rfl
  | succ i ih =>
    have hsplit : everySecond (i+1) = everySecond i ++ [.check ((i+1) * 50000000),
        .loop ((i+1) * 50000000) false, .loop ((i+1) * 50000000) false] := by
      rw [everySecond, List.range_succ, List.flatMap_append]
      rfl
    rw [hsplit, run, List.foldlM_append]
    change (run (afterSeconds 0) (everySecond i)).bind _ = _
    rw [ih (by omega), Option.bind_some]
    exact run_second hi

theorem etharpTmr_calls_everySecond :
    ∃ s, boot 0 = some (afterSeconds 0) ∧ run (afterSeconds 0) (everySecond 85) = some s ∧
      s.calls.count .etharpTmr = 85 ∧ s.calls.count .etharpTmr ≤ 85 := by
  have hboot : boot 0 = some (afterSeconds 0) := rfl
  have hrun := run_everySecond (le_refl 85)
  exact ⟨_, hboot, hrun, List.count_replicate_self .., etharpTmr_calls hboot hrun⟩

end Runs

end EthernetSoc.Timeouts
