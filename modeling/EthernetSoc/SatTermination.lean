import EthernetSoc.SatRecv

/-!
# Every poll ends

The search stops when the candidate equals the bound, so a counter that starts
past the bound has to wrap around to it. The measure is the cyclic distance from
the candidate to the bound: a cycle that does not end the search lowers it by
one, whatever the literals are in that cycle. Only the number of variables has
to be held.
-/

namespace EthernetSoc.BruteForceSat

def cycle (s : Regs) (i : ℕ → Inputs) : ℕ → Regs
  | 0 => s
  | t+1 => step (cycle s i t) (i t)

/-- No start pulse and a constant number of variables; the clause count and the
literals are free in every cycle. -/
structure Held (i : ℕ → Inputs) (n : BitVec 4) : Prop where
  start : ∀ t, (i t).start = false
  nVars : ∀ t, (i t).nVars = n

def bound (n : BitVec 4) : BitVec maxVars := BitVec.ofNat maxVars ((1 <<< n.toNat) - 1)

def distance (s : Regs) (n : BitVec 4) : ℕ := (bound n - s.assignment).toNat

theorem Held.maxAssign {i : ℕ → Inputs} {n : BitVec 4} (h : Held i n) (t : ℕ) :
    maxAssign (i t) = bound n := by
  rw [BruteForceSat.maxAssign, h.nVars, bound]

theorem Held.shift {i : ℕ → Inputs} {n : BitVec 4} (h : Held i n) : Held (fun t => i (t+1)) n :=
  ⟨fun t => h.start (t+1), fun t => h.nVars (t+1)⟩

theorem cycle_succ (s : Regs) (i : ℕ → Inputs) (t : ℕ) :
    cycle s i (t+1) = cycle (step s (i 0)) (fun t => i (t+1)) t := by
  induction t with
  | zero => rfl
  | succ t ih =>
    rw [cycle, ih]
    rfl

theorem cycle_stopped {s : Regs} {i : ℕ → Inputs} {n : BitVec 4} (h : Held i n)
    (hs : s.running = false) (t : ℕ) : cycle s i t = s := by
  induction t with
  | zero => rfl
  | succ t ih => rw [cycle, ih, step_stopped (h.start t) hs]

theorem distance_succ {a m : BitVec 10} (h : a ≠ m) :
    (m - (a + 1)).toNat + 1 = (m - a).toNat := by
  bv_omega

/-- One running cycle either ends the search or brings the candidate one step
closer to the bound. -/
theorem step_approaches {s : Regs} {i : Inputs} {n : BitVec 4} (hi : i.start = false)
    (hm : maxAssign i = bound n) (hr : s.running = true) :
    (step s i).cyclesR = s.cyclesR + 1 ∧
    (((step s i).running = false ∧ (step s i).doneR = true) ∨
      ((step s i).running = true ∧ distance (step s i) n + 1 = distance s n)) := by
  cases ha : allSat s i with
  | true =>
    rw [step_found hi hr ha]
    exact ⟨rfl, Or.inl ⟨rfl, rfl⟩⟩
  | false =>
    by_cases hlast : s.assignment = maxAssign i
    · rw [step_exhausted hi hr ha hlast]
      exact ⟨rfl, Or.inl ⟨rfl, rfl⟩⟩
    · rw [step_next hi hr ha hlast]
      rw [hm] at hlast
      exact ⟨rfl, Or.inr ⟨hr, distance_succ hlast⟩⟩

structure Ends (s : Regs) (i : ℕ → Inputs) (k : ℕ) : Prop where
  busy : ∀ j < k, (cycle s i j).running = true
  count : ∀ j ≤ k, (cycle s i j).cyclesR = s.cyclesR + BitVec.ofNat 20 j
  done : (cycle s i k).doneR = true ∧ (cycle s i k).running = false
  rest : ∀ j, k ≤ j → cycle s i j = cycle s i k

theorem ends_one {s : Regs} {i : ℕ → Inputs} {n : BitVec 4} (h : Held i n)
    (hr : s.running = true) (hcount : (step s (i 0)).cyclesR = s.cyclesR + 1)
    (hstop : (step s (i 0)).running = false) (hdone : (step s (i 0)).doneR = true) :
    Ends s i 1 := by
  have hrest (j : ℕ) : cycle s i (j+1) = step s (i 0) := by
    rw [cycle_succ, cycle_stopped h.shift hstop]
  refine ⟨?_, ?_, ?_, ?_⟩
  · intro j hj
    obtain rfl : j = 0 := by omega
    exact hr
  · intro j hj
    cases j with
    | zero => simp [cycle]
    | succ j =>
      obtain rfl : j = 0 := by omega
      exact hcount
  · rw [hrest 0]
    exact ⟨hdone, hstop⟩
  · intro j hj
    obtain ⟨t, rfl⟩ : ∃ t, j = t+1 := ⟨j-1, by omega⟩
    rw [hrest, hrest 0]

theorem Ends.succ {s : Regs} {i : ℕ → Inputs} {k : ℕ} (hr : s.running = true)
    (hcount : (step s (i 0)).cyclesR = s.cyclesR + 1)
    (h : Ends (step s (i 0)) (fun t => i (t+1)) k) : Ends s i (k+1) := by
  refine ⟨?_, ?_, ?_, ?_⟩
  · intro j hj
    cases j with
    | zero => exact hr
    | succ j =>
      rw [cycle_succ]
      exact h.busy j (by omega)
  · intro j hj
    cases j with
    | zero => simp [cycle]
    | succ j =>
      rw [cycle_succ, h.count j (by omega), hcount, BitVec.ofNat_add, BitVec.add_assoc,
        BitVec.add_comm (1 : BitVec 20)]
      rfl
  · rw [cycle_succ]
    exact h.done
  · intro j hj
    obtain ⟨t, rfl⟩ : ∃ t, j = t+1 := ⟨j-1, by omega⟩
    rw [cycle_succ, cycle_succ]
    exact h.rest t (by omega)

theorem ends_of_running {s : Regs} {i : ℕ → Inputs} {n : BitVec 4} (h : Held i n)
    (hr : s.running = true) : ∃ k ≤ distance s n + 1, Ends s i k := by
  induction hd : distance s n generalizing s i with
  | zero =>
    obtain ⟨hcount, ⟨hstop, hdone⟩ | ⟨_, hdist⟩⟩ :=
      step_approaches (h.start 0) (h.maxAssign 0) hr
    · exact ⟨1, le_rfl, ends_one h hr hcount hstop hdone⟩
    · omega
  | succ d ih =>
    obtain ⟨hcount, ⟨hstop, hdone⟩ | ⟨hrun, hdist⟩⟩ :=
      step_approaches (h.start 0) (h.maxAssign 0) hr
    · exact ⟨1, by omega, ends_one h hr hcount hstop hdone⟩
    · obtain ⟨k, hk, hends⟩ := ih h.shift hrun (by omega)
      exact ⟨k+1, by omega, hends.succ hr hcount⟩

theorem distance_fresh (n : BitVec 4) : distance fresh n + 1 = 2 ^ min n.toNat maxVars := by
  have hmax := maxAssign_toNat ⟨false, n, 0, fun _ _ => 0, fun _ _ => false, fun _ _ => false⟩
  have hpos : 0 < 2 ^ min n.toNat maxVars := Nat.two_pow_pos _
  change (bound n).toNat = 2 ^ min n.toNat maxVars - 1 at hmax
  rw [distance, show fresh.assignment = 0#10 from rfl, BitVec.sub_zero, hmax]
  omega

end EthernetSoc.BruteForceSat

namespace EthernetSoc.SatTcp
open BruteForceSat (Regs Inputs Held Ends cycle)

/-- From every register state with a search running, under arbitrary clauses, the
search ends within 1024 cycles; one begun by a start pulse ends within the number
of its candidates and is counted without wrap-around; so the callback returns
after at most 1024 polls, for every chain, every state of the slave and every
timing. -/
theorem done_poll_ends :
    (∀ (s : Regs) (i : ℕ → Inputs) (n : BitVec 4), s.running = true → Held i n →
      ∃ k ≤ 1024, ∀ j, k ≤ j → (cycle s i j).doneR = true ∧ (cycle s i j).running = false) ∧
    (∀ (env : Env) (fuel : ℕ) (s : SatSlave.State) (p : List Pbuf), 1024 ≤ fuel →
      ∃ s' calls, satRecv env fuel s p errOk = some (s', calls)) ∧
    (∀ (s : Regs) (pulse : Inputs) (i : ℕ → Inputs) (n : BitVec 4), pulse.start = true →
      Held i n → ∃ k ≤ 2 ^ min n.toNat BruteForceSat.maxVars,
        (∀ j < k, (cycle (BruteForceSat.step s pulse) i j).running = true) ∧
        (∀ j ≤ k, (cycle (BruteForceSat.step s pulse) i j).cyclesR.toNat = j) ∧
        ∀ j, k ≤ j → (cycle (BruteForceSat.step s pulse) i j).doneR = true ∧
          (cycle (BruteForceSat.step s pulse) i j).running = false ∧
          (cycle (BruteForceSat.step s pulse) i j).cyclesR.toNat = k) := by
  refine ⟨?_, ?_, ?_⟩
  · intro s i n hr h
    obtain ⟨k, hk, hends⟩ := BruteForceSat.ends_of_running h hr
    have hlt : BruteForceSat.distance s n < 2^10 := BitVec.isLt _
    refine ⟨k, by omega, fun j hj => ?_⟩
    rw [hends.rest j hj]
    exact hends.done
  · intro env fuel s p hfuel
    exact satRecv_returns env hfuel s p
  · intro s pulse i n hp h
    rw [BruteForceSat.step_start s hp]
    obtain ⟨k, hk, hends⟩ := BruteForceSat.ends_of_running h (s := BruteForceSat.fresh) rfl
    rw [BruteForceSat.distance_fresh] at hk
    have hle : k ≤ 2^10 := hk.trans (Nat.pow_le_pow_right (by norm_num) (min_le_right _ _))
    have hcount : ∀ j ≤ k, (cycle BruteForceSat.fresh i j).cyclesR.toNat = j := by
      intro j hj
      rw [hends.count j hj, show BruteForceSat.fresh.cyclesR = 0#20 from rfl, BitVec.zero_add,
        BitVec.toNat_ofNat, Nat.mod_eq_of_lt (by omega)]
    refine ⟨k, hk, hends.busy, hcount, fun j hj => ?_⟩
    rw [hends.rest j hj]
    exact ⟨hends.done.1, hends.done.2, hcount k le_rfl⟩

end EthernetSoc.SatTcp
