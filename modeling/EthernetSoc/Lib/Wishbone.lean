import Mathlib.Tactic

/-!
# Classic Wishbone targets with a registered acknowledge

A target is a clocked component that raises `ack` for one cycle after each
cycle in which a strobe meets a low `ack`. A classic master drives its request
lines from the first cycle of a transaction until the first cycle in which it
sees `ack`, and drops the strobe in that cycle or after it. `Run` is one target
and one such master in lockstep, over unboundedly many cycles; `transact` is
the same handshake read as one complete bus access.
-/

namespace EthernetSoc.Wishbone
variable {σ A D : Type*}

structure Bus (A D : Type*) where
  cyc : Bool
  stb : Bool
  we : Bool
  adr : A
  datW : D

def Bus.strobe (b : Bus A D) : Bool := b.cyc && b.stb

/-- A target whose next `ack` is the strobe guarded by the present `ack`.
Read data are combinational in the state and the address lines. -/
structure Target (σ A D : Type*) where
  ack : σ → Bool
  step : σ → Bus A D → σ
  datR : σ → A → D
  ack_step : ∀ s b, ack (step s b) = (b.strobe && !ack s)

structure Request (A D : Type*) where
  we : Bool
  adr : A
  datW : D

def Request.lines (r : Request A D) : Bus A D := ⟨true, true, r.we, r.adr, r.datW⟩

@[simp] theorem Request.strobe_lines (r : Request A D) : r.lines.strobe = true := rfl
@[simp] theorem Request.we_lines (r : Request A D) : r.lines.we = r.we := rfl
@[simp] theorem Request.adr_lines (r : Request A D) : r.lines.adr = r.adr := rfl
@[simp] theorem Request.datW_lines (r : Request A D) : r.lines.datW = r.datW := rfl

theorem Request.lines_injective : Function.Injective (Request.lines (A := A) (D := D)) := by
  rintro ⟨w, a, d⟩ ⟨w', a', d'⟩ h
  simpa [Request.lines] using h

def Idle (A D : Type*) := {b : Bus A D // b.strobe = false}

/-! ## One target and one master in lockstep -/

inductive Master (A D : Type*)
  | idle
  | waiting (r : Request A D)

/-- What a classic master may drive in one cycle, given the `ack` it sees in
that cycle, and the state in which the cycle leaves it. -/
inductive Drives : Master A D → Bool → Bus A D → Master A D → Prop
  | rest {ack : Bool} {b : Bus A D} : b.strobe = false → Drives .idle ack b .idle
  | request (r : Request A D) (ack : Bool) :
      Drives .idle ack r.lines (if ack then .idle else .waiting r)
  | hold (r : Request A D) : Drives (.waiting r) false r.lines (.waiting r)
  | finish (r : Request A D) : Drives (.waiting r) true r.lines .idle
  | release (r : Request A D) {b : Bus A D} : b.strobe = false → Drives (.waiting r) true b .idle

structure Run (t : Target σ A D) (s : σ) where
  state : ℕ → σ
  master : ℕ → Master A D
  bus : ℕ → Bus A D
  state_zero : state 0 = s
  master_zero : master 0 = .idle
  state_succ : ∀ n, state (n+1) = t.step (state n) (bus n)
  master_succ : ∀ n, Drives (master n) (t.ack (state n)) (bus n) (master (n+1))

namespace Run
variable {t : Target σ A D} {s : σ} (u : Run t s)

def Begins (n : ℕ) (r : Request A D) : Prop := u.master n = .idle ∧ u.bus n = r.lines

def Acked (n : ℕ) (r : Request A D) : Prop :=
  u.master n = .waiting r ∧ t.ack (u.state n) = true

theorem ack_succ (n : ℕ) :
    t.ack (u.state (n+1)) = ((u.bus n).strobe && !t.ack (u.state n)) := by
  rw [u.state_succ, t.ack_step]

theorem not_ack_consecutive (n : ℕ) (h : t.ack (u.state n) = true) :
    t.ack (u.state (n+1)) = false := by
  simp [u.ack_succ, h]

/-- Between transactions `ack` is low, and while a request waits it is high:
the request cycle itself always falls before the acknowledge. -/
theorem phase (hs : t.ack s = false) (n : ℕ) :
    (u.master n = .idle ∧ t.ack (u.state n) = false) ∨
    ∃ r, u.master n = .waiting r ∧ t.ack (u.state n) = true := by
  induction n with
  | zero => exact Or.inl ⟨u.master_zero, by rw [u.state_zero, hs]⟩
  | succ n ih =>
    have hack := u.ack_succ n
    have hd := u.master_succ n
    rcases ih with ⟨hm, ha⟩ | ⟨r, hm, ha⟩
    · rw [hm, ha] at hd
      rw [ha] at hack
      generalize hb : u.bus n = b at hd hack
      generalize hm' : u.master (n+1) = m' at hd
      cases hd with
      | rest hi => exact Or.inl ⟨rfl, by simp [hack, hi]⟩
      | request r => exact Or.inr ⟨r, rfl, by simp [hack]⟩
    · rw [hm, ha] at hd
      refine Or.inl ⟨?_, u.not_ack_consecutive n ha⟩
      generalize hb : u.bus n = b at hd
      generalize hm' : u.master (n+1) = m' at hd
      cases hd with
      | finish => rfl
      | release => rfl

theorem begins_ack (hs : t.ack s = false) {n : ℕ} {r : Request A D} (h : u.Begins n r) :
    t.ack (u.state n) = false := by
  rcases u.phase hs n with ⟨_, ha⟩ | ⟨r', hm, _⟩
  · exact ha
  · simp [h.1] at hm

theorem acked_of_begins (hs : t.ack s = false) {n : ℕ} {r : Request A D} (h : u.Begins n r) :
    u.Acked (n+1) r := by
  have ha := u.begins_ack hs h
  have hd := u.master_succ n
  rw [h.1, h.2, ha] at hd
  refine ⟨?_, by simp [u.ack_succ, h.2, ha]⟩
  generalize hb : r.lines = b at hd
  generalize hm' : u.master (n+1) = m' at hd
  cases hd with
  | rest hi => simp [← hb] at hi
  | request r' => rw [Request.lines_injective hb]; rfl

theorem begins_of_ack (hs : t.ack s = false) {n : ℕ} (h : t.ack (u.state n) = true) :
    ∃ m r, n = m+1 ∧ u.Begins m r ∧ u.Acked n r := by
  cases n with
  | zero => rw [u.state_zero, hs] at h; cases h
  | succ m =>
    have hack := (u.ack_succ m).symm.trans h
    obtain ⟨hb, ha⟩ : (u.bus m).strobe = true ∧ t.ack (u.state m) = false := by
      simpa only [Bool.and_eq_true, Bool.not_eq_true'] using hack
    rcases u.phase hs m with ⟨hm, _⟩ | ⟨r, _, ha'⟩
    · have hd := u.master_succ m
      rw [hm] at hd
      generalize hbus : u.bus m = b at hd hb
      generalize hnext : u.master (m+1) = m' at hd
      cases hd with
      | rest hi => rw [hi] at hb; cases hb
      | request r => exact ⟨m, r, rfl, ⟨hm, hbus⟩, u.acked_of_begins hs ⟨hm, hbus⟩⟩
    · rw [ha] at ha'; cases ha'

theorem acked_iff_begins (hs : t.ack s = false) (n : ℕ) (r : Request A D) :
    u.Acked (n+1) r ↔ u.Begins n r := by
  constructor
  · intro h
    obtain ⟨m, r', hn, hb, ha⟩ := u.begins_of_ack hs h.2
    obtain rfl : n = m := by omega
    have hr : r = r' := by
      have he := h.1.symm.trans ha.1
      simpa using he
    exact hr ▸ hb
  · exact u.acked_of_begins hs

theorem idle_of_acked (hs : t.ack s = false) {n : ℕ} {r : Request A D} (h : u.Acked n r) :
    u.master (n+1) = .idle := by
  rcases u.phase hs (n+1) with ⟨hm, _⟩ | ⟨_, _, ha⟩
  · exact hm
  · rw [u.not_ack_consecutive n h.2] at ha; cases ha

theorem begins_or_quiet (hs : t.ack s = false) (n : ℕ) :
    (∃ r, u.Begins n r ∧ t.ack (u.state n) = false) ∨
    ((u.bus n).strobe && !t.ack (u.state n)) = false := by
  cases hq : (u.bus n).strobe && !t.ack (u.state n) with
  | false => exact Or.inr rfl
  | true =>
    have ha : t.ack (u.state (n+1)) = true := by rw [u.ack_succ, hq]
    obtain ⟨m, r, hn, hb, _⟩ := u.begins_of_ack hs ha
    obtain rfl : n = m := by omega
    exact Or.inl ⟨r, hb, u.begins_ack hs hb⟩

/-- Each transaction is acknowledged in the cycle after its first and nowhere
else. -/
theorem handshake (hs : t.ack s = false) :
    (∀ n r, u.Begins n r → t.ack (u.state n) = false ∧ u.Acked (n+1) r ∧
      u.master (n+2) = .idle) ∧
    (∀ n, t.ack (u.state n) = true →
      (∃ m r, n = m+1 ∧ u.Begins m r ∧ u.Acked n r) ∧ t.ack (u.state (n+1)) = false) := by
  refine ⟨?_, ?_⟩
  · intro n r h
    have ha := u.acked_of_begins hs h
    exact ⟨u.begins_ack hs h, ha, u.idle_of_acked hs ha⟩
  · intro n h
    exact ⟨u.begins_of_ack hs h, u.not_ack_consecutive n h⟩

def writes : ℕ → List (A × D)
  | 0 => []
  | n+1 => writes n ++
      match t.ack (u.state (n+1)), u.master (n+1) with
      | true, .waiting r => if r.we then [(r.adr, r.datW)] else []
      | _, _ => []

theorem writes_succ_of_begins (hs : t.ack s = false) {n : ℕ} {r : Request A D}
    (h : u.Begins n r) :
    u.writes (n+1) = u.writes n ++ if r.we then [(r.adr, r.datW)] else [] := by
  obtain ⟨hm, ha⟩ := u.acked_of_begins hs h
  simp only [writes, hm, ha]

theorem writes_succ_of_quiet {n : ℕ}
    (h : ((u.bus n).strobe && !t.ack (u.state n)) = false) : u.writes (n+1) = u.writes n := by
  have ha : t.ack (u.state (n+1)) = false := by rw [u.ack_succ, h]
  simp only [writes, ha, List.append_nil]

end Run

section BackToBack
variable (t : Target σ A D) (s : σ) (req : ℕ → Request A D)

def backToBackState : ℕ → σ
  | 0 => s
  | n+1 => t.step (backToBackState n) (req (n / 2)).lines

theorem ack_backToBackState (hs : t.ack s = false) (n : ℕ) :
    t.ack (backToBackState t s req n) = decide (n % 2 = 1) := by
  induction n with
  | zero => exact hs
  | succ n ih =>
    rw [backToBackState, t.ack_step, ih, Request.strobe_lines, Bool.true_and, ← decide_not,
      decide_eq_decide]
    omega

/-- The master that begins its next request in the cycle after an acknowledge. -/
def backToBack (hs : t.ack s = false) : Run t s where
  state := backToBackState t s req
  master n := if n % 2 = 1 then .waiting (req (n / 2)) else .idle
  bus n := (req (n / 2)).lines
  state_zero := rfl
  master_zero := rfl
  state_succ _ := rfl
  master_succ n := by
    rw [ack_backToBackState t s req hs]
    rcases Nat.mod_two_eq_zero_or_one n with heven | hodd
    · rw [if_neg (by omega), if_pos (by omega), decide_eq_false (by omega),
        show (n + 1) / 2 = n / 2 by omega]
      exact .request (req (n / 2)) false
    · rw [if_pos hodd, if_neg (by omega), decide_eq_true hodd]
      exact .finish (req (n / 2))

end BackToBack

def lastWrite [DecidableEq A] (ws : List (A × D)) (a : A) : Option D :=
  ((ws.filter fun w => w.1 = a).getLast?).map Prod.snd

theorem lastWrite_append_singleton [DecidableEq A] (ws : List (A × D)) (a b : A) (d : D) :
    lastWrite (ws ++ [(b, d)]) a = if b = a then some d else lastWrite ws a := by
  by_cases h : b = a <;> simp [lastWrite, List.filter_append, h]

/-! ## One complete access -/

/-- When an access is made: the cycles the bus spends elsewhere before the
strobe, and whether the strobe is dropped in the acknowledge cycle itself. -/
structure Timing (A D : Type*) where
  wait : List (Idle A D)
  release : Option (Idle A D)

def Timing.last (w : Timing A D) (r : Request A D) : Bus A D :=
  match w.release with
  | none => r.lines
  | some b => b.1

namespace Target
variable (t : Target σ A D)

def idle (s : σ) (gap : List (Idle A D)) : σ := gap.foldl (fun s b => t.step s b.1) s

def drive (r : Request A D) (s : σ) : σ :=
  if t.ack s then s else drive r (t.step s r.lines)
termination_by if t.ack s then 0 else 1
decreasing_by simp_all [t.ack_step]

/-- One access: the idle cycles, the held request, and the acknowledge cycle
in which read data are sampled. -/
def transact (w : Timing A D) (r : Request A D) (s : σ) : σ × D :=
  let s := t.drive r (t.idle s w.wait)
  (t.step s (w.last r), t.datR s r.adr)

@[simp] theorem idle_cons (s : σ) (b : Idle A D) (gap : List (Idle A D)) :
    t.idle s (b :: gap) = t.idle (t.step s b.1) gap := rfl

theorem ack_idle_step (s : σ) (b : Idle A D) : t.ack (t.step s b.1) = false := by
  rw [t.ack_step, b.2]
  rfl

theorem ack_idle {s : σ} (h : t.ack s = false) (gap : List (Idle A D)) :
    t.ack (t.idle s gap) = false := by
  induction gap generalizing s with
  | nil => exact h
  | cons b gap ih => exact ih (t.ack_idle_step s b)

theorem ack_idle_of_ne {gap : List (Idle A D)} (h : gap ≠ []) (s : σ) :
    t.ack (t.idle s gap) = false := by
  cases gap with
  | nil => exact absurd rfl h
  | cons b gap => exact t.ack_idle (t.ack_idle_step s b) gap

theorem drive_of_not_ack {s : σ} (h : t.ack s = false) (r : Request A D) :
    t.drive r s = t.step s r.lines := by
  have hnext : t.ack (t.step s r.lines) = true := by simp [t.ack_step, h]
  rw [drive, h, if_neg (by simp), drive, if_pos hnext]

theorem ack_drive (r : Request A D) (s : σ) : t.ack (t.drive r s) = true := by
  cases h : t.ack s with
  | true => rw [drive, if_pos h, h]
  | false => rw [t.drive_of_not_ack h, t.ack_step, h]; rfl

theorem ack_transact (w : Timing A D) (r : Request A D) (s : σ) :
    t.ack (t.transact w r s).1 = false := by
  simp [transact, t.ack_step, t.ack_drive]

def Lockstep (x y : Master A D × σ) : Prop :=
  ∃ b, Drives x.1 (t.ack x.2) b y.1 ∧ y.2 = t.step x.2 b

theorem idle_lockstep (s : σ) (gap : List (Idle A D)) :
    Relation.ReflTransGen t.Lockstep (.idle, s) (.idle, t.idle s gap) := by
  induction gap generalizing s with
  | nil => exact .refl
  | cons b gap ih => exact .head ⟨b.1, .rest b.2, rfl⟩ (ih _)

theorem transact_lockstep {s : σ} (h : t.ack s = false) (w : Timing A D) (r : Request A D) :
    Relation.ReflTransGen t.Lockstep (.idle, s) (.idle, (t.transact w r s).1) := by
  have hwait := t.ack_idle h w.wait
  have hdrive := t.drive_of_not_ack hwait r
  have hack := t.ack_drive r (t.idle s w.wait)
  have hrequest : t.Lockstep (.idle, t.idle s w.wait)
      (.waiting r, t.drive r (t.idle s w.wait)) := by
    refine ⟨r.lines, ?_, hdrive⟩
    rw [hwait]
    exact .request r false
  have hlast : t.Lockstep (.waiting r, t.drive r (t.idle s w.wait))
      (.idle, (t.transact w r s).1) := by
    refine ⟨w.last r, ?_, rfl⟩
    rw [hack, Timing.last]
    cases w.release with
    | none => exact .finish r
    | some b => exact .release r b.2
  exact ((t.idle_lockstep s w.wait).tail hrequest).tail hlast

end Target
end EthernetSoc.Wishbone
