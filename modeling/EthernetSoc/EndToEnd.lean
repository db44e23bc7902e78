import EthernetSoc.SatHost
import EthernetSoc.SatRecv

/-!
# From a clause list to a verdict

The host encodes a clause list, the firmware and the solver answer the packet,
and the host reads the verdict off the reply. `carried` is what is left of the
clause list once every field has been cut to its width and the packet to the
receive buffer; the device answers for that formula. Within the limits it is
the clause list itself, and beyond them the verdict is right exactly when the
two happen to be satisfiable together.
-/

namespace EthernetSoc.EndToEnd
open WireFormat SatHost SatTcp

structure WithinLimits (nVars : ℕ) (clauses : Clauses) : Prop where
  vars : 1 ≤ nVars ∧ nVars ≤ maxVars
  count : 1 ≤ clauses.length ∧ clauses.length ≤ maxClauses
  width : ∀ clause ∈ clauses, clause.length ≤ clauseLen
  lits : ∀ clause ∈ clauses, ∀ lit ∈ clause, lit ≠ 0 ∧ lit.natAbs ≤ nVars

instance (nVars : ℕ) (clauses : Clauses) : Decidable (WithinLimits nVars clauses) :=
  decidable_of_iff
    ((1 ≤ nVars ∧ nVars ≤ maxVars) ∧ (1 ≤ clauses.length ∧ clauses.length ≤ maxClauses) ∧
      (∀ clause ∈ clauses, clause.length ≤ clauseLen) ∧
      ∀ clause ∈ clauses, ∀ lit ∈ clause, lit ≠ 0 ∧ lit.natAbs ≤ nVars)
    ⟨fun h => ⟨h.1, h.2.1, h.2.2.1, h.2.2.2⟩, fun h => ⟨h.vars, h.count, h.width, h.lits⟩⟩

def Satisfiable (clauses : Clauses) : Prop := ∃ v, satisfies v clauses = true

def assignment (a : ℕ) : ℕ → Bool := fun k => a.testBit (k-1)

/-! ## What the packet carries -/

def HeaderFits (nVars : ℕ) (clauses : Clauses) : Prop :=
  (1 ≤ nVars % 256 ∧ nVars % 256 ≤ maxVars) ∧
    (1 ≤ clauses.length % 256 ∧ clauses.length % 256 ≤ maxClauses)

instance (nVars : ℕ) (clauses : Clauses) : Decidable (HeaderFits nVars clauses) :=
  inferInstanceAs (Decidable (_ ∧ _))

/-- The clauses the device loads from the packet of a clause list. -/
def carried (clauses : Clauses) : List Cnf.Clause :=
  formula (clauses.length % 256) ((wireTokens clauses).take (bufSize - 3))

def CarriedSatisfiable (nVars : ℕ) (clauses : Clauses) : Prop :=
  ∃ a < 2 ^ (nVars % 256), Cnf.eval a.testBit (carried clauses) = true

theorem headerByte (k : ℕ) :
    (BitVec.ofNat 8 (k &&& 0xFF)).toNat = k % 256 ∧
      (BitVec.ofNat 8 (k &&& 0xFF) ≠ 0 ↔ 1 ≤ k % 256) := by
  have hval : (BitVec.ofNat 8 (k &&& 0xFF)).toNat = k % 256 := by
    rw [BitVec.toNat_ofNat, show k &&& 0xFF = k % 256 from Nat.and_two_pow_sub_one_eq_mod k 8]
    exact Nat.mod_mod k 256
  refine ⟨hval, ?_⟩
  rw [ne_eq, ← BitVec.toNat_inj, hval]
  change ¬ k % 256 = 0 ↔ _
  omega

theorem replyTo_header (n m : ℕ) {body : List Byte} (hbody : body ≠ []) :
    replyTo (protoStart :: BitVec.ofNat 8 (n &&& 0xFF) :: BitVec.ofNat 8 (m &&& 0xFF) :: body) =
      if (1 ≤ n % 256 ∧ n % 256 ≤ maxVars) ∧ (1 ≤ m % 256 ∧ m % 256 ≤ maxClauses) then
        some (response (n % 256)
          (leastModel (n % 256) (formula (m % 256) ((body.map tokenOf).take (bufSize - 3)))))
      else none := by
  obtain ⟨hn, hn0⟩ := headerByte n
  obtain ⟨hm, hm0⟩ := headerByte m
  have hbuf : (protoStart :: BitVec.ofNat 8 (n &&& 0xFF) :: BitVec.ofNat 8 (m &&& 0xFF) ::
      body).take bufSize = protoStart :: BitVec.ofNat 8 (n &&& 0xFF) ::
        BitVec.ofNat 8 (m &&& 0xFF) :: body.take (bufSize - 3) := rfl
  have hlen : 1 ≤ (body.take (bufSize - 3)).length := by
    have hpos := List.length_pos_iff.mpr hbody
    rw [List.length_take]
    exact le_min (by norm_num) hpos
  have hacc : Accepted (protoStart :: BitVec.ofNat 8 (n &&& 0xFF) ::
      BitVec.ofNat 8 (m &&& 0xFF) :: body.take (bufSize - 3)) ↔
      (1 ≤ n % 256 ∧ n % 256 ≤ maxVars) ∧ (1 ≤ m % 256 ∧ m % 256 ≤ maxClauses) := by
    rw [Accepted, and_iff_right (by simp only [List.length_cons]; omega)]
    simp only [List.getD_cons_zero, List.getD_cons_succ, hn, hm, hn0, hm0, true_and]
  simp only [replyTo, hbuf, hacc, List.getD_cons_zero, List.getD_cons_succ, hn, hm,
    List.drop_succ_cons, List.drop_zero, List.map_take]

theorem encodeBody_ne_nil (clauses : Clauses) : encodeBody clauses ≠ [] := by
  simp [encodeBody]

theorem replyTo_encodePacket (nVars : ℕ) (clauses : Clauses) :
    replyTo (encodePacket nVars clauses) =
      if HeaderFits nVars clauses then
        some (response (nVars % 256) (leastModel (nVars % 256) (carried clauses)))
      else none := by
  rw [encodePacket, replyTo_header _ _ (encodeBody_ne_nil clauses), map_tokenOf_encodeBody]
  rfl

theorem carriedSatisfiable_iff (nVars : ℕ) (clauses : Clauses) :
    CarriedSatisfiable nVars clauses ↔ leastModel (nVars % 256) (carried clauses) ≠ none := by
  rw [← Option.isSome_iff_ne_none, leastModel, Cnf.least_isSome_iff]
  rfl

/-! ## Within the limits -/

namespace WithinLimits
variable {nVars : ℕ} {clauses : Clauses}

theorem small (h : WithinLimits nVars clauses) :
    ∀ clause ∈ clauses, ∀ lit ∈ clause, lit ≠ 0 ∧ lit.natAbs ≤ 16 := by
  intro clause hc lit hl
  have hlit := h.lits clause hc lit hl
  have hvars : 1 ≤ nVars ∧ nVars ≤ 10 := h.vars
  exact ⟨hlit.1, by omega⟩

theorem length_wireTokens (h : WithinLimits nVars clauses) : (wireTokens clauses).length ≤ 221 := by
  have hsum : (clauses.map fun clause => clause.length + 1).sum ≤ clauses.length * 11 := by
    have hle := List.sum_le_card_nsmul (clauses.map fun clause => clause.length + 1) 11
      (by simpa [Nat.lt_succ_iff] using h.width)
    simpa using hle
  have hcount : clauses.length ≤ 20 := h.count.2
  simp only [wireTokens, List.length_append, List.length_flatMap, List.length_map,
    List.length_singleton]
  omega

theorem headerFits (h : WithinLimits nVars clauses) : HeaderFits nVars clauses := by
  have hvars : 1 ≤ nVars ∧ nVars ≤ 10 := h.vars
  have hcount : 1 ≤ clauses.length ∧ clauses.length ≤ 20 := h.count
  refine ⟨?_, ?_⟩ <;> rw [Nat.mod_eq_of_lt (by omega)]
  · exact hvars
  · exact hcount

theorem carried_eq (h : WithinLimits nVars clauses) : carried clauses = cnf clauses := by
  have hcount : 1 ≤ clauses.length ∧ clauses.length ≤ 20 := h.count
  have hlen := h.length_wireTokens
  rw [carried, Nat.mod_eq_of_lt (by omega), List.take_of_length_le (hlen.trans (by norm_num)),
    formula_wireTokens h.small h.width]

theorem replyTo_eq (h : WithinLimits nVars clauses) :
    replyTo (encodePacket nVars clauses) =
      some (response nVars (leastModel nVars (cnf clauses))) := by
  have hvars : 1 ≤ nVars ∧ nVars ≤ 10 := h.vars
  rw [replyTo_encodePacket, if_pos h.headerFits, h.carried_eq, Nat.mod_eq_of_lt (by omega)]

theorem satisfies_assignment (h : WithinLimits nVars clauses) (a : ℕ) :
    satisfies (assignment a) clauses = Cnf.eval a.testBit (cnf clauses) :=
  satisfies_eq_eval _ fun clause hc lit hl => (h.lits clause hc lit hl).1

theorem satisfiable_iff (h : WithinLimits nVars clauses) :
    Satisfiable clauses ↔ ∃ a < 2^nVars, satisfies (assignment a) clauses = true := by
  have hbelow : Cnf.Below nVars (cnf clauses) := by
    intro c hc x hx
    obtain ⟨clause, hcl, rfl⟩ := List.mem_map.mp hc
    obtain ⟨lit, hl, rfl⟩ := List.mem_map.mp hx
    have hlit := h.lits clause hcl lit hl
    change lit.natAbs - 1 < nVars
    omega
  have hne : ∀ clause ∈ clauses, ∀ lit ∈ clause, lit ≠ 0 :=
    fun clause hc lit hl => (h.lits clause hc lit hl).1
  simp only [h.satisfies_assignment, ← Cnf.satisfiable_iff_exists_lt hbelow]
  constructor
  · intro hs
    obtain ⟨v, hv⟩ := hs
    exact ⟨fun i => v (i+1), by rw [← hv, satisfies_eq_eval v hne]⟩
  · intro hs
    obtain ⟨v, hv⟩ := hs
    exact ⟨fun k => v (k-1), by rw [← hv, satisfies_eq_eval _ hne]; rfl⟩

theorem leastModel_eq_none_iff (h : WithinLimits nVars clauses) :
    leastModel nVars (cnf clauses) = none ↔ ¬ Satisfiable clauses := by
  rw [leastModel, Cnf.least_eq_none_iff, h.satisfiable_iff]
  simp [h.satisfies_assignment]

theorem leastModel_eq_some_iff (h : WithinLimits nVars clauses) {a : ℕ} :
    leastModel nVars (cnf clauses) = some a ↔
      IsLeast {b | b < 2^nVars ∧ satisfies (assignment b) clauses = true} a := by
  rw [leastModel, Cnf.least_eq_some_iff]
  simp only [h.satisfies_assignment]

end WithinLimits

theorem bytes_ne_nil {nVars : ℕ} {clauses : Clauses} {p : List Pbuf}
    (hp : Pbuf.bytes p = encodePacket nVars clauses) : p ≠ [] := by
  intro h
  rw [h, Pbuf.bytes_nil, encodePacket] at hp
  cases hp

/-- For a formula within the limits, whatever the state of the slave, the split
of the packet into buffers and the timing of the bus, one reply is sent, and it
decodes to `UNSAT` or to the least model as the formula has it. -/
theorem solves_within_limits (env : Env) {fuel : ℕ} (hfuel : 2 ^ maxVars ≤ fuel)
    (s : SatSlave.State) {nVars : ℕ} {clauses : Clauses} (h : WithinLimits nVars clauses)
    {p : List Pbuf} (hp : Pbuf.bytes p = encodePacket nVars clauses) :
    ∃ s' calls r, satRecv env fuel s p errOk = some (s', calls) ∧ sent calls = [r] ∧
      (decodeResponse r nVars = .unsat ↔ ¬ Satisfiable clauses) ∧
      (Satisfiable clauses → ∃ a,
        IsLeast {b | b < 2^nVars ∧ satisfies (assignment b) clauses = true} a ∧
        decodeResponse r nVars =
          .sat ((List.range nVars).map fun i => (key (i+1), a.testBit i))) := by
  have hvars : nVars ≤ 10 := h.vars.2
  obtain ⟨s', calls, hrun, hsent, _⟩ := satRecv_spec env hfuel s (bytes_ne_nil hp)
  rw [hp, h.replyTo_eq] at hsent
  have hdec := decodeResponse_response (show nVars ≤ 126 by omega) nVars
    (leastModel nVars (cnf clauses))
  refine ⟨s', calls, _, hrun, hsent, ?_, ?_⟩
  · rw [hdec, ← h.leastModel_eq_none_iff]
    cases leastModel nVars (cnf clauses) <;> simp
  · intro hs
    cases ho : leastModel nVars (cnf clauses) with
    | none => exact absurd hs (h.leastModel_eq_none_iff.mp ho)
    | some a =>
      rw [ho] at hdec
      exact ⟨a, h.leastModel_eq_some_iff.mp ho, hdec⟩

def promptEnv : Env := ⟨[⟨⟨false, false, false, 0, 0⟩, rfl⟩], by simp, fun _ => ⟨[], none⟩, []⟩

theorem enough_fuel : 2 ^ maxVars ≤ 1024 := le_rfl

def cutPacket : List Pbuf :=
  [⟨[0xAA, 2], by decide⟩, ⟨[2, 0x01, 0x82, 0x00, 0x02, 0x00, 0xFF], by decide⟩]

theorem solves_within_limits_two_clauses :
    ∃ s' calls r, satRecv promptEnv 1024 SatSlave.State.reset cutPacket errOk = some (s', calls) ∧
      sent calls = [r] ∧ decodeResponse r 2 = .sat [(key 1, true), (key 2, true)] := by
  have hlim : WithinLimits 2 [[1, -2], [2]] := by decide
  obtain ⟨s', calls, r, hrun, hsent, _, hsat⟩ := solves_within_limits promptEnv enough_fuel
    SatSlave.State.reset hlim (p := cutPacket) rfl
  obtain ⟨a, ha, hdec⟩ := hsat ⟨fun _ => true, rfl⟩
  have hleast : IsLeast {b | b < 2^2 ∧ satisfies (assignment b) [[1, -2], [2]] = true} 3 := by
    refine ⟨⟨by norm_num, rfl⟩, ?_⟩
    intro b hb
    obtain ⟨hb4, hs⟩ := hb
    interval_cases b <;> revert hs <;> decide
  rw [ha.unique hleast] at hdec
  exact ⟨s', calls, r, hrun, hsent, hdec⟩

/-! ## Beyond the limits -/

def verdict : Result → Option Bool
  | .sat _ => some true
  | .unsat => some false
  | .timeout => none
  | .error _ => none

theorem solve_unsat {m : ℕ} {sock : Sock} (hs : sock.bytes = response m none) (nVars : ℕ) :
    solve nVars sock = .unsat := by
  obtain ⟨t, ht, hbytes, _⟩ := recvExact_cons hs
  obtain ⟨u, hu, _⟩ := recvExact_cons hbytes
  simp only [solve, ht, if_true, hu]
  rfl

theorem verdict_solve_sat {m a : ℕ} {sock : Sock} (hs : sock.bytes = response m (some a))
    (nVars : ℕ) :
    verdict (solve nVars sock) =
      if nVars ≤ m ∨ sock.closed = true then some true else none := by
  have hcons : sock.bytes = respSat ::
      ((List.range m).map (fun i => assignByte i (a.testBit i)) ++ [protoEnd]) := hs
  rw [solve_sat hcons]
  simp only [List.length_append, List.length_map, List.length_range, List.length_singleton,
    add_le_add_iff_right]
  split <;> rfl

/-- No reply is sent, or the verdict the host takes from it is the right one,
however the reply is cut on its way. -/
def VerdictRight (nVars : ℕ) (clauses : Clauses) (calls : List PcbCall) : Prop :=
  sent calls = [] ∨ ∃ r, sent calls = [r] ∧ ∀ sock : Sock, sock.bytes = r →
    ∃ b, verdict (solve nVars sock) = some b ∧ (b = true ↔ Satisfiable clauses)

theorem verdictRight_response_iff {nVars m : ℕ} {clauses : Clauses} {calls : List PcbCall}
    {o : Option ℕ} (h : sent calls = [response m o]) :
    VerdictRight nVars clauses calls ↔
      (o ≠ none ↔ Satisfiable clauses) ∧ (o ≠ none → nVars ≤ m) := by
  have hne : response m o ≠ [] := by cases o <;> simp [response]
  constructor
  · intro hright
    rcases hright with hnil | ⟨r, hr, hall⟩
    · simp [h] at hnil
    obtain rfl : response m o = r := by simpa [h] using hr
    -- a peer that keeps the connection open
    have hopen : (⟨[⟨response m o, hne⟩], false⟩ : Sock).bytes = response m o := by
      simp [Sock.bytes]
    obtain ⟨b, hb, hsat⟩ := hall _ hopen
    cases o with
    | none =>
      rw [solve_unsat hopen] at hb
      obtain rfl : false = b := Option.some.inj hb
      simpa using hsat
    | some a =>
      rw [verdict_solve_sat hopen] at hb
      by_cases hn : nVars ≤ m
      · simp only [hn, true_or, if_true, Option.some.injEq] at hb
        simp [← hsat, ← hb, hn]
      · simp [hn] at hb
  · intro hcond
    refine Or.inr ⟨_, h, ?_⟩
    intro sock hs
    cases o with
    | none => exact ⟨false, by rw [solve_unsat hs]; rfl, by simpa using hcond.1⟩
    | some a =>
      exact ⟨true, by rw [verdict_solve_sat hs, if_pos (Or.inl (hcond.2 (by simp)))],
        by simpa using hcond.1⟩

/-- Whatever the clause list, the verdict is right exactly when the header is
refused, or when the carried formula is satisfiable just if the clause list is
and the host does not wait for more variables than the header byte holds. -/
theorem verdictRight_iff (env : Env) {fuel : ℕ} (hfuel : 2 ^ maxVars ≤ fuel)
    (s : SatSlave.State) (nVars : ℕ) (clauses : Clauses) {p : List Pbuf}
    (hp : Pbuf.bytes p = encodePacket nVars clauses) :
    ∃ s' calls, satRecv env fuel s p errOk = some (s', calls) ∧
      (VerdictRight nVars clauses calls ↔
        (HeaderFits nVars clauses →
          (CarriedSatisfiable nVars clauses ↔ Satisfiable clauses) ∧
            (CarriedSatisfiable nVars clauses → nVars < 256))) := by
  obtain ⟨s', calls, hrun, hsent, _⟩ := satRecv_spec env hfuel s (bytes_ne_nil hp)
  refine ⟨s', calls, hrun, ?_⟩
  rw [hp, replyTo_encodePacket] at hsent
  by_cases hfit : HeaderFits nVars clauses
  · rw [if_pos hfit] at hsent
    have hbyte : nVars ≤ nVars % 256 ↔ nVars < 256 := by omega
    rw [verdictRight_response_iff hsent, ← carriedSatisfiable_iff, hbyte]
    simp only [hfit, true_imp_iff]
  · rw [if_neg hfit] at hsent
    exact ⟨fun _ h => absurd h hfit, fun _ => Or.inl hsent⟩

def extraVariable : Pbuf := ⟨[0xAA, 1, 1, 0x01, 0x02, 0x00, 0xFF], by decide⟩

theorem verdictRight_extra_variable :
    ∃ s' calls, satRecv promptEnv 1024 SatSlave.State.reset [extraVariable] errOk =
        some (s', calls) ∧
      VerdictRight 1 [[1, 2]] calls := by
  obtain ⟨s', calls, hrun, hiff⟩ := verdictRight_iff promptEnv enough_fuel SatSlave.State.reset
    1 [[1, 2]] (p := [extraVariable]) rfl
  have hcarried : CarriedSatisfiable 1 [[1, 2]] := ⟨1, by norm_num, by decide⟩
  have hsat : Satisfiable [[1, 2]] := ⟨fun _ => true, rfl⟩
  exact ⟨s', calls, hrun, hiff.mpr fun _ => ⟨iff_of_true hcarried hsat, fun _ => by norm_num⟩⟩

def undeclaredVariable : Pbuf := ⟨[0xAA, 1, 1, 0x02, 0x00, 0xFF], by decide⟩

/-- The clause `x2` in a formula declared over one variable: the device never
sets the variable, and the host is told that the clause has no model. -/
theorem wrong_verdict_undeclared_variable :
    ¬ WithinLimits 1 [[2]] ∧ Satisfiable [[2]] ∧
      Pbuf.bytes [undeclaredVariable] = encodePacket 1 [[2]] ∧
      ∃ s' calls, satRecv promptEnv 1024 SatSlave.State.reset [undeclaredVariable] errOk =
          some (s', calls) ∧
        sent calls = [[0x00, 0xFF]] ∧
        (∀ sock : Sock, sock.bytes = [0x00, 0xFF] → solve 1 sock = .unsat) ∧
        ¬ VerdictRight 1 [[2]] calls := by
  have hsat : Satisfiable [[2]] := ⟨fun _ => true, rfl⟩
  refine ⟨by decide, hsat, rfl, ?_⟩
  obtain ⟨s', calls, hrun, hsent, _⟩ := satRecv_spec promptEnv enough_fuel SatSlave.State.reset
    (p := [undeclaredVariable]) (by simp)
  have hreply : sent calls = [response 1 none] := by
    rw [hsent]
    decide
  refine ⟨s', calls, hrun, hreply, fun sock hs => solve_unsat (m := 1) hs 1, ?_⟩
  rw [verdictRight_response_iff hreply]
  intro h
  exact h.1.mpr hsat rfl

end EthernetSoc.EndToEnd
