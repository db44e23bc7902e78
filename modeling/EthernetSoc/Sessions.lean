import EthernetSoc.EndToEnd

/-!
# Sequences of deliveries

lwIP hands the data of all connections to one callback, call after call. A
delivery is one such call, and a run is the calls in the order in which they
are made. Seen from outside the device is stateless: the replies of a run are
`replyTo` of the delivered byte strings, one by one, because the slave is
quiescent between calls and an accepted request rewrites everything a reply
depends on. For a packet that arrives in pieces this means that only the first
piece is looked at.
-/

namespace EthernetSoc.Sessions
open WireFormat SatHost SatTcp EndToEnd

structure Delivery where
  env : Env
  chain : List Pbuf
  err : ℤ

/-- The reply a stateless server would give. -/
def Delivery.reply (d : Delivery) : Option (List Byte) :=
  if d.err = errOk then replyTo (Pbuf.bytes d.chain) else none

def run (fuel : ℕ) (s : SatSlave.State) : List Delivery → Option (SatSlave.State × List PcbCall)
  | [] => some (s, [])
  | d :: ds =>
    match satRecv d.env fuel s d.chain d.err with
    | none => none
    | some (s, calls) =>
      match run fuel s ds with
      | none => none
      | some (s, rest) => some (s, calls ++ rest)

theorem sent_append (calls rest : List PcbCall) : sent (calls ++ rest) = sent calls ++ sent rest :=
  List.filterMap_append

section Run
variable {fuel : ℕ} (hfuel : 2 ^ maxVars ≤ fuel)
include hfuel

theorem delivery_spec (s : SatSlave.State) (d : Delivery) :
    ∃ s' calls, satRecv d.env fuel s d.chain d.err = some (s', calls) ∧
      sent calls = d.reply.toList ∧
      (Quiescent s → Quiescent s' ∧ (d.reply = none → s' = s)) := by
  by_cases hclose : d.err ≠ errOk ∨ d.chain = []
  · refine ⟨_, _, by rw [satRecv, if_pos hclose], ?_, ?_⟩
    · have hnone : d.reply = none := by
        rcases hclose with herr | hnull
        · exact if_neg herr
        · rw [Delivery.reply, hnull, show replyTo (Pbuf.bytes []) = none from rfl, ite_self]
      rw [hnone]
      rfl
    · intro hq
      rw [idle_of_quiescent hq]
      exact ⟨hq, fun _ => rfl⟩
  · push Not at hclose
    obtain ⟨herr, hne⟩ := hclose
    obtain ⟨s', calls, hrun, hsent, hacc, hrej⟩ := satRecv_spec d.env hfuel s hne
    have hreply : d.reply = replyTo (Pbuf.bytes d.chain) := if_pos herr
    refine ⟨s', calls, by rw [herr, hrun], by rw [hsent, hreply], ?_⟩
    intro hq
    by_cases ha : Accepted ((Pbuf.bytes d.chain).take bufSize)
    · refine ⟨hacc ha, ?_⟩
      rw [hreply, replyTo, if_pos ha]
      intro h
      cases h
    · rw [hrej ha, idle_of_quiescent hq]
      exact ⟨hq, fun _ => rfl⟩

theorem run_spec (s : SatSlave.State) (ds : List Delivery) :
    ∃ s' calls, run fuel s ds = some (s', calls) ∧
      sent calls = ds.flatMap (fun d => d.reply.toList) ∧ (Quiescent s → Quiescent s') := by
  induction ds generalizing s with
  | nil => exact ⟨s, [], rfl, rfl, id⟩
  | cons d ds ih =>
    obtain ⟨s₁, calls, hcall, hsent, hq⟩ := delivery_spec hfuel s d
    obtain ⟨s₂, rest, hrun, hrest, hq'⟩ := ih s₁
    refine ⟨s₂, calls ++ rest, by simp only [run, hcall, hrun], ?_, fun h => hq' (hq h).1⟩
    rw [sent_append, hsent, hrest, List.flatMap_cons]

end Run

theorem quiescent_reset : Quiescent SatSlave.State.reset := ⟨⟨rfl, rfl⟩, rfl⟩

/-- After any two histories the same bytes get the same reply, however they are
buffered and whatever the bus timing, and bytes whose header is refused leave
every register of the slave and of the solver as it was. -/
theorem requests_independent {fuel : ℕ} (hfuel : 2 ^ maxVars ≤ fuel) (h₁ h₂ : List Delivery)
    (env₁ env₂ : Env) {p₁ p₂ : List Pbuf} (hb : Pbuf.bytes p₁ = Pbuf.bytes p₂) :
    ∃ s₁ log₁ s₂ log₂ s₁' calls₁ s₂' calls₂,
      run fuel SatSlave.State.reset h₁ = some (s₁, log₁) ∧
      run fuel SatSlave.State.reset h₂ = some (s₂, log₂) ∧
      satRecv env₁ fuel s₁ p₁ errOk = some (s₁', calls₁) ∧
      satRecv env₂ fuel s₂ p₂ errOk = some (s₂', calls₂) ∧
      sent calls₁ = sent calls₂ ∧
      (headerOk (flatten p₁) = false → s₁' = s₁ ∧ s₂' = s₂) := by
  obtain ⟨s₁, log₁, hr₁, _, hq₁⟩ := run_spec hfuel SatSlave.State.reset h₁
  obtain ⟨s₂, log₂, hr₂, _, hq₂⟩ := run_spec hfuel SatSlave.State.reset h₂
  obtain ⟨s₁', calls₁, hc₁, hsent₁, hkeep₁⟩ := delivery_spec hfuel s₁ ⟨env₁, p₁, errOk⟩
  obtain ⟨s₂', calls₂, hc₂, hsent₂, hkeep₂⟩ := delivery_spec hfuel s₂ ⟨env₂, p₂, errOk⟩
  have hsame : (⟨env₁, p₁, errOk⟩ : Delivery).reply = (⟨env₂, p₂, errOk⟩ : Delivery).reply := by
    simp only [Delivery.reply, hb]
  refine ⟨s₁, log₁, s₂, log₂, s₁', calls₁, s₂', calls₂, hr₁, hr₂, hc₁, hc₂,
    by rw [hsent₁, hsent₂, hsame], ?_⟩
  intro hbad
  have hnone : (⟨env₁, p₁, errOk⟩ : Delivery).reply = none := by
    have hrej : ¬ Accepted ((Pbuf.bytes p₁).take bufSize) := by
      rw [← headerOk_iff, ← flatten_eq, hbad]
      exact Bool.false_ne_true
    rw [Delivery.reply, if_pos rfl, replyTo, if_neg hrej]
  exact ⟨(hkeep₁ (hq₁ quiescent_reset)).2 hnone,
    (hkeep₂ (hq₂ quiescent_reset)).2 (hsame ▸ hnone)⟩

def strayByte : Pbuf := ⟨[0x55], by decide⟩

def emptyPbuf : Pbuf := ⟨[], by decide⟩

def wholePacket : List Pbuf :=
  [⟨[0xAA, 2, 2, 0x01, 0x82, 0x00, 0x02, 0x00, 0xFF], by decide⟩]

theorem requests_independent_after_one :
    (∃ s₁ log₁ s₂ log₂ s₁' calls₁ s₂' calls₂,
      run 1024 SatSlave.State.reset [⟨promptEnv, cutPacket, errOk⟩] = some (s₁, log₁) ∧
      run 1024 SatSlave.State.reset [] = some (s₂, log₂) ∧
      satRecv promptEnv 1024 s₁ [strayByte] errOk = some (s₁', calls₁) ∧
      satRecv promptEnv 1024 s₂ [strayByte, emptyPbuf] errOk = some (s₂', calls₂) ∧
      sent calls₁ = sent calls₂ ∧ s₁' = s₁ ∧ s₂' = s₂) ∧
    ∃ s₁ log₁ s₂ log₂ s₁' calls₁ s₂' calls₂ reply,
      run 1024 SatSlave.State.reset [⟨promptEnv, cutPacket, errOk⟩] = some (s₁, log₁) ∧
      run 1024 SatSlave.State.reset [⟨promptEnv, [strayByte], errOk⟩] = some (s₂, log₂) ∧
      satRecv promptEnv 1024 s₁ cutPacket errOk = some (s₁', calls₁) ∧
      satRecv promptEnv 1024 s₂ wholePacket errOk = some (s₂', calls₂) ∧
      sent calls₁ = [reply] ∧ sent calls₂ = [reply] := by
  constructor
  · have hbytes : Pbuf.bytes [strayByte] = Pbuf.bytes [strayByte, emptyPbuf] := rfl
    obtain ⟨s₁, log₁, s₂, log₂, s₁', calls₁, s₂', calls₂, hr₁, hr₂, hc₁, hc₂, hsent, hkeep⟩ :=
      requests_independent enough_fuel [⟨promptEnv, cutPacket, errOk⟩] [] promptEnv promptEnv hbytes
    exact ⟨s₁, log₁, s₂, log₂, s₁', calls₁, s₂', calls₂, hr₁, hr₂, hc₁, hc₂, hsent, hkeep rfl⟩
  · have hbytes : Pbuf.bytes cutPacket = Pbuf.bytes wholePacket := rfl
    obtain ⟨s₁, log₁, s₂, log₂, s₁', calls₁, s₂', calls₂, hr₁, hr₂, hc₁, hc₂, hsent, -⟩ :=
      requests_independent enough_fuel [⟨promptEnv, cutPacket, errOk⟩]
        [⟨promptEnv, [strayByte], errOk⟩] promptEnv promptEnv hbytes
    obtain ⟨s, calls, hc, hreply, -⟩ := satRecv_spec promptEnv enough_fuel s₁
      (p := cutPacket) (by simp [cutPacket])
    have hlim : WithinLimits 2 [[1, -2], [2]] := by decide
    cases hc₁.symm.trans hc
    rw [show Pbuf.bytes cutPacket = encodePacket 2 [[1, -2], [2]] from rfl, hlim.replyTo_eq]
      at hreply
    exact ⟨s₁, log₁, s₂, log₂, s₁', calls₁, s₂', calls₂, _, hr₁, hr₂, hc₁, hc₂, hreply,
      hsent ▸ hreply⟩

/-! ## A packet in pieces -/

section Pieces
variable {nVars : ℕ} {clauses : Clauses}

def carriedPrefix (k : ℕ) (clauses : Clauses) : List Cnf.Clause :=
  formula clauses.length ((wireTokens clauses).take (k-3))

theorem replyTo_take (h : WithinLimits nVars clauses) (k : ℕ) :
    replyTo ((encodePacket nVars clauses).take k) =
      if 4 ≤ k then some (response nVars (leastModel nVars (carriedPrefix k clauses)))
      else none := by
  have hvars : 1 ≤ nVars ∧ nVars ≤ 10 := h.vars
  have hcount : 1 ≤ clauses.length ∧ clauses.length ≤ 20 := h.count
  by_cases hk : 4 ≤ k
  · obtain ⟨j, rfl⟩ : ∃ j, k = (j+1) + 3 := ⟨k-4, by omega⟩
    have htake : (encodePacket nVars clauses).take (j+1+3) =
        protoStart :: BitVec.ofNat 8 (nVars &&& 0xFF) ::
          BitVec.ofNat 8 (clauses.length &&& 0xFF) :: (encodeBody clauses).take (j+1) := rfl
    have hne : (encodeBody clauses).take (j+1) ≠ [] := by simp [encodeBody]
    have hshort : ((wireTokens clauses).take (j+1)).length ≤ bufSize - 3 :=
      (List.length_take_le' _ _).trans (h.length_wireTokens.trans (by norm_num))
    rw [htake, replyTo_header _ _ hne, Nat.mod_eq_of_lt (show nVars < 256 by omega),
      Nat.mod_eq_of_lt (show clauses.length < 256 by omega), if_pos ⟨h.vars, h.count⟩, if_pos hk,
      List.map_take, map_tokenOf_encodeBody, List.take_of_length_le hshort]
    rfl
  · have hrej : ¬ Accepted (((encodePacket nVars clauses).take k).take bufSize) := by
      intro hacc
      have hle := hacc.1
      rw [List.length_take, List.length_take] at hle
      omega
    rw [if_neg hk, replyTo, if_neg hrej]

theorem start_not_mem_tail (h : WithinLimits nVars clauses) :
    protoStart ∉ (encodePacket nVars clauses).tail := by
  have hvars : nVars ≤ 10 := h.vars.2
  have hcount : clauses.length ≤ 20 := h.count.2
  have hsmall : ∀ k ≤ 20, protoStart ≠ BitVec.ofNat 8 (k &&& 0xFF) := by decide
  have hlit : ∀ k ≤ 10, protoStart ≠ BitVec.ofNat 8 (k &&& 0x7F) ∧
      protoStart ≠ BitVec.ofNat 8 (k &&& 0x7F) ||| 0x80 := by decide
  simp only [encodePacket, encodeBody, List.tail_cons, List.mem_cons, List.mem_append,
    List.mem_flatMap, List.mem_map, List.not_mem_nil, or_false, not_or, not_exists, not_and]
  refine ⟨hsmall nVars (by omega), hsmall _ hcount, ?_, by decide⟩
  intro clause hc
  refine ⟨?_, by decide⟩
  intro lit hl he
  have hbound := hlit lit.natAbs ((h.lits clause hc lit hl).2.trans hvars)
  rw [encodeLit] at he
  split_ifs at he
  · exact hbound.1 he.symm
  · exact hbound.2 he.symm

theorem replyTo_eq_none {bytes : List Byte} (h : protoStart ∉ bytes) : replyTo bytes = none := by
  have hrej : ¬ Accepted (bytes.take bufSize) := by
    intro hacc
    have hpos : 0 < (bytes.take bufSize).length := by
      have := hacc.1
      omega
    have hfirst := hacc.2.1
    rw [List.getD_eq_getElem _ _ hpos] at hfirst
    exact h (List.mem_of_mem_take (hfirst ▸ List.getElem_mem hpos))
  rw [replyTo, if_neg hrej]

theorem carriedPrefix_eq (h : WithinLimits nVars clauses) {k : ℕ}
    (hk : (encodePacket nVars clauses).length ≤ k + 2) : carriedPrefix k clauses = cnf clauses := by
  have hne : clauses ≠ [] := List.length_pos_iff.mp h.count.1
  obtain ⟨ts, hts⟩ : ∃ ts, wireTokens clauses = ts ++ [.term, .stop] := by
    refine ⟨clauses.dropLast.flatMap (fun clause => clause.map wireToken ++ [.term]) ++
      (clauses.getLast hne).map wireToken, ?_⟩
    conv_lhs => rw [wireTokens, ← List.dropLast_append_getLast hne]
    simp
  have hbody := congrArg List.length (map_tokenOf_encodeBody clauses)
  rw [List.length_map, hts, List.length_append, List.length_cons, List.length_singleton] at hbody
  have hle : ts.length ≤ k-3 := by
    simp only [encodePacket, List.length_cons] at hk
    omega
  have hempty : ∀ j c, clauseAt (([.term, .stop] : List Token).take j) c = [] := by
    intro j c
    rcases j with _ | _ | j <;> rcases c with _ | _ | c <;> simp [clauseAt]
  have hsame : ∀ c, clauseAt ((wireTokens clauses).take (k-3)) c =
      clauseAt (wireTokens clauses) c := by
    intro c
    have hfull := clauseAt_append_of_empty (fun c => hempty 2 c) ts c
    rw [hts, List.take_append, List.take_of_length_le hle, clauseAt_append_of_empty (hempty _) ts c]
    exact hfull.symm
  rw [← formula_wireTokens h.small h.width]
  simp only [carriedPrefix, formula, hsame]

theorem replies_of_pieces (h : WithinLimits nVars clauses) {first : Delivery}
    {rest : List Delivery} (hok : ∀ d ∈ first :: rest, d.err = errOk)
    (hne : Pbuf.bytes first.chain ≠ [])
    (hcut : (first :: rest).flatMap (fun d => Pbuf.bytes d.chain) = encodePacket nVars clauses) :
    (first :: rest).flatMap (fun d => d.reply.toList) =
      if 4 ≤ (Pbuf.bytes first.chain).length then
        [response nVars (leastModel nVars (carriedPrefix (Pbuf.bytes first.chain).length clauses))]
      else [] := by
  rw [List.flatMap_cons] at hcut
  have hhead : Pbuf.bytes first.chain =
      (encodePacket nVars clauses).take (Pbuf.bytes first.chain).length := by
    rw [← hcut, List.take_left]
  have htail : ∀ d ∈ rest, d.reply = none := by
    intro d hd
    rw [Delivery.reply, if_pos (hok d (by simp [hd]))]
    apply replyTo_eq_none
    intro hmem
    apply start_not_mem_tail h
    rw [← hcut, List.tail_append_of_ne_nil hne]
    exact List.mem_append_right _ (List.mem_flatMap.mpr ⟨d, hd, hmem⟩)
  have hrest : rest.flatMap (fun d => d.reply.toList) = [] := by
    rw [List.flatMap_eq_nil_iff]
    intro d hd
    rw [htail d hd]
    rfl
  have hreply := replyTo_take h (Pbuf.bytes first.chain).length
  rw [← hhead] at hreply
  rw [List.flatMap_cons, hrest, List.append_nil, Delivery.reply, if_pos (hok first (by simp)),
    hreply]
  split_ifs <;> rfl

/-- A packet within the limits that arrives in pieces is answered for its first
piece alone. What is sent is the reply to the whole packet exactly when the
first piece has four bytes or more and the clauses in it have the same least
model; it is enough that the piece lacks two bytes of the packet at most. -/
theorem segmented_reply {fuel : ℕ} (hfuel : 2 ^ maxVars ≤ fuel) (s t : SatSlave.State)
    (h : WithinLimits nVars clauses) (first : Delivery) (rest : List Delivery) (whole : Delivery)
    (hok : ∀ d ∈ first :: rest, d.err = errOk) (hokw : whole.err = errOk)
    (hne : ∀ d ∈ first :: rest, Pbuf.bytes d.chain ≠ [])
    (hcut : (first :: rest).flatMap (fun d => Pbuf.bytes d.chain) = encodePacket nVars clauses)
    (hwhole : Pbuf.bytes whole.chain = encodePacket nVars clauses) :
    let k := (Pbuf.bytes first.chain).length
    ∃ s' calls t' single, run fuel s (first :: rest) = some (s', calls) ∧
      satRecv whole.env fuel t whole.chain whole.err = some (t', single) ∧
      sent calls = (if 4 ≤ k then
        [response nVars (leastModel nVars (carriedPrefix k clauses))] else []) ∧
      ((sent calls).flatten = (sent single).flatten ↔
        4 ≤ k ∧ leastModel nVars (carriedPrefix k clauses) = leastModel nVars (cnf clauses)) ∧
      (4 ≤ k → (encodePacket nVars clauses).length ≤ k + 2 →
        (sent calls).flatten = (sent single).flatten) := by
  intro k
  have hvars : nVars ≤ 10 := h.vars.2
  obtain ⟨s', calls, hrun, hsent, _⟩ := run_spec hfuel s (first :: rest)
  obtain ⟨t', single, hsingle, hsentw, _⟩ := delivery_spec hfuel t whole
  rw [replies_of_pieces h hok (hne first (by simp)) hcut] at hsent
  rw [Delivery.reply, if_pos hokw, hwhole, h.replyTo_eq] at hsentw
  have hiff : (sent calls).flatten = (sent single).flatten ↔
      4 ≤ k ∧ leastModel nVars (carriedPrefix k clauses) = leastModel nVars (cnf clauses) := by
    rw [hsent, hsentw, Option.toList_some, List.flatten_singleton]
    by_cases hk : 4 ≤ k
    · have hinj := response_injective (show nVars ≤ 126 by omega)
        (fun a => leastModel_lt (f := carriedPrefix k clauses))
        (fun a => leastModel_lt (f := cnf clauses))
      rw [if_pos hk, List.flatten_singleton]
      exact ⟨fun heq => ⟨hk, hinj heq⟩, fun heq => congrArg (response nVars) heq.2⟩
    · have hpos : [] ≠ response nVars (leastModel nVars (cnf clauses)) := by
        cases leastModel nVars (cnf clauses) <;> simp [response]
      rw [if_neg hk]
      exact ⟨fun heq => absurd heq hpos, fun hc => absurd hc.1 hk⟩
  refine ⟨s', calls, t', single, hrun, hsingle, hsent, hiff, ?_⟩
  intro hk hlen
  exact hiff.mpr ⟨hk, by rw [carriedPrefix_eq h hlen]⟩

end Pieces

def prompt (q : Pbuf) : Delivery := ⟨promptEnv, [q], errOk⟩

def oneClause : Pbuf := ⟨[0xAA, 1, 1, 0x01, 0x00, 0xFF], by decide⟩
def oneClauseHead : Pbuf := ⟨[0xAA, 1, 1, 0x01, 0x00], by decide⟩
def oneClauseTail : Pbuf := ⟨[0xFF], by decide⟩

theorem segmented_reply_late_end :
    ∃ s' calls t' single,
      run 1024 SatSlave.State.reset [prompt oneClauseHead, prompt oneClauseTail] =
        some (s', calls) ∧
      satRecv promptEnv 1024 SatSlave.State.reset [oneClause] errOk = some (t', single) ∧
      (sent calls).flatten = (sent single).flatten := by
  have hlim : WithinLimits 1 [[1]] := by decide
  obtain ⟨s', calls, t', single, hrun, hsingle, _, _, hsame⟩ :=
    segmented_reply enough_fuel SatSlave.State.reset SatSlave.State.reset hlim
      (prompt oneClauseHead) [prompt oneClauseTail] (prompt oneClause) (by simp [prompt]) rfl
      (by simp [prompt, oneClauseHead, oneClauseTail]) rfl rfl
  exact ⟨s', calls, t', single, hrun, hsingle, hsame (by decide) (by decide)⟩

def twoClauses : Pbuf := ⟨[0xAA, 1, 2, 0x01, 0x00, 0x01, 0x00, 0xFF], by decide⟩
def twoClausesHead : Pbuf := ⟨[0xAA, 1, 2, 0x01], by decide⟩
def twoClausesTail : Pbuf := ⟨[0x00, 0x01, 0x00, 0xFF], by decide⟩

/-- The formula `x1, x1` cut behind its first literal: the second clause is not
there yet, counts as empty, and the answer is `UNSAT`. -/
theorem segmentation_changes_reply :
    WithinLimits 1 [[1], [1]] ∧
      Pbuf.bytes [twoClauses] = encodePacket 1 [[1], [1]] ∧
      Pbuf.bytes [twoClausesHead] ++ Pbuf.bytes [twoClausesTail] = encodePacket 1 [[1], [1]] ∧
      ∃ s' calls t' single,
        run 1024 SatSlave.State.reset [prompt twoClausesHead, prompt twoClausesTail] =
          some (s', calls) ∧
        satRecv promptEnv 1024 SatSlave.State.reset [twoClauses] errOk = some (t', single) ∧
        (sent calls).flatten = [0x00, 0xFF] ∧ (sent single).flatten = [0x01, 0x81, 0xFF] := by
  refine ⟨by decide, rfl, rfl, ?_⟩
  obtain ⟨s', calls, hrun, hsent, _⟩ := run_spec enough_fuel SatSlave.State.reset
    [prompt twoClausesHead, prompt twoClausesTail]
  obtain ⟨t', single, hsingle, hsentw, _⟩ := delivery_spec enough_fuel SatSlave.State.reset
    (prompt twoClauses)
  refine ⟨s', calls, t', single, hrun, hsingle, ?_, ?_⟩
  · rw [hsent]
    decide
  · rw [hsentw]
    decide

end EthernetSoc.Sessions
