import EthernetSoc.SatTcp

/-!
# The receive callback answers what the format says

The stores of a call are first made explicit as a list of register writes:
`parseLoop_eq` turns the index loop into a fold over `stores`, and `lits_load`
says which literal every register holds afterwards. The solver inputs these
registers stand for are satisfied exactly by the models of the denoted formula,
so that the search of the core finds the least model. `satRecv_spec` puts the
phases of the call together, and `satRecv_obeys` shows its bus cycles to be
those of a classic master.
-/

namespace EthernetSoc.SatTcp
open WireFormat SatSlave

/-! ## Flattening and the header -/

theorem flattenLoop_eq {buf : List Byte} (h : buf.length ≤ bufSize) (p : List Pbuf) :
    flattenLoop buf p = (buf ++ Pbuf.bytes p).take bufSize := by
  induction p generalizing buf with
  | nil => simp [flattenLoop, List.take_of_length_le h]
  | cons q p ih =>
    have hlen : q.len = q.payload.length := rfl
    simp only [flattenLoop, Pbuf.bytes_cons]
    by_cases hover : buf.length + q.len > bufSize
    · rw [if_pos hover, if_pos (by simp; omega), ← List.append_assoc,
        List.take_append_of_le_length (by simp; omega), List.take_append, List.take_of_length_le h]
    · rw [if_neg hover, hlen, List.take_length]
      by_cases hfull : (buf ++ q.payload).length ≥ bufSize
      · rw [if_pos hfull, ← List.append_assoc, List.take_append_of_le_length hfull,
          List.take_of_length_le (by simp; omega)]
      · rw [if_neg hfull, ih (by simp; omega), List.append_assoc]

theorem flatten_eq (p : List Pbuf) : flatten p = (Pbuf.bytes p).take bufSize :=
  flattenLoop_eq (Nat.zero_le _) p

theorem headerOk_iff (buf : List Byte) : headerOk buf = true ↔ Accepted buf := by
  unfold headerOk Accepted
  generalize buf.getD 0 0 = start, buf.getD 1 0 = n, buf.getD 2 0 = m
  by_cases h : buf.length < 4
  · simp [h]
  · by_cases h0 : start = protoStart
    · simp only [h, h0, not_lt.mp h, decide_false, bne_self_eq_false, Bool.or_self, true_and,
        Bool.false_eq_true, if_false, Bool.not_eq_true', Bool.or_eq_false_iff, beq_eq_false_iff_ne,
        decide_eq_false_iff_not, gt_iff_lt, not_lt, ne_eq, and_assoc]
    · have hb : (start != protoStart) = true := by simpa using h0
      rw [if_pos (by rw [hb, Bool.or_true])]
      exact iff_of_false Bool.false_ne_true (fun ha => h0 ha.2.1)

/-! ## The stores of a call -/

def stores (nClauses : ℕ) : List Byte → ℕ → ℕ → List (ℕ × BitVec 32)
  | [], _, _ => []
  | b :: bs, clause, lit =>
    if clause < nClauses then
      if b = protoEnd then []
      else if b = protoTerm then stores nClauses bs (clause+1) 0
      else if lit < clauseLen then
        (satLitBase + clause * clauseLen + lit, litWord b) :: stores nClauses bs clause (lit+1)
      else stores nClauses bs clause lit
    else []

def writeAll (env : Env) (m : Soc) (ws : List (ℕ × BitVec 32)) : Soc :=
  ws.foldl (fun m w => writeReg env m w.1 w.2) m

def RegFile.writeAll (f : RegFile) (ws : List (ℕ × BitVec 32)) : RegFile :=
  ws.foldl (fun f w => f.write (BitVec.ofNat 9 w.1) w.2) f

theorem clearLoop_eq (env : Env) (m : Soc) :
    clearLoop env m = writeAll env m
      ((List.range (maxClauses * clauseLen)).map fun i => (satLitBase + i, 0)) := by
  rw [writeAll, List.foldl_map, clearLoop]

theorem parseLoop_eq (env : Env) (buf : List Byte) (nClauses : ℕ) (m : Soc) (pos clause lit : ℕ) :
    parseLoop env buf nClauses m pos clause lit =
      writeAll env m (stores nClauses (buf.drop pos) clause lit) := by
  fun_induction parseLoop env buf nClauses m pos clause lit with
  | case1 m pos clause lit h b hb =>
    have hd : buf.drop pos = b :: buf.drop (pos+1) := List.drop_eq_getElem_cons h.1
    rw [hd, stores, if_pos h.2, if_pos hb]
    rfl
  | case2 m pos clause lit h b hb hz ih =>
    have hd : buf.drop pos = b :: buf.drop (pos+1) := List.drop_eq_getElem_cons h.1
    rw [ih, hd, stores, if_pos h.2, if_neg hb, if_pos hz]
  | case3 m pos clause lit h b hb hz hl ih =>
    have hd : buf.drop pos = b :: buf.drop (pos+1) := List.drop_eq_getElem_cons h.1
    rw [ih, hd, stores, if_pos h.2, if_neg hb, if_neg hz, if_pos hl]
    rfl
  | case4 m pos clause lit h b hb hz hl ih =>
    have hd : buf.drop pos = b :: buf.drop (pos+1) := List.drop_eq_getElem_cons h.1
    rw [ih, hd, stores, if_pos h.2, if_neg hb, if_neg hz, if_neg hl]
  | case5 m pos clause lit h =>
    by_cases hp : pos < buf.length
    · rw [List.drop_eq_getElem_cons hp, stores, if_neg (fun hc => h ⟨hp, hc⟩)]
      rfl
    · rw [List.drop_of_length_le (by omega)]
      rfl

theorem writeReg_spec {m : Soc} (h : Ready m.slave) (env : Env) (k : ℕ) (v : BitVec 32) :
    Ready (writeReg env m k v).slave ∧
      (writeReg env m k v).slave.regs = m.slave.regs.write (BitVec.ofNat 9 k) v :=
  ⟨transact_ready h _ _, transact_write h _ _ _⟩

theorem writeAll_spec {m : Soc} (h : Ready m.slave) (env : Env) (ws : List (ℕ × BitVec 32)) :
    Ready (writeAll env m ws).slave ∧
      (writeAll env m ws).slave.regs = RegFile.writeAll m.slave.regs ws := by
  induction ws generalizing m with
  | nil => exact ⟨h, rfl⟩
  | cons w ws ih =>
    obtain ⟨hr, hregs⟩ := writeReg_spec h env w.1 w.2
    obtain ⟨hr', hregs'⟩ := ih hr
    refine ⟨hr', ?_⟩
    change (writeAll env (writeReg env m w.1 w.2) ws).slave.regs = _
    rw [hregs', hregs]
    rfl

/-! ## The contents of the literal registers -/

def clauseBytes : List Byte → ℕ → List Byte
  | [], _ => []
  | b :: bs, c =>
    if b = protoEnd then []
    else if b = protoTerm then
      match c with
      | 0 => []
      | c+1 => clauseBytes bs c
    else
      match c with
      | 0 => b :: clauseBytes bs 0
      | c+1 => clauseBytes bs (c+1)

theorem clauseAt_map_tokenOf (bs : List Byte) (c : ℕ) :
    clauseAt (bs.map tokenOf) c = (clauseBytes bs c).map literalOf := by
  induction bs generalizing c with
  | nil => rfl
  | cons b bs ih =>
    simp only [List.map_cons, tokenOf]
    cases c with
    | zero =>
      simp only [clauseBytes]
      split_ifs <;> simp [clauseAt, ih]
    | succ c =>
      simp only [clauseBytes]
      split_ifs <;> simp [clauseAt, ih]

theorem lits_write_slot (f : RegFile) (v : BitVec 32) {c l : ℕ} (hc : c < maxClauses)
    (hl : l < clauseLen) (c' : Fin maxClauses) (l' : Fin clauseLen) :
    (f.write (BitVec.ofNat 9 (satLitBase + c * clauseLen + l)) v).lits (slot c' l') =
      if c = c'.val ∧ l = l'.val then v.setWidth 6 else f.lits (slot c' l') := by
  have haddr : satLitBase + c * clauseLen + l = litBase + (slot ⟨c, hc⟩ ⟨l, hl⟩).val := by
    simp only [slot, satLitBase, litBase, clauseLen, BruteForceSat.clauseLen]
    omega
  have hlt : l'.val < 10 := l'.isLt
  have hl10 : l < 10 := hl
  simp only [RegFile.write, haddr]
  by_cases h : c = c'.val ∧ l = l'.val
  · rw [if_pos h, if_pos]
    obtain ⟨rfl, rfl⟩ := h
    rfl
  · rw [if_neg h, if_neg]
    intro he
    have hs := congrArg Fin.val (litAddress_injective he)
    simp only [slot, BruteForceSat.clauseLen] at hs
    omega

theorem lits_clear (f : RegFile) (i : Fin litCount) (k : ℕ) (hk : k ≤ litCount) :
    (RegFile.writeAll f ((List.range k).map fun i => (satLitBase + i, 0))).lits i =
      if i.val < k then 0 else f.lits i := by
  induction k with
  | zero => rfl
  | succ k ih =>
    have hstep : RegFile.writeAll f ((List.range (k+1)).map fun i => (satLitBase + i, 0)) =
        (RegFile.writeAll f ((List.range k).map fun i => (satLitBase + i, 0))).write
          (BitVec.ofNat 9 (satLitBase + k)) 0 := by
      simp [RegFile.writeAll, List.range_succ]
    rw [hstep]
    simp only [RegFile.write, ih (by omega)]
    by_cases h : i.val = k
    · rw [if_pos (by rw [← h]), if_pos (by omega)]
      rfl
    · rw [if_neg]
      · split_ifs <;> first | rfl | omega
      · intro he
        exact h (congrArg Fin.val (litAddress_injective (j := ⟨k, hk⟩) he.symm))

/-- The byte that parsing from clause `c` and slot `l` on puts into slot `l'` of
clause `c'`, if any. -/
def parsed (n : ℕ) (bs : List Byte) (c l c' l' : ℕ) : Option Byte :=
  if c ≤ c' ∧ c' < n ∧ (c = c' → l ≤ l') then
    (clauseBytes bs (c' - c))[l' - (if c = c' then l else 0)]?
  else none

section Parsed
variable {n c l c' l' : ℕ} {b : Byte} (bs : List Byte)

theorem parsed_nil : parsed n [] c l c' l' = none := by
  simp [parsed, clauseBytes]

theorem parsed_full (hc : ¬ c < n) : parsed n bs c l c' l' = none :=
  if_neg (by omega)

theorem parsed_end : parsed n (protoEnd :: bs) c l c' l' = none := by
  simp [parsed, clauseBytes]

/-- A terminator closes its clause, and the next one starts at slot 0. -/
theorem parsed_term : parsed n (protoTerm :: bs) c l c' l' = parsed n bs (c+1) 0 c' l' := by
  have hne : protoTerm ≠ protoEnd := by decide
  rcases Nat.lt_trichotomy c c' with hlt | rfl | hgt
  · have hsub : c' - c = (c' - (c+1)) + 1 := by omega
    simp [parsed, hsub, clauseBytes, hne, hlt.ne, hlt.le, Nat.succ_le_of_lt hlt]
  · simp [parsed, clauseBytes, hne]
  · rw [parsed, parsed, if_neg (by omega), if_neg (by omega)]

theorem clauseBytes_succ (he : b ≠ protoEnd) (ht : b ≠ protoTerm) (k : ℕ) :
    clauseBytes (b :: bs) (k+1) = clauseBytes bs (k+1) := by
  simp [clauseBytes, he, ht]

/-- Clauses behind the current one do not depend on its literals. -/
theorem parsed_of_ne (he : b ≠ protoEnd) (ht : b ≠ protoTerm) (h : c ≠ c') (k : ℕ) :
    parsed n (b :: bs) c l c' l' = parsed n bs c k c' l' := by
  rcases Nat.lt_or_ge c c' with hlt | hge
  · obtain ⟨j, hj⟩ : ∃ j, c' - c = j+1 := ⟨c' - c - 1, by omega⟩
    simp [parsed, hj, clauseBytes_succ bs he ht, h]
  · rw [parsed, parsed, if_neg (by omega), if_neg (by omega)]

theorem parsed_literal (he : b ≠ protoEnd) (ht : b ≠ protoTerm) (hc : c < n) :
    parsed n (b :: bs) c l c' l' =
      if c = c' ∧ l = l' then some b else parsed n bs c (l+1) c' l' := by
  by_cases heq : c = c'
  · subst heq
    rcases Nat.lt_trichotomy l l' with hlt | rfl | hgt
    · have hsub : l' - l = (l' - (l+1)) + 1 := by omega
      simp [parsed, clauseBytes, he, ht, hc, hsub, hlt.le, hlt.ne, Nat.succ_le_of_lt hlt]
    · simp [parsed, clauseBytes, he, ht, hc]
    · simp [parsed, hc, not_le.mpr hgt, hgt.ne', show ¬ l + 1 ≤ l' by omega]
  · rw [parsed_of_ne bs he ht heq (l+1), if_neg (fun h => heq h.1)]

theorem parsed_skip (he : b ≠ protoEnd) (ht : b ≠ protoTerm) (hl : l' < l) :
    parsed n (b :: bs) c l c' l' = parsed n bs c l c' l' := by
  by_cases heq : c = c'
  · rw [parsed, parsed, if_neg (by omega), if_neg (by omega)]
  · exact parsed_of_ne bs he ht heq l

end Parsed

theorem lits_stores {n : ℕ} (hn : n ≤ maxClauses) (bs : List Byte) (f : RegFile) (c l : ℕ)
    (c' : Fin maxClauses) (l' : Fin clauseLen) :
    (RegFile.writeAll f (stores n bs c l)).lits (slot c' l') =
      ((parsed n bs c l c'.val l'.val).map fun b => (litWord b).setWidth 6).getD
        (f.lits (slot c' l')) := by
  have hl' : l'.val < clauseLen := l'.isLt
  induction bs generalizing f c l with
  | nil =>
    rw [parsed_nil]
    rfl
  | cons b bs ih =>
    rw [stores]
    by_cases hc : c < n
    swap
    · rw [if_neg hc, parsed_full _ hc]
      rfl
    rw [if_pos hc]
    by_cases he : b = protoEnd
    · rw [if_pos he, he, parsed_end]
      rfl
    rw [if_neg he]
    by_cases ht : b = protoTerm
    · rw [if_pos ht, ih, ht, parsed_term]
    rw [if_neg ht]
    by_cases hl : l < clauseLen
    · rw [if_pos hl, parsed_literal bs he ht hc]
      change (RegFile.writeAll (f.write _ _) (stores n bs c (l+1))).lits _ = _
      rw [ih, lits_write_slot f _ (by omega) hl]
      by_cases hslot : c = c'.val ∧ l = l'.val
      · -- the slot just written is not written again
        have hlater : parsed n bs c (l+1) c'.val l'.val = none := if_neg (by omega)
        rw [if_pos hslot, if_pos hslot, hlater]
        rfl
      · rw [if_neg hslot, if_neg hslot]
    · rw [if_neg hl, ih, parsed_skip bs he ht (by omega)]

/-! ## The formula in the registers -/

def clearWrites : List (ℕ × BitVec 32) :=
  (List.range (maxClauses * clauseLen)).map fun i => (satLitBase + i, 0)

def loadWrites (n m : Byte) (body : List Byte) : List (ℕ × BitVec 32) :=
  clearWrites ++ stores m.toNat body 0 0 ++
    [(satNVars, n.setWidth 32), (satNClauses, m.setWidth 32)]

theorem RegFile.writeAll_append (f : RegFile) (ws ws' : List (ℕ × BitVec 32)) :
    RegFile.writeAll f (ws ++ ws') = RegFile.writeAll (RegFile.writeAll f ws) ws' :=
  List.foldl_append ..

theorem writeAll_append (env : Env) (m : Soc) (ws ws' : List (ℕ × BitVec 32)) :
    writeAll env m (ws ++ ws') = writeAll env (writeAll env m ws) ws' :=
  List.foldl_append ..

theorem addr_ne_lit {k : ℕ} (hk : k < litBase) (i : Fin litCount) :
    BitVec.ofNat 9 k ≠ BitVec.ofNat 9 (litBase + i.val) := by
  have hi : i.val < 200 := i.isLt
  intro he
  have hv := congrArg BitVec.toNat he
  simp only [BitVec.toNat_ofNat, litBase] at hv hk
  omega

theorem write_dims (f : RegFile) (n m : Byte) :
    RegFile.writeAll f [(satNVars, n.setWidth 32), (satNClauses, m.setWidth 32)] =
      ⟨(n.setWidth 32).setWidth 4, (m.setWidth 32).setWidth 5, f.lits⟩ := by
  ext1
  · rfl
  · rfl
  · funext i
    change (if BitVec.ofNat 9 2 = _ then _ else if BitVec.ofNat 9 1 = _ then _ else f.lits i) = _
    rw [if_neg (addr_ne_lit (by norm_num) i), if_neg (addr_ne_lit (by norm_num) i)]

theorem write_ctrl (f : RegFile) : f.write (BitVec.ofNat 9 satCtrl) 1 = f := by
  ext1
  · rfl
  · rfl
  · funext i
    exact if_neg (addr_ne_lit (by norm_num) i)

theorem lits_load (f : RegFile) {n m : Byte} (hm : m.toNat ≤ maxClauses) (body : List Byte)
    (c : Fin maxClauses) (l : Fin clauseLen) (hc : c.val < m.toNat) :
    (RegFile.writeAll f (loadWrites n m body)).lits (slot c l) =
      match (clauseBytes body c.val)[l.val]? with
      | some b => (litWord b).setWidth 6
      | none => 0 := by
  have hclear := lits_clear f (slot c l) (maxClauses * clauseLen) le_rfl
  rw [if_pos (slot c l).isLt] at hclear
  rw [loadWrites, RegFile.writeAll_append, RegFile.writeAll_append, write_dims,
    lits_stores hm, parsed, if_pos ⟨Nat.zero_le _, hc, fun _ => Nat.zero_le _⟩, ite_self]
  simp only [clearWrites, hclear, Nat.sub_zero]
  cases (clauseBytes body c.val)[l.val]? <;> rfl

theorem litWord_fields : ∀ b : Byte,
    (((litWord b).setWidth 6).setWidth 4).toNat = (literalOf b).var ∧
    ((litWord b).setWidth 6).getLsbD 4 = (literalOf b).neg ∧
    ((litWord b).setWidth 6).getLsbD 5 = true := by
  decide

theorem field_toNat {b : Byte} {v : ℕ} (hb : b.toNat < 2^v) :
    ((b.setWidth 32).setWidth v).toNat = b.toNat := by
  have hword : b.toNat < 2^32 := b.isLt.trans (by norm_num)
  rw [BitVec.toNat_setWidth, BitVec.toNat_setWidth, Nat.mod_eq_of_lt hword, Nat.mod_eq_of_lt hb]

theorem dims_toNat (b : Byte) :
    (b.toNat ≤ maxVars → ((b.setWidth 32).setWidth 4).toNat = b.toNat) ∧
    (b.toNat ≤ maxClauses → ((b.setWidth 32).setWidth 5).toNat = b.toNat) := by
  constructor
  · intro hvars
    exact field_toNat (hvars.trans_lt (by norm_num))
  · intro hclauses
    exact field_toNat (hclauses.trans_lt (by norm_num))

theorem clause_satisfied_iff (f : RegFile) {n m : Byte} (hm : m.toNat ≤ maxClauses)
    (body : List Byte) (c : Fin maxClauses) (hc : c.val < m.toNat) (a : ℕ) :
    let i := (RegFile.writeAll f (loadWrites n m body)).inputs
    (∃ l : Fin clauseLen, i.litUsed c l = true ∧
      a.testBit (i.litVar c l).toNat = !i.litNeg c l) ↔
    ∃ x ∈ (clauseAt (body.map tokenOf) c.val).take clauseLen, x.eval a.testBit = true := by
  have heval (b : Byte) : a.testBit (literalOf b).var = (!(literalOf b).neg) ↔
      (literalOf b).eval a.testBit = true := by
    rw [Cnf.Literal.eval]
    cases (literalOf b).neg <;> simp
  simp only [RegFile.inputs, lits_load f hm body c _ hc, clauseAt_map_tokenOf, ← List.map_take,
    List.mem_map, exists_exists_and_eq_and]
  constructor
  · intro h
    obtain ⟨l, hu, hv⟩ := h
    cases hb : (clauseBytes body c.val)[l.val]? with
    | none => simp [hb] at hu
    | some b =>
      obtain ⟨hvar, hneg, _⟩ := litWord_fields b
      rw [hb] at hv
      dsimp only at hv
      rw [hvar, hneg, heval] at hv
      refine ⟨b, List.mem_of_getElem? (i := l.val) ?_, hv⟩
      rw [List.getElem?_take_of_lt l.isLt, hb]
  · intro h
    obtain ⟨b, hb, hv⟩ := h
    obtain ⟨l, hl⟩ := List.mem_iff_getElem?.mp hb
    have hlen : l < clauseLen := by
      by_contra hge
      rw [List.getElem?_take_eq_none (by omega)] at hl
      cases hl
    rw [List.getElem?_take_of_lt hlen] at hl
    obtain ⟨hvar, hneg, hused⟩ := litWord_fields b
    refine ⟨⟨l, hlen⟩, ?_⟩
    simp only [hl]
    rw [hvar, hneg, heval]
    exact ⟨hused, hv⟩

theorem satisfied_iff (f : RegFile) {n m : Byte} (hm : m.toNat ≤ maxClauses) (body : List Byte)
    (a : ℕ) :
    BruteForceSat.Satisfied (RegFile.writeAll f (loadWrites n m body)).inputs a ↔
      Cnf.eval a.testBit (formula m.toNat (body.map tokenOf)) = true := by
  have hm20 : m.toNat ≤ 20 := hm
  have hcount : (RegFile.writeAll f (loadWrites n m body)).inputs.nClauses.toNat = m.toNat := by
    rw [loadWrites, RegFile.writeAll_append, write_dims]
    exact (dims_toNat m).2 hm
  rw [Cnf.eval_eq_true_iff]
  simp only [formula, List.mem_map, List.mem_range, forall_exists_index, and_imp,
    forall_apply_eq_imp_iff₂]
  constructor
  · intro h c hc
    have hc20 : c < maxClauses := by omega
    have hin := h ⟨c, hc20⟩ (by rw [hcount]; exact hc)
    exact (clause_satisfied_iff f hm body ⟨c, hc20⟩ hc a).mp hin
  · intro h c hc
    rw [hcount] at hc
    exact (clause_satisfied_iff f hm body c hc a).mpr (h c.val hc)

theorem outcome_load (f : RegFile) {n m : Byte} (hn : n.toNat ≤ maxVars)
    (hm : m.toNat ≤ maxClauses) (body : List Byte) :
    BruteForceSat.outcome (RegFile.writeAll f (loadWrites n m body)).inputs =
      leastModel n.toNat (formula m.toNat (body.map tokenOf)) := by
  have hvars : (RegFile.writeAll f (loadWrites n m body)).inputs.nVars.toNat = n.toNat := by
    rw [loadWrites, RegFile.writeAll_append, write_dims]
    exact (dims_toNat n).1 hn
  have hspace : BruteForceSat.space (RegFile.writeAll f (loadWrites n m body)).inputs =
      2 ^ n.toNat := by
    rw [BruteForceSat.space, hvars, min_eq_left hn]
  rw [BruteForceSat.outcome, leastModel, hspace]
  apply Cnf.least_congr
  intro a _
  rw [Bool.eq_iff_iff, decide_eq_true_eq, satisfied_iff f hm]

/-! ## Polling and the reply -/

theorem advance_search {s : SatSlave.State} {j : ℕ}
    (h : s.sat = BruteForceSat.search s.regs.inputs j) (n : ℕ) :
    (advance s n).sat = BruteForceSat.search s.regs.inputs (j+n) := by
  change (fun t => BruteForceSat.step t s.regs.inputs)^[n] s.sat = _
  rw [h, Nat.add_comm, BruteForceSat.search, BruteForceSat.search, Function.iterate_add_apply]
  rfl

theorem advance_stopped {s : SatSlave.State} (h : s.sat.running = false) (n : ℕ) :
    advance s n = s := by
  have hiter := Function.iterate_fixed (f := fun t => BruteForceSat.step t s.regs.inputs)
    (BruteForceSat.step_stopped rfl h) n
  rw [advance, hiter]

theorem datR_ctrl (s : SatSlave.State) :
    (datR s (BitVec.ofNat 9 satCtrl) &&& 1 ≠ 0 ↔ s.sat.doneR = true) ∧
      (((datR s (BitVec.ofNat 9 satCtrl) >>> 1) &&& 1) != 0) = s.sat.satR := by
  change ((BitVec.ofBool s.sat.satR ++ BitVec.ofBool s.sat.doneR).setWidth 32 &&& 1 ≠ 0 ↔ _) ∧
    ((((BitVec.ofBool s.sat.satR ++ BitVec.ofBool s.sat.doneR).setWidth 32 >>> 1) &&& 1) != 0) = _
  cases s.sat.satR <;> cases s.sat.doneR <;> decide

theorem readReg_spec {m : Soc} (h : Ready m.slave) (env : Env) (k : ℕ) :
    ∃ w, readReg env m k = (⟨advance m.slave (w+2), m.accesses + 1⟩,
      datR (advance m.slave (w+1)) (BitVec.ofNat 9 k)) := by
  refine ⟨(env.access m.accesses).wait.length, ?_⟩
  simp only [readReg, transact_read h]

/-- Each poll lets the search run for two cycles or more, so the loop ends with
the search whatever the timing of the accesses. -/
theorem pollDone_spec (env : Env) {fuel j : ℕ} {m : Soc} (h : Ready m.slave)
    (hs : m.slave.sat = BruteForceSat.search m.slave.regs.inputs j) (hpos : 0 < fuel)
    (hfuel : BruteForceSat.duration m.slave.regs.inputs ≤ fuel + j) :
    ∃ m', pollDone env fuel m = some m' ∧ Ready m'.slave ∧ m'.slave.regs = m.slave.regs ∧
      m'.slave.sat = BruteForceSat.final m.slave.regs.inputs
        (BruteForceSat.outcome m.slave.regs.inputs) := by
  induction fuel generalizing m j with
  | zero => exact absurd hpos (lt_irrefl 0)
  | succ fuel ih =>
    obtain ⟨w, hr⟩ := readReg_spec h env satCtrl
    have hlast := advance_search hs (w+2)
    by_cases hd : BruteForceSat.duration m.slave.regs.inputs ≤ j + (w+1)
    · have hdone : (advance m.slave (w+1)).sat.doneR = true := by
        rw [advance_search hs, BruteForceSat.search_stopped _ hd, BruteForceSat.final_doneR]
      refine ⟨⟨advance m.slave (w+2), m.accesses + 1⟩, ?_, ⟨h.ack, h.start⟩, rfl, ?_⟩
      · simp only [pollDone, hr, if_pos ((datR_ctrl _).1.mpr hdone)]
      · rw [hlast, BruteForceSat.search_stopped _ (by omega)]
    · have hbusy : ¬ (advance m.slave (w+1)).sat.doneR = true := by
        rw [advance_search hs, BruteForceSat.search_before _ (by omega)]
        simp
      obtain ⟨m', hp, hrest⟩ := ih (m := ⟨advance m.slave (w+2), m.accesses + 1⟩)
        (j := j+(w+2)) ⟨h.ack, h.start⟩ hlast (by omega)
        (by change BruteForceSat.duration m.slave.regs.inputs ≤ _; omega)
      refine ⟨m', ?_, hrest⟩
      simp only [pollDone, hr, if_neg (mt (datR_ctrl _).1.mp hbusy), hp]

theorem readReg_stopped {m : Soc} (h : Ready m.slave) (hs : m.slave.sat.running = false)
    (env : Env) (k : ℕ) :
    readReg env m k = (⟨m.slave, m.accesses + 1⟩, datR m.slave (BitVec.ofNat 9 k)) := by
  obtain ⟨w, hr⟩ := readReg_spec h env k
  rw [hr, advance_stopped hs, advance_stopped hs]

theorem respByte_eq (model : BitVec 32) (i : ℕ) :
    respByte model i = assignByte i (model.getLsbD i) := by
  have hbit : (model >>> i) &&& 1 = (BitVec.ofBool (model.getLsbD i)).setWidth 32 := by
    rw [show (1 : BitVec 32) = 1#32 from rfl, BitVec.and_one_eq_setWidth_ofBool_getLsbD]
    simp
  simp only [respByte, assignByte, hbit]
  cases model.getLsbD i <;> rfl

theorem buildResp_eq {n : ℕ} (hn : n ≤ maxVars) {i : BruteForceSat.Inputs} {o : Option ℕ}
    (ho : ∀ a, o = some a → a < 2^n) :
    buildResp (BruteForceSat.final i o).satR n ((BruteForceSat.final i o).modelR.setWidth 32) =
      response n o := by
  cases o with
  | none => rfl
  | some a =>
    have hlt : a < 2^10 := (ho a rfl).trans_le (Nat.pow_le_pow_right (by norm_num) hn)
    have hbyte (k : ℕ) : respByte ((BitVec.ofNat 10 a).setWidth 32) k =
        assignByte k (a.testBit k) := by
      have hbit : ((BitVec.ofNat 10 a).setWidth 32).getLsbD k = a.testBit k := by
        rw [← BitVec.testBit_toNat, BitVec.toNat_setWidth, BitVec.toNat_ofNat,
          Nat.mod_eq_of_lt hlt, Nat.mod_eq_of_lt (hlt.trans (by norm_num))]
      rw [respByte_eq, hbit]
    simp only [buildResp, BruteForceSat.final, if_true, response]
    rw [List.map_congr_left (fun k _ => hbyte k)]

/-! ## The whole call -/

theorem leastModel_lt {n : ℕ} {f : List Cnf.Clause} {a : ℕ} (h : leastModel n f = some a) :
    a < 2^n :=
  (Cnf.least_eq_some_iff.mp h).1.1

theorem solve_spec (env : Env) {fuel : ℕ} (hfuel : 2 ^ maxVars ≤ fuel) {s : SatSlave.State}
    (h : Ready s) {n m : Byte} (hn : n.toNat ≤ maxVars) (hm : m.toNat ≤ maxClauses)
    (body : List Byte) :
    let loaded := writeAll env ⟨s, 0⟩ (loadWrites n m body)
    ∃ m', pollDone env fuel (writeReg env loaded satCtrl 1) = some m' ∧ Ready m'.slave ∧
      m'.slave.sat.running = false ∧
      buildResp m'.slave.sat.satR n.toNat (m'.slave.sat.modelR.setWidth 32) =
        response n.toNat (leastModel n.toNat (formula m.toNat (body.map tokenOf))) := by
  intro loaded
  obtain ⟨hr, hregs⟩ := writeAll_spec (m := ⟨s, 0⟩) h env (loadWrites n m body)
  obtain ⟨hr', hregs'⟩ := writeReg_spec hr env satCtrl 1
  have hstart : (writeReg env loaded satCtrl 1).slave.sat = BruteForceSat.fresh :=
    transact_start hr _ rfl
  have hkeep : (writeReg env loaded satCtrl 1).slave.regs =
      RegFile.writeAll s.regs (loadWrites n m body) := by
    rw [hregs', hregs]
    exact write_ctrl _
  have hout := outcome_load s.regs hn hm body
  have hle := (BruteForceSat.duration_le (writeReg env loaded satCtrl 1).slave.regs.inputs).trans
    (BruteForceSat.space_le _)
  obtain ⟨m', hp, hready, _, hsat⟩ := pollDone_spec env (j := 0) hr' hstart
    (lt_of_lt_of_le (by norm_num) hfuel) (hle.trans hfuel)
  rw [hkeep, hout] at hsat
  refine ⟨m', hp, hready, by rw [hsat, BruteForceSat.final_running], ?_⟩
  rw [hsat]
  exact buildResp_eq hn (fun a ha => leastModel_lt ha)

structure Quiescent (s : SatSlave.State) : Prop where
  ready : Ready s
  stopped : s.sat.running = false

theorem idle_of_quiescent {s : SatSlave.State} (h : Quiescent s) (gap : List Idle) :
    target.idle s gap = s := by
  rw [idle_quiet h.ready.start h.ready.ack, advance_stopped h.stopped]

/-- For any state of the slave, any chain and any timing of its accesses, the
callback returns and sends what the format says; an accepted request leaves the
slave quiescent, and a refused one lets it idle. -/
theorem satRecv_spec (env : Env) {fuel : ℕ} (hfuel : 2 ^ maxVars ≤ fuel) (s : SatSlave.State)
    {p : List Pbuf} (hp : p ≠ []) :
    ∃ s' calls, satRecv env fuel s p errOk = some (s', calls) ∧
      sent calls = (replyTo (Pbuf.bytes p)).toList ∧
      (Accepted ((Pbuf.bytes p).take bufSize) → Quiescent s') ∧
      (¬ Accepted ((Pbuf.bytes p).take bufSize) →
        s' = target.idle s (env.entry ++ env.exit)) := by
  have hcond : ¬ (errOk ≠ errOk ∨ p = []) := by simp [hp]
  have hready := ready_idle s env.entry_ne
  rw [satRecv, if_neg hcond, flatten_eq]
  by_cases hacc : Accepted ((Pbuf.bytes p).take bufSize)
  · have hok := (headerOk_iff _).mpr hacc
    obtain ⟨m', hpoll, hr, hstop, hresp⟩ := solve_spec env hfuel hready hacc.2.2.1.2 hacc.2.2.2.2
      (((Pbuf.bytes p).take bufSize).drop 3)
    have hload : writeReg env (writeReg env (parseLoop env ((Pbuf.bytes p).take bufSize)
        (((Pbuf.bytes p).take bufSize).getD 2 0).toNat (clearLoop env ⟨target.idle s env.entry, 0⟩)
        3 0 0) satNVars ((((Pbuf.bytes p).take bufSize).getD 1 0).setWidth 32)) satNClauses
        ((((Pbuf.bytes p).take bufSize).getD 2 0).setWidth 32) =
        writeAll env ⟨target.idle s env.entry, 0⟩
          (loadWrites (((Pbuf.bytes p).take bufSize).getD 1 0)
          (((Pbuf.bytes p).take bufSize).getD 2 0) (((Pbuf.bytes p).take bufSize).drop 3)) := by
      rw [clearLoop_eq, parseLoop_eq, loadWrites, writeAll_append, writeAll_append]
      rfl
    have hctrl := readReg_stopped hr hstop env satCtrl
    have hmodel := readReg_stopped (m := ⟨m'.slave, m'.accesses + 1⟩) hr hstop env satModel
    refine ⟨_, _, by simp only [hok, Bool.not_true, Bool.false_eq_true, if_false, hload, hpoll,
      hctrl, hmodel]; rfl, ?_, fun _ => ?_, fun h => absurd hacc h⟩
    · rw [replyTo, if_pos hacc, (datR_ctrl _).2]
      exact congrArg (fun r => [r]) hresp
    · rw [idle_of_quiescent ⟨hr, hstop⟩]
      exact ⟨hr, hstop⟩
  · have hbad : headerOk ((Pbuf.bytes p).take bufSize) = false := by
      rw [← Bool.not_eq_true, headerOk_iff]
      exact hacc
    refine ⟨_, _, by simp only [hbad, Bool.not_false, if_true]; rfl, ?_, fun h => absurd h hacc,
      fun _ => ?_⟩
    · rw [replyTo, if_neg hacc]
      rfl
    · simp only [Wishbone.Target.idle, List.foldl_append]

theorem satRecv_returns (env : Env) {fuel : ℕ} (hfuel : 2 ^ maxVars ≤ fuel) (s : SatSlave.State)
    (p : List Pbuf) : ∃ s' calls, satRecv env fuel s p errOk = some (s', calls) := by
  by_cases hp : p = []
  · exact ⟨_, _, by rw [satRecv, if_pos (Or.inr hp)]⟩
  · obtain ⟨s', calls, hrun, _⟩ := satRecv_spec env hfuel s hp
    exact ⟨s', calls, hrun⟩

/-! ## The cycles of a call -/

def Obeys (s s' : SatSlave.State) : Prop :=
  Relation.ReflTransGen target.Lockstep (.idle, s) (.idle, s')

section Obeys
variable (env : Env)

theorem writeReg_obeys {m : Soc} (h : m.slave.wbAck = false) (k : ℕ) (v : BitVec 32) :
    Obeys m.slave (writeReg env m k v).slave ∧ (writeReg env m k v).slave.wbAck = false :=
  ⟨target.transact_lockstep h _ _, target.ack_transact _ _ _⟩

theorem readReg_obeys {m : Soc} (h : m.slave.wbAck = false) (k : ℕ) :
    Obeys m.slave (readReg env m k).1.slave ∧ (readReg env m k).1.slave.wbAck = false :=
  ⟨target.transact_lockstep h _ _, target.ack_transact _ _ _⟩

theorem writeAll_obeys {m : Soc} (h : m.slave.wbAck = false) (ws : List (ℕ × BitVec 32)) :
    Obeys m.slave (writeAll env m ws).slave ∧ (writeAll env m ws).slave.wbAck = false := by
  induction ws generalizing m with
  | nil => exact ⟨.refl, h⟩
  | cons w ws ih =>
    obtain ⟨hw, hack⟩ := writeReg_obeys env h w.1 w.2
    obtain ⟨hws, hack'⟩ := ih hack
    exact ⟨hw.trans hws, hack'⟩

theorem pollDone_obeys {fuel : ℕ} {m m' : Soc} (h : m.slave.wbAck = false)
    (hp : pollDone env fuel m = some m') : Obeys m.slave m'.slave ∧ m'.slave.wbAck = false := by
  induction fuel generalizing m with
  | zero => cases hp
  | succ fuel ih =>
    obtain ⟨hr, hack⟩ := readReg_obeys env h satCtrl
    simp only [pollDone] at hp
    split_ifs at hp
    · obtain rfl := Option.some.inj hp
      exact ⟨hr, hack⟩
    · obtain ⟨hrest, hack'⟩ := ih hack hp
      exact ⟨hr.trans hrest, hack'⟩

theorem satRecv_obeys {fuel : ℕ} {s s' : SatSlave.State} {p : List Pbuf} {err : ℤ}
    {calls : List PcbCall} (h : satRecv env fuel s p err = some (s', calls)) : Obeys s s' := by
  have hentry : Obeys s (target.idle s env.entry) := target.idle_lockstep s env.entry
  simp only [satRecv, clearLoop_eq, parseLoop_eq] at h
  split_ifs at h
  · obtain rfl := congrArg Prod.fst (Option.some.inj h)
    exact target.idle_lockstep s env.exit
  · obtain rfl := congrArg Prod.fst (Option.some.inj h)
    exact hentry.trans (target.idle_lockstep _ env.exit)
  · split at h
    · cases h
    · next m hpoll =>
      obtain rfl := congrArg Prod.fst (Option.some.inj h)
      obtain ⟨hclear, hack⟩ := writeAll_obeys env (m := ⟨target.idle s env.entry, 0⟩)
        (ready_idle s env.entry_ne).ack _
      obtain ⟨hparse, hack⟩ := writeAll_obeys env hack _
      obtain ⟨hvars, hack⟩ := writeReg_obeys env hack satNVars _
      obtain ⟨hclauses, hack⟩ := writeReg_obeys env hack satNClauses _
      obtain ⟨hstart, hack⟩ := writeReg_obeys env hack satCtrl 1
      obtain ⟨hdone, hack⟩ := pollDone_obeys env hack hpoll
      obtain ⟨hctrl, hack⟩ := readReg_obeys env hack satCtrl
      obtain ⟨hmodel, _⟩ := readReg_obeys env hack satModel
      exact hentry.trans <| hclear.trans <| hparse.trans <| hvars.trans <| hclauses.trans <|
        hstart.trans <| hdone.trans <| hctrl.trans <| hmodel.trans <|
        target.idle_lockstep _ env.exit

end Obeys
end EthernetSoc.SatTcp
