import EthernetSoc.Lib.Buffer
import EthernetSoc.SatRecv

/-!
# The receive callback with its arrays

`satRecvArray` is the callback again, one level below `satRecv`: the receive
buffer of 512 bytes and the reply buffer of 13 are memory that holds anything at
first, lengths are sixteen-bit, and every access to an array or to a register is
logged, phase by phase. The accesses that only read a register are left out of
the log.

Each phase is shown to compute what `satRecv` computes with lists, and its
accesses to be in bounds.
-/

namespace EthernetSoc.SatTcp
open WireFormat SatSlave

abbrev respSize : ℕ := maxVars + 3

/-- A byte of a segment of the given length, of the receive buffer or of the
reply buffer, or a word of the slave. -/
inductive Access
  | segment (k len : ℕ)
  | bufWrite (i : ℕ)
  | bufRead (i : ℕ)
  | regWrite (word : ℕ)
  | respWrite (i : ℕ)

def Access.InBounds (total : ℕ) : Access → Prop
  | .segment k len => k < len
  | .bufWrite i => i < bufSize
  | .bufRead i => i < total
  | .regWrite word => word ≤ 2 ∨ 8 ≤ word ∧ word ≤ 207
  | .respWrite i => i < respSize

def regWrites (log : List Access) : List ℕ :=
  log.filterMap fun
    | .regWrite word => some word
    | _ => none

/-! ## The flatten loop -/

structure Flat where
  buf : ℕ → Byte
  total : BitVec 16
  log : List Access

def Flat.bytes (f : Flat) : List Byte := Buffer.slice f.buf 0 f.total.toNat

/-- The sum is an `int` and cannot overflow; the difference is a `size_t` that
is cut to sixteen bits. -/
def copySize (total : BitVec 16) (len : ℕ) : BitVec 16 :=
  let copy := BitVec.ofNat 16 len
  if total.toNat + copy.toNat > bufSize then
    (BitVec.ofNat 32 bufSize - total.setWidth 32).setWidth 16
  else copy

def Flat.copy (f : Flat) (q : Pbuf) : Flat :=
  let n := copySize f.total q.len
  { buf := Buffer.blit f.buf f.total.toNat ((List.range n.toNat).map q.byte)
    total := f.total + n
    log := f.log ++ (List.range n.toNat).flatMap fun k =>
      [.segment k q.len, .bufWrite (f.total.toNat + k)] }

def flattenArray (f : Flat) : List Pbuf → Flat
  | [] => f
  | q :: p =>
    let f := f.copy q
    if f.total.toNat ≥ bufSize then f else flattenArray f p

theorem copySize_toNat {total : BitVec 16} (ht : total.toNat ≤ bufSize) (q : Pbuf) :
    (copySize total q.len).toNat = min q.len (bufSize - total.toNat) := by
  have hbuf : bufSize = 512 := rfl
  have hlen : q.len < 2^16 := q.len_lt
  have hcopy : (BitVec.ofNat 16 q.len).toNat = q.len := by
    rw [BitVec.toNat_ofNat, Nat.mod_eq_of_lt hlen]
  have hrest : ((BitVec.ofNat 32 bufSize - total.setWidth 32).setWidth 16).toNat =
      512 - total.toNat := by
    have hwide : (total.setWidth 32).toNat = total.toNat := by
      rw [BitVec.toNat_setWidth, Nat.mod_eq_of_lt (by omega)]
    have hwhole : (BitVec.ofNat 32 bufSize).toNat = 512 := rfl
    rw [BitVec.toNat_setWidth, BitVec.toNat_sub, hwide, hwhole]
    omega
  rw [copySize]
  simp only [hcopy]
  split_ifs with hover
  · rw [hrest]
    omega
  · rw [hcopy]
    omega

theorem copy_spec {f : Flat} (ht : f.total.toNat ≤ bufSize) (q : Pbuf) :
    (f.copy q).total.toNat = f.total.toNat + min q.len (bufSize - f.total.toNat) ∧
    (f.copy q).bytes = f.bytes ++ q.payload.take (min q.len (bufSize - f.total.toNat)) := by
  have hn := copySize_toNat ht q
  have hbuf : bufSize = 512 := rfl
  have htotal : (f.copy q).total.toNat = f.total.toNat + min q.len (bufSize - f.total.toNat) := by
    change (f.total + copySize f.total q.len).toNat = _
    rw [BitVec.toNat_add, hn, Nat.mod_eq_of_lt (by omega)]
  refine ⟨htotal, ?_⟩
  have hsrc := Pbuf.map_byte (min_le_left q.len (bufSize - f.total.toNat))
  have hlen : (q.payload.take (min q.len (bufSize - f.total.toNat))).length =
      min q.len (bufSize - f.total.toNat) := by
    have : q.len = q.payload.length := rfl
    rw [List.length_take]
    omega
  rw [Flat.bytes, htotal]
  change Buffer.slice (Buffer.blit f.buf f.total.toNat ((List.range _).map q.byte)) 0 _ = _
  rw [hn, hsrc]
  nth_rewrite 2 [← hlen]
  exact Buffer.slice_blit_append f.buf _ _

theorem copy_inBounds {f : Flat} (ht : f.total.toNat ≤ bufSize) (q : Pbuf) (total : ℕ)
    (h : ∀ a ∈ f.log, a.InBounds total) : ∀ a ∈ (f.copy q).log, a.InBounds total := by
  have hn := copySize_toNat ht q
  have hbuf : bufSize = 512 := rfl
  intro a ha
  simp only [Flat.copy, hn, List.mem_append, List.mem_flatMap, List.mem_range, List.mem_cons,
    List.not_mem_nil, or_false] at ha
  obtain hold | ⟨k, hk, rfl | rfl⟩ := ha
  · exact h a hold
  · change k < q.len
    omega
  · change f.total.toNat + k < 512
    omega

theorem flattenArray_spec {f : Flat} (ht : f.total.toNat ≤ bufSize) (p : List Pbuf) (total : ℕ)
    (h : ∀ a ∈ f.log, a.InBounds total) :
    (flattenArray f p).bytes = flattenLoop f.bytes p ∧
      ∀ a ∈ (flattenArray f p).log, a.InBounds total := by
  induction p generalizing f with
  | nil => exact ⟨rfl, h⟩
  | cons q p ih =>
    obtain ⟨htotal, hbytes⟩ := copy_spec ht q
    have hlen : f.bytes.length = f.total.toNat := Buffer.length_slice _ _ _
    have hcopy : (if f.bytes.length + q.len > bufSize then bufSize - f.bytes.length else q.len) =
        min q.len (bufSize - f.total.toNat) := by
      rw [hlen]
      split_ifs <;> omega
    have hnext : (f.copy q).bytes.length = (f.copy q).total.toNat := Buffer.length_slice _ _ _
    rw [flattenArray, flattenLoop, hcopy, ← hbytes, hnext]
    split_ifs with hfull
    · exact ⟨rfl, copy_inBounds ht q total h⟩
    · exact ih (by omega) (copy_inBounds ht q total h)

/-! ## The header -/

def checkHeader (f : Flat) : Bool × List Access :=
  if f.total.toNat < 4 then (false, [])
  else if f.buf 0 != protoStart then (false, [.bufRead 0])
  else
    let nVars := f.buf 1
    let nClauses := f.buf 2
    (!(nVars == 0 || nVars.toNat > maxVars || nClauses == 0 || nClauses.toNat > maxClauses),
      [.bufRead 0, .bufRead 1, .bufRead 2])

theorem getD_bytes {f : Flat} {k : ℕ} (h : k < f.total.toNat) : f.bytes.getD k 0 = f.buf k := by
  simp [Flat.bytes, Buffer.slice, h]

theorem checkHeader_spec (f : Flat) :
    (checkHeader f).1 = headerOk f.bytes ∧
      ∀ a ∈ (checkHeader f).2, a.InBounds f.total.toNat := by
  have hlen : f.bytes.length = f.total.toNat := Buffer.length_slice _ _ _
  rw [checkHeader, headerOk, hlen]
  by_cases hshort : f.total.toNat < 4
  · simp [hshort]
  · have hread : ∀ k < 4, f.bytes.getD k 0 = f.buf k := fun k hk => getD_bytes (by omega)
    rw [if_neg hshort, hread 0 (by omega), hread 1 (by omega), hread 2 (by omega),
      decide_eq_false hshort, Bool.false_or]
    split_ifs with hstart
    · refine ⟨rfl, ?_⟩
      simp only [List.mem_singleton, forall_eq, Access.InBounds]
      omega
    · refine ⟨rfl, ?_⟩
      simp only [List.mem_cons, List.not_mem_nil, or_false, forall_eq_or_imp, forall_eq,
        Access.InBounds]
      omega

/-! ## The register stores -/

structure Traced where
  soc : Soc
  log : List Access

section Store
variable (env : Env)

def storeReg (m : Traced) (k : ℕ) (v : BitVec 32) : Traced :=
  ⟨writeReg env m.soc k v, m.log ++ [.regWrite k]⟩

def clearArray (m : Traced) : Traced :=
  (List.range (maxClauses * clauseLen)).foldl (fun m i => storeReg env m (satLitBase + i) 0) m

def parseArray (f : Flat) (nClauses : ℕ) (m : Traced) (pos clause lit : ℕ) : Traced :=
  if pos < f.total.toNat ∧ clause < nClauses then
    let b := f.buf pos
    let m : Traced := ⟨m.soc, m.log ++ [.bufRead pos]⟩
    if b = protoEnd then m
    else if b = protoTerm then parseArray f nClauses m (pos+1) (clause+1) 0
    else if lit < clauseLen then
      parseArray f nClauses (storeReg env m (satLitBase + clause * clauseLen + lit) (litWord b))
        (pos+1) clause (lit+1)
    else parseArray f nClauses m (pos+1) clause lit
  else m
termination_by f.total.toNat - pos

theorem clearArray_eq (m : Traced) :
    clearArray env m = ⟨clearLoop env m.soc,
      m.log ++ (List.range (maxClauses * clauseLen)).map fun i => .regWrite (satLitBase + i)⟩ := by
  rw [clearArray, clearLoop]
  generalize maxClauses * clauseLen = n
  induction n with
  | zero => simp
  | succ n ih =>
    rw [List.range_succ, List.foldl_append, List.foldl_append, ih]
    simp [storeReg]

theorem clearArray_inBounds (soc : Soc) (total : ℕ) :
    ∀ a ∈ (clearArray env ⟨soc, []⟩).log, a.InBounds total := by
  intro a ha
  rw [clearArray_eq] at ha
  obtain ⟨i, hi, rfl⟩ := List.mem_map.mp ha
  have hi' : i < 200 := List.mem_range.mp hi
  change 8 + i ≤ 2 ∨ 8 ≤ 8 + i ∧ 8 + i ≤ 207
  omega

theorem drop_bytes {f : Flat} {pos : ℕ} (h : pos < f.total.toNat) :
    f.bytes.drop pos = f.buf pos :: f.bytes.drop (pos+1) := Buffer.drop_slice f.buf h

theorem mem_log_read {log : List Access} {pos total : ℕ} (h : pos < total)
    {ws : List (ℕ × BitVec 32)} {a : Access}
    (ha : a ∈ log ++ [.bufRead pos] ∨ (∃ k < total, a = .bufRead k) ∨ ∃ w ∈ ws, a = .regWrite w.1) :
    a ∈ log ∨ (∃ k < total, a = .bufRead k) ∨ ∃ w ∈ ws, a = .regWrite w.1 := by
  rcases ha with hlog | hnew
  · rcases List.mem_append.mp hlog with hold | hread
    · exact Or.inl hold
    · exact Or.inr (Or.inl ⟨pos, h, List.mem_singleton.mp hread⟩)
  · exact Or.inr hnew

/-- The parse loop makes the stores of `stores` in order, and besides them only
reads the part of the buffer that was filled. -/
theorem parseArray_spec (f : Flat) (nClauses : ℕ) (m : Traced) (pos clause lit : ℕ) :
    let ws := stores nClauses (f.bytes.drop pos) clause lit
    let r := parseArray env f nClauses m pos clause lit
    r.soc = writeAll env m.soc ws ∧ regWrites r.log = regWrites m.log ++ ws.map Prod.fst ∧
      ∀ a ∈ r.log, a ∈ m.log ∨ (∃ k < f.total.toNat, a = .bufRead k) ∨
        ∃ w ∈ ws, a = .regWrite w.1 := by
  fun_induction parseArray env f nClauses m pos clause lit with
  | case1 m pos clause lit h b m' hb =>
    rw [drop_bytes h.1, stores, if_pos h.2, if_pos hb]
    exact ⟨rfl, by simp [m', regWrites], fun a ha => mem_log_read h.1 (Or.inl ha)⟩
  | case2 m pos clause lit h b m' hb hz ih =>
    obtain ⟨hsoc, hwrites, hlog⟩ := ih
    rw [drop_bytes h.1, stores, if_pos h.2, if_neg hb, if_pos hz]
    exact ⟨hsoc, by simpa [m', regWrites] using hwrites, fun a ha => mem_log_read h.1 (hlog a ha)⟩
  | case3 m pos clause lit h b m' hb hz hl ih =>
    obtain ⟨hsoc, hwrites, hlog⟩ := ih
    rw [drop_bytes h.1, stores, if_pos h.2, if_neg hb, if_neg hz, if_pos hl]
    refine ⟨hsoc, by simpa [m', storeReg, regWrites] using hwrites, fun a ha => ?_⟩
    rcases hlog a ha with hold | hread | ⟨w, hw, rfl⟩
    · rcases List.mem_append.mp hold with hold | hstore
      · exact mem_log_read h.1 (Or.inl hold)
      · exact Or.inr (Or.inr ⟨_, List.mem_cons_self, List.mem_singleton.mp hstore⟩)
    · exact Or.inr (Or.inl hread)
    · exact Or.inr (Or.inr ⟨w, List.mem_cons_of_mem _ hw, rfl⟩)
  | case4 m pos clause lit h b m' hb hz hl ih =>
    obtain ⟨hsoc, hwrites, hlog⟩ := ih
    rw [drop_bytes h.1, stores, if_pos h.2, if_neg hb, if_neg hz, if_neg hl]
    exact ⟨hsoc, by simpa [m', regWrites] using hwrites, fun a ha => mem_log_read h.1 (hlog a ha)⟩
  | case5 m pos clause lit h =>
    have hnone : stores nClauses (f.bytes.drop pos) clause lit = [] := by
      by_cases hp : pos < f.total.toNat
      · rw [drop_bytes hp, stores, if_neg (fun hc => h ⟨hp, hc⟩)]
      · rw [List.drop_of_length_le (by rw [Flat.bytes, Buffer.length_slice]; omega), stores]
    rw [hnone]
    exact ⟨rfl, by simp, fun a ha => Or.inl ha⟩

end Store

/-- The stores of one parse go to ascending words, between the word of the slot
the parse starts at and the last slot of the last clause. -/
theorem stores_ascending (n : ℕ) (bs : List Byte) {c l : ℕ} (hl : l ≤ clauseLen) :
    (∀ w ∈ stores n bs c l, satLitBase + c * clauseLen + l ≤ w.1 ∧
      w.1 < satLitBase + n * clauseLen) ∧
    ((stores n bs c l).map Prod.fst).Pairwise (· < ·) := by
  induction bs generalizing c l with
  | nil => simp [stores]
  | cons b bs ih =>
    rw [stores]
    split_ifs with hc he ht hlit
    · simp
    · obtain ⟨hrange, hsorted⟩ := ih (c := c+1) (Nat.zero_le clauseLen)
      refine ⟨fun w hw => ?_, hsorted⟩
      have hw' := hrange w hw
      simp only [clauseLen] at hl hw' ⊢
      omega
    · obtain ⟨hrange, hsorted⟩ := ih (c := c) (l := l+1) hlit
      refine ⟨fun w hw => ?_, ?_⟩
      · rcases List.mem_cons.mp hw with rfl | hw
        · simp only [clauseLen] at hlit ⊢
          omega
        · have hw' := hrange w hw
          omega
      · rw [List.map_cons, List.pairwise_cons]
        refine ⟨fun k hk => ?_, hsorted⟩
        obtain ⟨w, hw, rfl⟩ := List.mem_map.mp hk
        have hw' := (hrange w hw).1
        omega
    · exact ih hl
    · simp

theorem stores_words {n : ℕ} (hn : n ≤ maxClauses) (bs : List Byte) :
    ∀ w ∈ stores n bs 0 0, 8 ≤ w.1 ∧ w.1 ≤ 207 := by
  intro w hw
  have hn' : n ≤ 20 := hn
  have hrange := (stores_ascending n bs (c := 0) (Nat.zero_le clauseLen)).1 w hw
  simp only [satLitBase, clauseLen] at hrange
  omega

theorem parseArray_inBounds (env : Env) (f : Flat) {n : ℕ} (hn : n ≤ maxClauses) (soc : Soc) :
    let log := (parseArray env f n ⟨soc, []⟩ 3 0 0).log
    (∀ a ∈ log, a.InBounds f.total.toNat) ∧
    (∀ w ∈ regWrites log, 8 ≤ w ∧ w ≤ 207) ∧ (regWrites log).Nodup := by
  obtain ⟨_, hwrites, hlog⟩ := parseArray_spec env f n ⟨soc, []⟩ 3 0 0
  have hwords := stores_words hn (f.bytes.drop 3)
  have hsorted := (stores_ascending n (f.bytes.drop 3) (c := 0) (Nat.zero_le clauseLen)).2
  refine ⟨fun a ha => ?_, ?_, ?_⟩
  · obtain hnil | ⟨k, hk, rfl⟩ | ⟨w, hw, rfl⟩ := hlog a ha
    · cases hnil
    · exact hk
    · exact Or.inr (hwords w hw)
  · rw [hwrites]
    intro w hw
    obtain ⟨x, hx, rfl⟩ := List.mem_map.mp hw
    exact hwords x hx
  · rw [hwrites]
    exact hsorted.imp (fun hlt => ne_of_lt hlt)

/-! ## The reply -/

structure Resp where
  buf : ℕ → Byte
  rlen : ℕ
  log : List Access

def Resp.bytes (r : Resp) : List Byte := Buffer.slice r.buf 0 r.rlen

/-- `resp[rlen++] = b`. -/
def Resp.push (r : Resp) (b : Byte) : Resp :=
  ⟨Buffer.blit r.buf r.rlen [b], r.rlen + 1, r.log ++ [.respWrite r.rlen]⟩

def buildArray (isSat : Bool) (nVars : ℕ) (model : BitVec 32) (r : Resp) : Resp :=
  if isSat then
    ((List.range nVars).foldl (fun r i => r.push (respByte model i)) (r.push respSat)).push protoEnd
  else (r.push respUnsat).push protoEnd

theorem foldl_push (r : Resp) (bs : List Byte) :
    (bs.foldl Resp.push r).bytes = r.bytes ++ bs ∧
      (bs.foldl Resp.push r).log = r.log ++ (List.range bs.length).map
        fun k => .respWrite (r.rlen + k) := by
  induction bs generalizing r with
  | nil => simp
  | cons b bs ih =>
    obtain ⟨hbytes, hlog⟩ := ih (r.push b)
    have hpush : (r.push b).bytes = r.bytes ++ [b] := Buffer.slice_blit_append r.buf r.rlen [b]
    rw [List.foldl_cons, hbytes, hlog, hpush]
    refine ⟨by simp, ?_⟩
    rw [List.length_cons, List.range_succ_eq_map]
    simp [Resp.push, Nat.add_assoc, Nat.add_comm 1]

theorem buildArray_eq (isSat : Bool) (nVars : ℕ) (model : BitVec 32) (r : Resp) :
    buildArray isSat nVars model r = (buildResp isSat nVars model).foldl Resp.push r := by
  cases isSat with
  | false => rfl
  | true => simp [buildArray, buildResp, List.foldl_append, List.foldl_map]

theorem length_buildResp {nVars : ℕ} (h : nVars ≤ maxVars) (isSat : Bool) (model : BitVec 32) :
    (buildResp isSat nVars model).length ≤ 12 := by
  have h10 : nVars ≤ 10 := h
  cases isSat with
  | false => simp [buildResp]
  | true =>
    simp only [buildResp, if_true, List.length_append, List.length_cons, List.length_map,
      List.length_range, List.length_nil]
    omega

theorem buildArray_inBounds {nVars : ℕ} (h : nVars ≤ maxVars) (isSat : Bool) (model : BitVec 32)
    (resp : ℕ → Byte) (total : ℕ) :
    ∀ a ∈ (buildArray isSat nVars model ⟨resp, 0, []⟩).log, a.InBounds total := by
  intro a ha
  rw [buildArray_eq, (foldl_push _ _).2] at ha
  obtain ⟨k, hk, rfl⟩ := List.mem_map.mp ha
  have hlen := length_buildResp h isSat model
  have hlt := List.mem_range.mp hk
  change 0 + k < 13
  omega

theorem bytes_buildArray (isSat : Bool) (nVars : ℕ) (model : BitVec 32) (resp : ℕ → Byte) :
    (buildArray isSat nVars model ⟨resp, 0, []⟩).bytes = buildResp isSat nVars model := by
  rw [buildArray_eq, (foldl_push _ _).1]
  rfl

/-! ## The whole call -/

structure Phases where
  flatten : List Access
  header : List Access
  clear : List Access
  parse : List Access
  start : List Access
  reply : List Access

def Phases.all (t : Phases) : List Access :=
  t.flatten ++ t.header ++ t.clear ++ t.parse ++ t.start ++ t.reply

/-- The arguments `buf` and `resp` are what the two arrays hold at first. -/
def satRecvArray (env : Env) (fuel : ℕ) (s : SatSlave.State) (p : List Pbuf) (err : ℤ)
    (buf resp : ℕ → Byte) : Option (SatSlave.State × List PcbCall × Phases) :=
  if err ≠ errOk ∨ p = [] then some (target.idle s env.exit, [.close], ⟨[], [], [], [], [], []⟩)
  else
    let s := target.idle s env.entry
    let f := flattenArray ⟨buf, 0, []⟩ p
    let header := checkHeader f
    if !header.1 then
      some (target.idle s env.exit, [.recved (Pbuf.totLen p)], ⟨f.log, header.2, [], [], [], []⟩)
    else
      let nVars := f.buf 1
      let nClauses := f.buf 2
      let clear := clearArray env ⟨⟨s, 0⟩, []⟩
      let parse := parseArray env f nClauses.toNat ⟨clear.soc, []⟩ 3 0 0
      let start := storeReg env ⟨parse.soc, []⟩ satNVars (nVars.setWidth 32)
      let start := storeReg env start satNClauses (nClauses.setWidth 32)
      let start := storeReg env start satCtrl 1
      match pollDone env fuel start.soc with
      | none => none
      | some m =>
        let ctrl := readReg env m satCtrl
        let model := readReg env ctrl.1 satModel
        let isSat := ((ctrl.2 >>> 1) &&& 1) != 0
        let r := buildArray isSat nVars.toNat model.2 ⟨resp, 0, []⟩
        some (target.idle model.1.slave env.exit,
          [.recved (Pbuf.totLen p), .write r.bytes, .output],
          ⟨f.log, header.2, clear.log, parse.log, start.log, r.log⟩)

section Call
variable (env : Env) (fuel : ℕ) (s : SatSlave.State) (p : List Pbuf) (buf resp : ℕ → Byte)

theorem flattenArray_bytes : (flattenArray ⟨buf, 0, []⟩ p).bytes = (Pbuf.bytes p).take bufSize :=
  (flattenArray_spec (f := ⟨buf, 0, []⟩) (Nat.zero_le _) p 0 (by simp)).1.trans (flatten_eq p)

theorem flattenArray_total :
    (flattenArray ⟨buf, 0, []⟩ p).total.toNat = min bufSize (Pbuf.bytes p).length := by
  have hlen := congrArg List.length (flattenArray_bytes p buf)
  rwa [Flat.bytes, Buffer.length_slice, List.length_take] at hlen

/-- Behind an accepted header the bytes the callback reads are those of the list
model. -/
theorem header_bytes {f : Flat} (h : (checkHeader f).1 = true) :
    f.buf 1 = f.bytes.getD 1 0 ∧ f.buf 2 = f.bytes.getD 2 0 ∧
      (f.buf 1).toNat ≤ maxVars ∧ (f.buf 2).toNat ≤ maxClauses := by
  rw [(checkHeader_spec f).1, headerOk_iff] at h
  obtain ⟨hlen, _, hvars, hclauses⟩ := h
  rw [Flat.bytes, Buffer.length_slice] at hlen
  rw [← getD_bytes (k := 1) (by omega), ← getD_bytes (k := 2) (by omega)]
  exact ⟨rfl, rfl, hvars.2, hclauses.2⟩

theorem satRecvArray_refines (err : ℤ) :
    (satRecvArray env fuel s p err buf resp).map (fun r => (r.1, r.2.1)) =
      satRecv env fuel s p err := by
  rw [satRecvArray, satRecv]
  by_cases hcond : err ≠ errOk ∨ p = []
  · rw [if_pos hcond, if_pos hcond]
    rfl
  rw [if_neg hcond, if_neg hcond]
  have hbytes : (flattenArray ⟨buf, 0, []⟩ p).bytes = flatten p :=
    (flattenArray_bytes p buf).trans (flatten_eq p).symm
  generalize flattenArray ⟨buf, 0, []⟩ p = f at *
  have hheader : (checkHeader f).1 = headerOk (flatten p) := by
    rw [(checkHeader_spec f).1, hbytes]
  dsimp only
  rw [hheader]
  by_cases hok : headerOk (flatten p) = true
  · obtain ⟨hvars, hclauses, _, _⟩ := header_bytes (f := f) (by rw [hheader, hok])
    rw [hbytes] at hvars hclauses
    have hparse (n : ℕ) (soc : Soc) : (parseArray env f n ⟨soc, []⟩ 3 0 0).soc =
        parseLoop env (flatten p) n soc 3 0 0 := by
      rw [(parseArray_spec env f n ⟨soc, []⟩ 3 0 0).1, parseLoop_eq, hbytes]
    simp only [hok, Bool.not_true, Bool.false_eq_true, if_false, clearArray_eq, storeReg, hparse,
      hvars, hclauses]
    generalize pollDone env fuel _ = polled
    cases polled with
    | none => rfl
    | some m => simp only [Option.map_some, bytes_buildArray]
  · simp only [hok, Bool.not_false, if_true]
    rfl

theorem satRecvArray_inBounds {s' : SatSlave.State} {calls : List PcbCall} {t : Phases}
    (h : satRecvArray env fuel s p errOk buf resp = some (s', calls, t)) :
    (∀ a ∈ t.all, a.InBounds (min bufSize (Pbuf.bytes p).length)) ∧
    (∀ w ∈ regWrites t.parse, 8 ≤ w ∧ w ≤ 207) ∧ (regWrites t.parse).Nodup ∧
    ∀ r ∈ sent calls, r.length ≤ 12 := by
  have hflat := (flattenArray_spec (f := ⟨buf, 0, []⟩) (Nat.zero_le _) p
    (min bufSize (Pbuf.bytes p).length) (by simp)).2
  have htotal := flattenArray_total p buf
  rw [satRecvArray] at h
  by_cases hcond : errOk ≠ errOk ∨ p = []
  · rw [if_pos hcond] at h
    obtain ⟨rfl, rfl, rfl⟩ : _ = s' ∧ _ = calls ∧ _ = t := by simpa using h
    simp [Phases.all, regWrites, sent]
  rw [if_neg hcond] at h
  generalize flattenArray ⟨buf, 0, []⟩ p = f at *
  have hhead := (checkHeader_spec f).2
  rw [htotal] at hhead
  cases hok : (checkHeader f).1 with
  | false =>
    simp only [hok, Bool.not_false, if_true, Option.some.injEq, Prod.mk.injEq] at h
    obtain ⟨_, rfl, rfl⟩ := h
    refine ⟨fun a ha => ?_, by simp [regWrites], by simp [regWrites], by simp [sent]⟩
    simp only [Phases.all, List.append_nil, List.mem_append] at ha
    exact ha.elim (hflat a) (hhead a)
  | true =>
    obtain ⟨_, _, hvars, hclauses⟩ := header_bytes hok
    simp only [hok, Bool.not_true, Bool.false_eq_true, if_false] at h
    obtain ⟨hparse, hwords, hnodup⟩ := parseArray_inBounds env f hclauses
      (clearArray env ⟨⟨target.idle s env.entry, 0⟩, []⟩).soc
    rw [htotal] at hparse
    split at h
    · cases h
    · next m _ =>
      simp only [Option.some.injEq, Prod.mk.injEq] at h
      obtain ⟨_, rfl, rfl⟩ := h
      refine ⟨fun a ha => ?_, hwords, hnodup, ?_⟩
      · simp only [Phases.all, List.mem_append] at ha
        obtain ((((hf | hh) | hc) | hp) | hs) | hr := ha
        · exact hflat a hf
        · exact hhead a hh
        · exact clearArray_inBounds env _ _ a hc
        · exact hparse a hp
        · obtain rfl | rfl | rfl : a = .regWrite 1 ∨ a = .regWrite 2 ∨ a = .regWrite 0 := by
            simpa [storeReg] using hs
          all_goals exact Or.inl (by norm_num)
        · exact buildArray_inBounds hvars _ _ resp _ a hr
      · intro r hr
        obtain rfl : r = _ := by simpa [sent] using hr
        rw [bytes_buildArray]
        exact length_buildResp hvars _ _

end Call

/-- For every chain, every state of the slave, every timing and whatever the
arrays hold at first: the flatten loop leaves the first 512 bytes of the chain
and their number; the call returns, with the result of the list model; every
access of every phase is in bounds; the stores of the parse go to different
literal words; and a reply has at most 12 bytes. -/
theorem recv_in_bounds (env : Env) {fuel : ℕ} (hfuel : 2 ^ maxVars ≤ fuel) (s : SatSlave.State)
    (p : List Pbuf) (buf resp : ℕ → Byte) :
    (flattenArray ⟨buf, 0, []⟩ p).total.toNat = min bufSize (Pbuf.bytes p).length ∧
    (flattenArray ⟨buf, 0, []⟩ p).bytes = (Pbuf.bytes p).take bufSize ∧
    ∃ s' calls t, satRecvArray env fuel s p errOk buf resp = some (s', calls, t) ∧
      satRecv env fuel s p errOk = some (s', calls) ∧
      (∀ a ∈ t.all, a.InBounds (min bufSize (Pbuf.bytes p).length)) ∧
      (∀ w ∈ regWrites t.parse, 8 ≤ w ∧ w ≤ 207) ∧ (regWrites t.parse).Nodup ∧
      ∀ r ∈ sent calls, r.length ≤ 12 := by
  refine ⟨flattenArray_total p buf, flattenArray_bytes p buf, ?_⟩
  obtain ⟨s', calls, hrun⟩ := satRecv_returns env hfuel s p
  have href := satRecvArray_refines env fuel s p buf resp errOk
  rw [hrun] at href
  obtain ⟨⟨s₁, calls₁, t⟩, hrun', heq⟩ := Option.map_eq_some_iff.mp href
  obtain ⟨rfl, rfl⟩ : s₁ = s' ∧ calls₁ = calls := by simpa using heq
  exact ⟨s₁, calls₁, t, hrun', hrun, satRecvArray_inBounds env fuel s p buf resp hrun'⟩

def overlong : List Pbuf :=
  [⟨List.replicate 600 protoStart, by rw [List.length_replicate]; norm_num⟩]

theorem recv_in_bounds_overlong :
    ∃ s' calls t, satRecvArray
        ⟨[⟨⟨false, false, false, 0, 0⟩, rfl⟩], by simp, fun _ => ⟨[], none⟩, []⟩ 1024 .reset
        overlong errOk (fun _ => 0xCC) (fun _ => 0xCC) = some (s', calls, t) ∧
      ∀ a ∈ t.all, a.InBounds (min 512 (Pbuf.bytes overlong).length) := by
  obtain ⟨_, _, s', calls, t, hrun, _, hlog, _⟩ := recv_in_bounds
    ⟨[⟨⟨false, false, false, 0, 0⟩, rfl⟩], by simp, fun _ => ⟨[], none⟩, []⟩
    (show 2 ^ maxVars ≤ 1024 by norm_num) .reset overlong (fun _ => 0xCC) (fun _ => 0xCC)
  exact ⟨s', calls, t, hrun, hlog⟩

end EthernetSoc.SatTcp
