import Mathlib.Tactic
import EthernetSoc.WireFormat

/-!
# The host client

`encodePacket`, `decodeResponse`, `recvExact` and `solve` of the host script. A
Python integer is an `ℤ` or `ℕ` and a byte string a list of bytes; a dictionary
is its list of items in insertion order. The socket of `solve` holds the chunks
in which the reply arrives and what happens after the last one: the peer closes
the connection, or nothing more comes and the read times out.
-/

namespace EthernetSoc.SatHost
open WireFormat

abbrev Clauses := List (List ℤ)

def encodeLit (lit : ℤ) : Byte :=
  if lit > 0 then BitVec.ofNat 8 (lit.natAbs &&& 0x7F)
  else BitVec.ofNat 8 (lit.natAbs &&& 0x7F) ||| 0x80

def encodeBody (clauses : Clauses) : List Byte :=
  clauses.flatMap (fun clause => clause.map encodeLit ++ [protoTerm]) ++ [protoEnd]

def encodePacket (nVars : ℕ) (clauses : Clauses) : List Byte :=
  protoStart :: BitVec.ofNat 8 (nVars &&& 0xFF) :: BitVec.ofNat 8 (clauses.length &&& 0xFF) ::
    encodeBody clauses

/-! ## Decoding a reply -/

abbrev Dict := List (String × Bool)

def Dict.set (d : Dict) (key : String) (val : Bool) : Dict :=
  if d.any (fun item => item.1 == key) then
    d.map fun item => if item.1 == key then (key, val) else item
  else d ++ [(key, val)]

def key (i : ℕ) : String := "x" ++ toString i

inductive Result
  | timeout
  | unsat
  | sat (assignment : Dict)
  | error (raw : List Byte)
  deriving DecidableEq

def decodeAssignment (d : Dict) : List Byte → Dict
  | [] => d
  | b :: bs =>
    if b = protoEnd then d
    else decodeAssignment (d.set (key (b &&& 0x7F).toNat) ((b >>> 7) &&& 1 != 0)) bs

def decodeResponse (data : List Byte) (_nVars : ℕ) : Result :=
  match data with
  | [] => .timeout
  | b :: bs =>
    if b = respUnsat then .unsat
    else if b = respSat then .sat (decodeAssignment [] bs)
    else .error data

/-! ## The socket -/

structure Sock where
  chunks : List {c : List Byte // c ≠ []}
  closed : Bool

def Sock.bytes (s : Sock) : List Byte := s.chunks.flatMap Subtype.val

/-- At most `n` bytes of the next chunk; no bytes once the peer has closed; and
`none` for a read that times out. -/
def Sock.recv (n : ℕ) (s : Sock) : Option (List Byte × Sock) :=
  match s.chunks with
  | [] => if s.closed then some ([], s) else none
  | c :: cs =>
    if h : n < c.1.length then
      some (c.1.take n, { s with chunks := ⟨c.1.drop n, by simpa using h⟩ :: cs })
    else some (c.1, { s with chunks := cs })

def recvExact (n : ℕ) (buf : List Byte) (s : Sock) : Option (List Byte × Sock) :=
  if buf.length < n then
    match s.recv (n - buf.length) with
    | none => none
    | some (chunk, s) => if chunk = [] then some (buf, s) else recvExact n (buf ++ chunk) s
  else some (buf, s)
termination_by n - buf.length
decreasing_by
  have := List.length_pos_iff.mpr (by assumption : ¬ chunk = [])
  simp only [List.length_append]
  omega

def solve (nVars : ℕ) (s : Sock) : Result :=
  match recvExact 1 [] s with
  | none => .timeout
  | some ([], _) => .timeout
  | some (first :: _, s) =>
    if first = respUnsat then
      match recvExact 1 [] s with
      | none => .timeout
      | some _ => decodeResponse [first, protoEnd] nVars
    else if first = respSat then
      match recvExact (nVars+1) [] s with
      | none => .timeout
      | some (rest, _) => decodeResponse (first :: rest) nVars
    else .error [first]

theorem Sock.bytes_eq_nil_iff (s : Sock) : s.bytes = [] ↔ s.chunks = [] := by
  cases hc : s.chunks with
  | nil => simp [Sock.bytes, hc]
  | cons c cs => simp [Sock.bytes, hc, c.2]

theorem Sock.recv_of_ne_nil {n : ℕ} {s : Sock} (hn : 0 < n) (hs : s.chunks ≠ []) :
    ∃ chunk t, s.recv n = some (chunk, t) ∧ chunk ≠ [] ∧ chunk.length ≤ n ∧
      s.bytes = chunk ++ t.bytes ∧ t.closed = s.closed := by
  cases hc : s.chunks with
  | nil => exact absurd hc hs
  | cons c cs =>
    by_cases h : n < c.1.length
    · refine ⟨c.1.take n, ⟨⟨c.1.drop n, by simpa using h⟩ :: cs, s.closed⟩,
        by simp only [Sock.recv, hc, dif_pos h], ?_, ?_, ?_, rfl⟩
      · rw [ne_eq, List.take_eq_nil_iff]
        exact fun h0 => h0.elim (fun h0 => by omega) c.2
      · exact List.length_take_le n c.1
      · simp only [Sock.bytes, hc, List.flatMap_cons, ← List.append_assoc, List.take_append_drop]
    · refine ⟨c.1, ⟨cs, s.closed⟩, by simp only [Sock.recv, hc, dif_neg h], c.2, by omega, ?_, rfl⟩
      simp only [Sock.bytes, hc, List.flatMap_cons]

/-- However the bytes are cut into chunks, an exact read of `n` bytes returns
the next `n` of them; short of that it returns what a closing peer left, or
times out. -/
theorem recvExact_spec (n : ℕ) (buf : List Byte) (s : Sock) :
    (n ≤ buf.length + s.bytes.length →
      ∃ t, recvExact n buf s = some (buf ++ s.bytes.take (n - buf.length), t) ∧
        t.bytes = s.bytes.drop (n - buf.length) ∧ t.closed = s.closed) ∧
    (buf.length + s.bytes.length < n →
      if s.closed then ∃ t, recvExact n buf s = some (buf ++ s.bytes, t)
      else recvExact n buf s = none) := by
  induction hk : n - buf.length using Nat.strong_induction_on generalizing buf s with
  | _ k ih =>
    subst hk
    by_cases hlt : buf.length < n
    swap
    · rw [recvExact, if_neg hlt, show n - buf.length = 0 by omega]
      exact ⟨fun _ => ⟨s, by simp, by simp, rfl⟩, fun h => absurd h (by omega)⟩
    by_cases hc : s.chunks = []
    · have hb : s.bytes = [] := (s.bytes_eq_nil_iff).mpr hc
      rw [recvExact, if_pos hlt, hb]
      refine ⟨fun h => absurd h (by simp; omega), fun _ => ?_⟩
      cases hcl : s.closed <;> simp [Sock.recv, hc, hcl]
    · have hpos : 0 < n - buf.length := by omega
      obtain ⟨chunk, t, hr, hne, hle, hbytes, hcl⟩ := Sock.recv_of_ne_nil hpos hc
      have hpos := List.length_pos_iff.mpr hne
      have hrec : recvExact n buf s = recvExact n (buf ++ chunk) t := by
        rw [recvExact, if_pos hlt, hr]
        simp only [hne, if_false]
      obtain ⟨hfull, hshort⟩ := ih (n - (buf ++ chunk).length)
        (by simp only [List.length_append]; omega) (buf ++ chunk) t rfl
      simp only [List.length_append, List.append_assoc] at hfull hshort
      rw [hrec, hbytes]
      simp only [List.length_append, hcl] at hfull hshort ⊢
      constructor
      · intro h
        obtain ⟨u, hu, hd, hcu⟩ := hfull (by omega)
        refine ⟨u, ?_, ?_, hcu⟩
        · rw [hu, List.take_append, List.take_of_length_le hle,
            show n - (buf.length + chunk.length) = n - buf.length - chunk.length by omega]
        · rw [hd, List.drop_append, List.drop_of_length_le hle, List.nil_append,
            show n - (buf.length + chunk.length) = n - buf.length - chunk.length by omega]
      · intro h
        exact hshort (by omega)

theorem recvExact_cons {sock : Sock} {first : Byte} {rest : List Byte}
    (hs : sock.bytes = first :: rest) :
    ∃ t, recvExact 1 [] sock = some ([first], t) ∧ t.bytes = rest ∧ t.closed = sock.closed := by
  obtain ⟨t, ht, hbytes, hcl⟩ := (recvExact_spec 1 [] sock).1 (by simp [hs])
  rw [hs] at ht hbytes
  exact ⟨t, ht, hbytes, hcl⟩

/-! ## The formula a packet carries -/

def litHolds (v : ℕ → Bool) (lit : ℤ) : Bool :=
  if lit > 0 then v lit.natAbs else !v lit.natAbs

def satisfies (v : ℕ → Bool) (clauses : Clauses) : Bool :=
  clauses.all fun clause => clause.any (litHolds v)

def toLiteral (lit : ℤ) : Cnf.Literal := ⟨lit.natAbs - 1, decide (lit < 0)⟩

def cnf (clauses : Clauses) : List Cnf.Clause := clauses.map fun clause => clause.map toLiteral

def wireLiteral (v : ℕ) (neg : Bool) : Cnf.Literal :=
  ⟨(v + 255) % 256 % 16, neg || ((v + 255) % 256).testBit 4⟩

/-- The token a signed literal becomes on the wire: seven bits are kept, so a
positive multiple of 128 ends its clause and a negative number that is 127
modulo 128 ends the formula. -/
def wireToken (lit : ℤ) : Token :=
  if lit > 0 then
    if lit.natAbs % 128 = 0 then .term else .literal (wireLiteral (lit.natAbs % 128) false)
  else
    if lit.natAbs % 128 = 127 then .stop else .literal (wireLiteral (lit.natAbs % 128) true)

def wireTokens (clauses : Clauses) : List Token :=
  clauses.flatMap (fun clause => clause.map wireToken ++ [.term]) ++ [.stop]

theorem tokenOf_positive : ∀ v < 128, tokenOf (BitVec.ofNat 8 v) =
    if v = 0 then .term else .literal (wireLiteral v false) := by
  decide

theorem tokenOf_negative : ∀ v < 128, tokenOf (BitVec.ofNat 8 v ||| 0x80) =
    if v = 127 then .stop else .literal (wireLiteral v true) := by
  decide

theorem tokenOf_encodeLit (lit : ℤ) : tokenOf (encodeLit lit) = wireToken lit := by
  have hmod : lit.natAbs &&& 0x7F = lit.natAbs % 128 := Nat.and_two_pow_sub_one_eq_mod _ 7
  have hlt : lit.natAbs % 128 < 128 := Nat.mod_lt _ (by norm_num)
  unfold encodeLit wireToken
  rw [hmod]
  by_cases hpos : lit > 0
  · rw [if_pos hpos, if_pos hpos, tokenOf_positive _ hlt]
  · rw [if_neg hpos, if_neg hpos, tokenOf_negative _ hlt]

theorem map_tokenOf_encodeBody (clauses : Clauses) :
    (encodeBody clauses).map tokenOf = wireTokens clauses := by
  have hlit : tokenOf ∘ encodeLit = wireToken := funext tokenOf_encodeLit
  simp only [encodeBody, wireTokens, List.map_append, List.map_flatMap, List.map_map, hlit]
  rfl

theorem wireToken_small {lit : ℤ} (h0 : lit ≠ 0) (h : lit.natAbs ≤ 16) :
    wireToken lit = .literal (toLiteral lit) := by
  have hpos : 1 ≤ lit.natAbs := by omega
  have hdec : ∀ v, 1 ≤ v → v ≤ 16 → ∀ neg, wireLiteral v neg = ⟨v - 1, neg⟩ := by decide
  rw [wireToken, Nat.mod_eq_of_lt (by omega), hdec _ hpos h, hdec _ hpos h, toLiteral]
  by_cases hs : lit > 0
  · rw [if_pos hs, if_neg (by omega), decide_eq_false (by omega)]
  · rw [if_neg hs, if_neg (by omega), decide_eq_true (by omega)]

theorem clauseAt_wireTokens {clauses : Clauses}
    (h : ∀ clause ∈ clauses, ∀ lit ∈ clause, lit ≠ 0 ∧ lit.natAbs ≤ 16) (c : ℕ) :
    clauseAt (wireTokens clauses) c = (clauses.getD c []).map toLiteral := by
  induction clauses generalizing c with
  | nil => cases c <;> rfl
  | cons clause clauses ih =>
    have hmap : clause.map wireToken = (clause.map toLiteral).map Token.literal := by
      rw [List.map_map]
      apply List.map_congr_left
      intro lit hl
      have hb := h clause (by simp) lit hl
      exact wireToken_small hb.1 hb.2
    have hrest := ih (fun d hd => h d (by simp [hd]))
    have heq : wireTokens (clause :: clauses) =
        (clause.map toLiteral).map Token.literal ++ .term :: wireTokens clauses := by
      simp [wireTokens, hmap]
    rw [heq, clauseAt_clause]
    cases c with
    | zero => rfl
    | succ c => exact hrest c

theorem formula_wireTokens {clauses : Clauses}
    (h : ∀ clause ∈ clauses, ∀ lit ∈ clause, lit ≠ 0 ∧ lit.natAbs ≤ 16)
    (hlen : ∀ clause ∈ clauses, clause.length ≤ clauseLen) :
    formula clauses.length (wireTokens clauses) = cnf clauses := by
  apply List.ext_getElem (by simp [formula, cnf])
  intro c hc hc'
  have hlt : c < clauses.length := by simpa [cnf] using hc'
  simp only [formula, cnf, List.getElem_map, List.getElem_range, clauseAt_wireTokens h,
    List.getD_eq_getElem _ _ hlt]
  exact List.take_of_length_le (by simpa using hlen _ (List.getElem_mem hlt))

theorem satisfies_eq_eval (v : ℕ → Bool) {clauses : Clauses}
    (h : ∀ clause ∈ clauses, ∀ lit ∈ clause, lit ≠ 0) :
    satisfies v clauses = Cnf.eval (fun i => v (i+1)) (cnf clauses) := by
  have hlit : ∀ lit : ℤ, lit ≠ 0 →
      litHolds v lit = (toLiteral lit).eval (fun i => v (i+1)) := by
    intro lit h0
    have hs : lit.natAbs - 1 + 1 = lit.natAbs := by omega
    simp only [litHolds, toLiteral, Cnf.Literal.eval, hs]
    by_cases hp : lit > 0
    · simp [hp, not_lt.mpr hp.le]
    · simp [hp, show lit < 0 by omega]
  simp only [satisfies, Cnf.eval, cnf, List.all_map, Function.comp_def, List.any_map]
  rw [Bool.eq_iff_iff, List.all_eq_true, List.all_eq_true]
  apply forall₂_congr
  intro clause hc
  rw [List.any_eq_true, List.any_eq_true]
  apply exists_congr
  intro lit
  apply and_congr_right
  intro hl
  rw [hlit lit (h clause hc lit hl)]

/-! ## The reply read back -/

theorem key_injective {i j : ℕ} (h : key i = key j) : i = j := by
  have hd := congrArg String.toList h
  simp only [key, String.toList_append] at hd
  have hs : Nat.toDigits 10 i = Nat.toDigits 10 j := by
    simpa only [Nat.toString_eq_repr, Nat.toList_repr] using List.append_cancel_left hd
  rw [← Nat.ofDigitChars_toDigits (b := 10) (n := i) (by norm_num) (by norm_num), hs,
    Nat.ofDigitChars_toDigits (by norm_num) (by norm_num)]

theorem Dict.set_of_fresh {d : Dict} {k : String} (h : ∀ item ∈ d, item.1 ≠ k) (val : Bool) :
    d.set k val = d ++ [(k, val)] := by
  have hany : d.any (fun item => item.1 == k) = false := by
    simpa using h
  rw [Dict.set, hany]
  rfl

theorem assignByte_spec : ∀ i < 126, ∀ val, assignByte i val ≠ protoEnd ∧
    (assignByte i val &&& 0x7F).toNat = i+1 ∧ ((assignByte i val >>> 7) &&& 1 != 0) = val := by
  decide

theorem decodeAssignment_map {d : Dict} {l : List ℕ} {f : ℕ → Bool} (hl : l.Nodup)
    (hlt : ∀ i ∈ l, i < 126) (hd : ∀ item ∈ d, ∀ i ∈ l, item.1 ≠ key (i+1)) :
    decodeAssignment d (l.map (fun i => assignByte i (f i)) ++ [protoEnd]) =
      d ++ l.map fun i => (key (i+1), f i) := by
  induction l generalizing d with
  | nil => simp [decodeAssignment]
  | cons i l ih =>
    obtain ⟨hne, hvar, hval⟩ := assignByte_spec i (hlt i (by simp)) (f i)
    have hnot : i ∉ l := (List.nodup_cons.mp hl).1
    have hfresh := Dict.set_of_fresh (fun item hi => hd item hi i (by simp)) (f i)
    rw [List.map_cons, List.cons_append, decodeAssignment, if_neg hne, hvar, hval, hfresh,
      ih (List.nodup_cons.mp hl).2 (fun j hj => hlt j (by simp [hj]))]
    · simp
    · intro item hi j hj
      rcases List.mem_append.mp hi with hm | hm
      · exact hd item hm j (by simp [hj])
      · obtain rfl : item = (key (i+1), f i) := by simpa using hm
        intro he
        have hij := key_injective he
        exact hnot (by rwa [show i = j by omega])

theorem decodeResponse_sat (bs : List Byte) (m : ℕ) :
    decodeResponse (respSat :: bs) m = .sat (decodeAssignment [] bs) := by
  have hne : respSat ≠ respUnsat := by decide
  simp [decodeResponse, hne]

theorem decodeResponse_response {n : ℕ} (hn : n ≤ 126) (m : ℕ) (o : Option ℕ) :
    decodeResponse (response n o) m =
      match o with
      | none => .unsat
      | some a => .sat ((List.range n).map fun i => (key (i+1), a.testBit i)) := by
  cases o with
  | none => rfl
  | some a =>
    have hlt : ∀ i ∈ List.range n, i < 126 := by
      intro i hi
      have := List.mem_range.mp hi
      omega
    have hdec := decodeAssignment_map (d := []) (f := a.testBit) List.nodup_range hlt (by simp)
    rw [List.nil_append] at hdec
    change decodeResponse (respSat :: (_ ++ [protoEnd])) m = _
    rw [decodeResponse_sat, hdec]

theorem response_injective {n : ℕ} (hn : n ≤ 126) {o o' : Option ℕ}
    (ho : ∀ a, o = some a → a < 2^n) (ho' : ∀ a, o' = some a → a < 2^n)
    (h : response n o = response n o') : o = o' := by
  have hdec := congrArg (fun r => decodeResponse r n) h
  simp only [decodeResponse_response hn] at hdec
  cases o with
  | none =>
    cases o' with
    | none => rfl
    | some b => cases hdec
  | some a =>
    cases o' with
    | none => cases hdec
    | some b =>
      simp only [Result.sat.injEq, List.map_inj_left, List.mem_range, Prod.mk.injEq, true_and]
        at hdec
      congr 1
      apply Nat.eq_of_testBit_eq
      intro i
      by_cases hi : i < n
      · exact hdec i hi
      · have hpow : 2^n ≤ 2^i := Nat.pow_le_pow_right (by norm_num) (by omega)
        rw [Nat.testBit_lt_two_pow ((ho a rfl).trans_le hpow),
          Nat.testBit_lt_two_pow ((ho' b rfl).trans_le hpow)]

/-! ## A reply cut short -/

theorem solve_empty {sock : Sock} (hs : sock.bytes = []) (nVars : ℕ) :
    solve nVars sock = .timeout := by
  have hshort := (recvExact_spec 1 [] sock).2 (by simp [hs])
  cases hc : sock.closed with
  | true =>
    rw [hc, if_pos rfl, hs] at hshort
    obtain ⟨t, ht⟩ := hshort
    simp only [solve, ht, List.nil_append]
  | false =>
    rw [hc, if_neg Bool.false_ne_true] at hshort
    simp only [solve, hshort]

/-- Behind the first byte of a SAT reply the host waits for `nVars+1` more, but
takes what there is when the peer closes. -/
theorem solve_sat {sock : Sock} {rest : List Byte} (hs : sock.bytes = respSat :: rest)
    (nVars : ℕ) :
    solve nVars sock =
      if nVars+1 ≤ rest.length ∨ sock.closed = true then
        .sat (decodeAssignment [] (rest.take (nVars+1)))
      else .timeout := by
  have hne : respSat ≠ respUnsat := by decide
  obtain ⟨t, ht, hbytes, hcl⟩ := recvExact_cons hs
  obtain ⟨hfull, hshort⟩ := recvExact_spec (nVars+1) [] t
  simp only [List.length_nil, List.nil_append, zero_add, Nat.sub_zero, hbytes, hcl] at hfull hshort
  simp only [solve, ht, hne, if_true, if_false]
  by_cases hn : nVars+1 ≤ rest.length
  · obtain ⟨u, hu, _⟩ := hfull hn
    simp only [hu, decodeResponse_sat, hn, true_or, if_true]
  · have hcut := hshort (by omega)
    have htake : rest.take (nVars+1) = rest := List.take_of_length_le (by omega)
    cases hc : sock.closed with
    | true =>
      rw [hc, if_pos rfl] at hcut
      obtain ⟨u, hu⟩ := hcut
      simp only [hu, decodeResponse_sat, htake, or_true, if_true]
    | false =>
      rw [hc, if_neg Bool.false_ne_true] at hcut
      simp [hcut, hn]

/-- A model the host reports is the whole of `a`, and it reports none when the
connection closes before the whole reply has come. -/
def WholeModel (n a : ℕ) (sock : Sock) : Prop :=
  (∀ d, solve n sock = .sat d → d = (List.range n).map fun i => (key (i+1), a.testBit i)) ∧
    (sock.closed = true → sock.bytes ≠ response n (some a) → ∀ d, solve n sock ≠ .sat d)

theorem wholeModel_iff {n : ℕ} (hn : 1 ≤ n ∧ n ≤ 10) (a : ℕ) {sock : Sock}
    (hs : sock.bytes <+: response n (some a)) :
    WholeModel n a sock ↔
      (sock.closed = true → sock.bytes = [] ∨ sock.bytes = response n (some a)) := by
  obtain ⟨tail, htail⟩ := hs
  cases hb : sock.bytes with
  | nil => simp [WholeModel, solve_empty hb]
  | cons first rest =>
    rw [hb] at htail
    obtain ⟨rfl, hbody⟩ := List.cons.inj (htail : first :: (rest ++ tail) = respSat :: _)
    have hlen : rest.length + tail.length = n+1 := by simpa using congrArg List.length hbody
    by_cases hwhole : tail = []
    · -- the whole reply is read whether or not the peer closes behind it
      rw [hwhole, List.append_nil] at htail
      have hdec := decodeResponse_response (n := n) (by omega) n (some a)
      rw [← htail, decodeResponse_sat] at hdec
      have hsolve := solve_sat hb n
      rw [if_pos (Or.inl (by simp [hwhole] at hlen; omega)),
        List.take_of_length_le (by omega), hdec] at hsolve
      have hsome : ∀ d, solve n sock = .sat d →
          d = (List.range n).map fun i => (key (i+1), a.testBit i) := by
        intro d hd
        rw [hsolve] at hd
        exact (Result.sat.inj hd).symm
      simpa [WholeModel, hb, htail] using hsome
    · have hpos := List.length_pos_iff.mpr hwhole
      have hcut : respSat :: rest ≠ response n (some a) := by
        rw [← htail]
        intro he
        exact hwhole (by simpa using he)
      have hsolve := solve_sat hb n
      cases hc : sock.closed with
      | true =>
        rw [if_pos (Or.inr hc)] at hsolve
        simp [WholeModel, hb, hc, hcut, hsolve]
      | false =>
        rw [if_neg (by simp [hc]; omega)] at hsolve
        simp [WholeModel, hc, hsolve]

theorem wholeModel_in_pieces :
    WholeModel 2 1 ⟨[⟨[0x01, 0x81], by simp⟩, ⟨[0x02, 0xFF], by simp⟩], true⟩ :=
  (wholeModel_iff (by decide) 1 List.prefix_rfl).mpr fun _ => Or.inr rfl

/-- The connection closes after the assignment of `x1`, and half a model is
reported. -/
theorem partial_model_reported :
    ([0x01, 0x81] : List Byte) <+: response 2 (some 1) ∧
      solve 2 ⟨[⟨[0x01, 0x81], by simp⟩], true⟩ = .sat [("x1", true)] ∧
      ¬ WholeModel 2 1 ⟨[⟨[0x01, 0x81], by simp⟩], true⟩ := by
  have hsolve : solve 2 ⟨[⟨[0x01, 0x81], by simp⟩], true⟩ = .sat [("x1", true)] := by
    rw [solve_sat (rfl : Sock.bytes _ = respSat :: [0x81])]
    decide
  refine ⟨⟨[0x02, 0xFF], by decide⟩, hsolve, ?_⟩
  intro h
  exact h.2 rfl (by decide) _ hsolve

end EthernetSoc.SatHost
