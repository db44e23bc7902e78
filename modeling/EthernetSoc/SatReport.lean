import EthernetSoc.Dimacs
import EthernetSoc.EndToEnd

/-!
# What the host prints

`solve` prints its result, with the assignment in the order of the variables, and
`main` solves the file it is given. A printed text is a `String`; the time that
`solve` measures and the socket that the network makes of the packet are arguments.
-/

namespace EthernetSoc.SatReport
open WireFormat SatHost SatTcp Dimacs EndToEnd

def resultName : Result → String
  | .timeout => "TIMEOUT"
  | .unsat => "UNSAT"
  | .sat _ => "SAT"
  | .error _ => "ERROR"

def assignmentOf : Result → Dict
  | .sat assignment => assignment
  | _ => []

-- `none` is the `ValueError` of `int` on a key.
def sortedItems (d : Dict) : Option Dict :=
  (d.mapM fun item => (Text.int (item.1.toList.drop 1)).map fun n => (n, item)).map fun keyed =>
    (keyed.mergeSort fun x y => x.1 ≤ y.1).map Prod.snd

def itemText (item : String × Bool) : String :=
  "x" ++ String.ofList (item.1.toList.drop 1) ++ "=" ++ if item.2 then "T" else "F"

def assignmentText (items : Dict) : String :=
  "  Assignment: " ++ " ".intercalate (items.map itemText) ++ "\n"

def headline (label : String) (nVars nClauses elapsed : ℕ) : String :=
  (if label = "" then "" else "[" ++ label ++ "] ") ++ "n_vars=" ++ toString nVars ++
    ", n_clauses=" ++ toString nClauses ++ "  (" ++ toString elapsed ++ " µs RTT)\n"

def resultLine (name : String) : String := "  Result: " ++ name ++ "\n"

def report (label : String) (nVars nClauses elapsed : ℕ) (r : Result) : Option String :=
  (if assignmentOf r = [] then some "" else (sortedItems (assignmentOf r)).map assignmentText).map
    fun line => headline label nVars nClauses elapsed ++ resultLine (resultName r) ++ line ++ "\n"

/-- `main` with a file: `none` if parsing fails. A negative number of variables, which the
format does not allow, is outside the model. -/
def main (path : String) (text : List Char) (elapsed : ℕ) (exchange : List Byte → Sock) :
    Option String := do
  let (count, clauses) ← parseDimacs text
  let nVars ← count.toNat?
  report path nVars clauses.length elapsed (solve nVars (exchange (encodePacket nVars clauses)))

/-! ## Items in order -/

section Items
variable (ns : List ℕ) (val : ℕ → Bool)

def items : Dict := ns.map fun v => (key v, val v)

theorem drop_key (v : ℕ) : (key v).toList.drop 1 = Nat.toDigits 10 v := by
  rw [key, String.toList_append, Nat.toString_eq_repr, Nat.toList_repr]
  rfl

theorem short_of_lt_256 {v : ℕ} (hv : v < 256) : Text.Short (v : ℤ) := by
  have hlt : (v : ℤ).natAbs < 10 ^ 3 := by
    rw [Int.natAbs_natCast]
    omega
  exact Text.short_of_lt hlt (by decide) (by decide)

theorem int_key {v : ℕ} (hv : v < 256) : Text.int ((key v).toList.drop 1) = some (v : ℤ) := by
  have hnumeral : Text.numeral (v : ℤ) = Nat.toDigits 10 v := by
    rw [Text.numeral, if_neg (by omega), Int.natAbs_natCast]
  rw [drop_key, ← hnumeral, Text.int_numeral, if_pos (short_of_lt_256 hv)]

theorem itemText_key (v : ℕ) (b : Bool) :
    itemText (key v, b) = key v ++ "=" ++ if b then "T" else "F" := by
  have hkey : "x" ++ String.ofList ((key v).toList.drop 1) = key v := by
    rw [drop_key, key, Nat.toString_eq_repr]
    rfl
  rw [itemText, hkey]

theorem sortedItems_items (hns : ∀ v ∈ ns, v < 256) :
    sortedItems (items ns val) = some (items (ns.mergeSort fun v w => v ≤ w) val) := by
  have hkeyed : (items ns val).mapM (fun item =>
      (Text.int (item.1.toList.drop 1)).map fun n => (n, item)) =
      some (ns.map fun v : ℕ => ((v : ℤ), key v, val v)) := by
    induction ns with
    | nil => rfl
    | cons v ns ih =>
      obtain ⟨hv, hns⟩ := List.forall_mem_cons.mp hns
      have hrest := ih hns
      rw [items] at hrest
      rw [items, List.map_cons, List.mapM_cons, int_key hv, Option.map_some, Option.bind_eq_bind,
        Option.bind_some, hrest]
      rfl
  have hsort : (ns.map fun v : ℕ => ((v : ℤ), key v, val v)).mergeSort (fun x y => x.1 ≤ y.1) =
      (ns.mergeSort fun v w => v ≤ w).map fun v : ℕ => ((v : ℤ), key v, val v) := by
    refine (List.map_mergeSort fun v _ w _ => ?_).symm
    simp
  rw [sortedItems, hkeyed, Option.map_some, hsort, List.map_map]
  rfl

theorem pairwise_mergeSort_lt {ns : List ℕ} (h : ns.Nodup) :
    (ns.mergeSort fun v w => v ≤ w).Pairwise (· < ·) := by
  have hle : (ns.mergeSort fun v w => v ≤ w).Pairwise (fun v w => decide (v ≤ w) = true) :=
    List.pairwise_mergeSort (by simpa using fun a b c => le_trans) (by simpa using le_total) ns
  have hne : (ns.mergeSort fun v w => v ≤ w).Nodup := (List.mergeSort_perm ns _).nodup_iff.mpr h
  exact hle.imp₂ (fun v w hvw hne => lt_of_le_of_ne (of_decide_eq_true hvw) hne) hne

end Items

/-! ## Any reply -/

def varOf (b : Byte) : ℕ := (b &&& 0x7F).toNat

def valueOf (b : Byte) : Bool := (b >>> 7) &&& 1 != 0

/-- What the last byte for a variable in front of the end marker says. -/
def lastValue (bs : List Byte) (v : ℕ) : Option Bool :=
  ((bs.takeWhile (· ≠ protoEnd)).reverse.find? fun b => varOf b = v).map valueOf

theorem varOf_lt (b : Byte) : varOf b < 256 := (b &&& 0x7F).isLt

theorem lt_of_lastValue {bs : List Byte} {v : ℕ} (h : lastValue bs v ≠ none) : v < 256 := by
  have hfind : (bs.takeWhile (· ≠ protoEnd)).reverse.find? (fun b => varOf b = v) ≠ none :=
    fun h0 => h (by rw [lastValue, h0, Option.map_none])
  obtain ⟨b, hb⟩ := Option.ne_none_iff_exists'.mp hfind
  have hv : varOf b = v := by simpa using List.find?_some hb
  exact hv ▸ varOf_lt b

theorem lastValue_cons {b : Byte} (hb : b ≠ protoEnd) (bs : List Byte) (v : ℕ) :
    lastValue (b :: bs) v =
      (lastValue bs v).or (if varOf b = v then some (valueOf b) else none) := by
  rw [lastValue, lastValue, List.takeWhile_cons_of_pos (by simpa using hb), List.reverse_cons,
    List.find?_append, Option.map_or, List.find?_singleton]
  split_ifs <;> simp_all

theorem set_items {ns : List ℕ} (val : ℕ → Bool) (v : ℕ) (b : Bool) :
    (items ns val).set (key v) b =
      items (if v ∈ ns then ns else ns ++ [v]) (Function.update val v b) := by
  have hkey : ∀ w, (key w == key v) = decide (w = v) := by
    intro w
    rw [Bool.eq_iff_iff, beq_iff_eq, decide_eq_true_iff]
    exact ⟨key_injective, congrArg key⟩
  have hmem : (items ns val).any (fun item => item.1 == key v) = decide (v ∈ ns) := by
    rw [items, List.any_map, Bool.eq_iff_iff, List.any_eq_true, decide_eq_true_iff]
    simp [hkey]
  rw [Dict.set, hmem]
  by_cases hv : v ∈ ns
  · rw [if_pos (by simpa using hv), if_pos hv, items, items, List.map_map]
    refine List.map_congr_left fun w _ => ?_
    by_cases hw : w = v
    · simp [hw]
    · have hne : key w ≠ key v := fun h => hw (key_injective h)
      simp [hne, hw]
  · rw [if_neg (by simpa using hv), if_neg hv, items, items, List.map_append]
    congr 1
    · refine List.map_congr_left fun w hw => ?_
      rw [Function.update_of_ne (ne_of_mem_of_not_mem hw hv)]
    · simp

theorem decodeAssignment_items {ns : List ℕ} (hns : ns.Nodup) (val : ℕ → Bool) (bs : List Byte) :
    ∃ ns', ns'.Nodup ∧ (∀ v, v ∈ ns' ↔ v ∈ ns ∨ lastValue bs v ≠ none) ∧
      decodeAssignment (items ns val) bs =
        items ns' fun v => (lastValue bs v).getD (val v) := by
  induction bs generalizing ns val with
  | nil => exact ⟨ns, hns, fun v => by simp [lastValue], rfl⟩
  | cons b bs ih =>
    by_cases hb : b = protoEnd
    · exact ⟨ns, hns, fun v => by simp [lastValue, hb], by simp [decodeAssignment, lastValue, hb]⟩
    · have hns' : (if varOf b ∈ ns then ns else ns ++ [varOf b]).Nodup := by
        split_ifs with hmem
        · exact hns
        · refine List.nodup_append.mpr ⟨hns, List.nodup_singleton _, fun v hv w hw heq => hmem ?_⟩
          rwa [heq, List.mem_singleton.mp hw] at hv
      obtain ⟨ns', hnodup, hmem, hdec⟩ := ih hns' (Function.update val (varOf b) (valueOf b))
      refine ⟨ns', hnodup, fun v => ?_, ?_⟩
      · rw [hmem, lastValue_cons hb]
        split_ifs <;> simp_all
        grind
      · rw [decodeAssignment, if_neg hb]
        change decodeAssignment ((items ns val).set (key (varOf b)) (valueOf b)) bs = _
        rw [set_items, hdec]
        refine congrArg (items ns') (funext fun v => ?_)
        rw [lastValue_cons hb, Option.getD_or, Function.update_apply]
        by_cases hv : v = varOf b
        · rw [if_pos hv, if_pos hv.symm, Option.getD_some]
        · rw [if_neg hv, if_neg (Ne.symm hv), Option.getD_none]

section Report
variable (label : String) (nVars nClauses elapsed : ℕ)

theorem report_items {ns : List ℕ} (hns : ∀ v ∈ ns, v < 256) (val : ℕ → Bool) :
    report label nVars nClauses elapsed (.sat (items ns val)) =
      some (headline label nVars nClauses elapsed ++ resultLine "SAT" ++
        (if ns.mergeSort (fun v w => v ≤ w) = [] then "" else
          assignmentText (items (ns.mergeSort fun v w => v ≤ w) val)) ++ "\n") := by
  have hnil : ns.mergeSort (fun v w => v ≤ w) = [] ↔ ns = [] := by
    rw [← List.length_eq_zero_iff, List.length_mergeSort, List.length_eq_zero_iff]
  simp only [report, assignmentOf, sortedItems_items ns val hns, resultName, hnil]
  by_cases hnone : ns = []
  · simp [hnone, items]
  · simp [hnone, items]

theorem report_assignment (bs : List Byte) :
    ∃ vs : List ℕ, vs.Pairwise (· < ·) ∧ (∀ v, v ∈ vs ↔ lastValue bs v ≠ none) ∧
      report label nVars nClauses elapsed (.sat (decodeAssignment [] bs)) =
        some (headline label nVars nClauses elapsed ++ resultLine "SAT" ++
          (if vs = [] then "" else "  Assignment: " ++ " ".intercalate (vs.map fun v =>
            key v ++ "=" ++ if lastValue bs v = some true then "T" else "F") ++ "\n") ++ "\n") := by
  obtain ⟨ns, hnodup, hmem, hdec⟩ := decodeAssignment_items List.nodup_nil (fun _ => false) bs
  have hvalue : ∀ v, ((lastValue bs v).getD false = true) = (lastValue bs v = some true) := by
    intro v
    cases lastValue bs v <;> simp
  have hnamed : ∀ v, v ∈ ns ↔ lastValue bs v ≠ none := fun v => by simp [hmem]
  have hsmall : ∀ v ∈ ns, v < 256 := fun v hv => lt_of_lastValue ((hnamed v).mp hv)
  refine ⟨ns.mergeSort fun v w => v ≤ w, pairwise_mergeSort_lt hnodup, fun v => ?_, ?_⟩
  · rw [List.mem_mergeSort, hnamed]
  · have hdec' : decodeAssignment [] bs = items ns fun v => (lastValue bs v).getD false := hdec
    rw [hdec', report_items label nVars nClauses elapsed hsmall, assignmentText, items,
      List.map_map]
    simp only [Function.comp_def, itemText_key, hvalue]

/-- Whatever bytes come behind the `SAT` byte, and however they are cut, the report is printed.
If `nVars + 1` of them come, or the peer closes, it names each variable that has a byte among
the first `nVars + 1`, in front of the end marker, once, in increasing order and with the value
of its last one; if not, it says `TIMEOUT`. -/
theorem report_reply {sock : Sock} {bs : List Byte} (hs : sock.bytes = respSat :: bs) :
    (nVars + 1 ≤ bs.length ∨ sock.closed = true →
      ∃ vs : List ℕ, vs.Pairwise (· < ·) ∧
        (∀ v, v ∈ vs ↔ lastValue (bs.take (nVars + 1)) v ≠ none) ∧
        report label nVars nClauses elapsed (solve nVars sock) =
          some (headline label nVars nClauses elapsed ++ resultLine "SAT" ++
            (if vs = [] then "" else "  Assignment: " ++ " ".intercalate (vs.map fun v =>
              key v ++ "=" ++ if lastValue (bs.take (nVars + 1)) v = some true then "T" else "F")
              ++ "\n") ++ "\n")) ∧
    (bs.length ≤ nVars → sock.closed = false →
      report label nVars nClauses elapsed (solve nVars sock) =
        some (headline label nVars nClauses elapsed ++ resultLine "TIMEOUT" ++ "\n")) := by
  rw [solve_sat hs]
  constructor
  · intro hread
    rw [if_pos hread]
    exact report_assignment label nVars nClauses elapsed (bs.take (nVars + 1))
  · intro hshort hopen
    have hwait : ¬ (nVars + 1 ≤ bs.length ∨ sock.closed = true) := by simp [hopen]; omega
    rw [if_neg hwait]
    simp [report, assignmentOf, resultName]

end Report

theorem report_reply_of_three_bytes :
    ∃ (sock : Sock) (vs : List ℕ), sock.bytes = [respSat, 0x81, 0x82, 0x83, protoEnd] ∧
      (∀ v, v ∈ vs ↔ v = 1 ∨ v = 2) ∧
      report "" 1 1 900 (solve 1 sock) =
        some (headline "" 1 1 900 ++ resultLine "SAT" ++ (if vs = [] then "" else
          "  Assignment: " ++ " ".intercalate (vs.map fun v => key v ++ "=" ++
            if lastValue [0x81, 0x82] v = some true then "T" else "F") ++ "\n") ++ "\n") := by
  have hbytes : (⟨[⟨[respSat, 0x81], nofun⟩, ⟨[0x82, 0x83, protoEnd], nofun⟩], false⟩ :
      Sock).bytes = [respSat, 0x81, 0x82, 0x83, protoEnd] := rfl
  obtain ⟨vs, -, hmem, hreport⟩ := (report_reply "" 1 1 900 hbytes).1 (.inl (by decide))
  refine ⟨_, vs, hbytes, fun v => ?_, hreport⟩
  rw [hmem]
  simp [lastValue, varOf, protoEnd, List.find?_cons]
  grind

/-! ## A file, solved -/

/-- A file in the format, with one line for each of its clauses, within what the device takes. -/
structure Readable (d : Document) (clauses : Clauses) : Prop where
  holds : d.Holds clauses
  aligned : Aligned true d.body
  nonempty : ∀ c ∈ clauses, c ≠ []
  limits : WithinLimits d.nVars clauses

theorem Readable.allShort {d : Document} {clauses : Clauses} (h : Readable d clauses) :
    d.AllShort := by
  have hvars : d.nVars ≤ 10 := h.limits.vars.2
  refine ⟨short_of_lt_256 (by omega), ?_⟩
  rw [h.holds]
  intro z hz
  obtain ⟨c, hc, hzc⟩ := List.mem_flatMap.mp hz
  rcases List.mem_append.mp hzc with hlit | hzero
  · obtain ⟨hz0, hzn⟩ := h.limits.lits c hc z hlit
    have hlt : z.natAbs < 10 ^ 3 := by omega
    exact Text.short_of_lt hlt (by decide) (by decide)
  · rw [List.mem_singleton.mp hzero]
    decide

theorem Readable.parse {d : Document} {clauses : Clauses} (h : Readable d clauses) :
    parseDimacs d.text = some ((d.nVars : ℤ), clauses) := by
  have hnz : NonZero clauses := fun c hc z hz => (h.limits.lits c hc z hz).1
  have hreads := (reads d.body).1 [] clauses (by simp) hnz h.holds
  rw [← rows_start d.body_starts] at hreads
  rw [parseDimacs_eq, if_pos h.allShort, hreads.mpr ⟨h.nonempty, h.aligned⟩]
  rfl

theorem Readable.main_eq {d : Document} {clauses : Clauses} (h : Readable d clauses)
    (path : String) (elapsed : ℕ) (exchange : List Byte → Sock) :
    main path d.text elapsed exchange = report path d.nVars clauses.length elapsed
      (solve d.nVars (exchange (encodePacket d.nVars clauses))) := by
  rw [main, h.parse]
  rfl

def modelText (nVars a : ℕ) : String :=
  " ".intercalate ((List.range nVars).map fun i =>
    key (i+1) ++ "=" ++ if a.testBit i then "T" else "F")

theorem report_model (path : String) {nVars : ℕ} (nClauses elapsed a : ℕ)
    (hvars : 1 ≤ nVars ∧ nVars ≤ 10) :
    report path nVars nClauses elapsed
        (.sat ((List.range nVars).map fun i => (key (i+1), a.testBit i))) =
      some (headline path nVars nClauses elapsed ++ resultLine "SAT" ++
        ("  Assignment: " ++ modelText nVars a ++ "\n") ++ "\n") := by
  have hitems : ((List.range nVars).map fun i => (key (i+1), a.testBit i)) =
      items ((List.range nVars).map (· + 1)) fun v => a.testBit (v-1) := by
    rw [items, List.map_map]
    rfl
  have hsorted : ((List.range nVars).map (· + 1)).mergeSort (fun v w => v ≤ w) =
      (List.range nVars).map (· + 1) := by
    refine List.mergeSort_of_pairwise (List.pairwise_map.mpr ?_)
    exact List.pairwise_lt_range.imp fun h => by simpa using h.le
  have hne : (List.range nVars).map (· + 1) ≠ [] := by
    simp only [ne_eq, List.map_eq_nil_iff, List.range_eq_nil]
    omega
  have hsmall : ∀ v ∈ (List.range nVars).map (· + 1), v < 256 := by
    simp only [List.mem_map, List.mem_range, forall_exists_index, and_imp]
    omega
  rw [hitems, report_items _ _ _ _ hsmall, hsorted, if_neg hne, assignmentText, modelText, items,
    List.map_map, List.map_map]
  simp only [Function.comp_def, itemText_key, Nat.add_sub_cancel]

theorem solve_model {n a : ℕ} (hn : n ≤ 10) {sock : Sock}
    (hs : sock.bytes = response n (some a)) :
    solve n sock = .sat ((List.range n).map fun i => (key (i+1), a.testBit i)) := by
  have hdec := decodeResponse_response (show n ≤ 126 by omega) n (some a)
  have hcons : response n (some a) =
    respSat :: ((List.range n).map (fun i => assignByte i (a.testBit i)) ++ [protoEnd]) := rfl
  have hlen : ((List.range n).map (fun i => assignByte i (a.testBit i)) ++ [protoEnd]).length =
      n+1 := by simp
  rw [hcons, decodeResponse_sat] at hdec
  rw [solve_sat (hs.trans hcons), if_pos (.inl hlen.ge), List.take_of_length_le hlen.le, hdec]

/-- From the text of a file to the text on the screen: whatever the state of the slave, the
timing of the bus and the way packet and reply are cut, the host prints `UNSAT` exactly for an
unsatisfiable formula, and for any other one its least model. -/
theorem main_verdict (env : Env) {fuel : ℕ} (hfuel : 2 ^ maxVars ≤ fuel) (s : SatSlave.State)
    {d : Document} {clauses : Clauses} (h : Readable d clauses) (path : String) (elapsed : ℕ)
    {p : List Pbuf} (hp : Pbuf.bytes p = encodePacket d.nVars clauses) :
    ∃ s' calls r, satRecv env fuel s p errOk = some (s', calls) ∧ sent calls = [r] ∧
      ∀ exchange : List Byte → Sock, (exchange (encodePacket d.nVars clauses)).bytes = r →
        (¬ Satisfiable clauses → main path d.text elapsed exchange =
          some (headline path d.nVars clauses.length elapsed ++ resultLine "UNSAT" ++ "\n")) ∧
        (Satisfiable clauses → ∃ a,
          IsLeast {b | b < 2 ^ d.nVars ∧ satisfies (assignment b) clauses = true} a ∧
          main path d.text elapsed exchange =
            some (headline path d.nVars clauses.length elapsed ++ resultLine "SAT" ++
              ("  Assignment: " ++ modelText d.nVars a ++ "\n") ++ "\n")) := by
  have hvars : 1 ≤ d.nVars ∧ d.nVars ≤ 10 := h.limits.vars
  obtain ⟨s', calls, hrun, hsent, -⟩ := satRecv_spec env hfuel s (bytes_ne_nil hp)
  rw [hp, h.limits.replyTo_eq] at hsent
  refine ⟨s', calls, _, hrun, hsent, fun exchange hreply => ?_⟩
  rw [h.main_eq]
  cases ho : leastModel d.nVars (cnf clauses) with
  | none =>
    rw [ho] at hreply
    refine ⟨fun _ => ?_, fun hsat => absurd hsat (h.limits.leastModel_eq_none_iff.mp ho)⟩
    rw [solve_unsat hreply]
    simp [report, assignmentOf, resultName]
  | some a =>
    have hleast := h.limits.leastModel_eq_some_iff.mp ho
    rw [ho] at hreply
    refine ⟨fun hunsat => absurd ⟨_, hleast.1.2⟩ hunsat, fun _ => ⟨a, hleast, ?_⟩⟩
    rw [solve_model hvars.2 hreply, report_model _ _ _ _ hvars]

theorem exists_sock (bytes : List Byte) : ∃ sock : Sock, sock.bytes = bytes := by
  by_cases h : bytes = []
  · exact ⟨⟨[], false⟩, h.symm⟩
  · exact ⟨⟨[⟨bytes, h⟩], false⟩, by simp [Sock.bytes]⟩

theorem main_verdict_two_clauses : ∃ (exchange : List Byte → Sock) (a : ℕ),
    a < 4 ∧ satisfies (assignment a) [[1, -2], [2]] = true ∧
      main "two.cnf" twoClauses.text 900 exchange =
        some (headline "two.cnf" 2 2 900 ++ resultLine "SAT" ++
          ("  Assignment: " ++ modelText 2 a ++ "\n") ++ "\n") := by
  have haligned : Aligned true twoClauses.body := by
    simp [twoClauses, document, Aligned, newLine, onLine, Gap.breaks]
  have hread : Readable twoClauses [[1, -2], [2]] := ⟨rfl, haligned, by simp, by decide⟩
  obtain ⟨-, -, r, -, -, hall⟩ := main_verdict promptEnv enough_fuel SatSlave.State.reset hread
    "two.cnf" 900 (p := cutPacket) rfl
  obtain ⟨sock, hsock⟩ := exists_sock r
  obtain ⟨a, hleast, hmain⟩ := (hall (fun _ => sock) hsock).2 ⟨fun _ => true, rfl⟩
  exact ⟨fun _ => sock, a, hleast.1.1, hleast.1.2, hmain⟩

end EthernetSoc.SatReport
