import Mathlib.Tactic
import EthernetSoc.WireFormat

/-!
# The latency sweeps

The two host scripts that measure round trips, over UDP and over TCP. Their
loops differ in the payload, the timeout and the exchange with the socket, and
`loop` is the rest of `measure_rtt`. Time is in seconds; an environment gives
how long each piece of an iteration takes and when the echo of its payload
comes back. Every byte that comes back is tagged with the iteration that sent
it, which the scripts do not see.
-/

namespace EthernetSoc.Measure
open WireFormat

/-! ## The payloads -/

def bytesRange (n : ℕ) : List Byte := (List.range n).map (BitVec.ofNat 8)

def repeated (bs : List Byte) (k : ℕ) : List Byte := (List.replicate k bs).flatten

def Udp.payload (payloadSize : ℕ) : List Byte :=
  (repeated (bytesRange (payloadSize % 256)) (payloadSize / 256 + 1)).take payloadSize

def Tcp.payload (payloadSize : ℕ) : List Byte :=
  (repeated (bytesRange 256) (payloadSize / 256 + 1)).take payloadSize

@[simp] theorem length_bytesRange (n : ℕ) : (bytesRange n).length = n := by
  simp [bytesRange]

@[simp] theorem length_repeated (bs : List Byte) (k : ℕ) :
    (repeated bs k).length = k * bs.length := by
  simp [repeated]

theorem repeated_succ (bs : List Byte) (k : ℕ) : repeated bs (k+1) = bs ++ repeated bs k := by
  simp [repeated, List.replicate_succ]

def Counting (bs : List Byte) : Prop := ∀ k (h : k < bs.length), bs[k].toNat = k % 256

theorem Counting.take {bs : List Byte} (h : Counting bs) (n : ℕ) : Counting (bs.take n) := by
  intro k hk
  rw [List.getElem_take]
  exact h k _

theorem counting_bytesRange (n : ℕ) : Counting (bytesRange n) := by
  intro k hk
  simp [bytesRange]

theorem counting_repeated (k : ℕ) : Counting (repeated (bytesRange 256) k) := by
  induction k with
  | zero =>
    intro j hj
    simp at hj
  | succ k ih =>
    rw [repeated_succ]
    intro j hj
    by_cases h : j < (bytesRange 256).length
    · rw [List.getElem_append_left h]
      exact counting_bytesRange 256 j h
    · -- a later round of the pattern, 256 positions on
      rw [List.getElem_append_right (by omega), ih, length_bytesRange]
      rw [length_bytesRange] at h
      omega

theorem length_tcp_payload (n : ℕ) : (Tcp.payload n).length = n := by
  rw [Tcp.payload, List.length_take, length_repeated, length_bytesRange]
  omega

theorem counting_tcp_payload (n : ℕ) : Counting (Tcp.payload n) :=
  (counting_repeated _).take n

theorem length_udp_payload (n : ℕ) :
    (Udp.payload n).length = min n ((n / 256 + 1) * (n % 256)) := by
  rw [Udp.payload, List.length_take, length_repeated, length_bytesRange]

theorem length_udp_payload_iff (n : ℕ) : (Udp.payload n).length = n ↔ n < 256 := by
  rw [length_udp_payload]
  constructor
  · -- a full round is short of 256 bytes, and the others do not make up for it
    intro h
    by_contra hn
    have hdiv := Nat.div_add_mod n 256
    have hmod := Nat.mod_lt n (show 0 < 256 by norm_num)
    have hq : 1 ≤ n / 256 := by omega
    have hle : n ≤ (n / 256 + 1) * (n % 256) := by omega
    nlinarith
  · intro h
    rw [Nat.div_eq_of_lt h, Nat.mod_eq_of_lt h]
    omega

theorem udp_payload_of_lt {n : ℕ} (h : n < 256) : Udp.payload n = bytesRange n := by
  rw [Udp.payload, Nat.div_eq_of_lt h, Nat.mod_eq_of_lt h, repeated_succ]
  exact List.take_left' (length_bytesRange n)

theorem Counting.eq {bs cs : List Byte} (hb : Counting bs) (hc : Counting cs)
    (hlen : bs.length = cs.length) : bs = cs := by
  apply List.ext_getElem hlen
  intro k h h'
  apply BitVec.eq_of_toNat_eq
  rw [hb k h, hc k h']

theorem payloads_iff (n : ℕ) :
    (Udp.payload n = Tcp.payload n ∧
      (Udp.payload n).length = n ∧ Counting (Udp.payload n)) ↔ n < 256 := by
  constructor
  · intro h
    exact (length_udp_payload_iff n).mp h.2.1
  · intro h
    have hlen := (length_udp_payload_iff n).mpr h
    have hcount : Counting (Udp.payload n) := by
      rw [udp_payload_of_lt h]
      exact counting_bytesRange n
    exact ⟨hcount.eq (counting_tcp_payload n) (hlen.trans (length_tcp_payload n).symm),
      hlen, hcount⟩

theorem udp_payload_empty :
    (Udp.payload 256).length = 0 ∧ (Tcp.payload 256).length = 256 ∧
      Udp.payload 256 ≠ Tcp.payload 256 := by
  have hudp : (Udp.payload 256).length = 0 := by
    rw [length_udp_payload]
    norm_num
  have htcp := length_tcp_payload 256
  refine ⟨hudp, htcp, ?_⟩
  intro h
  rw [h, htcp] at hudp
  cases hudp

/-! ## The loop -/

/-- Bytes on their way back, each with the iteration whose payload it echoes. -/
abbrev Echo := List (ℕ × Byte)

def echo (i : ℕ) (payload : List Byte) : Echo := payload.map fun b => (i, b)

def Echo.bytes (data : Echo) : List Byte := data.map Prod.snd

@[simp] theorem bytes_echo (i : ℕ) (payload : List Byte) :
    Echo.bytes (echo i payload) = payload := by
  simp [Echo.bytes, echo]

/-- What the send and the receive of one iteration come to. An exception other
than the timeout leaves `measure_rtt`. -/
inductive Exchange (μ : Type)
  | received (data : Echo) (t1 : ℚ) (inbox : List μ)
  | timeout (now : ℚ) (inbox : List μ)
  | raised

def Exchange.stamp {μ : Type} (d : ℚ≥0) : Exchange μ → Exchange μ
  | .received data now inbox => .received data (now + d) inbox
  | .timeout now inbox => .timeout now inbox
  | .raised => .raised

structure Sample where
  iteration : ℕ
  t0 : ℚ
  t1 : ℚ
  data : Echo
  rtt : ℚ
  deriving DecidableEq

/-- The value is the time, in microseconds, between the two readings of the
clock in its iteration, and what was received between them is the echo of that
iteration's payload. -/
def Sample.Paired (payload : List Byte) (s : Sample) : Prop :=
  s.data = echo s.iteration payload ∧ s.rtt = (s.t1 - s.t0) * 10^6

/-- The values appended to `rtts` from iteration `i` on, each with where it comes
from. -/
def loop {μ : Type} (exchange : ℕ → ℚ → List μ → Exchange μ) (idle : ℕ → ℚ≥0)
    (payload : List Byte) (warmup i : ℕ) : ℕ → ℚ → List μ → List Sample
  | 0, _, _ => []
  | left+1, now, inbox =>
    let t0 := now + idle i
    match exchange i t0 inbox with
    | .raised => []
    | .timeout now inbox => loop exchange idle payload warmup (i+1) left now inbox
    | .received data t1 inbox =>
      let rest := loop exchange idle payload warmup (i+1) left t1 inbox
      if data.bytes ≠ payload then rest
      else if i ≥ warmup then ⟨i, t0, t1, data, (t1 - t0) * 10^6⟩ :: rest
      else rest

/-- The exchange reads nothing but the echo of iteration `i` and leaves nothing
unread. -/
def Exchange.Own {μ : Type} (i : ℕ) (payload : List Byte) : Exchange μ → Prop
  | .received data _ inbox => (data.bytes = payload → data = echo i payload) ∧ inbox = []
  | .timeout _ inbox => inbox = []
  | .raised => True

theorem loop_paired {μ : Type} {exchange : ℕ → ℚ → List μ → Exchange μ} {idle : ℕ → ℚ≥0}
    {payload : List Byte} {warmup i left : ℕ}
    (hown : ∀ j, i ≤ j → j < i + left → ∀ t0, (exchange j t0 []).Own j payload) (now : ℚ) :
    ∀ s ∈ loop exchange idle payload warmup i left now [], s.Paired payload := by
  induction left generalizing i now with
  | zero => simp [loop]
  | succ left ih =>
    have hrest : ∀ now, ∀ s ∈ loop exchange idle payload warmup (i+1) left now [],
        s.Paired payload :=
      fun now => ih (fun j hj hlt => hown j (by omega) (by omega)) now
    have hi := hown i le_rfl (by omega) (now + idle i)
    rw [loop]
    cases hx : exchange i (now + idle i) [] with
    | raised => simp
    | timeout now' inbox =>
      rw [hx] at hi
      obtain rfl : inbox = [] := hi
      exact hrest now'
    | received data t1 inbox =>
      rw [hx] at hi
      obtain ⟨hdata, rfl⟩ : _ ∧ inbox = [] := hi
      simp only
      split_ifs with hne hw
      · exact hrest t1
      · intro s hs
        rcases List.mem_cons.mp hs with rfl | hs
        · exact ⟨hdata (not_not.mp hne), rfl⟩
        · exact hrest t1 s hs
      · exact hrest t1

/-! ## Over UDP -/

namespace Udp

abbrev timeout : ℚ := 2

structure Datagram where
  data : Echo
  arrival : ℚ

/-- The times of one iteration: from the end of the last one to the reading of
`t0`, on to the datagram's departure, on to the call of `recvfrom`, and from its
return to the reading of `t1`. The reply comes `delay` after the departure, or
is lost. -/
structure Iteration where
  idle : ℚ≥0
  toSend : ℚ≥0
  toRecv : ℚ≥0
  toStamp : ℚ≥0
  delay : Option ℚ≥0
  sendFails : Bool

def arrive (d : Datagram) : List Datagram → List Datagram
  | [] => [d]
  | e :: inbox => if e.arrival ≤ d.arrival then e :: arrive d inbox else d :: e :: inbox

def recvfrom (bufsize : ℕ) (now : ℚ) : List Datagram → Option (Echo × ℚ × List Datagram)
  | [] => none
  | d :: inbox =>
    if d.arrival ≤ now + timeout then some (d.data.take bufsize, max now d.arrival, inbox)
    else none

def exchange (env : ℕ → Iteration) (payload : List Byte) (i : ℕ) (t0 : ℚ)
    (inbox : List Datagram) : Exchange Datagram :=
  let e := env i
  if e.sendFails then .raised
  else
    let sent := t0 + e.toSend
    -- what has not been read yet is read before, if it arrives before
    let inbox := match e.delay with
      | none => inbox
      | some delay => arrive ⟨echo i payload, sent + delay⟩ inbox
    let call := sent + e.toRecv
    match recvfrom 4096 call inbox with
    | none => .timeout (call + timeout) inbox
    | some (data, now, inbox) => .received data (now + e.toStamp) inbox

def measureRtt (env : ℕ → Iteration) (payloadSize samples warmup : ℕ) (now : ℚ)
    (inbox : List Datagram) : List Sample :=
  loop (exchange env (payload payloadSize)) (fun i => (env i).idle) (payload payloadSize) warmup 0
    (samples + warmup) now inbox

def Iteration.Prompt (e : Iteration) : Prop :=
  ∀ delay, e.delay = some delay → (delay : ℚ) ≤ e.toRecv + timeout

theorem exchange_own {env : ℕ → Iteration} {i : ℕ} (h : (env i).Prompt) (payload : List Byte)
    (t0 : ℚ) : (exchange env payload i t0 []).Own i payload := by
  cases hf : (env i).sendFails with
  | true =>
    simp only [exchange, hf, if_true]
    trivial
  | false =>
    cases hd : (env i).delay with
    | none => simp [exchange, hf, hd, recvfrom, Exchange.Own]
    | some delay =>
      have hin : t0 + (env i).toSend + delay ≤ t0 + (env i).toSend + (env i).toRecv + timeout := by
        have := h delay hd
        linarith
      simp only [exchange, hf, hd, arrive, recvfrom, hin, if_true, Bool.false_eq_true, if_false]
      refine ⟨?_, rfl⟩
      -- a reply that fills the buffer is cut, and then it is not the payload
      intro hb
      have htake : (echo i payload).take 4096 = echo i (payload.take 4096) := by
        simp [echo, List.map_take]
      rw [htake, bytes_echo] at hb
      rw [htake, hb]

end Udp

/-! ## Over TCP -/

namespace Tcp

abbrev timeout : ℚ := 5

structure Segment where
  data : Echo
  arrival : ℚ

/-- As over UDP, with a pause before each call of `recv`. The echo comes back in
the pieces of `cut`, each of one byte or more, at a time after the one before;
what is left of it comes in a last piece. -/
structure Iteration where
  idle : ℚ≥0
  toSend : ℚ≥0
  pause : ℕ → ℚ≥0
  toStamp : ℚ≥0
  cut : List (ℕ × ℚ≥0)
  last : ℚ≥0
  closed : Bool
  sendFails : Bool

def segments (last : ℚ≥0) (since : ℚ) : List (ℕ × ℚ≥0) → Echo → List Segment
  | _, [] => []
  | [], b :: data => [⟨b :: data, since + last⟩]
  | (n, d) :: cut, b :: data =>
    ⟨b :: data.take n, since + d⟩ :: segments last (since + d) cut (data.drop n)

/-- At most `n` bytes of the next segment, no bytes from a closed connection,
and `none` when the call times out. -/
def recv (closed : Bool) (now : ℚ) (n : ℕ) : List Segment → Option (Echo × ℚ × List Segment)
  | [] => if closed then some ([], now, []) else none
  | g :: inbox =>
    if g.arrival ≤ now + timeout then
      if n < g.data.length then
        some (g.data.take n, max now g.arrival, ⟨g.data.drop n, g.arrival⟩ :: inbox)
      else some (g.data, max now g.arrival, inbox)
    else none

def recvExact (e : Iteration) (n k : ℕ) (buf : Echo) (now : ℚ) (inbox : List Segment) :
    Exchange Segment :=
  if buf.length < n then
    match recv e.closed (now + e.pause k) (n - buf.length) inbox with
    | none => .timeout (now + e.pause k + timeout) inbox
    | some (chunk, now, inbox) =>
      if chunk = [] then .raised else recvExact e n (k+1) (buf ++ chunk) now inbox
  else .received buf now inbox
termination_by n - buf.length
decreasing_by
  have := List.length_pos_iff.mpr (by assumption : ¬ chunk = [])
  simp only [List.length_append]
  omega

def exchange (env : ℕ → Iteration) (payloadSize i : ℕ) (t0 : ℚ) (inbox : List Segment) :
    Exchange Segment :=
  let e := env i
  if e.sendFails then .raised
  else
    let sent := t0 + e.toSend
    -- the stream is in order, so the echo comes after all that is still unread
    let since := match inbox.getLast? with
      | none => sent
      | some g => max sent g.arrival
    let inbox := inbox ++ segments e.last since e.cut (echo i (payload payloadSize))
    (recvExact e payloadSize 0 [] sent inbox).stamp e.toStamp

def measureRtt (env : ℕ → Iteration) (payloadSize samples warmup : ℕ) (now : ℚ)
    (inbox : List Segment) : List Sample :=
  loop (exchange env payloadSize) (fun i => (env i).idle) (payload payloadSize) warmup 0
    (samples + warmup) now inbox

/-- Each piece of the echo comes within the timeout of the call that waits for
it, which is made a pause after the piece before it, or after the send. -/
def Iteration.Prompt (e : Iteration) : Prop :=
  (∀ k c, e.cut[k]? = some c → (c.2 : ℚ) ≤ e.pause k + timeout) ∧
    (e.last : ℚ) ≤ e.pause e.cut.length + timeout

def InTime (pause : ℕ → ℚ≥0) : ℕ → ℚ → List Segment → Prop
  | _, _, [] => True
  | k, since, g :: inbox =>
    g.arrival ≤ since + pause k + timeout ∧ g.data ≠ [] ∧ InTime pause (k+1) g.arrival inbox

theorem segments_inTime {pause : ℕ → ℚ≥0} {last : ℚ≥0} {cut : List (ℕ × ℚ≥0)} (k : ℕ)
    (hl : (last : ℚ) ≤ pause (k + cut.length) + timeout)
    (hc : ∀ j c, cut[j]? = some c → (c.2 : ℚ) ≤ pause (k+j) + timeout) (since : ℚ) (data : Echo) :
    InTime pause k since (segments last since cut data) ∧
      (segments last since cut data).flatMap Segment.data = data := by
  induction cut generalizing k since data with
  | nil =>
    cases data with
    | nil => simp [segments, InTime]
    | cons b data =>
      have harr : since + last ≤ since + pause k + timeout := by
        rw [add_assoc]
        exact add_le_add_right hl since
      simp [segments, InTime, harr]
  | cons c cut ih =>
    obtain ⟨n, d⟩ := c
    cases data with
    | nil => simp [segments, InTime]
    | cons b data =>
      have hd : (d : ℚ) ≤ pause k + timeout := hc 0 (n, d) rfl
      have hl' : (last : ℚ) ≤ pause (k + 1 + cut.length) + timeout := by
        rwa [List.length_cons, ← Nat.add_assoc, Nat.add_right_comm] at hl
      obtain ⟨hin, hflat⟩ := ih (k+1) hl' (fun j c h => by
        rw [Nat.add_right_comm]
        exact hc (j+1) c h) (since + d) (data.drop n)
      rw [segments, InTime, List.flatMap_cons, hflat, add_assoc]
      exact ⟨⟨add_le_add_right hd since, by simp, hin⟩, by simp⟩

section RecvExact
variable (e : Iteration) {n k : ℕ} {buf : Echo} {now : ℚ} {g : Segment} {inbox : List Segment}

theorem recvExact_full (h : n ≤ buf.length) :
    recvExact e n k buf now inbox = .received buf now inbox := by
  rw [recvExact, if_neg (by omega)]

theorem recvExact_segment (hne : g.data ≠ []) (hlen : buf.length + g.data.length ≤ n)
    (harr : g.arrival ≤ now + e.pause k + timeout) :
    recvExact e n k buf now (g :: inbox) =
      recvExact e n (k+1) (buf ++ g.data) (max (now + e.pause k) g.arrival) inbox := by
  have hpos := List.length_pos_iff.mpr hne
  have hrecv : recv e.closed (now + e.pause k) (n - buf.length) (g :: inbox) =
      some (g.data, max (now + e.pause k) g.arrival, inbox) := by
    rw [recv, if_pos harr, if_neg (by omega)]
  rw [recvExact, if_pos (by omega), hrecv]
  simp only [hne, if_false]

/-- What has been read so far is lost, and the late segment stays in the inbox. -/
theorem recvExact_late (hlt : buf.length < n) (harr : now + e.pause k + timeout < g.arrival) :
    recvExact e n k buf now (g :: inbox) =
      .timeout (now + e.pause k + timeout) (g :: inbox) := by
  rw [recvExact, if_pos hlt, recv, if_neg (not_le.mpr harr)]

theorem recvExact_inTime {since : ℚ} (hin : InTime e.pause k since inbox) (hnow : since ≤ now)
    (hlen : buf.length + (inbox.flatMap Segment.data).length = n) :
    ∃ t, recvExact e n k buf now inbox =
      .received (buf ++ inbox.flatMap Segment.data) t [] := by
  induction inbox generalizing since now k buf with
  | nil =>
    rw [recvExact_full e (by simp at hlen; omega)]
    exact ⟨now, by simp⟩
  | cons g inbox ih =>
    obtain ⟨harr, hne, hrest⟩ := hin
    rw [List.flatMap_cons, List.length_append] at hlen
    have hcall : g.arrival ≤ now + e.pause k + timeout := by linarith
    have hlen' : (buf ++ g.data).length + (inbox.flatMap Segment.data).length = n := by
      rw [List.length_append]
      omega
    obtain ⟨t, ht⟩ := ih (k := k+1) hrest (le_max_right (now + e.pause k) _) hlen'
    refine ⟨t, ?_⟩
    rw [recvExact_segment e hne (by omega) hcall, ht, List.flatMap_cons, List.append_assoc]

end RecvExact

theorem exchange_own {env : ℕ → Iteration} {i : ℕ} (h : (env i).Prompt) (payloadSize : ℕ)
    (t0 : ℚ) : (exchange env payloadSize i t0 []).Own i (payload payloadSize) := by
  cases hf : (env i).sendFails with
  | true =>
    simp only [exchange, hf, if_true]
    trivial
  | false =>
    obtain ⟨hin, hflat⟩ := segments_inTime 0 (by simpa using h.2) (by simpa using h.1)
      (t0 + (env i).toSend) (echo i (payload payloadSize))
    have hlen : ([] : Echo).length + ((segments (env i).last (t0 + (env i).toSend) (env i).cut
        (echo i (payload payloadSize))).flatMap Segment.data).length = payloadSize := by
      rw [hflat]
      simp [echo, length_tcp_payload]
    obtain ⟨t, ht⟩ := recvExact_inTime (env i) (k := 0) hin le_rfl hlen
    rw [hflat, List.nil_append] at ht
    simp only [exchange, hf, Bool.false_eq_true, if_false, List.getLast?_nil, List.nil_append, ht]
    exact ⟨fun _ => rfl, rfl⟩

end Tcp

/-! ## Whose reply a sample times -/

theorem samples_paired (payloadSize samples warmup : ℕ) (now : ℚ) :
    (∀ env : ℕ → Udp.Iteration, (∀ i < samples + warmup, (env i).Prompt) →
      ∀ s ∈ Udp.measureRtt env payloadSize samples warmup now [],
        s.Paired (Udp.payload payloadSize)) ∧
    (∀ env : ℕ → Tcp.Iteration, (∀ i < samples + warmup, (env i).Prompt) →
      ∀ s ∈ Tcp.measureRtt env payloadSize samples warmup now [],
        s.Paired (Tcp.payload payloadSize)) := by
  constructor
  · intro env h
    apply loop_paired
    intro j _ hj
    exact Udp.exchange_own (h j (by omega)) _
  · intro env h
    apply loop_paired
    intro j _ hj
    exact Tcp.exchange_own (h j (by omega)) _

theorem samples_paired_prompt :
    (∀ s ∈ Udp.measureRtt (fun _ => ⟨0, 0, 0, 0, some 1, false⟩) 8 20 3 0 [],
      s.Paired (Udp.payload 8)) ∧
    (∀ s ∈ Tcp.measureRtt (fun _ => ⟨0, 0, fun _ => 2, 0, [(2, 1)], 6, false, false⟩) 8 20 3 0 [],
      s.Paired (Tcp.payload 8)) := by
  obtain ⟨hudp, htcp⟩ := samples_paired 8 20 3 0
  constructor
  · apply hudp
    intro i _ delay h
    obtain rfl : 1 = delay := Option.some.inj h
    norm_num
  · apply htcp
    refine fun i _ => ⟨fun k c hc => ?_, by norm_num⟩
    obtain rfl := List.mem_singleton.mp (List.mem_of_getElem? hc)
    norm_num

/-- Iterations that take no time but for the reply: that of the first one comes
after the timeout, that of the second one ten seconds after its request. -/
def Udp.late (i : ℕ) : Udp.Iteration := ⟨0, 0, 0, 0, some (if i = 0 then 3 else 10), false⟩

def Tcp.late (i : ℕ) : Tcp.Iteration :=
  ⟨0, 0, fun _ => 0, 0, [], if i = 0 then 6 else 10, false, false⟩

theorem samples_mispaired :
    (Udp.measureRtt Udp.late 1 2 0 0 [] = [⟨1, 2, 3, echo 0 (Udp.payload 1), 10^6⟩] ∧
      ¬ Sample.Paired (Udp.payload 1) ⟨1, 2, 3, echo 0 (Udp.payload 1), 10^6⟩) ∧
    (Tcp.measureRtt Tcp.late 1 2 0 0 [] = [⟨1, 5, 6, echo 0 (Tcp.payload 1), 10^6⟩] ∧
      ¬ Sample.Paired (Tcp.payload 1) ⟨1, 5, 6, echo 0 (Tcp.payload 1), 10^6⟩) := by
  have hudp : Udp.payload 1 = [0] := by decide
  have htcp : Tcp.payload 1 = [0] := by decide
  have hfirst : Tcp.exchange Tcp.late 1 0 0 [] = .timeout 5 [⟨[(0, 0)], 6⟩] := by
    norm_num [Tcp.exchange, Tcp.late, Tcp.segments, echo, htcp]
    rw [Tcp.recvExact_late _ (by simp) (by norm_num)]
    norm_num [Exchange.stamp]
  have hsecond : Tcp.exchange Tcp.late 1 1 5 [⟨[(0, 0)], 6⟩] =
      .received [(0, 0)] 6 [⟨[(1, 0)], 16⟩] := by
    norm_num [Tcp.exchange, Tcp.late, Tcp.segments, echo, htcp]
    rw [Tcp.recvExact_segment _ (by simp) (by simp) (by norm_num), Tcp.recvExact_full _ (by simp)]
    norm_num [Exchange.stamp]
  have hidle : ∀ i, (Tcp.late i).idle = 0 := fun _ => rfl
  refine ⟨⟨by decide +kernel, ?_⟩, ?_, ?_⟩
  · simp [Sample.Paired, echo, hudp]
  · norm_num [Tcp.measureRtt, loop, hidle, hfirst, hsecond, htcp, Echo.bytes, echo]
  · simp [Sample.Paired, echo, htcp]

end EthernetSoc.Measure
