import EthernetSoc.Lib.Pairing
import EthernetSoc.Lib.Words
import EthernetSoc.Pbuf

/-!
# The UDP echo firmware

The receive callback stores a datagram in the slave memory and five globals; the
main loop clears the flag, resolves the sender's address, reads the memory back
and sends. Both calls of the network library deliver received datagrams to the
callback before they return, as many as there are, and the results of the
resolution are the environment's choice.

A reply is built from what the globals and the memory hold after the resolution,
but goes to the address resolved before it. So the replies pair with datagrams
as long as the callback has not run in between.
-/

namespace EthernetSoc.UdpEcho

abbrev echoPort : BitVec 16 := 1234

/-- The bytes at `data` continue past the datagram: the callback reads whole
words. The payload of a frame fits the memory of 512 words. -/
structure Datagram where
  srcIp : BitVec 32
  srcPort : BitVec 16
  dstPort : BitVec 16
  data : ℕ → Byte
  length : ℕ
  length_le : length ≤ 2048

def Datagram.payload (d : Datagram) : List Byte := (List.range d.length).map d.data

structure Reply where
  ip : BitVec 32
  port : BitVec 16
  srcPort : BitVec 16
  payload : List Byte
  deriving DecidableEq

structure State where
  slave : BitVec 9 → BitVec 32
  pendingSrcIp : BitVec 32
  pendingSrcPort : BitVec 16
  pendingDstPort : BitVec 16
  pendingLength : ℕ
  pendingReply : Bool
  cachedIp : BitVec 32

def State.start (slave : BitVec 9 → BitVec 32) (cachedIp : BitVec 32) : State :=
  ⟨slave, 0, 0, 0, 0, false, cachedIp⟩

def word (offset : ℕ) : BitVec 9 := BitVec.ofNat 9 offset

def echoRx (s : State) (d : Datagram) : State :=
  if d.dstPort ≠ echoPort then s
  else
    let words := (d.length + 3) / 4
    { s with
      slave := Words.fill word (fun i => Words.load 4 d.data (i*4)) words s.slave
      pendingSrcIp := d.srcIp
      pendingSrcPort := d.srcPort
      pendingDstPort := d.dstPort
      pendingLength := d.length
      pendingReply := true }

def readBack (s : State) (out : ℕ → Byte) : ℕ → Byte :=
  Words.drain word s.slave ((s.pendingLength + 3) / 4) out

def udpSend (s : State) (srcPort dstPort : BitVec 16) (tx : ℕ → Byte) (length : ℕ) : Reply :=
  ⟨s.cachedIp, dstPort, srcPort, (List.range length).map tx⟩

inductive ArpResult
  | resolved
  | failed (cachedIp : BitVec 32)

/-- What the environment does in one iteration of the main loop: the datagrams
delivered by `udp_service` and inside `udp_arp_resolve`, the result of the
latter, and what is in the transmit buffer after it. -/
structure Round where
  service : List Datagram
  arp : List Datagram
  result : ArpResult
  txBuffer : ℕ → Byte

abbrev Event := Datagram ⊕ Reply

def State.clear (s : State) : State := { s with pendingReply := false }

def State.cache (s : State) (ip : BitVec 32) : State := { s with cachedIp := ip }

def answer (s : State) (r : Round) : State × List Event :=
  let s := s.clear
  let ip := s.pendingSrcIp
  let s := r.arp.foldl echoRx s
  match r.result with
  | .failed cachedIp => (s.cache cachedIp, r.arp.map Sum.inl)
  | .resolved =>
    let s := s.cache ip
    let out := readBack s r.txBuffer
    (s, r.arp.map Sum.inl ++
      [.inr (udpSend s s.pendingDstPort s.pendingSrcPort out s.pendingLength)])

def iterate (s : State) (r : Round) : State × List Event :=
  let s := r.service.foldl echoRx s
  if s.pendingReply then
    let next := answer s r
    (next.1, r.service.map Sum.inl ++ next.2)
  else (s, r.service.map Sum.inl)

def run (s : State) : List Round → State × List Event
  | [] => (s, [])
  | r :: rs =>
    let next := iterate s r
    let rest := run next.1 rs
    (rest.1, next.2 ++ rest.2)

/-! ## What a reply owes to a datagram -/

structure Echoes (d : Datagram) (r : Reply) : Prop where
  port : d.dstPort = echoPort
  toIp : r.ip = d.srcIp
  toPort : r.port = d.srcPort
  payload : r.payload = d.payload

structure Holds (s : State) (d : Datagram) : Prop where
  port : d.dstPort = echoPort
  srcIp : s.pendingSrcIp = d.srcIp
  srcPort : s.pendingSrcPort = d.srcPort
  length : s.pendingLength = d.length
  payload : ∀ out, (List.range d.length).map (readBack s out) = d.payload

theorem word_injective : ∀ i < 512, ∀ j < 512, word i = word j → i = j :=
  Words.ofNat_injOn (w := 9)

theorem echoRx_of_ne {d : Datagram} (h : d.dstPort ≠ echoPort) (s : State) : echoRx s d = s :=
  if_pos h

theorem holds_echoRx {d : Datagram} (h : d.dstPort = echoPort) (s : State) :
    Holds (echoRx s d) d ∧ (echoRx s d).pendingReply = true := by
  have hrx : echoRx s d = ⟨Words.fill word (fun i => Words.load 4 d.data (i*4)) ((d.length + 3) / 4)
      s.slave, d.srcIp, d.srcPort, d.dstPort, d.length, true, s.cachedIp⟩ := if_neg (not_not.mpr h)
  have hle := d.length_le
  rw [hrx]
  refine ⟨⟨h, rfl, rfl, rfl, ?_⟩, rfl⟩
  intro out
  apply List.map_congr_left
  intro j hj
  have hlt := List.mem_range.mp hj
  exact Words.drain_fill word_injective d.data s.slave (by omega) out (by omega)

theorem foldl_echoRx_of_ne {ds : List Datagram} (h : ∀ d ∈ ds, d.dstPort ≠ echoPort) (s : State) :
    ds.foldl echoRx s = s := by
  induction ds with
  | nil => rfl
  | cons d ds ih =>
    rw [List.foldl_cons, echoRx_of_ne (h d (by simp)), ih (fun e he => h e (by simp [he]))]

/-! ## The invariant of the main loop -/

/-- The replies so far are paired, and a pending reply is for a datagram that
has had none. -/
def Inv (log : List Event) (s : State) : Prop :=
  ∃ P : Pairing Echoes log, s.pendingReply = true → ∃ i d, P.Free i d ∧ Holds s d

theorem inv_start (slave : BitVec 9 → BitVec 32) (cachedIp : BitVec 32) :
    Inv [] (State.start slave cachedIp) :=
  ⟨Pairing.nil, fun h => absurd h Bool.false_ne_true⟩

theorem Inv.echoRx {log : List Event} {s : State} (h : Inv log s) (d : Datagram) :
    Inv (log ++ [.inl d]) (echoRx s d) := by
  obtain ⟨P, hP⟩ := h
  refine ⟨P.arrive d, ?_⟩
  by_cases hport : d.dstPort = echoPort
  · intro _
    exact ⟨log.length, d, P.free_arrive d, (holds_echoRx hport s).1⟩
  · rw [echoRx_of_ne hport]
    intro hpend
    obtain ⟨i, e, hfree, hholds⟩ := hP hpend
    exact ⟨i, e, hfree.arrive d, hholds⟩

theorem Inv.deliver {log : List Event} {s : State} (h : Inv log s) (ds : List Datagram) :
    Inv (log ++ ds.map Sum.inl) (ds.foldl UdpEcho.echoRx s) := by
  induction ds generalizing log s with
  | nil => simpa using h
  | cons d ds ih => simpa using ih (h.echoRx d)

def Round.Calm (r : Round) : Prop :=
  r.result = .resolved → ∀ d ∈ r.arp, d.dstPort ≠ echoPort

theorem Inv.clear {log : List Event} {s : State} (h : Inv log s) : Inv log s.clear := by
  obtain ⟨P, _⟩ := h
  exact ⟨P, fun hpend => absurd hpend Bool.false_ne_true⟩

theorem Holds.cache {s : State} {d : Datagram} (h : Holds s d) (ip : BitVec 32) :
    Holds (s.cache ip) d :=
  ⟨h.port, h.srcIp, h.srcPort, h.length, h.payload⟩

theorem Inv.cache {log : List Event} {s : State} (h : Inv log s) (ip : BitVec 32) :
    Inv log (s.cache ip) := by
  obtain ⟨P, hP⟩ := h
  refine ⟨P, fun hpend => ?_⟩
  obtain ⟨i, d, hfree, hholds⟩ := hP hpend
  exact ⟨i, d, hfree, hholds.cache ip⟩

theorem echoes_udpSend {s : State} {d : Datagram} (h : Holds s d) (hip : s.cachedIp = d.srcIp)
    (out : ℕ → Byte) :
    Echoes d (udpSend s s.pendingDstPort s.pendingSrcPort (readBack s out) s.pendingLength) := by
  refine ⟨h.port, hip, h.srcPort, ?_⟩
  rw [udpSend, h.length]
  exact h.payload out

theorem Inv.answer {log : List Event} {s : State} (h : Inv log s) (hpend : s.pendingReply = true)
    {r : Round} (hr : r.Calm) : Inv (log ++ (answer s r).2) (answer s r).1 := by
  cases hres : r.result with
  | failed cachedIp =>
    simp only [UdpEcho.answer, hres]
    exact (h.clear.deliver r.arp).cache cachedIp
  | resolved =>
    obtain ⟨P, hP⟩ := h
    obtain ⟨i, d, hfree, hholds⟩ := hP hpend
    obtain ⟨P', hfree'⟩ := hfree.arrives r.arp
    -- nothing has touched the globals or the memory since the address was read
    simp only [UdpEcho.answer, hres, foldl_echoRx_of_ne (hr hres), ← List.append_assoc]
    have hkept : Holds (s.clear.cache s.pendingSrcIp) d :=
      ⟨hholds.port, hholds.srcIp, hholds.srcPort, hholds.length, hholds.payload⟩
    obtain ⟨Q⟩ := hfree'.depart (echoes_udpSend hkept hholds.srcIp r.txBuffer)
    exact ⟨Q, fun h => absurd h Bool.false_ne_true⟩

theorem Inv.iterate {log : List Event} {s : State} (h : Inv log s) {r : Round} (hr : r.Calm) :
    Inv (log ++ (iterate s r).2) (iterate s r).1 := by
  have hserv := h.deliver r.service
  rw [UdpEcho.iterate]
  split_ifs with hpend
  · rw [← List.append_assoc]
    exact hserv.answer hpend hr
  · exact hserv

theorem Inv.run {log : List Event} {s : State} (h : Inv log s) {rounds : List Round}
    (hr : ∀ r ∈ rounds, r.Calm) : Inv (log ++ (run s rounds).2) (run s rounds).1 := by
  induction rounds generalizing log s with
  | nil => simpa [UdpEcho.run] using h
  | cons r rs ih =>
    have hnext := ih (h.iterate (hr r (by simp))) (fun q hq => hr q (by simp [hq]))
    simpa only [UdpEcho.run, List.append_assoc] using hnext

/-- In every run in which no datagram for the echo arrives inside a successful
resolution, each reply answers a datagram received before it, from the address
and port it is sent to, and no datagram is answered twice. -/
theorem echo_never_mixes (slave : BitVec 9 → BitVec 32) (cachedIp : BitVec 32)
    (rounds : List Round) (h : ∀ r ∈ rounds, r.Calm) :
    Nonempty (Pairing Echoes (run (State.start slave cachedIp) rounds).2) := by
  obtain ⟨P, _⟩ := (inv_start slave cachedIp).run h
  exact ⟨P⟩

def datagram (ip port : ℕ) (b : Byte) : Datagram :=
  ⟨BitVec.ofNat 32 ip, BitVec.ofNat 16 port, echoPort, fun _ => b, 1, by norm_num⟩

theorem echo_never_mixes_two_senders :
    Nonempty (Pairing Echoes (run (State.start (fun _ => 0) 0)
      [⟨[datagram 1 1000 7], [], .resolved, fun _ => 0⟩,
        ⟨[datagram 2 2000 9], [], .resolved, fun _ => 0⟩]).2) :=
  echo_never_mixes _ _ _ (by simp [Round.Calm])

/-- A second sender's datagram during the resolution of the first one's address:
the first host is sent the second one's bytes, to the second one's port. -/
theorem echo_mixes_during_resolution :
    (run (State.start (fun _ => 0) 0)
        [⟨[datagram 1 1000 7], [datagram 2 2000 9], .resolved, fun _ => 0⟩]).2 =
      [.inl (datagram 1 1000 7), .inl (datagram 2 2000 9), .inr ⟨1, 2000, echoPort, [9]⟩] ∧
    ¬ Nonempty (Pairing Echoes (run (State.start (fun _ => 0) 0)
        [⟨[datagram 1 1000 7], [datagram 2 2000 9], .resolved, fun _ => 0⟩]).2) := by
  have hlog : (run (State.start (fun _ => 0) 0)
        [⟨[datagram 1 1000 7], [datagram 2 2000 9], .resolved, fun _ => 0⟩]).2 =
      [.inl (datagram 1 1000 7), .inl (datagram 2 2000 9), .inr ⟨1, 2000, echoPort, [9]⟩] := rfl
  refine ⟨hlog, ?_⟩
  rw [hlog]
  intro h
  obtain ⟨P⟩ := h
  have hlt : P.source 2 < 2 := P.earlier 2 _ rfl
  obtain ⟨d, hd, hecho⟩ := P.related 2 _ rfl
  generalize P.source 2 = i at hlt hd
  interval_cases i
  · obtain rfl : datagram 1 1000 7 = d := by simpa using hd
    exact absurd hecho.toPort (by decide)
  · obtain rfl : datagram 2 2000 9 = d := by simpa using hd
    exact absurd hecho.toIp (by decide)

end EthernetSoc.UdpEcho
