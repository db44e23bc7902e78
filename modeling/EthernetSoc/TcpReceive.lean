import EthernetSoc.Lib.Buffer
import EthernetSoc.Lib.SeqSpace
import EthernetSoc.Pbuf

/-!
# The receiving half of TCP

What `tcp_receive` does with the data of a segment, for the open states in which the
application has not closed its side: the segment is cut at `rcv_nxt` and at the window,
delivered or kept on the queue `ooseq`, and acknowledged. `none` stands for a failed
`LWIP_ASSERT`, at which the firmware stops. A segment's payload is the list of its bytes,
whose length the source keeps in `len` as well. The comparisons `TCP_SEQ_LT` to
`TCP_SEQ_BETWEEN` are those of `SeqSpace`.
-/

namespace EthernetSoc.TcpReceive
open SeqSpace Buffer

/-! ## Segments and the connection -/

structure Seg where
  seqno : BitVec 32
  fin : Bool
  p : List Byte

namespace Seg

def len (seg : Seg) : ℕ := seg.p.length

-- `TCP_TCPLEN`; segments with SYN do not get here.
def tcplen (seg : Seg) : ℕ := seg.len + if seg.fin then 1 else 0

def stop (seg : Seg) : BitVec 32 := seg.seqno + BitVec.ofNat 32 seg.len

def last (seg : Seg) : BitVec 32 := seg.seqno + BitVec.ofNat 32 seg.tcplen

def realloc (seg : Seg) (len : ℕ) : Seg := { seg with p := seg.p.take len }

end Seg

inductive TcpState
  | established
  | closeWait
  deriving DecidableEq

structure Pcb where
  state : TcpState
  rcvNxt : BitVec 32
  rcvWnd : ℕ
  rcvAnnWnd : ℕ
  rcvAnnRightEdge : BitVec 32
  ackDelay : Bool
  ackNow : Bool
  mss : ℕ
  ooseq : List Seg

abbrev tcpWnd : ℕ := 4 * 1460
abbrev tcpWndUpdateThreshold : ℕ := min (tcpWnd / 4) (1460 * 4)

def u16 (x : BitVec 32) : ℕ := x.toNat % 2^16

def Pcb.rightEdge (pcb : Pcb) : BitVec 32 := pcb.rcvNxt + BitVec.ofNat 32 pcb.rcvWnd

def tcpAckNow (pcb : Pcb) : Pcb := { pcb with ackNow := true }

def tcpAck (pcb : Pcb) : Pcb :=
  if pcb.ackDelay then tcpAckNow { pcb with ackDelay := false } else { pcb with ackDelay := true }

/-- With what an update sent now would add to the announced window. -/
def tcpUpdateRcvAnnWnd (pcb : Pcb) : Option (Pcb × BitVec 32) :=
  if geq pcb.rightEdge (pcb.rcvAnnRightEdge + BitVec.ofNat 32 (min (tcpWnd / 2) pcb.mss)) then
    some ({ pcb with rcvAnnWnd := pcb.rcvWnd }, pcb.rightEdge - pcb.rcvAnnRightEdge)
  else if gt pcb.rcvNxt pcb.rcvAnnRightEdge then some ({ pcb with rcvAnnWnd := 0 }, 0)
  else if (pcb.rcvAnnRightEdge - pcb.rcvNxt).toNat ≤ 0xffff then
    some ({ pcb with rcvAnnWnd := (pcb.rcvAnnRightEdge - pcb.rcvNxt).toNat }, 0)
  else none

def recvedWnd (len : ℕ) (pcb : Pcb) : ℕ :=
  let rcvWnd := (pcb.rcvWnd + len) % 2^16
  if rcvWnd > tcpWnd ∨ rcvWnd < pcb.rcvWnd then tcpWnd else rcvWnd

def tcpRecved (len : ℕ) (pcb : Pcb) : Option Pcb :=
  (tcpUpdateRcvAnnWnd { pcb with rcvWnd := recvedWnd len pcb }).map fun u =>
    if tcpWndUpdateThreshold ≤ u.2.toNat then tcpAckNow u.1 else u.1

structure Ack where
  ackno : BitVec 32
  wnd : ℕ

/-! ## What is sent -/

/-- What becomes of a packet that is to be sent. -/
inductive Send
  | unbuilt
  | failed
  | sent
  deriving DecidableEq

def announce (pcb : Pcb) : Pcb :=
  { pcb with rcvAnnRightEdge := pcb.rcvNxt + BitVec.ofNat 32 pcb.rcvAnnWnd }

-- Building the header moves the announced edge, whether or not the packet leaves.
def tcpOutputHeader (pcb : Pcb) : Send → Pcb × List Ack
  | .unbuilt => (pcb, [])
  | .failed => (announce pcb, [])
  | .sent => (announce pcb, [⟨pcb.rcvNxt, pcb.rcvAnnWnd⟩])

def setAck (pending : Bool) (pcb : Pcb) : Pcb :=
  { pcb with ackDelay := pending, ackNow := pending }

def tcpSendEmptyAck (pcb : Pcb) (send : Send) : Pcb × List Ack :=
  (setAck (send ≠ .sent) (tcpOutputHeader pcb send).1, (tcpOutputHeader pcb send).2)

/-- The segments of `unsent` that leave in one call. A busy one has no header built, and is taken
for sent. -/
def outputSegments : List Send → Pcb → Pcb × List Ack
  | [], pcb => (pcb, [])
  | send :: rest, pcb =>
    if send = .failed then tcpOutputHeader pcb send
    else
      let r := outputSegments rest (setAck false (tcpOutputHeader pcb send).1)
      (r.1, (tcpOutputHeader pcb send).2 ++ r.2)

def tcpOutput (segs : List Send) (send : Send) (pcb : Pcb) : Pcb × List Ack :=
  if segs.isEmpty then if pcb.ackNow then tcpSendEmptyAck pcb send else (pcb, [])
  else outputSegments segs pcb

def tcpFasttmr (segs : List Send) (send : Send) (pcb : Pcb) : Pcb × List Ack :=
  if pcb.ackDelay then
    (setAck false (tcpOutput segs send (tcpAckNow pcb)).1, (tcpOutput segs send (tcpAckNow pcb)).2)
  else (pcb, [])

/-! ## Data in order -/

def trimFront (rcvNxt : BitVec 32) (seg : Seg) : Option Seg :=
  if between rcvNxt (seg.seqno + BitVec.ofNat 32 1) (seg.last - BitVec.ofNat 32 1) then
    if (rcvNxt - seg.seqno).toNat < 0xffff ∧ (rcvNxt - seg.seqno).toNat ≤ seg.len then
      some { seg with seqno := rcvNxt, p := seg.p.drop (rcvNxt - seg.seqno).toNat }
    else none
  else some seg

def trimWindow (pcb : Pcb) (seg : Seg) : Option Seg :=
  if seg.tcplen > pcb.rcvWnd then
    let seg := { seg with fin := false }.realloc pcb.rcvWnd
    if seg.last = pcb.rightEdge then some seg else none
  else some seg

/-- Drops what the segment covers, and takes over a FIN found there. -/
def cover (seg : Seg) : List Seg → Seg × List Seg
  | [] => (seg, [])
  | next :: rest =>
    if geq seg.last next.stop then cover (if next.fin then { seg with fin := true } else seg) rest
    else (seg, next :: rest)

def trimOoseq (seg : Seg) : List Seg → Option Seg
  | [] => some seg
  | next :: _ =>
    if gt seg.last next.seqno then
      let seg := seg.realloc (u16 (next.seqno - seg.seqno))
      if seg.last = next.seqno then some seg else none
    else some seg

def absorb (seg : Seg) (ooseq : List Seg) : Option (Seg × List Seg) :=
  if seg.fin then some (seg, [])
  else (trimOoseq (cover seg ooseq).1 (cover seg ooseq).2).map fun s => (s, (cover seg ooseq).2)

def advance (pcb : Pcb) (seg : Seg) : Option Pcb :=
  if seg.tcplen ≤ pcb.rcvWnd then
    (tcpUpdateRcvAnnWnd { pcb with
      rcvNxt := pcb.rcvNxt + BitVec.ofNat 32 seg.tcplen
      rcvWnd := pcb.rcvWnd - seg.tcplen }).map Prod.fst
  else none

/-- What `tcp_receive` leaves in `recv_data` and `recv_flags`, beside the connection. -/
structure Result where
  pcb : Pcb
  data : List Byte
  gotFin : Bool

def drain (r : Result) : List Seg → Option Result
  | [] => some { r with pcb := { r.pcb with ooseq := [] } }
  | cseg :: rest =>
    if cseg.seqno = r.pcb.rcvNxt then
      (advance r.pcb cseg).bind fun pcb =>
        drain ⟨if cseg.fin then { pcb with state := .closeWait } else pcb, r.data ++ cseg.p,
          r.gotFin || cseg.fin⟩ rest
    else some { r with pcb := { r.pcb with ooseq := cseg :: rest } }

def inOrder (pcb : Pcb) (seg : Seg) : Option Result :=
  (trimWindow pcb seg).bind fun seg =>
    (absorb seg pcb.ooseq).bind fun a =>
      (advance pcb a.1).bind fun pcb =>
        (drain ⟨pcb, a.1.p, a.1.fin⟩ a.2).map fun r => { r with pcb := tcpAck r.pcb }

/-! ## Data out of order -/

def oosCover (cseg : Seg) : List Seg → List Seg
  | [] => [cseg]
  | next :: rest =>
    if geq cseg.stop next.stop then
      oosCover (if next.fin then { cseg with fin := true } else cseg) rest
    else if gt cseg.stop next.seqno then
      cseg.realloc (u16 (next.seqno - cseg.seqno)) :: next :: rest
    else cseg :: next :: rest

def tcpOosInsertSegment (cseg : Seg) (next : List Seg) : List Seg :=
  if cseg.fin then [cseg] else oosCover cseg next

def trimEnd (seg : Seg) (seqno : BitVec 32) : Seg :=
  if gt seg.stop seqno then seg.realloc (u16 (seqno - seg.seqno)) else seg

def trimEdge (edge : BitVec 32) (seg : Seg) : Option Seg :=
  if gt (BitVec.ofNat 32 seg.tcplen + seg.seqno) edge then
    let seg := { seg with fin := false }.realloc (u16 (edge - seg.seqno))
    if seg.last = edge then some seg else none
  else some seg

def precedes (seg : Seg) (prev : Option Seg) (next : Seg) : Bool :=
  match prev with
  | none => lt seg.seqno next.seqno
  | some prev => between seg.seqno (prev.seqno + BitVec.ofNat 32 1)
      (next.seqno - BitVec.ofNat 32 1)

/-- The walk along the queue, with the segment before the current one. `copied` says whether
`tcp_seg_copy` finds memory. -/
def queueOoseq (copied : Bool) (edge : BitVec 32) (seg : Seg) :
    Option Seg → List Seg → Option (List Seg)
  | prev, [] => some prev.toList
  | prev, next :: rest =>
    if seg.seqno = next.seqno then
      some (prev.toList ++ if seg.len > next.len ∧ copied then
        tcpOosInsertSegment seg (next :: rest) else next :: rest)
    else if precedes seg prev next then
      some (if copied then (prev.map (trimEnd · seg.seqno)).toList ++
        tcpOosInsertSegment seg (next :: rest) else prev.toList ++ next :: rest)
    else if rest.isEmpty ∧ gt seg.seqno next.seqno then
      -- a queue that ends with a FIN has all the data already
      if next.fin ∨ ¬ copied then some (prev.toList ++ [next])
      else (trimEdge edge seg).map fun cseg => prev.toList ++ [trimEnd next seg.seqno, cseg]
    else (queueOoseq copied edge seg (some next) rest).map (prev.toList ++ ·)

def outOfOrder (copied : Bool) (pcb : Pcb) (seg : Seg) : Option Pcb :=
  if pcb.ooseq.isEmpty then some { pcb with ooseq := if copied then [seg] else [] }
  else (queueOoseq copied pcb.rightEdge seg none pcb.ooseq).map fun q => { pcb with ooseq := q }

/-! ## A segment -/

/-- After the cut at `rcv_nxt`: the segment has to start in the window. -/
def receiveTrimmed (copied : Bool) (send : Send) (pcb : Pcb) (seg : Seg) :
    Option (Result × List Ack) :=
  if between seg.seqno pcb.rcvNxt (pcb.rightEdge - BitVec.ofNat 32 1) then
    if pcb.rcvNxt = seg.seqno then (inOrder pcb seg).map fun r => (r, [])
    else (outOfOrder copied pcb seg).map fun pcb =>
      (⟨(tcpSendEmptyAck pcb send).1, [], false⟩, (tcpSendEmptyAck pcb send).2)
  else some (⟨(tcpSendEmptyAck pcb send).1, [], false⟩, (tcpSendEmptyAck pcb send).2)

def tcpReceive (copied : Bool) (send : Send) (pcb : Pcb) (seg : Seg) :
    Option (Result × List Ack) :=
  if 0 < seg.tcplen ∧ pcb.state = .established then
    (trimFront pcb.rcvNxt seg).bind fun seg =>
      -- all of it is old: a duplicate
      receiveTrimmed copied send (if lt seg.seqno pcb.rcvNxt then tcpAckNow pcb else pcb) seg
  else if between seg.seqno pcb.rcvNxt (pcb.rightEdge - BitVec.ofNat 32 1) then
    some (⟨pcb, [], false⟩, [])
  else some (⟨tcpAckNow pcb, [], false⟩, [])

def tcpProcess (copied : Bool) (send : Send) (pcb : Pcb) (seg : Seg) :
    Option (Result × List Ack) :=
  (tcpReceive copied send pcb seg).map fun ra =>
    ({ ra.1 with pcb := if ra.1.gotFin then { tcpAckNow ra.1.pcb with state := .closeWait }
      else ra.1.pcb }, ra.2)

/-- The application is given data, and calls `tcp_recved` for as much as it takes at once. -/
def eventRecv (taken : List Byte → ℕ) (data : List Byte) (pcb : Pcb) : Option Pcb :=
  if data = [] then some pcb else tcpRecved (taken data) pcb

-- The application does not call `tcp_recved` for the FIN.
def eventClosed (gotFin : Bool) (pcb : Pcb) : Pcb :=
  if gotFin ∧ pcb.rcvWnd ≠ tcpWnd then { pcb with rcvWnd := pcb.rcvWnd + 1 } else pcb

def tcpInput (copied : Bool) (send : Send) (taken : List Byte → ℕ) (pcb : Pcb) (seg : Seg) :
    Option (Result × List Ack) :=
  -- the length with the FIN does not fit sixteen bits: dropped
  if 0xffff < seg.tcplen then some (⟨pcb, [], false⟩, [])
  else (tcpProcess copied send pcb seg).bind fun ra =>
    (eventRecv taken ra.1.data ra.1.pcb).map fun pcb =>
      (⟨eventClosed ra.1.gotFin pcb, ra.1.data, ra.1.gotFin⟩, ra.2)

def tcpFreeOoseq (pcb : Pcb) : Pcb := { pcb with ooseq := [] }

end EthernetSoc.TcpReceive
