import EthernetSoc.TcpStream

/-!
# Runs of a connection

Segments come in, the application takes its data at once or later, packets are sent, and the
queue may be freed, in any order. A peer is taken to send pieces of its stream, none of them
older or newer than a fair part of the sequence space. A SYN that comes again, and a reset that
is not for `rcv_nxt`, are acknowledged only. `start` is the connection after the handshake, in
which the whole window was announced; its first byte has the number `isn`.
-/

namespace EthernetSoc.TcpReceive
open SeqSpace Buffer

/-! ## The steps -/

inductive Output
  | output (segs : List Send) (send : Send)
  | fasttmr (segs : List Send) (send : Send)
  -- `tcp_receive` answers an acknowledgement that is out of sequence
  | emptyAck (send : Send)
  -- `tcp_keepalive` and `tcp_zero_window_probe`
  | probe (send : Send)

def Output.run (pcb : Pcb) : Output → Pcb × List Ack
  | .output segs send => tcpOutput segs send pcb
  | .fasttmr segs send => tcpFasttmr segs send pcb
  | .emptyAck send => tcpSendEmptyAck pcb send
  | .probe send => tcpOutputHeader pcb send

inductive Event
  | segment (copied : Bool) (send : Send) (taken : List Byte → ℕ) (seg : Seg)
  | challenge
  | recved (len : ℕ)
  | out (o : Output)
  | freeOoseq

structure Sys where
  pcb : Pcb
  data : List Byte
  eof : Bool
  acks : List Ack

def step (s : Sys) : Event → Option Sys
  | .segment copied send taken seg => (tcpInput copied send taken s.pcb seg).map fun ra =>
      ⟨ra.1.pcb, s.data ++ ra.1.data, s.eof || ra.1.gotFin, s.acks ++ ra.2⟩
  | .challenge => some { s with pcb := tcpAckNow s.pcb }
  | .recved len => (tcpRecved len s.pcb).map fun pcb => { s with pcb := pcb }
  | .out o => some { s with pcb := (o.run s.pcb).1, acks := s.acks ++ (o.run s.pcb).2 }
  | .freeOoseq => some { s with pcb := tcpFreeOoseq s.pcb }

def start (isn : BitVec 32) (mss : ℕ) : Sys :=
  ⟨⟨.established, isn, tcpWnd, tcpWnd, isn + BitVec.ofNat 32 tcpWnd, false, false, mss, []⟩, [],
    false, [⟨isn, tcpWnd⟩]⟩

inductive Reaches (ok : Sys → Event → Prop) (isn : BitVec 32) (mss : ℕ) : Sys → Prop
  | start : Reaches ok isn mss (start isn mss)
  | step {s s' : Sys} {ev : Event} (hrun : Reaches ok isn mss s) (hok : ok s ev)
      (hstep : step s ev = some s') : Reaches ok isn mss s'

/-- A segment is a piece of the stream, and not half the sequence space away. -/
def Genuine (S : Stream) (isn : BitVec 32) (s : Sys) : Event → Prop
  | .segment _ _ _ seg => ∃ i : Piece, seg = i.seg S isn ∧ i.Fits S ∧
      s.data.length ≤ i.pos + 2^29 ∧ i.pos ≤ s.data.length + 2^29
  | _ => True

/-- The peer keeps to the window it was announced, but may probe it with one byte. -/
def Permitted (s : Sys) : Event → Prop
  | .segment _ _ _ seg => leq seg.last s.pcb.rcvAnnRightEdge ∨
      seg.tcplen ≤ 1 ∧ leq seg.seqno s.pcb.rcvAnnRightEdge
  | _ => True

def Obeys (S : Stream) (isn : BitVec 32) (s : Sys) (ev : Event) : Prop :=
  Genuine S isn s ev ∧ Permitted s ev

variable {S : Stream} {isn : BitVec 32} {mss n : ℕ} {ps : List Piece} {s s' : Sys} {ev : Event}

theorem Output.sends (pcb : Pcb) (o : Output) : Sends pcb (o.run pcb).1 (o.run pcb).2 := by
  cases o with
  | output segs send => exact sends_tcpOutput segs send pcb
  | fasttmr segs send => exact sends_tcpFasttmr segs send pcb
  | emptyAck send => exact sends_emptyAck pcb send
  | probe send => exact sends_header pcb send

/-! ## The end of a segment -/

structure Settles (pcb pcb' : Pcb) : Prop where
  state : pcb'.state = pcb.state
  nxt : pcb'.rcvNxt = pcb.rcvNxt
  ooseq : pcb'.ooseq = pcb.ooseq
  le : pcb.rcvWnd ≤ pcb'.rcvWnd
  wnd : pcb'.rcvWnd ≤ tcpWnd

theorem settles_tcpRecved {len : ℕ} {pcb pcb' : Pcb} (hwnd : pcb.rcvWnd ≤ tcpWnd)
    (h : tcpRecved len pcb = some pcb') : Settles pcb pcb' := by
  obtain ⟨a, b, rfl⟩ := tcpRecved_frame h
  exact ⟨rfl, rfl, rfl, le_recvedWnd len hwnd, recvedWnd_le len pcb⟩

theorem settles_eventRecv {taken : List Byte → ℕ} {data : List Byte} {pcb pcb' : Pcb}
    (hwnd : pcb.rcvWnd ≤ tcpWnd) (h : eventRecv taken data pcb = some pcb') :
    Settles pcb pcb' := by
  rw [eventRecv] at h
  split_ifs at h
  · cases h
    exact ⟨rfl, rfl, rfl, le_rfl, hwnd⟩
  · exact settles_tcpRecved hwnd h

theorem settles_eventClosed (gotFin : Bool) {pcb : Pcb} (hwnd : pcb.rcvWnd ≤ tcpWnd) :
    Settles pcb (eventClosed gotFin pcb) := by
  rw [eventClosed]
  split_ifs with h
  · exact ⟨rfl, rfl, rfl, Nat.le_succ _, lt_of_le_of_ne hwnd h.2⟩
  · exact ⟨rfl, rfl, rfl, le_rfl, hwnd⟩

theorem Settles.trans {pcb pcb' pcb'' : Pcb} (h : Settles pcb pcb') (h' : Settles pcb' pcb'') :
    Settles pcb pcb'' :=
  ⟨h'.state.trans h.state, h'.nxt.trans h.nxt, h'.ooseq.trans h.ooseq, h.le.trans h'.le, h'.wnd⟩

def closing (r : Result) : Pcb :=
  if r.gotFin then { tcpAckNow r.pcb with state := .closeWait } else r.pcb

@[simp] theorem closing_nxt (r : Result) : (closing r).rcvNxt = r.pcb.rcvNxt := by
  rw [closing]
  split_ifs <;> rfl

@[simp] theorem closing_ooseq (r : Result) : (closing r).ooseq = r.pcb.ooseq := by
  rw [closing]
  split_ifs <;> rfl

@[simp] theorem closing_wnd (r : Result) : (closing r).rcvWnd = r.pcb.rcvWnd := by
  rw [closing]
  split_ifs <;> rfl

theorem tcpInput_eq {copied : Bool} {send : Send} {taken : List Byte → ℕ} {pcb pcb' : Pcb}
    {seg : Seg} {r : Result} {acks : List Ack} (hlen : seg.tcplen ≤ 0xffff)
    (hrec : tcpReceive copied send pcb seg = some (r, acks))
    (hrecv : eventRecv taken r.data (closing r) = some pcb') :
    tcpInput copied send taken pcb seg =
      some (⟨eventClosed r.gotFin pcb', r.data, r.gotFin⟩, acks) := by
  rw [closing] at hrecv
  rw [tcpInput, if_neg (not_lt.mpr hlen), tcpProcess, hrec, Option.map_some, Option.bind_some,
    hrecv]
  rfl

theorem tcpInput_cases {copied : Bool} {send : Send} {taken : List Byte → ℕ} {pcb : Pcb} {seg : Seg}
    {r : Result} {acks : List Ack} (hlen : seg.tcplen ≤ 0xffff)
    (h : tcpInput copied send taken pcb seg = some (r, acks)) :
    ∃ r₀ pcb', tcpReceive copied send pcb seg = some (r₀, acks) ∧
      eventRecv taken r₀.data (closing r₀) = some pcb' ∧
      r = ⟨eventClosed r₀.gotFin pcb', r₀.data, r₀.gotFin⟩ := by
  rw [tcpInput, if_neg (not_lt.mpr hlen)] at h
  obtain ⟨ra, hproc, h⟩ := Option.bind_eq_some_iff.mp h
  obtain ⟨pcb', hrecv, h⟩ := Option.map_eq_some_iff.mp h
  obtain ⟨ra₀, hrec, rfl⟩ := Option.map_eq_some_iff.mp hproc
  cases h
  exact ⟨ra₀.1, pcb', hrec, hrecv, rfl⟩

theorem tcpInput_idle (copied : Bool) (send : Send) (taken : List Byte → ℕ) {pcb : Pcb} {seg : Seg}
    (h : ¬ (seg.tcplen ≤ 0xffff ∧ 0 < seg.tcplen ∧ pcb.state = .established)) :
    ∃ pcb', tcpInput copied send taken pcb seg = some (⟨pcb', [], false⟩, []) ∧
      Sends pcb pcb' [] := by
  rw [tcpInput]
  by_cases hlen : 0xffff < seg.tcplen
  · exact ⟨pcb, if_pos hlen, .refl pcb⟩
  · rw [if_neg hlen, tcpProcess, tcpReceive, if_neg fun hdata => h ⟨not_lt.mp hlen, hdata⟩]
    split_ifs
    · exact ⟨pcb, rfl, .refl pcb⟩
    · exact ⟨tcpAckNow pcb, rfl, sends_tcpAckNow pcb⟩

def Carries (s : Sys) (seg : Seg) : Prop :=
  seg.tcplen ≤ 0xffff ∧ 0 < seg.tcplen ∧ s.pcb.state = .established

theorem step_idle (copied : Bool) (send : Send) (taken : List Byte → ℕ) {seg : Seg}
    (h : ¬ Carries s seg) :
    ∃ pcb', step s (.segment copied send taken seg) = some { s with pcb := pcb' } ∧
      Sends s.pcb pcb' [] := by
  obtain ⟨pcb', heq, hsends⟩ := tcpInput_idle copied send taken h
  exact ⟨pcb', by simp [step, heq], hsends⟩

theorem step_segment {copied : Bool} {send : Send} (taken : List Byte → ℕ) {seg : Seg}
    {r : Result} {acks : List Ack} {pcb' : Pcb} (hlen : seg.tcplen ≤ 0xffff)
    (hrec : tcpReceive copied send s.pcb seg = some (r, acks))
    (hrecv : eventRecv taken r.data (closing r) = some pcb') :
    step s (.segment copied send taken seg) = some ⟨eventClosed r.gotFin pcb', s.data ++ r.data,
      s.eof || r.gotFin, s.acks ++ acks⟩ := by
  rw [step, tcpInput_eq hlen hrec hrecv]
  rfl

/-! ## What the application is given -/

/-- The acknowledgements with their positions, none of them behind the one before it. -/
def Acked (isn : BitVec 32) (N : ℕ) (acks : List Ack) : Prop :=
  ∃ ms : List ℕ, acks.map Ack.ackno = ms.map (fun m : ℕ => seq isn m) ∧ ms.Pairwise (· ≤ ·) ∧
    ∀ m ∈ ms, m ≤ N

theorem Acked.append {N N' : ℕ} {acks new : List Ack} (h : Acked isn N acks) (hN : N ≤ N')
    (hnew : ∀ a ∈ new, a.ackno = seq isn N) : Acked isn N' (acks ++ new) := by
  obtain ⟨ms, hms, hmono, hle⟩ := h
  have hmem : ∀ m ∈ new.map fun _ => N, m = N := by simp
  refine ⟨ms ++ new.map fun _ => N, ?_, List.pairwise_append.mpr ⟨hmono, ?_, ?_⟩, ?_⟩
  · rw [List.map_append, List.map_append, hms, List.map_map]
    exact congrArg _ (List.map_congr_left hnew)
  · exact List.pairwise_of_forall_mem_list fun a ha b hb => by rw [hmem a ha, hmem b hb]
  · exact fun a ha b hb => (hle a ha).trans (hmem b hb).ge
  · exact List.forall_mem_append.mpr ⟨fun a ha => (hle a ha).trans hN,
      fun b hb => (hmem b hb).le.trans hN⟩

structure Inv (S : Stream) (isn : BitVec 32) (n : ℕ) (ps : List Piece) (s : Sys) : Prop where
  data : s.data = slice S.byte 0 n
  stands : Stands S isn n ps s.eof s.pcb
  closed : s.eof = true → s.pcb.state = .closeWait
  wnd : s.pcb.rcvWnd ≤ tcpWnd
  acks : Acked isn (reached n s.eof) s.acks

theorem inv_start (S : Stream) (isn : BitVec 32) (mss : ℕ) : Inv S isn 0 [] (start isn mss) := by
  refine ⟨rfl, ⟨(seq_zero isn).symm, rfl, trivial, by simp, by simp, fun _ => rfl, fun h => ?_⟩,
    fun h => ?_, le_rfl, [0], ?_, List.pairwise_singleton .., by simp⟩
  · cases h
  · cases h
  · exact congrArg (fun a => [a]) (seq_zero isn).symm

theorem Inv.length (hi : Inv S isn n ps s) : s.data.length = n := by
  rw [hi.data, length_slice]

theorem Inv.sends {pcb' : Pcb} {acks : List Ack} (hi : Inv S isn n ps s)
    (h : Sends s.pcb pcb' acks) : Inv S isn n ps ⟨pcb', s.data, s.eof, s.acks ++ acks⟩ := by
  obtain ⟨hdata, hstands, hclosed, hwnd, hacks⟩ := hi
  obtain ⟨edge, d, b, rfl, hnew⟩ := h
  refine ⟨hdata, hstands.congr rfl rfl rfl, hclosed, hwnd, hacks.append le_rfl fun a ha => ?_⟩
  rcases hnew with ⟨-, rfl⟩ | ⟨-, hnew⟩
  · cases ha
  · rw [hnew a ha]
    exact hstands.nxt

theorem Inv.quiet {pcb' : Pcb} (hi : Inv S isn n ps s) (h : Sends s.pcb pcb' []) :
    Inv S isn n ps { s with pcb := pcb' } := by
  have hsent := hi.sends h
  rwa [List.append_nil] at hsent

theorem Inv.settles {pcb' : Pcb} (hi : Inv S isn n ps s) (h : Settles s.pcb pcb') :
    Inv S isn n ps { s with pcb := pcb' } :=
  ⟨hi.data, hi.stands.congr h.state h.nxt h.ooseq, fun he => h.state.trans (hi.closed he), h.wnd,
    hi.acks⟩

theorem Inv.freeOoseq (hi : Inv S isn n ps s) :
    Inv S isn n [] { s with pcb := tcpFreeOoseq s.pcb } := by
  obtain ⟨hdata, hstands, hclosed, hwnd, hacks⟩ := hi
  exact ⟨hdata, ⟨hstands.nxt, rfl, trivial, by simp, hstands.le, hstands.state,
    fun h => ⟨(hstands.fin h).1, rfl⟩⟩, hclosed, hwnd, hacks⟩

theorem Received.inv {copied : Bool} {taken : List Byte → ℕ} {i : Piece} {r : Result}
    {acks : List Ack} {n' : ℕ} {ps' : List Piece} {pcb' : Pcb}
    (hr : Received S isn copied i n ps s.pcb r acks n' ps') (hi : Inv S isn n ps s)
    (heof : s.eof = false) (hrecv : eventRecv taken r.data (closing r) = some pcb') :
    Inv S isn n' ps' ⟨eventClosed r.gotFin pcb', s.data ++ r.data, s.eof || r.gotFin,
      s.acks ++ acks⟩ := by
  have hwnd : (closing r).rcvWnd ≤ tcpWnd := by
    have hle := hi.wnd
    have hroom := hr.room
    have hreached := hr.le.trans (le_reached n' r.gotFin)
    rw [closing_wnd]
    omega
  have hset := settles_eventRecv hwnd hrecv
  have h := hset.trans (settles_eventClosed r.gotFin hset.wnd)
  have hstands := hr.stands
  have hstate : r.gotFin = false → (closing r).state = .established := by
    intro hf
    rw [closing, hf]
    exact hstands.state hf
  have hclosed : r.gotFin = true → (closing r).state = .closeWait := by
    intro hf
    rw [closing, hf]
    rfl
  rw [heof, Bool.false_or]
  have hacks := hi.acks
  rw [heof, reached_false] at hacks
  refine ⟨?_, ⟨?_, ?_, hstands.queue, hstands.near, hstands.le, fun hf => h.state.trans (hstate hf),
    hstands.fin⟩, fun hf => h.state.trans (hclosed hf), h.wnd,
    hacks.append (hr.le.trans (le_reached ..)) hr.ackno⟩
  · obtain ⟨k, rfl⟩ := Nat.exists_eq_add_of_le hr.le
    rw [hi.data, hr.data, Nat.add_sub_cancel_left, slice_add, Nat.zero_add]
  · exact (h.nxt.trans (closing_nxt r)).trans hstands.nxt
  · exact (h.ooseq.trans (closing_ooseq r)).trans hstands.ooseq

theorem Inv.not_eof (hi : Inv S isn n ps s) (h : s.pcb.state = .established) : s.eof = false :=
  Bool.eq_false_iff.mpr fun he => by
    rw [hi.closed he] at h
    cases h

theorem Inv.ackno {pcb' : Pcb} {acks : List Ack} (hi : Inv S isn n ps s)
    (h : Sends s.pcb pcb' acks) : ∀ a ∈ acks, a.ackno = seq isn (reached n s.eof) := by
  intro a ha
  obtain ⟨-, -, -, -, ⟨-, rfl⟩ | ⟨-, hnew⟩⟩ := h
  · cases ha
  · rw [hnew a ha]
    exact hi.stands.nxt

theorem Inv.step (hi : Inv S isn n ps s) (hok : Genuine S isn s ev) (h : step s ev = some s') :
    ∃ n' ps' new, Inv S isn n' ps' s' ∧ s'.acks = s.acks ++ new ∧
      ∀ a ∈ new, a.ackno = seq isn (reached n s.eof) := by
  cases ev with
  | segment copied send taken seg =>
    obtain ⟨i, rfl, hfits, hold, hnew⟩ := hok
    rw [hi.length] at hold hnew
    by_cases hdata : Carries s (i.seg S isn)
    · obtain ⟨hlen, htcp, hstate⟩ := hdata
      have heof := hi.not_eof hstate
      obtain ⟨⟨r', acks⟩, hinput, rfl⟩ := Option.map_eq_some_iff.mp h
      obtain ⟨r, pcb', hrec, hrecv, rfl⟩ := tcpInput_cases hlen hinput
      rw [Piece.seg_tcplen] at hlen htcp
      obtain ⟨n', ps', hr⟩ := tcpReceive_spec hrec (heof ▸ hi.stands) hfits htcp hlen hi.wnd
        hold hnew
      exact ⟨n', ps', acks, hr.inv hi heof hrecv, rfl, fun a ha => by
        rw [heof, reached_false]
        exact hr.ackno a ha⟩
    · obtain ⟨pcb', hstep, hsends⟩ := step_idle copied send taken hdata
      cases h.symm.trans hstep
      exact ⟨n, ps, [], hi.quiet hsends, (List.append_nil _).symm, by simp⟩
  | challenge =>
    cases h
    exact ⟨n, ps, [], hi.quiet (sends_tcpAckNow s.pcb), (List.append_nil _).symm, by simp⟩
  | recved len =>
    obtain ⟨pcb', hrecved, rfl⟩ := Option.map_eq_some_iff.mp h
    exact ⟨n, ps, [], hi.settles (settles_tcpRecved hi.wnd hrecved), (List.append_nil _).symm,
      by simp⟩
  | out o =>
    cases h
    exact ⟨n, ps, _, hi.sends (o.sends s.pcb), rfl, hi.ackno (o.sends s.pcb)⟩
  | freeOoseq =>
    cases h
    exact ⟨n, [], [], hi.freeOoseq, (List.append_nil _).symm, by simp⟩

theorem Reaches.inv (hrun : Reaches (Genuine S isn) isn mss s) : ∃ n ps, Inv S isn n ps s := by
  induction hrun with
  | start => exact ⟨0, [], inv_start S isn mss⟩
  | step hrun hok hstep ih =>
    obtain ⟨n, ps, hi⟩ := ih
    obtain ⟨n', ps', -, hi', -⟩ := hi.step hok hstep
    exact ⟨n', ps', hi'⟩

def fourBytes : Stream := ⟨fun k => BitVec.ofNat 8 k, some 4⟩

-- The numbers wrap around after the second byte, and the second half comes in before the first.
abbrev late : Event :=
  .segment true .sent List.length (Piece.seg fourBytes 0xfffffffe ⟨2, 2, true⟩)
abbrev early : Event :=
  .segment true .sent List.length (Piece.seg fourBytes 0xfffffffe ⟨0, 2, false⟩)

def halfway : Sys := (step (start 0xfffffffe 1460) late).getD (start 0xfffffffe 1460)

theorem late_genuine : Genuine fourBytes 0xfffffffe (start 0xfffffffe 1460) late :=
  ⟨⟨2, 2, true⟩, rfl, ⟨by decide, fun _ => rfl⟩, by decide, by decide⟩

theorem early_genuine : Genuine fourBytes 0xfffffffe halfway early :=
  ⟨⟨0, 2, false⟩, rfl, ⟨by decide, fun h => by cases h⟩, by decide, by decide⟩

theorem reaches_swapped (ok : Sys → Event → Prop) (h₁ : ok (start 0xfffffffe 1460) late)
    (h₂ : ok halfway early) :
    ∃ s, Reaches ok 0xfffffffe 1460 s ∧ s.data = [0, 1, 2, 3] ∧ s.eof = true :=
  ⟨_, .step (.step .start h₁ rfl) h₂ rfl, rfl, rfl⟩

end EthernetSoc.TcpReceive
