import EthernetSoc.TcpRuns

/-!
# Flow control

What holds of a connection whose peer keeps to the windows that it is announced: no assertion
fails, the announced edge never goes back and its room is there, an application that takes its
data at once keeps the window open, and every byte that has come in is delivered as soon as
those before it are.
-/

namespace EthernetSoc.TcpReceive
open SeqSpace Buffer

variable {S : Stream} {isn : BitVec 32} {mss n N e : ℕ} {ps : List Piece} {s s' : Sys} {ev : Event}
  {as : List (ℕ × ℕ)}

/-! ## The windows that are announced -/

/-- The acknowledgements with their positions: neither they nor the edges go back. -/
structure Announced (isn : BitVec 32) (N e : ℕ) (as : List (ℕ × ℕ)) (acks : List Ack) : Prop where
  acks : acks = as.map fun a => ⟨seq isn a.1, a.2⟩
  mono : as.Pairwise fun a b => a.1 ≤ b.1 ∧ a.1 + a.2 ≤ b.1 + b.2
  le : ∀ a ∈ as, a.1 ≤ N ∧ a.1 + a.2 ≤ e

theorem Announced.append {N' e' w : ℕ} {acks new : List Ack} (h : Announced isn N e as acks)
    (hN : N ≤ N') (he : e ≤ e') (hnew : ∀ a ∈ new, a = ⟨seq isn N, w⟩ ∧ N + w = e') :
    ∃ as', Announced isn N' e' as' (acks ++ new) := by
  have hmem : ∀ b ∈ new.map fun _ => (N, w), b = (N, w) ∧ N + w = e' := by
    intro b hb
    obtain ⟨a, ha, rfl⟩ := List.mem_map.mp hb
    exact ⟨rfl, (hnew a ha).2⟩
  refine ⟨as ++ new.map fun _ => (N, w), ?_, List.pairwise_append.mpr ⟨h.mono, ?_, ?_⟩, ?_⟩
  · rw [List.map_append, ← h.acks, List.map_map]
    congr 1
    conv_lhs => rw [← List.map_id new]
    exact List.map_congr_left fun a ha => (hnew a ha).1
  · exact List.pairwise_of_forall_mem_list fun a ha b hb => by
      rw [(hmem a ha).1, (hmem b hb).1]
      exact ⟨le_rfl, le_rfl⟩
  · intro a ha b hb
    obtain ⟨rfl, hedge⟩ := hmem b hb
    obtain ⟨h₁, h₂⟩ := h.le a ha
    exact ⟨h₁, by omega⟩
  · refine List.forall_mem_append.mpr ⟨fun a ha => ?_, fun b hb => ?_⟩
    · obtain ⟨h₁, h₂⟩ := h.le a ha
      exact ⟨h₁.trans hN, h₂.trans he⟩
    · obtain ⟨rfl, hedge⟩ := hmem b hb
      exact ⟨hN, hedge.le⟩

structure Held (S : Stream) (isn : BitVec 32) (mss n : ℕ) (ps : List Piece) (e : ℕ)
    (as : List (ℕ × ℕ)) (s : Sys) : Prop extends Inv S isn n ps s where
  window : Window isn mss (reached n s.eof) e s.pcb
  reach : ∀ p ∈ ps, p.last ≤ e + 1
  room : ∀ p ∈ ps, p.last ≤ n + s.pcb.rcvWnd
  announced : Announced isn (reached n s.eof) e as s.acks

theorem held_start (S : Stream) (isn : BitVec 32) (mss : ℕ) :
    Held S isn mss 0 [] tcpWnd [(0, tcpWnd)] (start isn mss) := by
  have hzero : isn = seq isn (0 : ℕ) := (seq_zero isn).symm
  have hedge := seq_add isn 0 tcpWnd
  rw [seq_zero, zero_add] at hedge
  refine ⟨inv_start S isn mss, ⟨rfl, hzero, hedge, ?_, ?_, le_rfl, le_rfl⟩, by simp,
    by simp, ?_, ?_, ?_⟩
  · exact Nat.zero_le _
  · exact Nat.le_add_left ..
  · exact congrArg (fun a => [Ack.mk a tcpWnd]) hzero
  · exact List.pairwise_singleton ..
  · simp

theorem Held.sends {pcb' : Pcb} {acks : List Ack} (h : Held S isn mss n ps e as s)
    (hsends : Sends s.pcb pcb' acks) :
    ∃ e' as', Held S isn mss n ps e' as' ⟨pcb', s.data, s.eof, s.acks ++ acks⟩ := by
  obtain ⟨e', he, hw, -, hacks⟩ := hsends.window h.window
  obtain ⟨as', hann⟩ := h.announced.append le_rfl he hacks
  refine ⟨e', as', h.toInv.sends hsends, hw, fun p hp => ?_, fun p hp => ?_, hann⟩
  · exact (h.reach p hp).trans (Nat.succ_le_succ he)
  · exact (h.room p hp).trans_eq (by rw [hsends.rcvWnd])

theorem Held.quiet {pcb' : Pcb} (h : Held S isn mss n ps e as s) (hsends : Sends s.pcb pcb' []) :
    ∃ e' as', Held S isn mss n ps e' as' { s with pcb := pcb' } := by
  have hsent := h.sends hsends
  rwa [List.append_nil] at hsent

theorem Held.settles {pcb' : Pcb} (h : Held S isn mss n ps e as s) (hset : Settles s.pcb pcb')
    (hw : Window isn mss (reached n s.eof) e pcb') :
    Held S isn mss n ps e as { s with pcb := pcb' } :=
  ⟨h.toInv.settles hset, hw, h.reach,
    fun p hp => (h.room p hp).trans (Nat.add_le_add_left hset.le n), h.announced⟩

theorem Held.freeOoseq (h : Held S isn mss n ps e as s) :
    Held S isn mss n [] e as { s with pcb := tcpFreeOoseq s.pcb } :=
  ⟨h.toInv.freeOoseq, h.window.congr rfl rfl rfl rfl rfl, by simp, by simp, h.announced⟩

theorem Window.closing {r : Result} (h : Window isn mss N e r.pcb) :
    Window isn mss N e (closing r) := by
  rw [TcpReceive.closing]
  split_ifs
  · exact h.congr rfl rfl rfl rfl rfl
  · exact h

theorem Wide.closing {r : Result} (h : Wide mss r.pcb) : Wide mss (closing r) := by
  rw [TcpReceive.closing]
  split_ifs
  · exact h
  · exact h

theorem Window.eventRecv {pcb : Pcb} (taken : List Byte → ℕ) (data : List Byte)
    (h : Window isn mss N e pcb) :
    ∃ pcb', eventRecv taken data pcb = some pcb' ∧ Window isn mss N e pcb' ∧
      (Wide mss pcb → Wide mss pcb') := by
  rw [TcpReceive.eventRecv]
  split_ifs
  · exact ⟨pcb, rfl, h, id⟩
  · obtain ⟨pcb', hrecved, hw, hwide⟩ := h.recved (taken data)
    exact ⟨pcb', hrecved, hw, fun _ => hwide⟩

theorem Window.eventClosed {pcb : Pcb} (gotFin : Bool) (h : Window isn mss N e pcb) :
    Window isn mss N e (eventClosed gotFin pcb) := by
  rw [TcpReceive.eventClosed]
  split_ifs with hf
  · obtain ⟨h₁, h₂, h₃, h₄, h₅, h₆, h₇⟩ := h
    exact ⟨h₁, h₂, h₃, h₄, h₅, h₆.trans (Nat.le_succ _), lt_of_le_of_ne h₇ hf.2⟩
  · exact h

theorem Held.received {copied : Bool} {send : Send} {i : Piece} (taken : List Byte → ℕ)
    (h : Held S isn mss n ps e as s) (heof : s.eof = false) (hfits : i.Fits S)
    (htcp : 0 < i.tcplen) (hlen : i.tcplen ≤ 0xffff) (hold : n ≤ i.pos + 2^29)
    (hnew : i.pos ≤ n + 2^29) (hreach : i.last ≤ e + 1)
    (hfit : i.pos < n + s.pcb.rcvWnd → i.last ≤ n + s.pcb.rcvWnd) :
    ∃ r acks pcb' n' ps' e' as', tcpReceive copied send s.pcb (i.seg S isn) = some (r, acks) ∧
      eventRecv taken r.data (closing r) = some pcb' ∧
      Received S isn copied i n ps s.pcb r acks n' ps' ∧ (Wide mss s.pcb → Wide mss pcb') ∧
      (∀ a ∈ acks, a.wnd = s.pcb.rcvAnnWnd) ∧
      Held S isn mss n' ps' e' as' ⟨eventClosed r.gotFin pcb', s.data ++ r.data,
        s.eof || r.gotFin, s.acks ++ acks⟩ := by
  have hs : Stands S isn n ps false s.pcb := heof ▸ h.stands
  have hw : Window isn mss n e s.pcb := by
    have := h.window
    rwa [heof] at this
  have hall : ∀ p ∈ i :: ps, p.last ≤ e + 1 := List.forall_mem_cons.mpr ⟨hreach, h.reach⟩
  obtain ⟨⟨r, acks⟩, hrec⟩ := Option.isSome_iff_exists.mp (tcpReceive_isSome copied send hs hfits
    htcp hlen hold hnew hw hall hfit h.room)
  obtain ⟨n', ps', hr⟩ := tcpReceive_spec hrec hs hfits htcp hlen h.wnd hold hnew
  obtain ⟨e', he, hw', hwide, hacks⟩ := hr.window hw hall
  obtain ⟨pcb', hrecv, hw'', hwide'⟩ := hw'.closing.eventRecv taken r.data
  have hann := h.announced
  rw [heof, reached_false] at hann
  obtain ⟨as', hann'⟩ := hann.append (hr.le.trans (le_reached n' r.gotFin)) he hacks
  have hbound : ∀ p ∈ ps', p.last ≤ e + 1 ∧ p.last ≤ n + s.pcb.rcvWnd := by
    intro p hp
    rcases hr.last p hp with ⟨hin, hle⟩ | ⟨q, hq, hle⟩
    · exact ⟨hle.trans hreach, hle.trans (hfit hin)⟩
    · exact ⟨hle.trans (h.reach q hq), hle.trans (h.room q hq)⟩
  refine ⟨r, acks, pcb', n', ps', e', as', hrec, hrecv, hr, fun hw => hwide' (hwide hw).closing,
    fun a ha => by rw [(hacks a ha).1], hr.inv h.toInv heof hrecv, ?_, fun p hp => ?_,
    fun p hp => ?_, ?_⟩
  · rw [heof, Bool.false_or]
    exact hw''.eventClosed r.gotFin
  · exact (hbound p hp).1.trans (Nat.succ_le_succ he)
  · have hfin : r.gotFin = false := Bool.eq_false_iff.mpr fun hf => by
      rw [(hr.stands.fin hf).2] at hp
      cases hp
    have hset := settles_eventRecv hw'.closing.wnd hrecv
    have hle := (hset.trans (settles_eventClosed r.gotFin hset.wnd)).le
    have hroom := hr.room
    rw [hfin, reached_false] at hroom
    rw [closing_wnd] at hle
    have := (hbound p hp).2
    simp only
    omega
  · rw [heof, Bool.false_or]
    exact hann'

theorem Held.leq_edge (h : Held S isn mss n ps e as s) (heof : s.eof = false) {m : ℕ}
    (hold : n ≤ m + 2^29) (hnew : m ≤ n + 2^29 + 2^16) :
    leq (seq isn m) s.pcb.rcvAnnRightEdge = true ↔ m ≤ e := by
  obtain ⟨-, -, hedge, hreach, hkept, hann, hwnd⟩ := h.window
  rw [heof, reached_false] at hreach hkept
  have hwnd' : s.pcb.rcvWnd ≤ 5840 := hwnd
  rw [hedge, leq_seq isn (near (by omega) (by omega)), Nat.cast_le]

theorem Held.edge_le (h : Held S isn mss n ps e as s) (heof : s.eof = false) :
    e ≤ n + s.pcb.rcvWnd := by
  have hw := h.window
  rw [heof, reached_false] at hw
  exact hw.kept.trans (Nat.add_le_add_left hw.ann n)

theorem Held.permitted {i : Piece} (h : Held S isn mss n ps e as s) (heof : s.eof = false)
    (hlen : i.tcplen ≤ 0xffff) (hold : n ≤ i.pos + 2^29) (hnew : i.pos ≤ n + 2^29)
    (hok : leq (i.seg S isn).last s.pcb.rcvAnnRightEdge = true ∨
      (i.seg S isn).tcplen ≤ 1 ∧ leq (i.seg S isn).seqno s.pcb.rcvAnnRightEdge = true) :
    i.last ≤ e + 1 ∧ (i.pos < n + s.pcb.rcvWnd → i.last ≤ n + s.pcb.rcvWnd) := by
  have hlast : i.last = i.pos + i.tcplen := rfl
  have hedge := h.edge_le heof
  rw [Piece.seg_last, Piece.seg_seqno, Piece.seg_tcplen, h.leq_edge heof (by omega) (by omega),
    h.leq_edge heof hold (by omega)] at hok
  omega

theorem Held.step (h : Held S isn mss n ps e as s) (hok : Obeys S isn s ev) :
    ∃ s', step s ev = some s' ∧ ∃ n' ps' e' as', Held S isn mss n' ps' e' as' s' := by
  obtain ⟨hg, hp⟩ := hok
  cases ev with
  | segment copied send taken seg =>
    obtain ⟨i, rfl, hfits, hold, hnew⟩ := hg
    rw [h.length] at hold hnew
    by_cases hdata : Carries s (i.seg S isn)
    · obtain ⟨hlen, htcp, hstate⟩ := hdata
      have heof := h.not_eof hstate
      have hlen' := hlen
      rw [Piece.seg_tcplen] at hlen' htcp
      obtain ⟨hreach, hfit⟩ := h.permitted heof hlen' hold hnew hp
      obtain ⟨r, acks, pcb', n', ps', e', as', hrec, hrecv, -, -, -, hheld⟩ :=
        h.received taken heof hfits htcp hlen' hold hnew hreach hfit
      exact ⟨_, step_segment taken hlen hrec hrecv, n', ps', e', as', hheld⟩
    · obtain ⟨pcb', hstep, hsends⟩ := step_idle copied send taken hdata
      obtain ⟨e', as', hheld⟩ := h.quiet hsends
      exact ⟨_, hstep, n, ps, e', as', hheld⟩
  | recved len =>
    obtain ⟨pcb', hrecved, hw, -⟩ := h.window.recved len
    exact ⟨_, by rw [TcpReceive.step, hrecved]; rfl, n, ps, e, as,
      h.settles (settles_tcpRecved h.wnd hrecved) hw⟩
  | out o =>
    obtain ⟨e', as', hheld⟩ := h.sends (o.sends s.pcb)
    exact ⟨_, rfl, n, ps, e', as', hheld⟩
  | challenge =>
    obtain ⟨e', as', hheld⟩ := h.quiet (sends_tcpAckNow s.pcb)
    exact ⟨_, rfl, n, ps, e', as', hheld⟩
  | freeOoseq => exact ⟨_, rfl, n, [], e, as, h.freeOoseq⟩

theorem Reaches.held (hrun : Reaches (Obeys S isn) isn mss s) :
    ∃ n ps e as, Held S isn mss n ps e as s := by
  induction hrun with
  | start => exact ⟨_, _, _, _, held_start S isn mss⟩
  | step hrun hok hstep ih =>
    obtain ⟨n, ps, e, as, h⟩ := ih
    obtain ⟨s'', heq, hheld⟩ := h.step hok
    cases hstep.symm.trans heq
    exact hheld

theorem assertions_hold (hrun : Reaches (Obeys S isn) isn mss s)
    (hok : Obeys S isn s ev) : (step s ev).isSome := by
  obtain ⟨n, ps, e, as, h⟩ := hrun.held
  obtain ⟨s', hstep, -⟩ := h.step hok
  rw [hstep]
  rfl

theorem late_permitted : Permitted (start 0xfffffffe 1460) late := .inl (by decide)

theorem early_permitted : Permitted halfway early := .inl (by decide)

theorem assertions_hold_early : (step halfway early).isSome :=
  assertions_hold (.step .start ⟨late_genuine, late_permitted⟩ rfl)
    ⟨early_genuine, early_permitted⟩

/-- Neither the acknowledgements nor the edges that they announce ever go back, and the room that
was announced is there ever after. -/
theorem window_kept (hrun : Reaches (Obeys S isn) isn mss s) :
    ∃ as : List (ℕ × ℕ), s.acks = as.map (fun a => ⟨seq isn a.1, a.2⟩) ∧
      as.Pairwise (fun a b => a.1 ≤ b.1 ∧ a.1 + a.2 ≤ b.1 + b.2) ∧
      ∀ a ∈ as, a.1 ≤ reached s.data.length s.eof ∧
        a.1 + a.2 ≤ reached s.data.length s.eof + s.pcb.rcvWnd := by
  obtain ⟨n, ps, e, as, h⟩ := hrun.held
  obtain ⟨hacks, hmono, hle⟩ := h.announced
  refine ⟨as, hacks, hmono, fun a ha => ?_⟩
  obtain ⟨hm, he⟩ := hle a ha
  rw [h.length]
  exact ⟨hm, he.trans (h.window.kept.trans (Nat.add_le_add_left h.window.ann _))⟩

theorem window_kept_swapped : ∃ s : Sys, s.data = [0, 1, 2, 3] ∧ ∃ as : List (ℕ × ℕ),
    s.acks = as.map (fun a => ⟨seq 0xfffffffe a.1, a.2⟩) ∧
      as.Pairwise (fun a b => a.1 ≤ b.1 ∧ a.1 + a.2 ≤ b.1 + b.2) ∧
      ∀ a ∈ as, a.1 ≤ reached s.data.length s.eof ∧
        a.1 + a.2 ≤ reached s.data.length s.eof + s.pcb.rcvWnd := by
  obtain ⟨s, hrun, hdata, -⟩ := reaches_swapped (Obeys fourBytes 0xfffffffe)
    ⟨late_genuine, late_permitted⟩ ⟨early_genuine, early_permitted⟩
  exact ⟨s, hdata, window_kept hrun⟩

/-! ## An application that takes its data at once -/

def Prompt : Event → Prop
  | .segment _ _ taken _ => taken = List.length
  | _ => True

structure Ample (mss : ℕ) (s : Sys) : Prop where
  wnd : s.pcb.rcvWnd = tcpWnd
  wide : s.eof = false → Wide mss s.pcb
  ann : tcpWnd ≤ s.pcb.rcvAnnWnd + min (tcpWnd / 2) mss
  acks : ∀ a ∈ s.acks, tcpWnd ≤ a.wnd + min (tcpWnd / 2) mss

theorem Ample.sends {pcb' : Pcb} {acks : List Ack} (h : Ample mss s) (hs : Sends s.pcb pcb' acks) :
    Ample mss ⟨pcb', s.data, s.eof, s.acks ++ acks⟩ := by
  obtain ⟨hwnd, hwide, hann, hacks⟩ := h
  obtain ⟨edge, d, b, rfl, hnew⟩ := hs
  refine ⟨hwnd, hwide, hann, List.forall_mem_append.mpr ⟨hacks, fun a ha => ?_⟩⟩
  rcases hnew with ⟨-, rfl⟩ | ⟨-, hnew⟩
  · cases ha
  · rw [hnew a ha]
    exact hann

def Whole (s : Sys) (seg : Seg) : Prop :=
  ∀ q ∈ s.pcb.ooseq, lt q.seqno seg.seqno → lt seg.seqno q.stop → leq q.stop seg.stop

/-- With the positions that have come in. Memory is found for every copy, and the queue is not
freed. -/
inductive Gathers (S : Stream) (isn : BitVec 32) (mss : ℕ) : Sys → Set ℕ → Prop
  | start : Gathers S isn mss (start isn mss) ∅
  | segment {s s' : Sys} {got : Set ℕ} {i : Piece} {send : Send} {taken : List Byte → ℕ}
      (hrun : Gathers S isn mss s got) (hfits : i.Fits S) (hlen : i.tcplen ≤ 0xffff)
      (hold : s.data.length ≤ i.pos + 2^29) (hnew : i.pos ≤ s.data.length + 2^29)
      (hwin : leq (i.seg S isn).last s.pcb.rcvAnnRightEdge) (hwhole : Whole s (i.seg S isn))
      (hstep : step s (.segment true send taken (i.seg S isn)) = some s') :
      Gathers S isn mss s' (got ∪ {x | i.Has x})
  | recved {s s' : Sys} {got : Set ℕ} {len : ℕ} (hrun : Gathers S isn mss s got)
      (hstep : step s (.recved len) = some s') : Gathers S isn mss s' got
  | out {s s' : Sys} {got : Set ℕ} {o : Output} (hrun : Gathers S isn mss s got)
      (hstep : step s (.out o) = some s') : Gathers S isn mss s' got

theorem Held.overlaps {i : Piece} (h : Held S isn mss n ps e as s) (hlen : i.tcplen ≤ 0xffff)
    (hold : n ≤ i.pos + 2^29) (hnew : i.pos ≤ n + 2^29) (hwhole : Whole s (i.seg S isn)) :
    Overlaps i ps := by
  intro p hp hlt hlt'
  obtain ⟨hlo, -⟩ := h.stands.queue.mem hp
  have hnear := h.stands.near p hp
  have hstop := p.stop_le_last
  have hlen' : i.len ≤ i.tcplen := Nat.le_add_right ..
  have hi : i.stop = i.pos + i.len := rfl
  have hmem : p.seg S isn ∈ s.pcb.ooseq := h.stands.ooseq ▸ List.mem_map_of_mem hp
  have hle := hwhole _ hmem ((lt_seq isn (near (by omega) (by omega))).mpr (by omega))
  rw [Piece.seg_stop, Piece.seg_stop, Piece.seg_seqno, lt_seq isn (near (by omega) (by omega)),
    leq_seq isn (near (by omega) (by omega)), Nat.cast_lt, Nat.cast_le] at hle
  exact hle hlt'

theorem Gathers.held {got : Set ℕ} (hrun : Gathers S isn mss s got) :
    ∃ n ps e as, Held S isn mss n ps e as s ∧ ∀ x ∈ got, x < n ∨ Covers ps x := by
  induction hrun with
  | start => exact ⟨_, _, _, _, held_start S isn mss, fun x hx => hx.elim⟩
  | @segment s s' got i send taken hrun hfits hlen hold hnew hwin hwhole hstep ih =>
    obtain ⟨n, ps, e, as, h, hgot⟩ := ih
    rw [h.length] at hold hnew
    by_cases hdata : Carries s (i.seg S isn)
    · obtain ⟨hlen', htcp, hstate⟩ := hdata
      have heof := h.not_eof hstate
      have hlast : i.last = i.pos + i.tcplen := rfl
      have hle : i.last ≤ e := by
        rwa [Piece.seg_last, h.leq_edge heof (by omega) (by omega)] at hwin
      have hfit := hle.trans (h.edge_le heof)
      rw [Piece.seg_tcplen] at htcp
      obtain ⟨r, acks, pcb', n', ps', e', as', hrec, hrecv, hr, -, -, hheld⟩ :=
        h.received taken heof hfits htcp hlen hold hnew (hle.trans e.le_succ) fun _ => hfit
      have hcovers := hr.covers rfl hfit (h.overlaps hlen hold hnew hwhole)
      cases hstep.symm.trans (step_segment taken hlen' hrec hrecv)
      refine ⟨n', ps', e', as', hheld, ?_⟩
      rintro x (hx | hx)
      · rcases hgot x hx with hx | hx
        · exact .inl (hx.trans_le hr.le)
        · exact hcovers x (.inr hx)
      · exact hcovers x (.inl hx)
    · obtain ⟨pcb', hidle, hsends⟩ := step_idle true send taken hdata
      obtain ⟨e', as', hheld⟩ := h.quiet hsends
      cases hstep.symm.trans hidle
      refine ⟨n, ps, e', as', hheld, ?_⟩
      rintro x (hx | ⟨hx₁, hx₂⟩)
      · exact hgot x hx
      · -- there are no bytes, or the stream has ended before
        rw [Carries, Piece.seg_tcplen] at hdata
        have hi : i.stop = i.pos + i.len := rfl
        have hlen' : i.len ≤ i.tcplen := Nat.le_add_right ..
        have heof : s.eof = true := by
          by_contra hne
          exact hdata ⟨hlen, by omega, h.stands.state (Bool.eq_false_iff.mpr hne)⟩
        have hend := hfits.le n (h.stands.fin heof).1
        exact .inl (by omega)
  | recved hrun hstep ih =>
    obtain ⟨n, ps, e, as, h, hgot⟩ := ih
    obtain ⟨pcb', hrecved, hw, -⟩ := h.window.recved _
    rw [TcpReceive.step, hrecved] at hstep
    cases hstep
    exact ⟨n, ps, e, as, h.settles (settles_tcpRecved h.wnd hrecved) hw, hgot⟩
  | @out s s' got o hrun hstep ih =>
    obtain ⟨n, ps, e, as, h, hgot⟩ := ih
    obtain ⟨e', as', hheld⟩ := h.sends (o.sends s.pcb)
    cases hstep
    exact ⟨n, ps, e', as', hheld, hgot⟩

end EthernetSoc.TcpReceive
