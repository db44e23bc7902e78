import EthernetSoc.TcpFlow

/-!
# What the receiving half does not keep

Two things that `tcp_receive` does with segments out of order. A segment inside a queued one
cuts it short, and what the queued one had behind it is forgotten. And a segment is queued
without a look at the end of the window, unless it comes to be the last one of the queue: when
the gap before it is filled, the window goes below zero, and an assertion stops the firmware.
-/

namespace EthernetSoc.TcpReceive
open SeqSpace Buffer

variable {S : Stream} {isn : BitVec 32} {mss n : ℕ} {ps : List Piece} {s s' : Sys}

theorem step_outOfOrder {copied : Bool} {pcb' : Pcb} {i : Piece} (send : Send)
    (taken : List Byte → ℕ) (hs : Stands S isn n ps false s.pcb) (hfits : i.Fits S)
    (htcp : 0 < i.tcplen) (hlen : i.tcplen ≤ 0xffff) (hwnd : s.pcb.rcvWnd ≤ tcpWnd)
    (hlo : n < i.pos) (hhi : i.pos < n + s.pcb.rcvWnd)
    (h : outOfOrder copied s.pcb (i.seg S isn) = some pcb') :
    step s (.segment copied send taken (i.seg S isn)) = some ⟨(tcpSendEmptyAck pcb' send).1,
      s.data, s.eof, s.acks ++ (tcpSendEmptyAck pcb' send).2⟩ := by
  have hwnd' : s.pcb.rcvWnd ≤ 5840 := hwnd
  rcases tcpReceive_cases copied send hs hfits htcp hlen hwnd (by omega) (by omega) with
    ⟨j, -, -, -, -, -, -, -, hle, -⟩ | ⟨heq, -⟩ | ⟨pcb'', acks, -, -, -, hout, -⟩
  · omega
  · rw [h] at heq
    rw [step_segment taken (by rwa [Piece.seg_tcplen]) heq rfl, List.append_nil, Bool.or_false]
    rfl
  · omega

/-! ## A segment inside a queued one -/

section Inside
variable {i p : Piece} {pre post : List Piece}

theorem trimEnd_inside (hlt : p.pos < i.pos) (hin : i.pos < p.stop) (hnear : i.pos < p.pos + 2^16)
    (hb : p.stop ≤ i.pos + 2^18) :
    trimEnd (p.seg S isn) (seq isn i.pos) = (p.cut (i.pos - p.pos)).seg S isn := by
  have hstop : p.stop = p.pos + p.len := rfl
  have hgt : gt (seq isn (p.stop : ℤ)) (seq isn (i.pos : ℤ)) = true :=
    (gt_seq isn (near (by omega) (by omega))).mpr (by omega)
  rw [trimEnd, Piece.seg_stop, if_pos hgt, Piece.seg_seqno, u16_sub hlt.le hnear,
    Piece.seg_realloc S isn p (by omega)]

theorem insert_apart {q : Piece} (hfin : i.fin = false) (hle : i.stop ≤ q.pos)
    (hq : i.stop < q.stop) (hb : q.stop ≤ i.stop + 2^18) :
    tcpOosInsertSegment (i.seg S isn) (q.seg S isn :: ps.map (Piece.seg S isn)) =
      (i :: q :: ps).map (Piece.seg S isn) := by
  have hqstop : q.stop = q.pos + q.len := rfl
  have hgeq : ¬ geq (seq isn (i.stop : ℤ)) (seq isn (q.stop : ℤ)) = true := by
    rw [geq_seq isn (near (by omega) (by omega))]
    omega
  have hgt : ¬ gt (seq isn (i.stop : ℤ)) (seq isn (q.pos : ℤ)) = true := by
    rw [gt_seq isn (near (by omega) (by omega))]
    omega
  rw [tcpOosInsertSegment, Piece.seg_fin, hfin, if_neg Bool.false_ne_true, oosCover,
    Piece.seg_stop, Piece.seg_stop, if_neg hgeq, Piece.seg_seqno S isn q, if_neg hgt]
  rfl

theorem Queue.of_append {lo : ℕ} {qs : List Piece} (h : Queue S lo (ps ++ qs)) :
    ∃ lo' ≥ lo, Queue S lo' qs := by
  induction ps generalizing lo with
  | nil => exact ⟨lo, le_rfl, h⟩
  | cons p ps ih =>
    obtain ⟨hlo, -, -, -, hrest⟩ := h
    obtain ⟨lo', hle, hq⟩ := ih hrest
    exact ⟨lo', (hlo.trans (Nat.le_add_right ..)).trans hle, hq⟩

theorem queueOoseq_inside (isn : BitVec 32) (edge : ℕ) {lo : ℕ} {prev : Option Piece}
    (hfits : i.Fits S) (htcp : 0 < i.tcplen) (hedge : i.pos < edge) (hedge' : edge < i.pos + 2^16)
    (hp : p.fin = false) (hlt : p.pos < i.pos) (hin : i.stop < p.stop) (hnear : i.pos < n + 2^16)
    (hlo : n < lo) (hq : Queue S lo (prev.toList ++ (pre ++ p :: post)))
    (hb : ∀ q ∈ prev.toList ++ (pre ++ p :: post), q.stop ≤ n + 2^18)
    (hlen : i.len < 2^16) (hprev : ∀ q ∈ prev, q.pos < i.pos) :
    ∃ j, j.pos = i.pos ∧ j.stop ≤ i.stop ∧
      queueOoseq true (seq isn edge) (i.seg S isn) (prev.map (Piece.seg S isn))
          ((pre ++ p :: post).map (Piece.seg S isn)) =
        some ((prev.toList ++ (pre ++ p.cut (i.pos - p.pos) :: j :: post)).map
          (Piece.seg S isn)) := by
  have hstop : i.stop = i.pos + i.len := rfl
  induction pre generalizing prev lo with
  | nil =>
    have hmem : ∀ q ∈ prev.toList ++ p :: post, n < q.pos ∧ q.pos ≤ n + 2^18 := fun q hq' =>
      ⟨hlo.trans_le (hq.mem hq').1, (Nat.le_add_right ..).trans (hb q hq')⟩
    have hprev' : ∀ q ∈ prev, i.pos ≤ q.pos + 2^18 := fun q hq' => by
      have := hmem q (List.mem_append_left _ (Option.mem_toList.mpr hq'))
      omega
    obtain ⟨hpn, -⟩ := hmem p (List.mem_append_right _ (List.mem_cons_self ..))
    have hpb := hb p (List.mem_append_right _ (List.mem_cons_self ..))
    obtain ⟨lo', -, -, hpfits, -, -, hrest⟩ := Queue.of_append hq
    have hfin : i.fin = false := Bool.eq_false_iff.mpr fun h =>
      hin.not_ge (hpfits.le i.stop (hfits.fin h))
    have htrim : trimEnd (p.seg S isn) (seq isn i.pos) = (p.cut (i.pos - p.pos)).seg S isn :=
      trimEnd_inside hlt (by omega) (by omega) (by omega)
    cases post with
    | nil =>
      obtain ⟨j, hj, hjpos, -, -, hjlast, -⟩ := trimEdge_spec isn hfits htcp hlen hedge hedge'
      rw [Piece.last_of_not_fin hfin] at hjlast
      refine ⟨j, hjpos, j.stop_le_last.trans hjlast, ?_⟩
      have hcmp : Near 32 (i.pos : ℤ) (p.pos : ℤ) := near (by omega) (by omega)
      have hseq : ¬ seq isn (i.pos : ℤ) = seq isn (p.pos : ℤ) := by
        rw [seq_inj isn hcmp]
        omega
      have hgt : gt (seq isn (i.pos : ℤ)) (seq isn (p.pos : ℤ)) = true :=
        (gt_seq isn hcmp).mpr (by omega)
      have hprec := precedes_iff (S := S) isn p hprev (by omega) (by omega) (by omega) hprev'
      rw [List.nil_append, List.map_cons, queueOoseq, Piece.seg_seqno, Piece.seg_seqno,
        if_neg hseq, if_neg (hprec.not.mpr (by omega)), if_pos ⟨rfl, hgt⟩, Piece.seg_fin, hp, hj,
        htrim, Option.toList_map]
      simp
    | cons q post =>
      obtain ⟨hqlo, -⟩ := hrest
      have hqstop : q.stop = q.pos + q.len := rfl
      have hqb := hb q (by simp)
      refine ⟨i, rfl, le_rfl, ?_⟩
      rw [List.nil_append, queueOoseq_skip isn true _ hlt (by simp) hprev (by omega) (by omega)
        hprev']
      have hcmp : Near 32 (i.pos : ℤ) (q.pos : ℤ) := near (by omega) (by omega)
      have hseq : ¬ seq isn (i.pos : ℤ) = seq isn (q.pos : ℤ) := by
        rw [seq_inj isn hcmp]
        omega
      have hprec : precedes (i.seg S isn) ((some p).map (Piece.seg S isn)) (q.seg S isn) = true :=
        (precedes_iff isn q (by simpa using hlt) (by omega) (by omega) (by omega)
          (by simp; omega)).mpr (by omega)
      rw [Option.map_some] at hprec
      rw [List.map_cons, queueOoseq, Piece.seg_seqno, Piece.seg_seqno, if_neg hseq, if_pos hprec,
        if_pos rfl, Option.map_some, Option.map_some, htrim,
        insert_apart hfin (by omega) (by omega) (by omega), Option.toList_map]
      simp
  | cons q pre ih =>
    have hqmem : q ∈ prev.toList ++ (q :: pre ++ p :: post) := by simp
    obtain ⟨hqlo, -⟩ := hq.mem hqmem
    obtain ⟨lo', hle, hq'⟩ := Queue.of_append hq
    obtain ⟨hqp, -⟩ := hq'.2.2.2.2.mem (List.mem_append_right pre (List.mem_cons_self ..))
    have hqstop : q.stop = q.pos + q.len := rfl
    have hprev' : ∀ r ∈ prev, i.pos ≤ r.pos + 2^18 := fun r hr => by
      have := (hq.mem (List.mem_append_left _ (Option.mem_toList.mpr hr))).1
      omega
    have hq'' : Queue S lo' ((some q).toList ++ (pre ++ p :: post)) := hq'
    obtain ⟨j, hjpos, hjstop, hwalk⟩ := ih (hlo.trans_le hle) hq''
      (fun r hr => hb r (List.mem_append_right _ hr)) (by simp; omega)
    refine ⟨j, hjpos, hjstop, ?_⟩
    rw [Option.map_some] at hwalk
    rw [List.cons_append, queueOoseq_skip isn true _ (by omega) (by simp) hprev (by omega)
      (by omega) hprev', hwalk, Option.map_some, Option.toList_map]
    simp

theorem Queue.ordered {lo : ℕ} (h : Queue S lo (pre ++ p :: post)) :
    (∀ q ∈ pre, q.stop ≤ p.pos) ∧ ∀ q ∈ post, p.stop ≤ q.pos := by
  induction pre generalizing lo with
  | nil =>
    obtain ⟨-, -, -, -, hrest⟩ := h
    exact ⟨by simp, fun q hq => (hrest.mem hq).1⟩
  | cons r pre ih =>
    obtain ⟨-, -, -, -, hrest⟩ := h
    obtain ⟨hpre, hpost⟩ := ih hrest
    have hr := (hrest.mem (List.mem_append_right pre (List.mem_cons_self ..))).1
    exact ⟨List.forall_mem_cons.mpr ⟨hr, hpre⟩, hpost⟩

theorem Piece.seg_inj {q : Piece} (hnear : Near 32 (p.pos : ℤ) (q.pos : ℤ))
    (h : p.seg S isn = q.seg S isn) : p = q := by
  obtain ⟨hseq, hfin, hbytes⟩ := Seg.mk.inj h
  have hpos := (seq_inj isn hnear).mp hseq
  have hlen := congrArg List.length hbytes
  rw [length_slice, length_slice] at hlen
  cases p
  cases q
  simp_all

/-- A segment inside a queued one: what the queued one had behind it is no longer there. -/
theorem inside_forgotten {send : Send} {taken : List Byte → ℕ}
    (hrun : Reaches (Obeys S isn) isn mss s)
    (hqueued : p.seg S isn ∈ s.pcb.ooseq) (hp : p.fin = false) (hlo : s.data.length ≤ p.pos)
    (hhi : p.pos ≤ s.data.length + 2^29) (hfits : i.Fits S) (htcp : 0 < i.tcplen)
    (hlt : p.pos < i.pos) (hin : i.stop < p.stop) :
    ∃ s', step s (.segment true send taken (i.seg S isn)) = some s' ∧ s'.data = s.data ∧
      ∀ x, i.stop ≤ x → x < p.stop → ∀ q ∈ s'.pcb.ooseq,
        ¬ (leq q.seqno (seq isn x) = true ∧ lt (seq isn x) q.stop = true) := by
  obtain ⟨n, ps, e, as, h⟩ := hrun.held
  rw [h.length] at hlo hhi
  rw [h.stands.ooseq] at hqueued
  obtain ⟨p', hp', heq⟩ := List.mem_map.mp hqueued
  obtain rfl : p' = p := by
    have := h.stands.near p' hp'
    have := (h.stands.queue.mem hp').1
    have := p'.stop_le_last
    have : p'.stop = p'.pos + p'.len := rfl
    exact Piece.seg_inj (near (by omega) (by omega)) heq
  obtain ⟨pre, post, rfl⟩ := List.append_of_mem hp'
  have heof : s.eof = false := Bool.eq_false_iff.mpr fun he => by
    rw [(h.stands.fin he).2] at hp'
    cases hp'
  have hs : Stands S isn n (pre ++ p' :: post) false s.pcb := heof ▸ h.stands
  have hroom := h.room p' hp'
  have hwnd : s.pcb.rcvWnd ≤ 5840 := h.wnd
  have hn := (h.stands.queue.mem hp').1
  have hilast := i.last_le_stop
  have hle := i.stop_le_last
  have hstop : i.stop = i.pos + i.len := rfl
  have hlast : i.last = i.pos + i.tcplen := rfl
  have hpstop := p'.stop_le_last
  have hall : ∀ q ∈ pre ++ p' :: post, q.stop ≤ n + 2^18 := fun q hq =>
    q.stop_le_last.trans (h.stands.near q hq)
  have hq : Queue S (n+1) ((none : Option Piece).toList ++ (pre ++ p' :: post)) := h.stands.queue
  obtain ⟨j, hjpos, hjstop, hwalk⟩ := queueOoseq_inside isn (n + s.pcb.rcvWnd) hfits htcp
    (by omega) (by omega) hp hlt hin (by omega) n.lt_succ_self hq hall (by omega) (by simp)
  have hedge : s.pcb.rightEdge = seq isn ((n + s.pcb.rcvWnd : ℕ) : ℤ) := by
    rw [Pcb.rightEdge, hs.nxt, seq_add, reached_false, Nat.cast_add]
  have hout : outOfOrder true s.pcb (i.seg S isn) = some { s.pcb with
      ooseq := (pre ++ p'.cut (i.pos - p'.pos) :: j :: post).map (Piece.seg S isn) } := by
    rw [Option.map_none] at hwalk
    rw [outOfOrder, hs.ooseq, hedge, hwalk]
    simp
  refine ⟨_, step_outOfOrder send taken hs hfits htcp (by omega) h.wnd (by omega) (by omega) hout,
    rfl, fun x hx hx' q hq' => ?_⟩
  rw [(sends_emptyAck _ send).ooseq] at hq'
  obtain ⟨r, hr, rfl⟩ := List.mem_map.mp hq'
  obtain ⟨hpre, hpost⟩ := h.stands.queue.ordered
  have hrstop : r.stop = r.pos + r.len := rfl
  have hr : n < r.stop ∧ r.stop ≤ x ∨ x < r.pos ∧ r.stop ≤ n + 2^18 := by
    simp only [List.mem_append, List.mem_cons] at hr
    rcases hr with hr | rfl | rfl | hr
    · have := hpre r hr
      have := (h.stands.queue.mem (List.mem_append_left _ hr)).1
      exact .inl ⟨by omega, by omega⟩
    · rw [Piece.cut_stop]
      exact .inl ⟨by omega, by omega⟩
    · exact .inl ⟨by omega, by omega⟩
    · exact .inr ⟨hx'.trans_le (hpost r hr), hall r (by simp [hr])⟩
  rw [Piece.seg_seqno, Piece.seg_stop]
  rintro ⟨hleq, hlt'⟩
  rcases hr with ⟨hn, hr⟩ | ⟨hr, hb⟩
  · rw [lt_seq isn (near (by omega) (by omega)), Nat.cast_lt] at hlt'
    omega
  · rw [leq_seq isn (near (by omega) (by omega)), Nat.cast_le] at hleq
    omega

end Inside

def threeQueued : Sys := (step (start 0xfffffffe 1460) (.segment true .sent List.length
  (Piece.seg fourBytes 0xfffffffe ⟨1, 3, false⟩))).getD (start 0xfffffffe 1460)

theorem inside_forgotten_second : ∃ s', step threeQueued (.segment true .sent List.length
      (Piece.seg fourBytes 0xfffffffe ⟨2, 1, false⟩)) = some s' ∧ s'.data = threeQueued.data ∧
    ∀ x : ℕ, 3 ≤ x → x < 4 → ∀ q ∈ s'.pcb.ooseq,
      ¬ (leq q.seqno (seq 0xfffffffe x) = true ∧ lt (seq 0xfffffffe x) q.stop = true) := by
  have hfits : Piece.Fits fourBytes ⟨1, 3, false⟩ := ⟨by decide, fun h => by cases h⟩
  have hok : Obeys fourBytes 0xfffffffe (start 0xfffffffe 1460) (.segment true .sent List.length
      (Piece.seg fourBytes 0xfffffffe ⟨1, 3, false⟩)) :=
    ⟨⟨⟨1, 3, false⟩, rfl, hfits, by decide, by decide⟩, .inl (by decide)⟩
  have hrun : Reaches (Obeys fourBytes 0xfffffffe) 0xfffffffe 1460 threeQueued :=
    .step .start hok rfl
  exact inside_forgotten (p := ⟨1, 3, false⟩) (i := ⟨2, 1, false⟩) hrun
    (List.mem_singleton_self _) rfl (by decide) (by decide) ⟨by decide, fun h => by cases h⟩
    (by decide) (by decide) (by decide)

/-! ## Segments behind the window -/

def Adjoin : ℕ → List Piece → Prop
  | _, [] => True
  | n, p :: ps => p.pos = n ∧ Adjoin p.stop ps

theorem drain_overrun {r : Result} (hadj : Adjoin n ps) (hq : Queue S n ps)
    (hnxt : r.pcb.rcvNxt = seq isn n) (hover : ∃ p ∈ ps, n + r.pcb.rcvWnd < p.last) :
    drain r (ps.map (Piece.seg S isn)) = none := by
  induction ps generalizing n r with
  | nil =>
    obtain ⟨p, hp, -⟩ := hover
    cases hp
  | cons p ps ih =>
    obtain ⟨rfl, hadj⟩ := hadj
    obtain ⟨-, -, -, hfin, hrest⟩ := hq
    rw [List.map_cons, drain, hnxt, if_pos (p.seg_seqno S isn)]
    rcases hadv : advance r.pcb (p.seg S isn) with - | pcb'
    · rfl
    · obtain ⟨-, hnxt', hroom⟩ := advance_frame hadv
      rw [Piece.seg_tcplen] at hroom hnxt'
      have hlast : p.last = p.pos + p.tcplen := rfl
      obtain ⟨q, hq, hlt⟩ := hover
      rcases List.mem_cons.mp hq with rfl | hq
      · omega
      · have hf : p.fin = false := Bool.eq_false_iff.mpr fun h => by
          rw [hfin h] at hq
          cases hq
        have hstop := Piece.last_of_not_fin hf
        rw [hnxt, seq_add, ← Nat.cast_add, ← hlast, hstop] at hnxt'
        rw [Option.bind_some, Piece.seg_fin, hf, if_neg Bool.false_ne_true]
        exact ih hadj hrest hnxt' ⟨q, hq, by simp only; omega⟩

theorem inOrder_overrun {pcb : Pcb} {i : Piece} (hs : Stands S isn i.pos ps false pcb)
    (hadj : Adjoin i.stop ps) (hq : Queue S i.stop ps) (hi : i.fin = false)
    (hlen : ∀ p ∈ ps, 0 < p.len) (hfit : i.stop ≤ i.pos + pcb.rcvWnd) (hlen' : i.len < 2^16)
    (hover : ∃ p ∈ ps, i.pos + pcb.rcvWnd < p.last) : inOrder pcb (i.seg S isn) = none := by
  have hstop : i.stop = i.pos + i.len := rfl
  have htcp : i.tcplen = i.len := by simp [Piece.tcplen, hi]
  obtain ⟨q, qs, rfl⟩ : ∃ q qs, ps = q :: qs := by
    obtain ⟨p, hp, -⟩ := hover
    exact List.exists_cons_of_ne_nil (List.ne_nil_of_mem hp)
  have hqpos := hadj.1
  have hqstop : q.stop = q.pos + q.len := rfl
  have hqlen := hlen q (List.mem_cons_self ..)
  have hqb := hs.near q (List.mem_cons_self ..)
  have hqle := q.stop_le_last
  have hgeq : ¬ geq (seq isn (i.stop : ℤ)) (seq isn (q.stop : ℤ)) = true := by
    rw [geq_seq isn (near (by omega) (by omega))]
    omega
  have hgt : ¬ gt (seq isn (i.stop : ℤ)) (seq isn (q.pos : ℤ)) = true := by
    rw [gt_seq isn (near (by omega) (by omega))]
    omega
  have habsorb : absorb (i.seg S isn) ((q :: qs).map (Piece.seg S isn)) =
      some (i.seg S isn, (q :: qs).map (Piece.seg S isn)) := by
    rw [absorb, Piece.seg_fin, hi, if_neg Bool.false_ne_true, List.map_cons, cover,
      Piece.seg_last, Piece.seg_stop, Piece.last_of_not_fin hi, if_neg hgeq, trimOoseq,
      Piece.seg_last, Piece.seg_seqno S isn q, Piece.last_of_not_fin hi, if_neg hgt]
    rfl
  rw [inOrder, trimWindow, Piece.seg_tcplen, if_neg (by omega), Option.bind_some, hs.ooseq,
    habsorb, Option.bind_some]
  rcases hadv : advance pcb (i.seg S isn) with - | pcb'
  · rfl
  · obtain ⟨-, hnxt, hroom⟩ := advance_frame hadv
    rw [Piece.seg_tcplen, htcp] at hroom hnxt
    rw [hs.nxt, reached_false, seq_add, ← Nat.cast_add, ← hstop] at hnxt
    obtain ⟨p, hp, hlt⟩ := hover
    have hdrain := drain_overrun (r := ⟨pcb', (i.seg S isn).p, (i.seg S isn).fin⟩) hadj hq hnxt
      ⟨p, hp, by simp only; omega⟩
    rw [Option.bind_some, hdrain]
    rfl

def backwards (S : Stream) (isn : BitVec 32) (send : Send) (taken : List Byte → ℕ)
    (ps : List Piece) : List Event :=
  ps.reverse.map fun p => .segment true send taken (p.seg S isn)

theorem backwards_cons (S : Stream) (isn : BitVec 32) (send : Send) (taken : List Byte → ℕ)
    (p : Piece) (ps : List Piece) : backwards S isn send taken (p :: ps) =
      backwards S isn send taken ps ++ [.segment true send taken (p.seg S isn)] := by
  rw [backwards, List.reverse_cons, List.map_append]
  rfl

theorem outOfOrder_front {pcb : Pcb} {p : Piece} (hs : Stands S isn n ps false pcb)
    (hadj : Adjoin p.stop ps) (hp : p.fin = true → ps = []) (hn : n < p.pos)
    (hlen : ∀ q ∈ p :: ps, 0 < q.len) :
    outOfOrder true pcb (p.seg S isn) =
      some { pcb with ooseq := (p :: ps).map (Piece.seg S isn) } := by
  rw [outOfOrder, hs.ooseq]
  cases ps with
  | nil => rfl
  | cons q qs =>
    have hpf : p.fin = false := Bool.eq_false_iff.mpr fun h => by cases hp h
    have hpos := hadj.1
    have hstop : p.stop = p.pos + p.len := rfl
    have hqstop : q.stop = q.pos + q.len := rfl
    have hplen := hlen p (List.mem_cons_self ..)
    have hqlen := hlen q (List.mem_cons_of_mem _ (List.mem_cons_self ..))
    have hqb := (q.stop_le_last).trans (hs.near q (List.mem_cons_self ..))
    have hcmp : Near 32 (p.pos : ℤ) (q.pos : ℤ) := near (by omega) (by omega)
    have hseq : ¬ (p.seg S isn).seqno = (q.seg S isn).seqno := by
      rw [Piece.seg_seqno, Piece.seg_seqno, seq_inj isn hcmp]
      omega
    have hprec : precedes (p.seg S isn) none (q.seg S isn) = true :=
      (lt_seq isn hcmp).mpr (by omega)
    rw [List.map_cons, List.isEmpty_cons, if_neg Bool.false_ne_true, queueOoseq, if_neg hseq,
      if_pos hprec, insert_apart hpf hpos.ge (by omega) (by omega)]
    rfl

theorem queued_backwards {m : ℕ} (send : Send) (taken : List Byte → ℕ)
    (hs : Stands S isn n [] false s.pcb) (hwnd : s.pcb.rcvWnd ≤ tcpWnd) (hadj : Adjoin m ps)
    (hq : Queue S m ps) (hn : n < m)
    (hlen : ∀ p ∈ ps, 0 < p.len ∧ p.tcplen ≤ 0xffff ∧ p.pos < n + s.pcb.rcvWnd) :
    ∃ s', (backwards S isn send taken ps).foldlM step s = some s' ∧
      Stands S isn n ps false s'.pcb ∧ s'.pcb.rcvWnd = s.pcb.rcvWnd := by
  induction ps generalizing m with
  | nil => exact ⟨s, rfl, hs, rfl⟩
  | cons p ps ih =>
    obtain ⟨rfl, hadj⟩ := hadj
    obtain ⟨-, hfits, htcp, hfin, hrest⟩ := hq
    obtain ⟨⟨hplen, hptcp, hppos⟩, hlen⟩ := List.forall_mem_cons.mp hlen
    obtain ⟨s₁, hrun, hs₁, hwnd₁⟩ := ih hadj hrest (hn.trans_le (Nat.le_add_right ..)) hlen
    have hout := outOfOrder_front hs₁ hadj hfin hn
      (List.forall_mem_cons.mpr ⟨hplen, fun q hq => (hlen q hq).1⟩)
    have hstands : Stands S isn n (p :: ps) false
        { s₁.pcb with ooseq := (p :: ps).map (Piece.seg S isn) } := by
      refine ⟨hs₁.nxt, rfl, ⟨hn, hfits, htcp, hfin, hrest⟩,
        List.forall_mem_cons.mpr ⟨?_, hs₁.near⟩, hs₁.le, hs₁.state, nofun⟩
      have hlast : p.last = p.pos + p.tcplen := rfl
      have : s.pcb.rcvWnd ≤ 5840 := hwnd
      omega
    have hwnd' : ({ s₁.pcb with ooseq := (p :: ps).map (Piece.seg S isn) } : Pcb).rcvWnd =
      s.pcb.rcvWnd := hwnd₁
    generalize { s₁.pcb with ooseq := (p :: ps).map (Piece.seg S isn) } = pcb'
      at hout hstands hwnd'
    have hsends := sends_emptyAck pcb' send
    have hstep := step_outOfOrder send taken hs₁ hfits htcp hptcp (hwnd₁ ▸ hwnd) hn
      (hwnd₁ ▸ hppos) hout
    refine ⟨⟨(tcpSendEmptyAck pcb' send).1, s₁.data, s₁.eof, s₁.acks ++
      (tcpSendEmptyAck pcb' send).2⟩, ?_, hstands.sends hsends, hsends.rcvWnd.trans hwnd'⟩
    rw [backwards_cons, List.foldlM_append, hrun]
    simp [hstep]

theorem Adjoin.last_le {hi : ℕ} (hadj : Adjoin n ps) (hq : Queue S n ps)
    (hin : ∀ p ∈ ps, p.pos < hi) {q : Piece} (hmem : q ∈ ps) (hempty : q.len = 0) :
    ∀ p ∈ ps, p.last ≤ hi := by
  induction ps generalizing n with
  | nil => exact List.forall_mem_nil _
  | cons p ps ih =>
    obtain ⟨-, hadj⟩ := hadj
    obtain ⟨-, -, htcp, hfin, hrest⟩ := hq
    obtain ⟨hp, hin⟩ := List.forall_mem_cons.mp hin
    have hlast : p.last = p.pos + p.tcplen := rfl
    have hstop : p.stop = p.pos + p.len := rfl
    have htcplen : p.tcplen = p.len + if p.fin then 1 else 0 := rfl
    rcases List.mem_cons.mp hmem with rfl | hmem
    · -- the FIN alone, and nothing after it
      have hf : q.fin = true := by
        by_contra hf
        rw [if_neg hf] at htcplen
        omega
      rw [hf, if_pos rfl] at htcplen
      rw [hfin hf]
      exact List.forall_mem_singleton.mpr (by omega)
    · have hf : p.fin = false := Bool.eq_false_iff.mpr fun h => by
        rw [hfin h] at hmem
        cases hmem
      obtain ⟨r, rs, rfl⟩ := List.exists_cons_of_ne_nil (List.ne_nil_of_mem hmem)
      have hr := hin r (List.mem_cons_self ..)
      have hpos := hadj.1
      have hple : p.last ≤ hi := by
        rw [Piece.last_of_not_fin hf]
        omega
      exact List.forall_mem_cons.mpr ⟨hple, ih hadj hrest hin hmem⟩

/-- Pieces that start in the window and reach behind it come in, the last one first: once the
first one closes the gap, the firmware stops. One position behind the window is enough. -/
theorem overrun_hangs {i : Piece} (hrun : Reaches (Genuine S isn) isn mss s)
    (hopen : s.eof = false) (hempty : s.pcb.ooseq = []) (send : Send) (taken : List Byte → ℕ)
    (hadj : Adjoin s.data.length (i :: ps)) (hq : Queue S s.data.length (i :: ps))
    (hlen : ∀ p ∈ i :: ps, p.tcplen ≤ 0xffff ∧ p.pos < s.data.length + s.pcb.rcvWnd)
    (hover : ∃ p ∈ ps, s.data.length + s.pcb.rcvWnd < p.last) :
    ∃ s₁, (backwards S isn send taken ps).foldlM step s = some s₁ ∧
      step s₁ (.segment true send taken (i.seg S isn)) = none := by
  obtain ⟨n, qs, hinv⟩ := hrun.inv
  rw [hinv.length] at hadj hq hlen hover
  have hs : Stands S isn n [] false s.pcb := by
    have hstands := hinv.stands
    rw [hopen] at hstands
    have hnil := hstands.ooseq
    rw [hempty, List.nil_eq, List.map_eq_nil_iff] at hnil
    rwa [hnil] at hstands
  have hdata : ∀ p ∈ i :: ps, 0 < p.len := fun p hp => by
    by_contra hzero
    obtain ⟨q, hq', hlt⟩ := hover
    have hle := hadj.last_le hq (fun p hp => (hlen p hp).2) hp (by omega) q
      (List.mem_cons_of_mem _ hq')
    omega
  obtain ⟨rfl, hadj⟩ := hadj
  obtain ⟨-, hfits, htcp, hfin, hrest⟩ := hq
  obtain ⟨⟨hitcp, hiwin⟩, hlen⟩ := List.forall_mem_cons.mp hlen
  obtain ⟨hilen, hdata⟩ := List.forall_mem_cons.mp hdata
  have hstop : i.stop = i.pos + i.len := rfl
  have hi : i.fin = false := Bool.eq_false_iff.mpr fun h => by
    obtain ⟨p, hp, -⟩ := hover
    rw [hfin h] at hp
    cases hp
  obtain ⟨s₁, hrun₁, hs₁, hwnd⟩ := queued_backwards send taken hs hinv.wnd hadj hrest (by omega)
    fun p hp => ⟨hdata p hp, hlen p hp⟩
  rw [← hwnd] at hover hiwin
  have hwnd' : s₁.pcb.rcvWnd ≤ tcpWnd := hwnd ▸ hinv.wnd
  have hfit : i.stop ≤ i.pos + s₁.pcb.rcvWnd := by
    obtain ⟨p, hp, -⟩ := hover
    obtain ⟨q, qs, rfl⟩ := List.exists_cons_of_ne_nil (List.ne_nil_of_mem hp)
    have hq := (hlen q (List.mem_cons_self ..)).2
    rw [hadj.1, ← hwnd] at hq
    exact hq.le
  have hin := inOrder_overrun hs₁ hadj hrest hi hdata hfit
    (by have : i.len ≤ i.tcplen := Nat.le_add_right ..; omega) hover
  have hrec : tcpReceive true send s₁.pcb (i.seg S isn) = none := by
    rcases tcpReceive_cases true send hs₁ hfits htcp hitcp hwnd' (by omega) (by omega) with
      ⟨j, heq, -, -, -, -, -, -, -, -, hji⟩ | ⟨-, hlt, -⟩ | ⟨pcb', acks, -, -, -, -, hzero⟩
    · rw [heq, hji rfl, hin]
      rfl
    · exact absurd hlt (lt_irrefl _)
    · have := hzero rfl
      omega
  refine ⟨s₁, hrun₁, ?_⟩
  rw [step, tcpInput, if_neg (by rw [Piece.seg_tcplen]; omega), tcpProcess, hrec]
  rfl

def oneDelivered : Sys := (step (start 0 1460) (.segment true .sent List.length
  (Piece.seg ⟨fun _ => 0, some 5841⟩ 0 ⟨0, 1, false⟩))).getD (start 0 1460)

-- Behind one byte that has been delivered, a window of full segments whose FIN is the one
-- position behind it.
theorem overrun_hangs_fin :
    ∃ s₁, (backwards ⟨fun _ => 0, some 5841⟩ 0 .sent List.length
        [⟨1461, 1460, false⟩, ⟨2921, 1460, false⟩, ⟨4381, 1460, true⟩]).foldlM step
      oneDelivered = some s₁ ∧ step s₁ (.segment true .sent List.length
        (Piece.seg ⟨fun _ => 0, some 5841⟩ 0 ⟨1, 1460, false⟩)) = none := by
  have hfits : ∀ pos len, pos + len ≤ 5841 →
      Piece.Fits ⟨fun _ => 0, some 5841⟩ ⟨pos, len, false⟩ := by
    refine fun pos len hle => ⟨fun f hf => ?_, nofun⟩
    cases hf
    exact hle
  have hone : Genuine ⟨fun _ => 0, some 5841⟩ 0 (start 0 1460) (.segment true .sent List.length
      (Piece.seg ⟨fun _ => 0, some 5841⟩ 0 ⟨0, 1, false⟩)) :=
    ⟨⟨0, 1, false⟩, rfl, hfits 0 1 (by decide), by decide, by decide⟩
  have hrun : Reaches (Genuine _ 0) 0 1460 oneDelivered := .step .start hone rfl
  refine overrun_hangs hrun rfl rfl .sent List.length
    ⟨rfl, rfl, rfl, rfl, trivial⟩ ?_ (by decide) ⟨⟨4381, 1460, true⟩, by simp, by decide⟩
  refine ⟨le_rfl, hfits 1 1460 (by decide), by decide, nofun, le_rfl,
    hfits 1461 1460 (by decide), by decide, nofun, le_rfl, hfits 2921 1460 (by decide),
    by decide, nofun, le_rfl, ⟨fun f hf => ?_, fun _ => rfl⟩, by decide, fun _ => rfl, trivial⟩
  cases hf
  exact le_rfl

end EthernetSoc.TcpReceive
