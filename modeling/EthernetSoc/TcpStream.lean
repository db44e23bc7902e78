import EthernetSoc.TcpQueue

/-!
# The stream a connection delivers

The peer's segments come in any order, more than once, cut and overlapping as they may, and
copies of them may find no memory. What the application is given is the stream, in order and
without a gap, and no acknowledgement runs ahead of it.
-/

namespace EthernetSoc.TcpReceive
open SeqSpace Buffer

variable {S : Stream} {isn : BitVec 32} {n : ℕ} {ps : List Piece}

/-! ## Where the connection stands -/

def reached (n : ℕ) (fin : Bool) : ℕ := n + if fin then 1 else 0

@[simp] theorem reached_true (n : ℕ) : reached n true = n + 1 := rfl
@[simp] theorem reached_false (n : ℕ) : reached n false = n := rfl

theorem le_reached (n : ℕ) (fin : Bool) : n ≤ reached n fin := Nat.le_add_right ..

theorem Piece.last_eq_reached (i : Piece) : i.last = reached i.stop i.fin := by
  rw [last, tcplen, reached, stop, Nat.add_assoc]

/-- The connection has delivered `n` bytes and, if `fin`, the FIN; `ps` is queued. -/
structure Stands (S : Stream) (isn : BitVec 32) (n : ℕ) (ps : List Piece) (fin : Bool)
    (pcb : Pcb) : Prop where
  nxt : pcb.rcvNxt = seq isn (reached n fin)
  ooseq : pcb.ooseq = ps.map (Piece.seg S isn)
  queue : Queue S (n+1) ps
  near : ∀ p ∈ ps, p.last ≤ n + 2^18
  le : ∀ f ∈ S.fin, n ≤ f
  state : fin = false → pcb.state = .established
  fin : fin = true → S.fin = some n ∧ ps = []

theorem Stands.congr {fin : Bool} {pcb pcb' : Pcb} (h : Stands S isn n ps fin pcb)
    (hstate : pcb'.state = pcb.state) (hnxt : pcb'.rcvNxt = pcb.rcvNxt)
    (hooseq : pcb'.ooseq = pcb.ooseq) : Stands S isn n ps fin pcb' :=
  ⟨hnxt.trans h.nxt, hooseq.trans h.ooseq, h.queue, h.near, h.le,
    fun hf => hstate.trans (h.state hf), h.fin⟩

theorem Stands.sends {fin : Bool} {pcb pcb' : Pcb} {acks : List Ack}
    (h : Stands S isn n ps fin pcb) (hsends : Sends pcb pcb' acks) :
    Stands S isn n ps fin pcb' := by
  obtain ⟨edge, d, b, rfl, -⟩ := hsends
  exact h.congr rfl rfl rfl

theorem stands_fin {p : Piece} {pcb : Pcb} (hfits : p.Fits S) (hfin : p.fin = true)
    (hnxt : pcb.rcvNxt = seq isn p.last) (hooseq : pcb.ooseq = []) :
    Stands S isn p.stop [] p.fin pcb := by
  refine ⟨?_, hooseq, trivial, by simp, hfits.le, fun h => ?_, fun _ => ⟨hfits.fin hfin, rfl⟩⟩
  · rw [hnxt, Piece.last_eq_reached]
  · rw [hfin] at h
    cases h

/-! ## What a segment does -/

theorem drain_spec {r r' : Result} (h : drain r (ps.map (Piece.seg S isn)) = some r')
    (hq : Queue S n ps) (hf : ∀ f ∈ S.fin, n ≤ f) {hi : ℕ} (hn : n ≤ hi) (hhi : hi ≤ n + 2^18)
    (hb : ∀ p ∈ ps, p.last ≤ hi) (hnxt : r.pcb.rcvNxt = seq isn n)
    (hstate : r.pcb.state = .established) (hfin : r.gotFin = false) :
    ∃ n' ps', n ≤ n' ∧ r'.data = r.data ++ slice S.byte n (n' - n) ∧
      Stands S isn n' ps' r'.gotFin r'.pcb ∧
      reached n' r'.gotFin + r'.pcb.rcvWnd = n + r.pcb.rcvWnd ∧
      (∀ p ∈ ps', p ∈ ps) ∧ (∀ x, Covers ps x → x < n' ∨ Covers ps' x) ∧
      ∀ {mss e}, Window isn mss n e r.pcb → Wide mss r.pcb → (∀ p ∈ ps, p.last ≤ e + 1) →
        Window isn mss (reached n' r'.gotFin) e r'.pcb ∧ Wide mss r'.pcb := by
  induction ps generalizing n r with
  | nil =>
    cases h
    refine ⟨n, [], le_rfl, by simp [slice], ⟨?_, rfl, trivial, by simp, hf, fun _ => hstate, ?_⟩,
      ?_, by simp, fun x hx => .inr hx, fun hw hwide _ => ?_⟩
    · rw [hfin, hnxt, reached_false]
    · rw [hfin]
      exact fun h => by cases h
    · rw [hfin, reached_false]
    · rw [hfin, reached_false]
      exact ⟨hw.congr rfl rfl rfl rfl rfl, hwide⟩
  | cons p ps ih =>
    obtain ⟨hp, hpfits, hppos, hpfin, hrest⟩ := hq
    obtain ⟨hplast, hb⟩ := List.forall_mem_cons.mp hb
    have hpb := p.stop_le_last.trans hplast
    have hstop : p.stop = p.pos + p.len := rfl
    have hlast : p.last = p.pos + p.tcplen := rfl
    have hcmp : Near 32 (p.pos : ℤ) (n : ℤ) := near (by omega) (by omega)
    rw [List.map_cons, drain, hnxt, Piece.seg_seqno] at h
    by_cases heq : p.pos = n
    · subst heq
      rw [if_pos rfl] at h
      obtain ⟨pcb', hadv, hdrain⟩ := Option.bind_eq_some_iff.mp h
      obtain ⟨hstate', hnxt', hroom⟩ := advance_frame hadv
      rw [Piece.seg_tcplen] at hroom
      rw [hnxt, Piece.seg_tcplen, seq_add, ← Nat.cast_add, ← hlast] at hnxt'
      have hedge : p.last + pcb'.rcvWnd = p.pos + r.pcb.rcvWnd := by omega
      have hwindow : ∀ {mss e}, Window isn mss p.pos e r.pcb → p.last ≤ e + 1 →
          Window isn mss p.last e pcb' ∧ Wide mss pcb' := by
        intro mss e hw hreach
        rw [hlast, ← Piece.seg_tcplen S isn p] at hreach ⊢
        exact hw.advance hadv hreach
      rw [Piece.seg_fin, Piece.seg_p, hfin, Bool.false_or] at hdrain
      by_cases hf : p.fin = true
      · obtain rfl := hpfin hf
        rw [if_pos hf] at hdrain
        cases hdrain
        refine ⟨p.stop, [], by omega, ?_, stands_fin hpfits hf hnxt' rfl, ?_, by simp, ?_,
          fun hw _ hreach => ?_⟩
        · rw [hstop, Nat.add_sub_cancel_left]
        · rw [← Piece.last_eq_reached]
          exact hedge
        · rintro x ⟨q, hq, hx⟩
          rw [List.mem_singleton.mp hq] at hx
          exact .inl hx.2
        · rw [← Piece.last_eq_reached]
          obtain ⟨hw, hwide⟩ := hwindow hw (hreach p (List.mem_singleton_self p))
          exact ⟨hw.congr rfl rfl rfl rfl rfl, hwide⟩
      · rw [if_neg hf] at hdrain
        have hf := Bool.eq_false_iff.mpr hf
        rw [Piece.last_of_not_fin hf] at hnxt' hedge
        obtain ⟨n', ps', hle, hdata, hstands, hsum, hsub, hx, hw'⟩ :=
          ih hdrain hrest hpfits.le hpb (by omega) hb hnxt' (hstate'.trans hstate) hf
        refine ⟨n', ps', by omega, ?_, hstands, hsum.trans hedge,
          fun q hq => List.mem_cons_of_mem _ (hsub q hq), fun x hcov => ?_, fun hw _ hreach => ?_⟩
        · obtain ⟨k, rfl⟩ := Nat.exists_eq_add_of_le hle
          rw [hdata, List.append_assoc, Nat.add_sub_cancel_left, hstop, Nat.add_assoc,
            Nat.add_sub_cancel_left, slice_add]
        · rcases covers_cons.mp hcov with hx' | hx'
          · exact .inl (hx'.2.trans_le hle)
          · exact hx x hx'
        · obtain ⟨hreach, hrest⟩ := List.forall_mem_cons.mp hreach
          obtain ⟨hw, hwide⟩ := hwindow hw hreach
          rw [Piece.last_of_not_fin hf] at hw
          exact hw' hw hwide hrest
    · rw [if_neg ((seq_inj isn hcmp).not.mpr (by omega))] at h
      cases h
      refine ⟨n, p :: ps, le_rfl, by simp [slice], ⟨?_, rfl, ?_, ?_, hf, fun _ => hstate, ?_⟩, ?_,
        fun _ => id, fun x hx => .inr hx, fun hw hwide _ => ?_⟩
      · rw [hfin, hnxt, reached_false]
      · exact ⟨by omega, hpfits, hppos, hpfin, hrest⟩
      · exact List.forall_mem_cons.mpr ⟨hplast.trans hhi, fun q hq => (hb q hq).trans hhi⟩
      · rw [hfin]
        exact fun h => by cases h
      · rw [hfin, reached_false]
      · rw [hfin, reached_false]
        exact ⟨hw.congr rfl rfl rfl rfl rfl, hwide⟩

theorem drain_isSome {mss e : ℕ} {r : Result} (hq : Queue S n ps) (hb : ∀ p ∈ ps, p.last ≤ n + 2^18)
    (hw : Window isn mss n e r.pcb) (hreach : ∀ p ∈ ps, p.last ≤ e + 1)
    (hroom : ∀ p ∈ ps, p.last ≤ n + r.pcb.rcvWnd) :
    (drain r (ps.map (Piece.seg S isn))).isSome := by
  induction ps generalizing n r with
  | nil => rfl
  | cons p ps ih =>
    obtain ⟨hp, -, -, hpfin, hrest⟩ := hq
    obtain ⟨hpb, hb⟩ := List.forall_mem_cons.mp hb
    obtain ⟨hpreach, hreach⟩ := List.forall_mem_cons.mp hreach
    obtain ⟨hproom, hroom⟩ := List.forall_mem_cons.mp hroom
    have hlast : p.last = p.pos + p.tcplen := rfl
    rw [List.map_cons, drain, hw.nxt, Piece.seg_seqno]
    by_cases heq : seq isn (p.pos : ℤ) = seq isn (n : ℤ)
    · have hpos : p.pos = n := by
        have := (seq_inj isn (near (by omega) (by omega))).mp heq
        omega
      subst hpos
      rw [if_pos heq]
      obtain ⟨pcb', hadv, hw', -⟩ : ∃ pcb', advance r.pcb (p.seg S isn) = some pcb' ∧
          Window isn mss p.last e pcb' ∧ Wide mss pcb' := by
        rw [hlast, ← Piece.seg_tcplen S isn p] at hpreach ⊢
        exact hw.exists_advance (by rw [Piece.seg_tcplen]; omega) hpreach
      obtain ⟨-, -, hsum⟩ := advance_frame hadv
      rw [Piece.seg_tcplen] at hsum
      rw [hadv, Option.bind_some, Piece.seg_fin]
      by_cases hf : p.fin = true
      · rw [hpfin hf]
        rfl
      · have hstop := Piece.last_of_not_fin (Bool.eq_false_iff.mpr hf)
        rw [hstop] at hw'
        rw [if_neg hf]
        refine ih hrest (fun q hq => (hb q hq).trans (by omega)) hw' hreach fun q hq => ?_
        have := hroom q hq
        simp only
        omega
    · rw [if_neg heq]
      rfl

theorem tcpAck_frame (pcb : Pcb) : ∃ d w, tcpAck pcb = { pcb with ackDelay := d, ackNow := w } := by
  rw [tcpAck]
  split_ifs
  · exact ⟨_, _, rfl⟩
  · exact ⟨_, _, rfl⟩

theorem inOrder_eq {pcb : Pcb} {i : Piece} (ho : Stands S isn i.pos ps false pcb)
    (hfits : i.Fits S) (htcp : 0 < i.tcplen) (hlen : i.tcplen ≤ 0xffff) (hwnd : 0 < pcb.rcvWnd) :
    ∃ (k : Piece) (ps' : List Piece), inOrder pcb (i.seg S isn) =
        ((advance pcb (k.seg S isn)).bind fun pcb => drain ⟨pcb, slice S.byte k.pos k.len, k.fin⟩
          (ps'.map (Piece.seg S isn))).map (fun r => { r with pcb := tcpAck r.pcb }) ∧
      k.pos = i.pos ∧ k.Fits S ∧ (k.fin = true → ps' = []) ∧ Queue S k.stop ps' ∧
      (∀ p ∈ ps', p ∈ ps) ∧ (k.last ≤ i.last ∨ ∃ p ∈ ps, k.last ≤ p.last) ∧
      ∀ x, (i.tcplen ≤ pcb.rcvWnd ∧ i.Has x) ∨ Covers ps x → k.Has x ∨ Covers ps' x := by
  obtain ⟨j, hj, hjpos, hjlen, hjfits, hjtcp, hjlast, hji⟩ :=
    trimWindow_spec isn hfits htcp ho.nxt hwnd
  have hile : i.len ≤ i.tcplen := Nat.le_add_right ..
  obtain ⟨k, ps', hk, hkpos, hkfits, -, hkfin, hkq, hksub, hklast, hkx⟩ :=
    absorb_spec isn hjfits hjtcp (by omega) ho.queue (by omega) fun p hp => by
      have := ho.near p hp
      have := p.stop_le_last
      omega
  refine ⟨k, ps', ?_, hkpos.trans hjpos, hkfits, hkfin, hkq, hksub, ?_, ?_⟩
  · rw [inOrder, hj, Option.bind_some, ho.ooseq, hk, Option.bind_some, Option.map_bind]
    rfl
  · exact hklast.imp_left fun h => h.trans hjlast
  · rintro x (⟨hfull, hx⟩ | hx)
    · exact hkx x (.inl (hji hfull ▸ hx))
    · exact hkx x (.inr hx)

theorem inOrder_spec {pcb : Pcb} {r : Result} {i : Piece} (h : inOrder pcb (i.seg S isn) = some r)
    (ho : Stands S isn i.pos ps false pcb) (hfits : i.Fits S) (htcp : 0 < i.tcplen)
    (hlen : i.tcplen ≤ 0xffff) (hwnd : 0 < pcb.rcvWnd) :
    ∃ n' ps', i.pos ≤ n' ∧ r.data = slice S.byte i.pos (n' - i.pos) ∧
      Stands S isn n' ps' r.gotFin r.pcb ∧
      reached n' r.gotFin + r.pcb.rcvWnd = i.pos + pcb.rcvWnd ∧ (∀ p ∈ ps', p ∈ ps) ∧
      (∀ x, (i.tcplen ≤ pcb.rcvWnd ∧ i.Has x) ∨ Covers ps x → x < n' ∨ Covers ps' x) ∧
      ∀ {mss e}, Window isn mss i.pos e pcb → i.last ≤ e + 1 → (∀ p ∈ ps, p.last ≤ e + 1) →
        Window isn mss (reached n' r.gotFin) e r.pcb ∧ Wide mss r.pcb := by
  obtain ⟨k, ps₁, heq, hkpos, hkfits, hkfin, hkq, hksub, hklast, hkx⟩ :=
    inOrder_eq ho hfits htcp hlen hwnd
  rw [heq] at h
  obtain ⟨r₁, hbind, rfl⟩ := Option.map_eq_some_iff.mp h
  obtain ⟨pcb₁, hadv, hdrain⟩ := Option.bind_eq_some_iff.mp hbind
  have hstop : k.stop = k.pos + k.len := rfl
  have hlast : k.last = i.pos + k.tcplen := congrArg (· + k.tcplen) hkpos
  have hwindow : ∀ {mss e}, Window isn mss i.pos e pcb → i.last ≤ e + 1 →
      (∀ p ∈ ps, p.last ≤ e + 1) → Window isn mss k.last e pcb₁ ∧ Wide mss pcb₁ := by
    intro mss e hw hi hps
    have hreach : k.last ≤ e + 1 := by
      rcases hklast with hle | ⟨p, hp, hle⟩
      · exact hle.trans hi
      · exact hle.trans (hps p hp)
    rw [hlast, ← Piece.seg_tcplen S isn k] at hreach ⊢
    exact hw.advance hadv hreach
  obtain ⟨hstate, hnxt, hroom⟩ := advance_frame hadv
  obtain ⟨d, b, hack⟩ := tcpAck_frame r₁.pcb
  rw [Piece.seg_tcplen] at hroom
  rw [ho.nxt, reached_false, Piece.seg_tcplen, seq_add, ← Nat.cast_add, ← hlast] at hnxt
  have hedge : k.last + pcb₁.rcvWnd = i.pos + pcb.rcvWnd := by omega
  rw [hack]
  by_cases hkf : k.fin = true
  · obtain rfl := hkfin hkf
    cases hdrain
    refine ⟨k.stop, [], by omega, ?_, stands_fin hkfits hkf hnxt rfl, ?_, by simp, fun x hx => ?_,
      fun hw hi hps => ?_⟩
    · rw [hstop, hkpos, Nat.add_sub_cancel_left]
    · rw [← Piece.last_eq_reached]
      exact hedge
    · exact (hkx x hx).imp_left fun hx => hx.2
    · obtain ⟨hw, hwide⟩ := hwindow hw hi hps
      rw [← Piece.last_eq_reached]
      exact ⟨hw.congr rfl rfl rfl rfl rfl, hwide⟩
  · have hkf := Bool.eq_false_iff.mpr hkf
    rw [Piece.last_of_not_fin hkf] at hnxt hedge hklast
    have hbound : k.stop ≤ i.pos + 2^18 := by
      have hilast : i.last = i.pos + i.tcplen := rfl
      rcases hklast with hle | ⟨p, hp, hle⟩
      · omega
      · exact hle.trans (ho.near p hp)
    obtain ⟨n', ps', hle, hdata, hstands, hsum, hsub, hx, hw'⟩ :=
      drain_spec hdrain hkq hkfits.le hbound (by omega) (fun p hp => ho.near p (hksub p hp))
        hnxt (hstate.trans (ho.state rfl)) hkf
    refine ⟨n', ps', by omega, ?_, hstands.congr rfl rfl rfl, hsum.trans hedge,
      fun p hp => hksub p (hsub p hp), fun x hcov => ?_, fun hw hi hps => ?_⟩
    · obtain ⟨m, rfl⟩ := Nat.exists_eq_add_of_le hle
      rw [hdata, Nat.add_sub_cancel_left, hstop, hkpos, Nat.add_assoc, Nat.add_sub_cancel_left,
        slice_add]
    · rcases hkx x hcov with hx' | hx'
      · exact .inl (hx'.2.trans_le hle)
      · exact hx x hx'
    · obtain ⟨hw, hwide⟩ := hwindow hw hi hps
      rw [Piece.last_of_not_fin hkf] at hw
      obtain ⟨hw, hwide⟩ := hw' hw hwide fun p hp => hps p (hksub p hp)
      exact ⟨hw.congr rfl rfl rfl rfl rfl, hwide⟩

theorem inOrder_isSome {mss e : ℕ} {pcb : Pcb} {i : Piece} (ho : Stands S isn i.pos ps false pcb)
    (hfits : i.Fits S) (htcp : 0 < i.tcplen) (hlen : i.tcplen ≤ 0xffff)
    (hw : Window isn mss i.pos e pcb) (hreach : ∀ p ∈ i :: ps, p.last ≤ e + 1)
    (hroom : ∀ p ∈ i :: ps, p.last ≤ i.pos + pcb.rcvWnd) :
    (inOrder pcb (i.seg S isn)).isSome := by
  have hilast : i.last = i.pos + i.tcplen := rfl
  have hwnd : 0 < pcb.rcvWnd := by
    have := hroom i (List.mem_cons_self ..)
    omega
  obtain ⟨k, ps₁, heq, hkpos, hkfits, hkfin, hkq, hksub, hklast, -⟩ :=
    inOrder_eq ho hfits htcp hlen hwnd
  have hk : ∃ p ∈ i :: ps, k.last ≤ p.last := by
    rcases hklast with hle | ⟨p, hp, hle⟩
    · exact ⟨i, List.mem_cons_self .., hle⟩
    · exact ⟨p, List.mem_cons_of_mem _ hp, hle⟩
  obtain ⟨q, hq, hle⟩ := hk
  have hkreach := hle.trans (hreach q hq)
  have hkroom := hle.trans (hroom q hq)
  have hlast : k.last = k.pos + k.tcplen := rfl
  rw [← hkpos] at hw
  obtain ⟨pcb₁, hadv, hw₁, -⟩ : ∃ pcb₁, advance pcb (k.seg S isn) = some pcb₁ ∧
      Window isn mss k.last e pcb₁ ∧ Wide mss pcb₁ := by
    rw [hlast, ← Piece.seg_tcplen S isn k] at hkreach ⊢
    exact hw.exists_advance (by rw [Piece.seg_tcplen]; omega) hkreach
  obtain ⟨-, -, hsum⟩ := advance_frame hadv
  rw [Piece.seg_tcplen] at hsum
  rw [heq, Option.isSome_map, hadv, Option.bind_some]
  by_cases hkf : k.fin = true
  · rw [hkfin hkf]
    rfl
  · have hstop := Piece.last_of_not_fin (Bool.eq_false_iff.mpr hkf)
    rw [hstop] at hw₁
    refine drain_isSome hkq (fun p hp => ?_) hw₁ (fun p hp => ?_) fun p hp => ?_
    · exact (ho.near p (hksub p hp)).trans (by omega)
    · exact hreach p (List.mem_cons_of_mem _ (hksub p hp))
    · have := hroom p (List.mem_cons_of_mem _ (hksub p hp))
      simp only
      omega

theorem outOfOrder_spec {pcb : Pcb} {i : Piece} (ho : Stands S isn n ps false pcb) (copied : Bool)
    (hpos : n < i.pos) (hin : i.pos < n + pcb.rcvWnd) (hwnd : pcb.rcvWnd ≤ tcpWnd)
    (hfits : i.Fits S) (htcp : 0 < i.tcplen) (hlen : i.tcplen ≤ 0xffff) :
    ∃ ps', outOfOrder copied pcb (i.seg S isn) =
        some { pcb with ooseq := ps'.map (Piece.seg S isn) } ∧
      Inserted S (n+1) (n + pcb.rcvWnd) copied i ps ps' := by
  rw [outOfOrder, ho.ooseq, List.isEmpty_map]
  cases ps with
  | nil =>
    refine ⟨if copied then [i] else [], ?_, ?_⟩
    · cases copied <;> rfl
    · cases copied with
      | false => exact .keep trivial fun h => by cases h
      | true =>
        refine ⟨⟨hpos, hfits, htcp, fun _ => rfl, trivial⟩, by simp, fun _ _ x hx => ?_⟩
        rcases hx with ⟨q, hq, -⟩ | ⟨-, hx⟩
        · cases hq
        · exact ⟨i, List.mem_singleton_self i, hx⟩
  | cons p ps =>
    have hwnd' : pcb.rcvWnd ≤ 5840 := hwnd
    have hile : i.len ≤ i.tcplen := Nat.le_add_right ..
    have hedge : pcb.rightEdge = seq isn ((n + pcb.rcvWnd : ℕ) : ℤ) := by
      rw [Pcb.rightEdge, ho.nxt, seq_add, reached_false, Nat.cast_add]
    have hq : Queue S (n+1) ((none : Option Piece).toList ++ p :: ps) := ho.queue
    obtain ⟨ps', hwalk, hins⟩ := queueOoseq_spec isn copied hfits htcp (by omega) hpos
      (by omega) hin (by omega) n.lt_succ_self (fun _ => hpos) hq (by simp) (by simp) fun q hq => by
        have := ho.near q hq
        have := q.stop_le_last
        omega
    refine ⟨ps', ?_, hins⟩
    rw [hedge, List.isEmpty_cons, if_neg Bool.false_ne_true]
    rw [Option.map_none] at hwalk
    rw [hwalk]
    rfl

/-! ## Any segment -/

theorem Piece.dropTo_stop {i : Piece} (h : n ≤ i.stop) : (i.dropTo n).stop = i.stop :=
  Nat.add_sub_cancel' h

theorem Piece.dropTo_last {i : Piece} (h : n ≤ i.stop) : (i.dropTo n).last = i.last := by
  rw [last_eq_reached, dropTo_stop h, last_eq_reached]
  rfl

/-- The three ways a segment with data takes through `tcp_receive`. -/
theorem tcpReceive_cases {pcb : Pcb} {i : Piece} (copied : Bool) (send : Send)
    (hs : Stands S isn n ps false pcb) (hfits : i.Fits S) (htcp : 0 < i.tcplen)
    (hlen : i.tcplen ≤ 0xffff) (hwnd : pcb.rcvWnd ≤ tcpWnd) (hold : n ≤ i.pos + 2^29)
    (hnew : i.pos ≤ n + 2^29) :
    (∃ j : Piece, tcpReceive copied send pcb (i.seg S isn) =
          (inOrder pcb (j.seg S isn)).map (fun r => (r, [])) ∧
        j.pos = n ∧ j.Fits S ∧ j.stop = i.stop ∧ j.last = i.last ∧ j.tcplen ≤ i.tcplen ∧
        n < i.last ∧ i.pos ≤ n ∧ 0 < pcb.rcvWnd ∧ (i.pos = n → j = i)) ∨
      (tcpReceive copied send pcb (i.seg S isn) =
          (outOfOrder copied pcb (i.seg S isn)).map (fun pcb =>
            (⟨(tcpSendEmptyAck pcb send).1, [], false⟩, (tcpSendEmptyAck pcb send).2)) ∧
        n < i.pos ∧ i.pos < n + pcb.rcvWnd) ∨
      ∃ pcb' acks, tcpReceive copied send pcb (i.seg S isn) = some (⟨pcb', [], false⟩, acks) ∧
        Sends pcb pcb' acks ∧ (i.last ≤ n ∨ n + pcb.rcvWnd < i.last) ∧
        (i.pos ≤ n ∨ n + pcb.rcvWnd ≤ i.pos) ∧ (i.pos = n → pcb.rcvWnd = 0) := by
  have hwnd' : pcb.rcvWnd ≤ 5840 := hwnd
  have hlast : i.last = i.pos + i.tcplen := rfl
  obtain ⟨j, hj, hjfits, hjstop, hjlast, hjpos⟩ : ∃ j : Piece,
      trimFront (seq isn n) (i.seg S isn) = some (j.seg S isn) ∧ j.Fits S ∧ j.stop = i.stop ∧
        j.last = i.last ∧
        (j = i ∧ (n ≤ i.pos ∨ i.last ≤ n) ∨ j.pos = n ∧ i.pos < n ∧ n < i.last) := by
    refine ⟨_, trimFront_spec isn htcp hlen hold hnew, ?_⟩
    split_ifs with hcut
    · have hle : n ≤ i.stop := by
        have := i.last_le_stop
        omega
      exact ⟨hfits.dropTo hle, Piece.dropTo_stop hle, Piece.dropTo_last hle, .inr ⟨rfl, hcut⟩⟩
    · exact ⟨hfits, rfl, rfl, .inl ⟨rfl, by omega⟩⟩
  have hnext : j.last = j.pos + j.tcplen := rfl
  have hnear : j.pos ≤ n + 2^29 ∧ n ≤ j.pos + 2^29 := by
    rcases hjpos with ⟨rfl, -⟩ | ⟨hpos, -⟩
    · exact ⟨hnew, hold⟩
    · omega
  have hnxt : pcb.rcvNxt = seq isn n := hs.nxt
  have hlt : lt (seq isn (j.pos : ℤ)) (seq isn (n : ℤ)) = true ↔ j.pos < n := by
    rw [lt_seq isn (near (by omega) (by omega)), Nat.cast_lt]
  have heq : seq isn (n : ℤ) = seq isn (j.pos : ℤ) ↔ n = j.pos := by
    rw [seq_inj isn (near (by omega) (by omega)), Nat.cast_inj]
  have hin : between (seq isn (j.pos : ℤ)) (seq isn (n : ℤ))
      (seq isn (n : ℤ) + BitVec.ofNat 32 pcb.rcvWnd - BitVec.ofNat 32 1) = true ↔
      n ≤ j.pos ∧ j.pos < n + pcb.rcvWnd := by
    rw [seq_add, seq_sub, between_seq isn (near (by omega) (by omega))
      (by constructor <;> push_cast <;> omega), Nat.cast_le]
    omega
  have hstate := hs.state rfl
  rw [tcpReceive, Piece.seg_tcplen, if_pos ⟨htcp, hstate⟩, hnxt, hj, Option.bind_some,
    Piece.seg_seqno]
  by_cases hpos : n ≤ j.pos ∧ j.pos < n + pcb.rcvWnd
  · rw [if_neg (hlt.not.mpr (by omega)), receiveTrimmed, Pcb.rightEdge, hnxt, Piece.seg_seqno,
      if_pos (hin.mpr hpos)]
    by_cases hn : n = j.pos
    · have hover : i.pos ≤ n ∧ n < i.last ∧ (i.pos = n → j = i) := by
        rcases hjpos with ⟨rfl, -⟩ | ⟨-, hi⟩
        · exact ⟨hn.ge, by omega, fun _ => rfl⟩
        · exact ⟨hi.1.le, hi.2, fun h => absurd h hi.1.ne⟩
      rw [if_pos (heq.mpr hn)]
      exact .inl ⟨j, rfl, hn.symm, hjfits, hjstop, hjlast, by omega, hover.2.1, hover.1, by omega,
        hover.2.2⟩
    · obtain ⟨rfl, -⟩ := hjpos.resolve_right fun h => hn h.1.symm
      rw [if_neg (heq.not.mpr hn)]
      exact .inr (.inl ⟨rfl, by omega, hpos.2⟩)
  · have hout : ∀ pcb', Sends pcb pcb' [] →
        receiveTrimmed copied send pcb' (j.seg S isn) =
          some (⟨(tcpSendEmptyAck pcb' send).1, [], false⟩, (tcpSendEmptyAck pcb' send).2) := by
      rintro pcb' ⟨edge, d, b, rfl, -⟩
      rw [receiveTrimmed, Pcb.rightEdge]
      simp only [hnxt, Piece.seg_seqno]
      exact if_neg (hin.not.mpr hpos)
    have hpcb : Sends pcb (if lt (seq isn (j.pos : ℤ)) (seq isn (n : ℤ)) then tcpAckNow pcb
        else pcb) [] := by
      split_ifs
      · exact sends_tcpAckNow pcb
      · exact .refl pcb
    refine .inr (.inr ⟨_, _, hout _ hpcb, hpcb.trans (sends_emptyAck _ send), ?_⟩)
    rcases hjpos with ⟨rfl, hi⟩ | ⟨hj, hi⟩
    · omega
    · omega

def Overlaps (i : Piece) (ps : List Piece) : Prop :=
  ∀ p ∈ ps, p.pos < i.pos → i.pos < p.stop → p.stop ≤ i.stop

structure Received (S : Stream) (isn : BitVec 32) (copied : Bool) (i : Piece) (n : ℕ)
    (ps : List Piece) (pcb : Pcb) (r : Result) (acks : List Ack) (n' : ℕ) (ps' : List Piece) :
    Prop where
  le : n ≤ n'
  data : r.data = slice S.byte n (n' - n)
  stands : Stands S isn n' ps' r.gotFin r.pcb
  room : reached n' r.gotFin + r.pcb.rcvWnd = n + pcb.rcvWnd
  ackno : ∀ a ∈ acks, a.ackno = seq isn n
  last : ∀ p ∈ ps', i.pos < n + pcb.rcvWnd ∧ p.last ≤ i.last ∨ ∃ q ∈ ps, p.last ≤ q.last
  window : ∀ {mss e}, Window isn mss n e pcb → (∀ p ∈ i :: ps, p.last ≤ e + 1) →
    ∃ e' ≥ e, Window isn mss (reached n' r.gotFin) e' r.pcb ∧ (Wide mss pcb → Wide mss r.pcb) ∧
      ∀ a ∈ acks, a = ⟨seq isn n, pcb.rcvAnnWnd⟩ ∧ n + pcb.rcvAnnWnd = e'
  covers : copied = true → i.last ≤ n + pcb.rcvWnd → Overlaps i ps →
    ∀ x, i.Has x ∨ Covers ps x → x < n' ∨ Covers ps' x

theorem Received.of_sends {copied : Bool} {i : Piece} {ps' : List Piece} {pcb pcb' : Pcb}
    {acks : List Ack} (hs : Stands S isn n ps false pcb)
    (hsends : Sends { pcb with ooseq := ps'.map (Piece.seg S isn) } pcb' acks)
    (hqueue : Queue S (n+1) ps') (hnear : ∀ p ∈ ps', p.last ≤ n + 2^18)
    (hlast : ∀ p ∈ ps', i.pos < n + pcb.rcvWnd ∧ p.last ≤ i.last ∨ ∃ q ∈ ps, p.last ≤ q.last)
    (hcovers : copied = true → i.last ≤ n + pcb.rcvWnd → Overlaps i ps →
      ∀ x, i.Has x ∨ Covers ps x → x < n ∨ Covers ps' x) :
    Received S isn copied i n ps pcb ⟨pcb', [], false⟩ acks n ps' := by
  have hwindow : ∀ {mss e}, Window isn mss n e pcb →
      Window isn mss n e { pcb with ooseq := ps'.map (Piece.seg S isn) } :=
    fun hw => hw.congr rfl rfl rfl rfl rfl
  refine ⟨le_rfl, by simp [slice], ?_, ?_, ?_, hlast, fun hw _ => hsends.window (hwindow hw),
    hcovers⟩
  · obtain ⟨edge, d, b, rfl, -⟩ := hsends
    exact ⟨hs.nxt, rfl, hqueue, hnear, hs.le, hs.state, fun h => by cases h⟩
  · obtain ⟨edge, d, b, rfl, -⟩ := hsends
    rfl
  · obtain ⟨edge, d, b, -, ⟨-, rfl⟩ | ⟨-, hacks⟩⟩ := hsends
    · simp
    · intro a ha
      rw [hacks a ha]
      exact hs.nxt

theorem tcpReceive_spec {pcb : Pcb} {i : Piece} {copied : Bool} {send : Send} {r : Result}
    {acks : List Ack} (h : tcpReceive copied send pcb (i.seg S isn) = some (r, acks))
    (hs : Stands S isn n ps false pcb) (hfits : i.Fits S) (htcp : 0 < i.tcplen)
    (hlen : i.tcplen ≤ 0xffff) (hwnd : pcb.rcvWnd ≤ tcpWnd) (hold : n ≤ i.pos + 2^29)
    (hnew : i.pos ≤ n + 2^29) :
    ∃ n' ps', Received S isn copied i n ps pcb r acks n' ps' := by
  have hwnd' : pcb.rcvWnd ≤ 5840 := hwnd
  have hlast : i.last = i.pos + i.tcplen := rfl
  rcases tcpReceive_cases copied send hs hfits htcp hlen hwnd hold hnew with
    ⟨j, heq, hjpos, hjfits, hjstop, hjlast, hjtcp, hn, hi, hpos, -⟩ | ⟨heq, hn, hin⟩ |
      ⟨pcb', acks', heq, hsends, hout, -, -⟩
  · rw [heq] at h
    obtain ⟨r₁, hr, hpair⟩ := Option.map_eq_some_iff.mp h
    cases hpair
    have hjl : j.last = j.pos + j.tcplen := rfl
    subst hjpos
    obtain ⟨n', ps', hle, hdata, hstands, hroom, hsub, hx, hw⟩ := inOrder_spec hr hs hjfits
      (by omega) (by omega) hpos
    refine ⟨n', ps', hle, hdata, hstands, hroom, by simp, fun p hp => ?_, fun hw' hreach => ?_,
      fun _ hfit _ x hcov => ?_⟩
    · exact .inr ⟨p, hsub p hp, le_rfl⟩
    · obtain ⟨hireach, hreach⟩ := List.forall_mem_cons.mp hreach
      obtain ⟨hw, hwide⟩ := hw hw' (hjlast ▸ hireach) hreach
      exact ⟨_, le_rfl, hw, fun _ => hwide, by simp⟩
    · rcases hcov with ⟨hx₁, hx₂⟩ | hcov
      · by_cases hold : x < j.pos
        · exact .inl (hold.trans_le hle)
        · exact hx x (.inl ⟨by omega, by omega, hjstop ▸ hx₂⟩)
      · exact hx x (.inr hcov)
  · obtain ⟨ps', houtOfOrder, hins⟩ := outOfOrder_spec hs copied hn hin hwnd hfits htcp hlen
    rw [heq, houtOfOrder] at h
    cases h
    refine ⟨n, ps', .of_sends hs (sends_emptyAck _ send) hins.queue (fun p hp => ?_)
      (fun p hp => ?_) fun hc hfit hinside x hx => ?_⟩
    · rcases hins.last p hp with hle | ⟨q, hq, hle⟩
      · omega
      · exact hle.trans (hs.near q hq)
    · exact (hins.last p hp).imp_left fun hle => ⟨hin, hle⟩
    · exact .inr (hins.covers hfit hinside x (hx.symm.imp_right fun hx => ⟨hc, hx⟩))
  · rw [heq] at h
    cases h
    have hself : { pcb with ooseq := ps.map (Piece.seg S isn) } = pcb := by rw [← hs.ooseq]
    refine ⟨n, ps, .of_sends hs (hself.symm ▸ hsends) hs.queue hs.near
      (fun p hp => .inr ⟨p, hp, le_rfl⟩) fun _ hfit _ x hx => ?_⟩
    -- what is not taken is old
    rcases hx with ⟨-, hx⟩ | hx
    · have := i.stop_le_last
      exact .inl (by omega)
    · exact .inr hx

theorem tcpReceive_isSome {mss e : ℕ} {pcb : Pcb} {i : Piece} (copied : Bool) (send : Send)
    (hs : Stands S isn n ps false pcb) (hfits : i.Fits S) (htcp : 0 < i.tcplen)
    (hlen : i.tcplen ≤ 0xffff) (hold : n ≤ i.pos + 2^29) (hnew : i.pos ≤ n + 2^29)
    (hw : Window isn mss n e pcb) (hreach : ∀ p ∈ i :: ps, p.last ≤ e + 1)
    (hfit : i.pos < n + pcb.rcvWnd → i.last ≤ n + pcb.rcvWnd)
    (hroom : ∀ p ∈ ps, p.last ≤ n + pcb.rcvWnd) :
    (tcpReceive copied send pcb (i.seg S isn)).isSome := by
  rcases tcpReceive_cases copied send hs hfits htcp hlen hw.wnd hold hnew with
    ⟨j, heq, hjpos, hjfits, hjstop, hjlast, hjtcp, hn, hi, hpos, -⟩ | ⟨heq, hn, hin⟩ |
      ⟨pcb', acks', heq, -⟩
  · have hjl : j.last = j.pos + j.tcplen := rfl
    subst hjpos
    rw [heq, Option.isSome_map]
    obtain ⟨hireach, hreach⟩ := List.forall_mem_cons.mp hreach
    refine inOrder_isSome hs hjfits (by omega) (by omega) hw
      (List.forall_mem_cons.mpr ⟨hjlast ▸ hireach, hreach⟩) (List.forall_mem_cons.mpr ⟨?_, hroom⟩)
    exact hjlast ▸ hfit (by omega)
  · obtain ⟨ps', houtOfOrder, -⟩ := outOfOrder_spec hs copied hn hin hw.wnd hfits htcp hlen
    rw [heq, houtOfOrder]
    rfl
  · rw [heq]
    rfl

end EthernetSoc.TcpReceive
