import EthernetSoc.TcpWindow

/-!
# The queue of segments out of order

A segment of the peer is a piece of its stream, given by a position and a length, and
the queue holds the segments of a list of pieces in the order of the stream and without
overlaps. Each of the functions that cut, drop or insert segments is followed on the
pieces, with the positions in place of the sequence numbers.
-/

namespace EthernetSoc.TcpReceive
open SeqSpace Buffer

/-! ## The stream and its pieces -/

/-- What the peer sends: its bytes by position, and where it ends, if it does. -/
structure Stream where
  byte : ℕ → Byte
  fin : Option ℕ

structure Piece where
  pos : ℕ
  len : ℕ
  fin : Bool

namespace Piece

def stop (i : Piece) : ℕ := i.pos + i.len
def tcplen (i : Piece) : ℕ := i.len + if i.fin then 1 else 0
def last (i : Piece) : ℕ := i.pos + i.tcplen

structure Fits (S : Stream) (i : Piece) : Prop where
  le : ∀ f ∈ S.fin, i.stop ≤ f
  fin : i.fin = true → S.fin = some i.stop

def Has (i : Piece) (x : ℕ) : Prop := i.pos ≤ x ∧ x < i.stop

def cut (i : Piece) (k : ℕ) : Piece := { i with len := k }

def setFin (i : Piece) (b : Bool) : Piece := { i with fin := b }

@[simp] theorem cut_pos (i : Piece) (k : ℕ) : (i.cut k).pos = i.pos := rfl
@[simp] theorem cut_len (i : Piece) (k : ℕ) : (i.cut k).len = k := rfl
@[simp] theorem cut_fin (i : Piece) (k : ℕ) : (i.cut k).fin = i.fin := rfl
@[simp] theorem cut_stop (i : Piece) (k : ℕ) : (i.cut k).stop = i.pos + k := rfl
@[simp] theorem setFin_pos (i : Piece) (b : Bool) : (i.setFin b).pos = i.pos := rfl
@[simp] theorem setFin_len (i : Piece) (b : Bool) : (i.setFin b).len = i.len := rfl
@[simp] theorem setFin_fin (i : Piece) (b : Bool) : (i.setFin b).fin = b := rfl
@[simp] theorem setFin_stop (i : Piece) (b : Bool) : (i.setFin b).stop = i.stop := rfl

/-- What is left from position `n` on. -/
def dropTo (i : Piece) (n : ℕ) : Piece := ⟨n, i.stop - n, i.fin⟩

theorem Fits.cut {S : Stream} {i : Piece} (h : i.Fits S) (hfin : i.fin = false) {k : ℕ}
    (hk : k ≤ i.len) : (i.cut k).Fits S := by
  refine ⟨fun f hf => ?_, fun hf => ?_⟩
  · have hle := h.le f hf
    rw [stop] at hle
    rw [cut_stop]
    omega
  · rw [cut_fin, hfin] at hf
    cases hf

theorem last_of_fin {i : Piece} (h : i.fin = true) : i.last = i.stop + 1 := by
  simp [last, tcplen, stop, h, Nat.add_assoc]

theorem last_of_not_fin {i : Piece} (h : i.fin = false) : i.last = i.stop := by
  simp [last, tcplen, stop, h]

theorem stop_le_last (i : Piece) : i.stop ≤ i.last := by
  rw [stop, last, tcplen]
  omega

theorem last_le_stop (i : Piece) : i.last ≤ i.stop + 1 := by
  rw [stop, last, tcplen]
  split_ifs <;> omega

section Segment
variable (S : Stream) (isn : BitVec 32) (i : Piece)

def seg : Seg := ⟨seq isn i.pos, i.fin, slice S.byte i.pos i.len⟩

@[simp] theorem seg_seqno : (i.seg S isn).seqno = seq isn i.pos := rfl
@[simp] theorem seg_fin : (i.seg S isn).fin = i.fin := rfl
@[simp] theorem seg_p : (i.seg S isn).p = slice S.byte i.pos i.len := rfl
@[simp] theorem seg_len : (i.seg S isn).len = i.len := length_slice ..
@[simp] theorem seg_tcplen : (i.seg S isn).tcplen = i.tcplen := by
  rw [Seg.tcplen, seg_len, tcplen]
  rfl

@[simp] theorem seg_stop : (i.seg S isn).stop = seq isn i.stop := by
  rw [Seg.stop, seg_seqno, seg_len, seq_add, stop, Nat.cast_add]

@[simp] theorem seg_last : (i.seg S isn).last = seq isn i.last := by
  rw [Seg.last, seg_seqno, seg_tcplen, seq_add, last, Nat.cast_add]

theorem seg_realloc {k : ℕ} (h : k ≤ i.len) :
    (i.seg S isn).realloc k = (i.cut k).seg S isn := by
  rw [Seg.realloc, seg_p, take_slice _ _ h]
  rfl

theorem seg_dropTo {n : ℕ} (h : i.pos ≤ n) :
    { i.seg S isn with seqno := seq isn n, p := (i.seg S isn).p.drop (n - i.pos) } =
      (i.dropTo n).seg S isn := by
  have hlen : i.len - (n - i.pos) = i.stop - n := by
    rw [stop]
    omega
  rw [seg_p, slice_drop, Nat.add_sub_cancel' h, hlen]
  rfl

theorem seg_setFin (b : Bool) :
    { i.seg S isn with fin := b } = (i.setFin b).seg S isn := rfl

end Segment

end Piece

variable {S : Stream} {isn : BitVec 32} {n : ℕ} {i : Piece}

theorem u16_sub {a b : ℕ} (h₁ : a ≤ b) (h₂ : b < a + 2^16) :
    u16 (seq isn b - seq isn a) = b - a := by
  have hdiff : (seq isn (b : ℤ) - seq isn (a : ℤ)).toNat = b - a :=
    toNat_seq_sub_seq isn _ _ (by omega) (by omega)
  rw [u16, hdiff, Nat.mod_eq_of_lt (by omega)]

/-- In the order of the stream from `lo` on, without overlaps, the FIN last. -/
def Queue (S : Stream) : ℕ → List Piece → Prop
  | _, [] => True
  | lo, p :: ps =>
    lo ≤ p.pos ∧ p.Fits S ∧ 0 < p.tcplen ∧ (p.fin = true → ps = []) ∧ Queue S p.stop ps

def Covers (ps : List Piece) (x : ℕ) : Prop := ∃ p ∈ ps, p.Has x

theorem covers_cons {p : Piece} {ps : List Piece} {x : ℕ} :
    Covers (p :: ps) x ↔ p.Has x ∨ Covers ps x := List.exists_mem_cons_iff ..

theorem Queue.mono {lo lo' : ℕ} {ps : List Piece} (h : Queue S lo ps) (hle : lo' ≤ lo) :
    Queue S lo' ps := by
  cases ps with
  | nil => trivial
  | cons p ps => exact ⟨hle.trans h.1, h.2⟩

theorem Queue.mem {lo : ℕ} {ps : List Piece} (h : Queue S lo ps) {p : Piece} (hp : p ∈ ps) :
    lo ≤ p.pos ∧ p.Fits S ∧ 0 < p.tcplen := by
  induction ps generalizing lo with
  | nil => cases hp
  | cons q ps ih =>
    obtain ⟨hlo, hfits, hpos, -, hrest⟩ := h
    rcases List.mem_cons.mp hp with rfl | hp
    · exact ⟨hlo, hfits, hpos⟩
    · have hle : lo ≤ q.stop := hlo.trans (Nat.le_add_right ..)
      obtain ⟨hmem, hmem'⟩ := ih hrest hp
      exact ⟨hle.trans hmem, hmem'⟩

/-! ## In order -/

section InOrder
variable (isn) {lo : ℕ} {ps : List Piece}

theorem trimFront_spec (hpos : 0 < i.tcplen) (hlen : i.tcplen ≤ 0xffff)
    (hold : n ≤ i.pos + 2^29) (hnew : i.pos ≤ n + 2^29) :
    trimFront (seq isn n) (i.seg S isn) =
      some ((if i.pos < n ∧ n < i.last then i.dropTo n else i).seg S isn) := by
  have hlast : i.last = i.pos + i.tcplen := rfl
  have hstop := i.last_le_stop
  have hle := i.stop_le_last
  have hpred : seq isn (i.last : ℤ) - BitVec.ofNat 32 1 = seq isn ((i.last - 1 : ℕ) : ℤ) := by
    rw [seq_sub]
    exact congrArg (seq isn) (by omega)
  have hsucc : seq isn (i.pos : ℤ) + BitVec.ofNat 32 1 = seq isn ((i.pos + 1 : ℕ) : ℤ) := by
    rw [seq_add]
    rfl
  have hiff := between_seq isn (near (a := n) (b := i.pos + 1) (by omega) (by omega))
    (near (a := n) (b := i.last - 1) (by omega) (by omega))
  rw [trimFront, Piece.seg_seqno, Piece.seg_last, Piece.seg_len, hpred, hsucc]
  by_cases hin : i.pos < n ∧ n < i.last
  · have hoff : (seq isn (n : ℤ) - seq isn (i.pos : ℤ)).toNat = n - i.pos :=
      toNat_seq_sub_seq isn _ _ (by omega) (by omega)
    have hlen' : n - i.pos ≤ i.len := by
      have : i.stop = i.pos + i.len := rfl
      omega
    rw [if_pos (hiff.mpr (by omega)), hoff, if_pos ⟨by omega, hlen'⟩, if_pos hin]
    exact congrArg some (i.seg_dropTo S isn hin.1.le)
  · rw [if_neg (hiff.not.mpr (by omega)), if_neg hin]

theorem Piece.Fits.dropTo (h : i.Fits S) (hn : n ≤ i.stop) : (i.dropTo n).Fits S := by
  have hstop : (i.dropTo n).stop = i.stop := Nat.add_sub_cancel' hn
  exact ⟨fun f hf => hstop ▸ h.le f hf, fun hf => hstop ▸ h.fin hf⟩

theorem trimWindow_spec {pcb : Pcb} (hfits : i.Fits S) (hpos : 0 < i.tcplen)
    (hnxt : pcb.rcvNxt = seq isn i.pos) (hwnd : 0 < pcb.rcvWnd) :
    ∃ j, trimWindow pcb (i.seg S isn) = some (j.seg S isn) ∧ j.pos = i.pos ∧ j.len ≤ i.len ∧
      j.Fits S ∧ 0 < j.tcplen ∧ j.last ≤ i.last ∧ (i.tcplen ≤ pcb.rcvWnd → j = i) := by
  by_cases hover : i.tcplen > pcb.rcvWnd
  · have hlen : pcb.rcvWnd ≤ i.len := by
      rw [Piece.tcplen] at hover
      split_ifs at hover <;> omega
    have hset : (i.setFin false).Fits S := ⟨hfits.le, fun h => by cases h⟩
    refine ⟨(i.setFin false).cut pcb.rcvWnd, ?_, rfl, hlen, hset.cut rfl hlen, ?_, ?_,
      fun h => absurd h (by omega)⟩
    · rw [trimWindow, Piece.seg_tcplen, if_pos hover, Piece.seg_setFin,
        Piece.seg_realloc S isn (i.setFin false) hlen]
      refine if_pos ?_
      rw [Piece.seg_last, Pcb.rightEdge, hnxt, seq_add]
      rfl
    · simpa [Piece.tcplen] using hwnd
    · have hle := i.stop_le_last
      rw [Piece.stop] at hle
      rw [Piece.last_of_not_fin rfl, Piece.cut_stop, Piece.setFin_pos]
      omega
  · refine ⟨i, ?_, rfl, le_rfl, hfits, hpos, le_rfl, fun _ => rfl⟩
    rw [trimWindow, Piece.seg_tcplen, if_neg hover]

theorem cover_spec (hfits : i.Fits S) (hi : i.fin = false) (hq : Queue S lo ps) (hlo : i.pos < lo)
    (hlen : i.len < 2^16) (hb : ∀ p ∈ ps, p.stop ≤ i.pos + 2^18) :
    ∃ b ps', cover (i.seg S isn) (ps.map (Piece.seg S isn)) =
        ((i.setFin b).seg S isn, ps'.map (Piece.seg S isn)) ∧
      (i.setFin b).Fits S ∧ (b = true → ps' = [] ∧ ∃ p ∈ ps, p.last = i.stop + 1) ∧
      Queue S lo ps' ∧ (∀ p ∈ ps', p ∈ ps) ∧ (∀ p ∈ ps'.head?, i.stop < p.stop) ∧
      ∀ x, Covers ps x → i.Has x ∨ Covers ps' x := by
  have hself : i.setFin false = i := by rw [Piece.setFin, ← hi]
  induction ps generalizing lo with
  | nil =>
    refine ⟨false, [], ?_, ?_, by simp, hq, by simp, by simp, fun x hx => .inr hx⟩
    · rw [hself]
      rfl
    · rwa [hself]
  | cons p ps ih =>
    obtain ⟨hp, hpfits, hppos, hpfin, hrest⟩ := hq
    obtain ⟨hpb, hb⟩ := List.forall_mem_cons.mp hb
    have hstop : p.stop = p.pos + p.len := rfl
    have histop : i.stop = i.pos + i.len := rfl
    have hnear : Near 32 (i.stop : ℤ) (p.stop : ℤ) := near (by omega) (by omega)
    rw [List.map_cons, cover, Piece.seg_last, Piece.seg_stop, Piece.last_of_not_fin hi]
    by_cases hcov : p.stop ≤ i.stop
    · rw [if_pos ((geq_seq isn hnear).mpr (by omega))]
      have hhas : ∀ x, p.Has x → i.Has x := by
        intro x hx
        obtain ⟨hx₁, hx₂⟩ := hx
        exact ⟨by omega, by omega⟩
      by_cases hf : p.fin = true
      · -- the FIN ends at the same place, as the stream has only one end
        obtain rfl := hpfin hf
        have hend := le_antisymm hcov (hfits.le p.stop (hpfits.fin hf))
        refine ⟨true, [], ?_, ⟨hfits.le, fun _ => ?_⟩,
          fun _ => ⟨rfl, p, List.mem_singleton_self p, ?_⟩, trivial, by simp, by simp,
          fun x hx => .inl ?_⟩
        · rw [Piece.seg_fin, if_pos hf]
          rfl
        · rw [hpfits.fin hf, hend, Piece.setFin_stop]
        · rw [Piece.last_of_fin hf, hend]
        · obtain ⟨q, hq, hx⟩ := hx
          rw [List.mem_singleton.mp hq] at hx
          exact hhas x hx
      · rw [Piece.seg_fin, if_neg hf]
        obtain ⟨b, ps', heq, hfits', hfin', hq', hsub, hhead, hx⟩ := ih hrest (by omega) hb
        refine ⟨b, ps', heq, hfits', fun hb => ?_, hq'.mono (by omega),
          fun q hq => List.mem_cons_of_mem _ (hsub q hq), hhead, fun x hcov => ?_⟩
        · obtain ⟨hnil, q, hq, hlast⟩ := hfin' hb
          exact ⟨hnil, q, List.mem_cons_of_mem _ hq, hlast⟩
        · rcases covers_cons.mp hcov with hcov | hcov
          · exact .inl (hhas x hcov)
          · exact hx x hcov
    · rw [if_neg ((geq_seq isn hnear).not.mpr (by omega))]
      refine ⟨false, p :: ps, ?_, ?_, by simp, ⟨hp, hpfits, hppos, hpfin, hrest⟩, fun _ => id,
        by simpa using hcov, fun x hx => .inr hx⟩
      · rw [hself]
        rfl
      · rwa [hself]

theorem trimOoseq_spec (hfits : i.Fits S) (hpos : 0 < i.tcplen) (hlen : i.len < 2^16)
    (hq : Queue S lo ps) (hlo : i.pos < lo) (hfin : i.fin = true → ps = [])
    (hb : ∀ p ∈ ps, p.stop ≤ i.pos + 2^18) (hhead : ∀ p ∈ ps.head?, i.stop < p.stop) :
    ∃ k, trimOoseq (i.seg S isn) (ps.map (Piece.seg S isn)) = some ((i.cut k).seg S isn) ∧
      k ≤ i.len ∧ (i.fin = true → k = i.len) ∧ 0 < (i.cut k).tcplen ∧ (i.cut k).Fits S ∧
      Queue S (i.pos + k) ps ∧ ∀ x, i.Has x → (i.cut k).Has x ∨ Covers ps x := by
  cases ps with
  | nil => exact ⟨i.len, rfl, le_rfl, fun _ => rfl, hpos, hfits, trivial, fun x hx => .inl hx⟩
  | cons p ps =>
    have hi : i.fin = false := Bool.eq_false_iff.mpr fun h => by cases hfin h
    obtain ⟨hp, hpq⟩ := hq
    have hpb := hb p (List.mem_cons_self ..)
    have hhead := hhead p rfl
    have hstop : p.stop = p.pos + p.len := rfl
    have histop : i.stop = i.pos + i.len := rfl
    have hnear : Near 32 (i.stop : ℤ) (p.pos : ℤ) := near (by omega) (by omega)
    rw [List.map_cons, trimOoseq, Piece.seg_last, Piece.seg_seqno, Piece.last_of_not_fin hi]
    by_cases hover : p.pos < i.stop
    · have hk : p.pos - i.pos ≤ i.len := by omega
      rw [if_pos ((gt_seq isn hnear).mpr (by omega)), Piece.seg_seqno,
        u16_sub (by omega) (by omega), Piece.seg_realloc S isn i hk]
      refine ⟨p.pos - i.pos, if_pos ?_, hk, by simp [hi], ?_, hfits.cut hi hk, ⟨by omega, hpq⟩,
        fun x hx => ?_⟩
      · rw [Piece.seg_last, Piece.last_of_not_fin (by exact hi), Piece.cut_stop]
        exact congrArg (fun a : ℕ => seq isn a) (by omega)
      · rw [Piece.tcplen, Piece.cut_len]
        omega
      · obtain ⟨hx₁, hx₂⟩ := hx
        by_cases hx : x < p.pos
        · exact .inl ⟨hx₁, by rw [Piece.cut_stop]; omega⟩
        · exact .inr ⟨p, List.mem_cons_self .., ⟨by omega, by omega⟩⟩
    · rw [if_neg ((gt_seq isn hnear).not.mpr (by omega))]
      exact ⟨i.len, rfl, le_rfl, fun _ => rfl, hpos, hfits, ⟨by omega, hpq⟩, fun x hx => .inl hx⟩

theorem absorb_spec (hfits : i.Fits S) (hpos : 0 < i.tcplen) (hlen : i.len < 2^16)
    (hq : Queue S lo ps) (hlo : i.pos < lo) (hb : ∀ p ∈ ps, p.stop ≤ i.pos + 2^18) :
    ∃ (j : Piece) (ps' : List Piece), absorb (i.seg S isn) (ps.map (Piece.seg S isn)) =
        some (j.seg S isn, ps'.map (Piece.seg S isn)) ∧
      j.pos = i.pos ∧ j.Fits S ∧ 0 < j.tcplen ∧ (j.fin = true → ps' = []) ∧ Queue S j.stop ps' ∧
      (∀ p ∈ ps', p ∈ ps) ∧ (j.last ≤ i.last ∨ ∃ p ∈ ps, j.last ≤ p.last) ∧
      ∀ x, i.Has x ∨ Covers ps x → j.Has x ∨ Covers ps' x := by
  by_cases hi : i.fin = true
  · refine ⟨i, [], ?_, rfl, hfits, hpos, fun _ => rfl, trivial, by simp, .inl le_rfl, ?_⟩
    · rw [absorb, Piece.seg_fin, if_pos hi]
      rfl
    · rintro x (hx | ⟨p, hp, hx₁, hx₂⟩)
      · exact .inl hx
      · -- what is queued lies in front of the FIN
        obtain ⟨hplo, hpfits, -⟩ := hq.mem hp
        have hend := hpfits.le i.stop (hfits.fin hi)
        exact .inl ⟨by omega, by omega⟩
  · have hi := Bool.eq_false_iff.mpr hi
    obtain ⟨b, ps', hcover, hbfits, hbfin, hq', hsub, hhead, hx⟩ :=
      cover_spec isn hfits hi hq hlo hlen hb
    have hbpos : 0 < (i.setFin b).tcplen := by
      rw [Piece.tcplen, hi] at hpos
      rw [Piece.tcplen, Piece.setFin_len]
      simp only [Bool.false_eq_true, if_false] at hpos
      omega
    obtain ⟨k, htrim, hk, hkfin, hkpos, hkfits, hkq, hkx⟩ := trimOoseq_spec isn hbfits hbpos
      hlen hq' hlo (fun h => (hbfin h).1) (fun p hp => hb p (hsub p hp)) hhead
    refine ⟨(i.setFin b).cut k, ps', ?_, rfl, hkfits, hkpos, fun h => (hbfin h).1, hkq, hsub,
      ?_, ?_⟩
    · rw [absorb, Piece.seg_fin, hi, if_neg Bool.false_ne_true, hcover, htrim]
      rfl
    · cases b with
      | false =>
        rw [Piece.last_of_not_fin rfl, Piece.cut_stop, Piece.setFin_pos,
          Piece.last_of_not_fin hi, Piece.stop]
        exact .inl (Nat.add_le_add_left hk _)
      | true =>
        obtain ⟨-, p, hp, hplast⟩ := hbfin rfl
        refine .inr ⟨p, hp, ?_⟩
        rw [Piece.last_of_fin rfl, Piece.cut_stop, Piece.setFin_pos, hkfin rfl, hplast]
        rfl
    · rintro x (hx' | hx')
      · exact hkx x hx'
      · rcases hx x hx' with hx' | hx'
        · exact hkx x hx'
        · exact .inr hx'

end InOrder

/-! ## Out of order -/

section OutOfOrder
variable (isn) {lo : ℕ} {ps : List Piece}

theorem oosCover_spec (hfits : i.Fits S) (hi : i.fin = false) (hpos : 0 < i.tcplen)
    (hlen : i.len < 2^16) (hq : Queue S lo ps) (hlo : i.pos ≤ lo)
    (hsame : ∀ p ∈ ps, p.pos = i.pos → p.stop ≤ i.stop)
    (hb : ∀ p ∈ ps, p.stop ≤ i.pos + 2^18) :
    ∃ ps', oosCover (i.seg S isn) (ps.map (Piece.seg S isn)) = ps'.map (Piece.seg S isn) ∧
      Queue S i.pos ps' ∧ (∀ q ∈ ps', q.last ≤ i.last ∨ ∃ p ∈ ps, q.last ≤ p.last) ∧
      ∀ x, i.Has x ∨ Covers ps x → Covers ps' x := by
  induction ps generalizing lo with
  | nil =>
    refine ⟨[i], rfl, ⟨le_rfl, hfits, hpos, fun _ => rfl, trivial⟩, by simp, ?_⟩
    rintro x (hx | hx)
    · exact ⟨i, List.mem_singleton_self i, hx⟩
    · obtain ⟨q, hq, -⟩ := hx
      cases hq
  | cons p ps ih =>
    obtain ⟨hp, hpfits, hppos, hpfin, hrest⟩ := hq
    obtain ⟨hpb, hb⟩ := List.forall_mem_cons.mp hb
    obtain ⟨hpsame, hsame⟩ := List.forall_mem_cons.mp hsame
    have hstop : p.stop = p.pos + p.len := rfl
    have histop : i.stop = i.pos + i.len := rfl
    have hlast := Piece.last_of_not_fin hi
    have hnear : Near 32 (i.stop : ℤ) (p.stop : ℤ) := near (by omega) (by omega)
    have hnear' : Near 32 (i.stop : ℤ) (p.pos : ℤ) := near (by omega) (by omega)
    rw [List.map_cons, oosCover, Piece.seg_stop, Piece.seg_stop]
    by_cases hcov : p.stop ≤ i.stop
    · rw [if_pos ((geq_seq isn hnear).mpr (by omega)), Piece.seg_fin]
      have hhas : ∀ x, p.Has x → i.Has x := by
        intro x hx
        obtain ⟨hx₁, hx₂⟩ := hx
        exact ⟨by omega, by omega⟩
      by_cases hf : p.fin = true
      · obtain rfl := hpfin hf
        have hend := le_antisymm hcov (hfits.le p.stop (hpfits.fin hf))
        have hfits' : (i.setFin true).Fits S :=
          ⟨hfits.le, fun _ => by rw [hpfits.fin hf, hend, Piece.setFin_stop]⟩
        refine ⟨[i.setFin true], ?_, ⟨le_rfl, hfits', Nat.succ_pos _, fun _ => rfl, trivial⟩,
          ?_, ?_⟩
        · rw [if_pos hf]
          rfl
        · intro q hq
          rw [List.mem_singleton.mp hq, Piece.last_of_fin rfl, Piece.setFin_stop, ← hend,
            ← Piece.last_of_fin hf]
          exact .inr ⟨p, List.mem_singleton_self p, le_rfl⟩
        · rintro x (hx | ⟨q, hq, hx⟩)
          · exact ⟨_, List.mem_singleton_self _, hx⟩
          · rw [List.mem_singleton.mp hq] at hx
            exact ⟨_, List.mem_singleton_self _, hhas x hx⟩
      · rw [if_neg hf]
        obtain ⟨ps', heq, hq', hlast', hx⟩ := ih hrest (by omega) hsame hb
        refine ⟨ps', heq, hq', fun q hq => ?_, ?_⟩
        · rcases hlast' q hq with h | ⟨p', hp', h⟩
          · exact .inl h
          · exact .inr ⟨p', List.mem_cons_of_mem _ hp', h⟩
        · rintro x (hx' | hx')
          · exact hx x (.inl hx')
          · rcases covers_cons.mp hx' with hx' | hx'
            · exact hx x (.inl (hhas x hx'))
            · exact hx x (.inr hx')
    · rw [if_neg ((geq_seq isn hnear).not.mpr (by omega)), Piece.seg_seqno, Piece.seg_seqno]
      have hkeep : ∀ q ∈ p :: ps, q.last ≤ i.last ∨ ∃ p' ∈ p :: ps, q.last ≤ p'.last :=
        fun q hq => .inr ⟨q, hq, le_rfl⟩
      by_cases hover : p.pos < i.stop
      · have hk : p.pos - i.pos ≤ i.len := by omega
        rw [if_pos ((gt_seq isn hnear').mpr (by omega)), u16_sub (by omega) (by omega),
          Piece.seg_realloc S isn i hk]
        refine ⟨i.cut (p.pos - i.pos) :: p :: ps, rfl, ⟨le_rfl, hfits.cut hi hk, ?_, ?_, ?_⟩,
          List.forall_mem_cons.mpr ⟨.inl ?_, hkeep⟩, ?_⟩
        · have hne : p.pos ≠ i.pos := fun h => hcov (hpsame h)
          rw [Piece.tcplen, Piece.cut_len]
          omega
        · rw [Piece.cut_fin, hi]
          exact fun h => by cases h
        · exact ⟨by rw [Piece.cut_stop]; omega, hpfits, hppos, hpfin, hrest⟩
        · rw [Piece.last_of_not_fin (by exact hi), Piece.cut_stop]
          omega
        · rintro x (⟨hx₁, hx₂⟩ | hx)
          · by_cases hx : x < p.pos
            · exact covers_cons.mpr (.inl ⟨hx₁, by rw [Piece.cut_stop]; omega⟩)
            · exact covers_cons.mpr (.inr (covers_cons.mpr (.inl ⟨by omega, by omega⟩)))
          · exact covers_cons.mpr (.inr hx)
      · rw [if_neg ((gt_seq isn hnear').not.mpr (by omega))]
        refine ⟨i :: p :: ps, rfl, ⟨le_rfl, hfits, hpos, ?_, ?_⟩,
          List.forall_mem_cons.mpr ⟨.inl le_rfl, hkeep⟩, fun x hx => covers_cons.mpr hx⟩
        · rw [hi]
          exact fun h => by cases h
        · exact ⟨by omega, hpfits, hppos, hpfin, hrest⟩

theorem tcpOosInsertSegment_spec (hfits : i.Fits S) (hpos : 0 < i.tcplen) (hlen : i.len < 2^16)
    (hq : Queue S i.pos ps) (hsame : ∀ p ∈ ps, p.pos = i.pos → p.stop ≤ i.stop)
    (hb : ∀ p ∈ ps, p.stop ≤ i.pos + 2^18) :
    ∃ ps', tcpOosInsertSegment (i.seg S isn) (ps.map (Piece.seg S isn)) =
        ps'.map (Piece.seg S isn) ∧
      Queue S i.pos ps' ∧ (∀ q ∈ ps', q.last ≤ i.last ∨ ∃ p ∈ ps, q.last ≤ p.last) ∧
      ∀ x, i.Has x ∨ Covers ps x → Covers ps' x := by
  rw [tcpOosInsertSegment, Piece.seg_fin]
  by_cases hi : i.fin = true
  · rw [if_pos hi]
    refine ⟨[i], rfl, ⟨le_rfl, hfits, hpos, fun _ => rfl, trivial⟩, by simp, ?_⟩
    rintro x (hx | ⟨p, hp, hx₁, hx₂⟩)
    · exact ⟨i, List.mem_singleton_self i, hx⟩
    · obtain ⟨hplo, hpfits, -⟩ := hq.mem hp
      have hend := hpfits.le i.stop (hfits.fin hi)
      exact ⟨i, List.mem_singleton_self i, by omega, by omega⟩
  · rw [if_neg hi]
    exact oosCover_spec isn hfits (Bool.eq_false_iff.mpr hi) hpos hlen hq le_rfl hsame hb

theorem trimEnd_spec {p : Piece} (hfits : p.Fits S) (hp : p.fin = false) (hlt : p.pos < i.pos)
    (hpos : 0 < p.tcplen) (hnear : i.pos < p.pos + 2^16) (hb : p.stop ≤ i.pos + 2^18) :
    ∃ k ≤ p.len, trimEnd (p.seg S isn) (seq isn i.pos) = (p.cut k).seg S isn ∧
      (p.cut k).Fits S ∧ 0 < (p.cut k).tcplen ∧ (p.cut k).stop ≤ i.pos ∧
      ∀ x, p.Has x → x < i.pos → (p.cut k).Has x := by
  have hstop : p.stop = p.pos + p.len := rfl
  have hcmp : Near 32 (p.stop : ℤ) (i.pos : ℤ) := near (by omega) (by omega)
  rw [trimEnd, Piece.seg_stop, Piece.seg_seqno]
  by_cases hover : i.pos < p.stop
  · have hk : i.pos - p.pos ≤ p.len := by omega
    rw [if_pos ((gt_seq isn hcmp).mpr (by omega)), u16_sub (by omega) (by omega),
      Piece.seg_realloc S isn p hk]
    refine ⟨_, hk, rfl, hfits.cut hp hk, ?_, ?_, fun x hx hlt => ⟨hx.1, ?_⟩⟩
    · rw [Piece.tcplen, Piece.cut_len]
      omega
    · rw [Piece.cut_stop]
      omega
    · rw [Piece.cut_stop]
      omega
  · rw [if_neg ((gt_seq isn hcmp).not.mpr (by omega))]
    exact ⟨p.len, le_rfl, rfl, hfits, hpos, not_lt.mp hover, fun x hx _ => hx⟩

theorem trimEdge_spec {edge : ℕ} (hfits : i.Fits S) (hpos : 0 < i.tcplen) (hlen : i.len < 2^16)
    (hedge : i.pos < edge) (hedge' : edge < i.pos + 2^16) :
    ∃ j : Piece, trimEdge (seq isn edge) (i.seg S isn) = some (j.seg S isn) ∧ j.pos = i.pos ∧
      j.Fits S ∧ 0 < j.tcplen ∧ j.last ≤ i.last ∧ (i.last ≤ edge → j = i) := by
  have hle := i.last_le_stop
  have hge := i.stop_le_last
  have hstop : i.stop = i.pos + i.len := rfl
  have hcmp : Near 32 (i.last : ℤ) (edge : ℤ) := near (by omega) (by omega)
  have hlast : BitVec.ofNat 32 (i.seg S isn).tcplen + (i.seg S isn).seqno = seq isn i.last := by
    rw [← Piece.seg_last, Seg.last, BitVec.add_comm]
  rw [trimEdge, hlast]
  by_cases hover : edge < i.last
  · have hk : edge - i.pos ≤ i.len := by omega
    have hset : (i.setFin false).Fits S := ⟨hfits.le, fun h => by cases h⟩
    rw [if_pos ((gt_seq isn hcmp).mpr (by omega)), Piece.seg_setFin, Piece.seg_seqno,
      u16_sub (by omega) (by omega), Piece.seg_realloc S isn (i.setFin false) hk]
    refine ⟨(i.setFin false).cut (edge - i.pos), if_pos ?_, rfl, hset.cut rfl hk, ?_, ?_,
      fun h => absurd h (by omega)⟩
    · rw [Piece.seg_last, Piece.last_of_not_fin rfl, Piece.cut_stop, Piece.setFin_pos]
      exact congrArg (fun a : ℕ => seq isn a) (by omega)
    · rw [Piece.tcplen, Piece.cut_len]
      omega
    · rw [Piece.last_of_not_fin rfl, Piece.cut_stop, Piece.setFin_pos]
      omega
  · rw [if_neg ((gt_seq isn hcmp).not.mpr (by omega))]
    exact ⟨i, rfl, rfl, hfits, hpos, le_rfl, fun _ => rfl⟩

/-- What the queue becomes when a segment is put in. The cut of the segment in front of it loses
what that one has behind the new segment. -/
structure Inserted (S : Stream) (lo edge : ℕ) (copied : Bool) (i : Piece)
    (ps ps' : List Piece) : Prop where
  queue : Queue S lo ps'
  last : ∀ q ∈ ps', q.last ≤ i.last ∨ ∃ p ∈ ps, q.last ≤ p.last
  covers : i.last ≤ edge → (∀ p ∈ ps, p.pos < i.pos → i.pos < p.stop → p.stop ≤ i.stop) →
    ∀ x, Covers ps x ∨ copied = true ∧ i.Has x → Covers ps' x

section Walk
variable {edge : ℕ} {copied : Bool}

theorem Inserted.keep (hq : Queue S lo ps)
    (hx : copied = true → ∀ x, i.Has x → Covers ps x) : Inserted S lo edge copied i ps ps :=
  ⟨hq, fun q hq => .inr ⟨q, hq, le_rfl⟩, fun _ _ x hcov => hcov.elim id fun h => hx h.1 x h.2⟩

theorem Inserted.cons {p : Piece} {ps' : List Piece} (hlo : lo ≤ p.pos) (hfits : p.Fits S)
    (hpos : 0 < p.tcplen) (hp : p.fin = false) (h : Inserted S p.stop edge copied i ps ps') :
    Inserted S lo edge copied i (p :: ps) (p :: ps') := by
  refine ⟨⟨hlo, hfits, hpos, fun hf => ?_, h.queue⟩, ?_, fun hedge hin x hx => ?_⟩
  · rw [hp] at hf
    cases hf
  · refine List.forall_mem_cons.mpr ⟨.inr ⟨p, List.mem_cons_self .., le_rfl⟩, fun q hq => ?_⟩
    rcases h.last q hq with h | ⟨p', hp', h⟩
    · exact .inl h
    · exact .inr ⟨p', List.mem_cons_of_mem _ hp', h⟩
  · have hin := (List.forall_mem_cons.mp hin).2
    rw [covers_cons, or_assoc] at hx
    rcases hx with hx | hx
    · exact covers_cons.mpr (.inl hx)
    · exact covers_cons.mpr (.inr (h.covers hedge hin x hx))

/-- In front of a piece that stays as it is. -/
theorem Inserted.prepend {prev : Option Piece} (hq : Queue S lo (prev.toList ++ ps))
    (hne : ps ≠ []) :
    ∃ lo' ≥ lo, Queue S lo' ps ∧ ∀ ps', Inserted S lo' edge copied i ps ps' →
      Inserted S lo edge copied i (prev.toList ++ ps) (prev.toList ++ ps') := by
  cases prev with
  | none => exact ⟨lo, le_rfl, hq, fun _ h => h⟩
  | some p =>
    obtain ⟨hlo, hfits, hpos, hfin, hrest⟩ := hq
    exact ⟨p.stop, hlo.trans (Nat.le_add_right ..), hrest,
      fun _ => .cons hlo hfits hpos (Bool.eq_false_iff.mpr fun h => hne (hfin h))⟩

theorem precedes_iff {prev : Option Piece} (next : Piece) (hprev : ∀ p ∈ prev, p.pos < i.pos)
    (hlt : 0 < next.pos) (hi : i.pos ≤ next.pos + 2^18) (hnext : next.pos ≤ i.pos + 2^18)
    (hp : ∀ p ∈ prev, i.pos ≤ p.pos + 2^18) :
    precedes (i.seg S isn) (prev.map (Piece.seg S isn)) (next.seg S isn) = true ↔
      i.pos < next.pos := by
  cases prev with
  | none =>
    have hcmp : Near 32 (i.pos : ℤ) (next.pos : ℤ) := near (by omega) (by omega)
    exact (lt_seq isn hcmp).trans Nat.cast_lt
  | some p =>
    have hprev := hprev p rfl
    have hp := hp p rfl
    have hpred : seq isn (next.pos : ℤ) - BitVec.ofNat 32 1 = seq isn ((next.pos - 1 : ℕ) : ℤ) := by
      rw [seq_sub]
      exact congrArg (seq isn) (by omega)
    have hsucc : seq isn (p.pos : ℤ) + BitVec.ofNat 32 1 = seq isn ((p.pos + 1 : ℕ) : ℤ) := by
      rw [seq_add]
      rfl
    have hiff := between_seq isn (near (a := i.pos) (b := p.pos + 1) (by omega) (by omega))
      (near (a := i.pos) (b := next.pos - 1) (by omega) (by omega))
    rw [Option.map_some, precedes, Piece.seg_seqno, Piece.seg_seqno, Piece.seg_seqno, hpred, hsucc,
      hiff]
    omega

section Cases
variable (edge : ℕ) (copied : Bool)

theorem insert_same {next : Piece} (hfits : i.Fits S) (hpos : 0 < i.tcplen) (hlen : i.len < 2^16)
    (hq : Queue S lo (next :: ps)) (heq : i.pos = next.pos) (hbig : i.len > next.len)
    (hb : ∀ p ∈ next :: ps, p.stop ≤ i.pos + 2^18) :
    ∃ ps', tcpOosInsertSegment (i.seg S isn) (next.seg S isn :: ps.map (Piece.seg S isn)) =
        ps'.map (Piece.seg S isn) ∧
      Inserted S lo edge copied i (next :: ps) ps' := by
  obtain ⟨hlo, hnext⟩ := hq
  have hstop : i.stop = i.pos + i.len := rfl
  have hnstop : next.stop = next.pos + next.len := rfl
  have hsame : ∀ p ∈ next :: ps, p.pos = i.pos → p.stop ≤ i.stop := by
    refine List.forall_mem_cons.mpr ⟨fun _ => by omega, fun p hp hpi => ?_⟩
    -- a second piece at this position would have to be behind an empty one
    obtain ⟨-, hnpos, hnfin, hrest⟩ := hnext
    obtain ⟨hmem, -⟩ := hrest.mem hp
    have hnf : next.fin = false := Bool.eq_false_iff.mpr fun h => by rw [hnfin h] at hp; cases hp
    rw [Piece.tcplen, hnf] at hnpos
    simp only [Bool.false_eq_true, if_false] at hnpos
    omega
  have hqi : Queue S i.pos (next :: ps) := ⟨heq.le, hnext⟩
  obtain ⟨ps', hins, hq', hlast, hx⟩ := tcpOosInsertSegment_spec isn hfits hpos hlen hqi hsame hb
  refine ⟨ps', hins, hq'.mono (by omega), hlast, fun _ _ x h => hx x ?_⟩
  exact h.elim .inr fun h => .inl h.2

theorem insert_before {prev : Option Piece} {next : Piece} (hfits : i.Fits S) (hpos : 0 < i.tcplen)
    (hlen : i.len < 2^16) (hq : Queue S lo (prev.toList ++ next :: ps)) (hlt : i.pos < next.pos)
    (hfirst : prev = none → lo ≤ i.pos) (hprev : ∀ p ∈ prev, p.pos < i.pos ∧ i.pos < p.pos + 2^16)
    (hb : ∀ p ∈ prev.toList ++ next :: ps, p.stop ≤ i.pos + 2^18) :
    ∃ ps', (prev.map fun p => trimEnd (p.seg S isn) (seq isn i.pos)).toList ++
        tcpOosInsertSegment (i.seg S isn) (next.seg S isn :: ps.map (Piece.seg S isn)) =
        ps'.map (Piece.seg S isn) ∧
      Inserted S lo edge copied i (prev.toList ++ next :: ps) ps' := by
  have hcover : Queue S next.pos (next :: ps) →
      ∃ ps', tcpOosInsertSegment (i.seg S isn) (next.seg S isn :: ps.map (Piece.seg S isn)) =
          ps'.map (Piece.seg S isn) ∧
        Queue S i.pos ps' ∧ (∀ q ∈ ps', q.last ≤ i.last ∨ ∃ p ∈ next :: ps, q.last ≤ p.last) ∧
        ∀ x, i.Has x ∨ Covers (next :: ps) x → Covers ps' x := by
    intro hqn
    refine tcpOosInsertSegment_spec isn hfits hpos hlen (hqn.mono hlt.le) (fun p hp heq => ?_)
      fun p hp => hb p (List.mem_append_right _ hp)
    obtain ⟨hmem, -⟩ := hqn.mem hp
    omega
  cases prev with
  | none =>
    obtain ⟨ps', hins, hq', hlast, hx⟩ := hcover ⟨le_rfl, hq.2⟩
    exact ⟨ps', hins, hq'.mono (hfirst rfl), hlast,
      fun _ _ x h => hx x (h.elim .inr fun h => .inl h.2)⟩
  | some p =>
    obtain ⟨hplo, hpfits, hppos, hpfin, hrest⟩ := hq
    obtain ⟨ps', hins, hq', hlast, hx⟩ := hcover ⟨le_rfl, hrest.2⟩
    have hpf : p.fin = false := Bool.eq_false_iff.mpr fun h => by cases hpfin h
    obtain ⟨hplt, hpnear⟩ := hprev p rfl
    obtain ⟨k, hk, htrim, hkfits, hkpos, hkstop, hkx⟩ := trimEnd_spec isn hpfits hpf hplt hppos
      hpnear (hb p (List.mem_cons_self ..))
    refine ⟨p.cut k :: ps', ?_, ⟨hplo, hkfits, hkpos, fun h => ?_, hq'.mono hkstop⟩, ?_, ?_⟩
    · rw [Option.map_some, htrim, hins]
      rfl
    · rw [Piece.cut_fin, hpf] at h
      cases h
    · refine List.forall_mem_cons.mpr ⟨.inr ⟨p, List.mem_cons_self .., ?_⟩, fun q hq => ?_⟩
      · rw [Piece.last_of_not_fin (by exact hpf), Piece.last_of_not_fin hpf, Piece.cut_stop]
        exact Nat.add_le_add_left hk _
      · exact (hlast q hq).imp_right fun ⟨p', hp', h⟩ => ⟨p', List.mem_cons_of_mem _ hp', h⟩
    · intro _ hinside x hcov
      have hin := hinside p (List.mem_cons_self ..) hplt
      rw [Option.toList_some, List.singleton_append, covers_cons, or_assoc] at hcov
      rcases hcov with hxp | hcov
      · by_cases hxi : x < i.pos
        · exact covers_cons.mpr (.inl (hkx x hxp hxi))
        · -- behind the cut the new segment has what is lost
          obtain ⟨hx₁, hx₂⟩ := hxp
          have hle := hin (by omega)
          exact covers_cons.mpr (.inr (hx x (.inl ⟨by omega, by omega⟩)))
      · exact covers_cons.mpr (.inr (hx x (hcov.elim .inr fun h => .inl h.2)))

variable {edge}

theorem insert_last {next : Piece} (hfits : i.Fits S) (hpos : 0 < i.tcplen) (hlen : i.len < 2^16)
    (hq : Queue S lo [next]) (hnf : next.fin = false) (hlt : next.pos < i.pos)
    (hnear : i.pos < next.pos + 2^16) (hb : next.stop ≤ i.pos + 2^18) (hedge : i.pos < edge)
    (hedge' : edge < i.pos + 2^16) :
    ∃ j k, trimEdge (seq isn edge) (i.seg S isn) = some (Piece.seg S isn j) ∧
      trimEnd (next.seg S isn) (seq isn i.pos) = (next.cut k).seg S isn ∧
      Inserted S lo edge copied i [next] [next.cut k, j] := by
  obtain ⟨hlo, hnfits, hnpos, -, -⟩ := hq
  obtain ⟨k, hk, htrim, hkfits, hkpos, hkstop, hkx⟩ :=
    trimEnd_spec isn hnfits hnf hlt hnpos hnear hb
  obtain ⟨j, hj, hjpos, hjfits, hjtcp, hjlast, hji⟩ :=
    trimEdge_spec isn hfits hpos hlen hedge hedge'
  refine ⟨j, k, hj, htrim, ⟨hlo, hkfits, hkpos, fun h => ?_, ?_⟩, ?_, ?_⟩
  · rw [Piece.cut_fin, hnf] at h
    cases h
  · exact ⟨hjpos ▸ hkstop, hjfits, hjtcp, fun _ => rfl, trivial⟩
  · refine List.forall_mem_cons.mpr ⟨.inr ⟨next, List.mem_cons_self .., ?_⟩,
      List.forall_mem_singleton.mpr (.inl hjlast)⟩
    rw [Piece.last_of_not_fin (by exact hnf), Piece.last_of_not_fin hnf, Piece.cut_stop]
    exact Nat.add_le_add_left hk _
  · intro hlast hinside x hcov
    rw [hji hlast]
    have hin := hinside next (List.mem_cons_self ..) hlt
    rw [covers_cons, or_assoc] at hcov
    rcases hcov with hxn | hcov | hcov
    · by_cases hxi : x < i.pos
      · exact covers_cons.mpr (.inl (hkx x hxn hxi))
      · obtain ⟨hx₁, hx₂⟩ := hxn
        have hle := hin (by omega)
        exact covers_cons.mpr (.inr (covers_cons.mpr (.inl ⟨by omega, by omega⟩)))
    · obtain ⟨q, hq, -⟩ := hcov
      cases hq
    · exact covers_cons.mpr (.inr (covers_cons.mpr (.inl hcov.2)))

end Cases

variable (copied)

/-- The walk goes past a segment that starts earlier and is not the last. -/
theorem queueOoseq_skip {prev : Option Piece} {next : Piece} (edge : BitVec 32)
    (hlt : next.pos < i.pos) (hne : ps ≠ []) (hprev : ∀ p ∈ prev, p.pos < i.pos)
    (hpos : 0 < next.pos) (hi : i.pos ≤ next.pos + 2^18) (hp : ∀ p ∈ prev, i.pos ≤ p.pos + 2^18) :
    queueOoseq copied edge (i.seg S isn) (prev.map (Piece.seg S isn))
        ((next :: ps).map (Piece.seg S isn)) =
      (queueOoseq copied edge (i.seg S isn) (some (next.seg S isn))
        (ps.map (Piece.seg S isn))).map ((prev.map (Piece.seg S isn)).toList ++ ·) := by
  have hcmp : Near 32 (i.pos : ℤ) (next.pos : ℤ) := near (by omega) (by omega)
  have hseq : ¬ (i.seg S isn).seqno = (next.seg S isn).seqno := by
    rw [Piece.seg_seqno, Piece.seg_seqno, seq_inj isn hcmp]
    omega
  have hprec := precedes_iff (S := S) isn next hprev hpos hi (by omega) hp
  have hlast : ¬ ((ps.map (Piece.seg S isn)).isEmpty = true ∧
      gt (i.seg S isn).seqno (next.seg S isn).seqno = true) := by
    simp [hne]
  rw [List.map_cons, queueOoseq, if_neg hseq, if_neg (hprec.not.mpr (by omega)), if_neg hlast]

theorem queueOoseq_spec {prev : Option Piece} (hfits : i.Fits S) (hpos : 0 < i.tcplen)
    (hlen : i.len < 2^16) (hni : n < i.pos) (hin : i.pos < n + 2^16) (hedge : i.pos < edge)
    (hedge' : edge < i.pos + 2^16) (hlo : n < lo) (hfirst : prev = none → lo ≤ i.pos)
    (hq : Queue S lo (prev.toList ++ ps)) (hne : ps ≠ []) (hprev : ∀ p ∈ prev, p.pos < i.pos)
    (hb : ∀ p ∈ prev.toList ++ ps, p.stop ≤ n + 2^18) :
    ∃ ps', queueOoseq copied (seq isn edge) (i.seg S isn) (prev.map (Piece.seg S isn))
        (ps.map (Piece.seg S isn)) = some (ps'.map (Piece.seg S isn)) ∧
      Inserted S lo edge copied i (prev.toList ++ ps) ps' := by
  induction ps generalizing lo prev with
  | nil => exact absurd rfl hne
  | cons next ps ih =>
    obtain ⟨lo', hle, hq', hpre⟩ : ∃ lo' ≥ lo, Queue S lo' (next :: ps) ∧
      ∀ ps', Inserted S lo' edge copied i (next :: ps) ps' →
        Inserted S lo edge copied i (prev.toList ++ next :: ps) (prev.toList ++ ps') :=
      Inserted.prepend hq hne
    have hb' : ∀ p ∈ next :: ps, p.stop ≤ i.pos + 2^18 := by
      intro p hp
      have := hb p (List.mem_append_right _ hp)
      omega
    have hpb : ∀ p ∈ prev, n < p.pos := by
      intro p hp
      obtain ⟨hmem, -⟩ := hq.mem (List.mem_append_left _ (Option.mem_toList.mpr hp))
      omega
    obtain ⟨hnext, hnfits, hnpos, hnfin, hrest⟩ := hq'
    have hnb := hb' next (List.mem_cons_self ..)
    have hnstop : next.stop = next.pos + next.len := rfl
    have histop : i.stop = i.pos + i.len := rfl
    have hcmp : Near 32 (i.pos : ℤ) (next.pos : ℤ) := near (by omega) (by omega)
    have hseq : (i.seg S isn).seqno = (next.seg S isn).seqno ↔ i.pos = next.pos :=
      (seq_inj isn hcmp).trans Nat.cast_inj
    have hprec := precedes_iff (S := S) isn next hprev (by omega) (by omega) (by omega)
      (fun p hp => by have := hpb p hp; omega)
    by_cases heq : i.pos = next.pos
    · -- the longer of the two stays
      rw [List.map_cons, queueOoseq, Option.toList_map, if_pos (hseq.mpr heq), Piece.seg_len,
        Piece.seg_len]
      by_cases hbig : i.len > next.len ∧ copied = true
      · obtain ⟨ps', hins, hinserted⟩ := insert_same isn edge copied hfits hpos hlen
          ⟨hnext, hnfits, hnpos, hnfin, hrest⟩ heq hbig.1 hb'
        exact ⟨prev.toList ++ ps', by rw [if_pos hbig, hins, List.map_append], hpre _ hinserted⟩
      · refine ⟨prev.toList ++ next :: ps, by rw [if_neg hbig, List.map_append, List.map_cons],
          hpre _ (.keep ⟨hnext, hnfits, hnpos, hnfin, hrest⟩ fun hc x hx => ?_)⟩
        have hle : ¬ i.len > next.len := fun h => hbig ⟨h, hc⟩
        obtain ⟨hx₁, hx₂⟩ := hx
        exact covers_cons.mpr (.inl ⟨by omega, by omega⟩)
    · by_cases hlt : i.pos < next.pos
      · rw [List.map_cons, queueOoseq, Option.toList_map, if_neg (hseq.not.mpr heq),
          if_pos (hprec.mpr hlt)]
        cases copied with
        | false =>
          exact ⟨prev.toList ++ next :: ps, by simp,
            .keep hq fun hc => by cases hc⟩
        | true =>
          obtain ⟨ps', hins, hinserted⟩ := insert_before isn edge true hfits hpos hlen
            hq hlt hfirst (fun p hp => ⟨hprev p hp, by have := hpb p hp; omega⟩)
            (fun p hp => by have := hb p hp; omega)
          refine ⟨ps', ?_, hinserted⟩
          rw [if_pos rfl, Option.map_map]
          exact congrArg some hins
      · by_cases hnil : ps = []
        · subst hnil
          have hgt : gt (seq isn (i.pos : ℤ)) (seq isn (next.pos : ℤ)) = true :=
            (gt_seq isn hcmp).mpr (by omega)
          rw [List.map_cons, queueOoseq, Option.toList_map, if_neg (hseq.not.mpr heq),
            if_neg (hprec.not.mpr hlt), if_pos ⟨rfl, hgt⟩, Piece.seg_fin]
          by_cases hstay : next.fin = true ∨ ¬ copied = true
          · refine ⟨prev.toList ++ [next], by rw [if_pos hstay]; simp,
              hpre _ (.keep ⟨hnext, hnfits, hnpos, hnfin, hrest⟩ fun hc x hx => ?_)⟩
            have hend := hfits.le next.stop (hnfits.fin (hstay.resolve_right (not_not.mpr hc)))
            obtain ⟨hx₁, hx₂⟩ := hx
            exact covers_cons.mpr (.inl ⟨by omega, by omega⟩)
          · obtain ⟨hnf, hc⟩ := not_or.mp hstay
            obtain ⟨j, k, hedge₁, hend₁, hinserted⟩ := insert_last isn copied hfits hpos hlen
              ⟨hnext, hnfits, hnpos, hnfin, hrest⟩ (Bool.eq_false_iff.mpr hnf) (by omega)
              (by omega) hnb hedge hedge'
            refine ⟨prev.toList ++ [next.cut k, j], ?_, hpre _ hinserted⟩
            rw [if_neg hstay, hedge₁, Piece.seg_seqno, hend₁]
            simp
        · have hqn : Queue S lo' ((some next).toList ++ ps) := ⟨hnext, hnfits, hnpos, hnfin, hrest⟩
          obtain ⟨ps', hwalk, hinserted⟩ := ih (by omega) (fun h => by cases h) hqn hnil
            (by simp; omega) (fun p hp => hb p (List.mem_append_right _ hp))
          refine ⟨prev.toList ++ ps', ?_, hpre _ hinserted⟩
          rw [Option.map_some] at hwalk
          rw [queueOoseq_skip isn copied _ (by omega) hnil hprev (by omega) (by omega)
            (fun p hp => by have := hpb p hp; omega), hwalk, Option.map_some, Option.toList_map,
            List.map_append]

end Walk

end OutOfOrder

end EthernetSoc.TcpReceive
