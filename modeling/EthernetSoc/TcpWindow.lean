import EthernetSoc.TcpReceive

/-!
# The window a connection announces

The announced right edge only moves to the right, and the room that is announced is there.
The positions behind the sequence numbers are `N` for `rcv_nxt` and `e` for the announced
edge.
-/

namespace EthernetSoc.TcpReceive
open SeqSpace

theorem near {a b : ℕ} (h₁ : a ≤ b + 2^30) (h₂ : b ≤ a + 2^30) : Near 32 a b := by
  constructor <;> omega

variable {isn : BitVec 32} {mss N e : ℕ} {pcb pcb' : Pcb}

structure Window (isn : BitVec 32) (mss N e : ℕ) (pcb : Pcb) : Prop where
  mss : pcb.mss = mss
  nxt : pcb.rcvNxt = seq isn N
  edge : pcb.rcvAnnRightEdge = seq isn e
  -- a probe of a closed window takes the position behind it
  reach : N ≤ e + 1
  kept : e ≤ N + pcb.rcvAnnWnd
  ann : pcb.rcvAnnWnd ≤ pcb.rcvWnd
  wnd : pcb.rcvWnd ≤ tcpWnd

theorem Window.congr (h : Window isn mss N e pcb) (hmss : pcb'.mss = pcb.mss)
    (hnxt : pcb'.rcvNxt = pcb.rcvNxt) (hedge : pcb'.rcvAnnRightEdge = pcb.rcvAnnRightEdge)
    (hann : pcb'.rcvAnnWnd = pcb.rcvAnnWnd) (hwnd : pcb'.rcvWnd = pcb.rcvWnd) :
    Window isn mss N e pcb' := by
  obtain ⟨h₁, h₂, h₃, h₄, h₅, h₆, h₇⟩ := h
  exact ⟨hmss.trans h₁, hnxt.trans h₂, hedge.trans h₃, h₄, hann ▸ h₅, hann ▸ hwnd ▸ h₆, hwnd ▸ h₇⟩

/-- The announced window is less than a segment short of the window. -/
def Wide (mss : ℕ) (pcb : Pcb) : Prop :=
  0 < mss → pcb.rcvWnd < pcb.rcvAnnWnd + min (tcpWnd / 2) mss

/-! ## What changes the window -/

theorem tcpUpdateRcvAnnWnd_frame {u : Pcb × BitVec 32} (h : tcpUpdateRcvAnnWnd pcb = some u) :
    ∃ w, u.1 = { pcb with rcvAnnWnd := w } := by
  rw [tcpUpdateRcvAnnWnd] at h
  split_ifs at h <;> cases h <;> exact ⟨_, rfl⟩

theorem tcpUpdateRcvAnnWnd_spec (pcb : Pcb) (hmss : pcb.mss = mss)
    (hnxt : pcb.rcvNxt = seq isn N) (hedge : pcb.rcvAnnRightEdge = seq isn e) (hreach : N ≤ e + 1)
    (hle : e ≤ N + pcb.rcvWnd) (hwnd : pcb.rcvWnd ≤ tcpWnd) :
    ∃ u, tcpUpdateRcvAnnWnd pcb = some u ∧ Window isn mss N e u.1 ∧ Wide mss u.1 := by
  subst hmss
  have hwnd' : pcb.rcvWnd ≤ 5840 := hwnd
  have hmin : min (tcpWnd / 2) pcb.mss ≤ 2920 := min_le_left ..
  have hpos : 0 < pcb.mss → 0 < min (tcpWnd / 2) pcb.mss := fun h => lt_min (by decide) h
  have hmore : geq pcb.rightEdge
      (pcb.rcvAnnRightEdge + BitVec.ofNat 32 (min (tcpWnd / 2) pcb.mss)) = true ↔
      e + min (tcpWnd / 2) pcb.mss ≤ N + pcb.rcvWnd := by
    rw [Pcb.rightEdge, hnxt, hedge, seq_add, seq_add, ← Nat.cast_add, ← Nat.cast_add,
      geq_seq isn (near (by omega) (by omega)), Nat.cast_le]
  have hover : gt pcb.rcvNxt pcb.rcvAnnRightEdge = true ↔ e < N := by
    rw [hnxt, hedge, gt_seq isn (near (by omega) (by omega)), Nat.cast_lt]
  rw [tcpUpdateRcvAnnWnd]
  by_cases h₁ : e + min (tcpWnd / 2) pcb.mss ≤ N + pcb.rcvWnd
  · rw [if_pos (hmore.mpr h₁)]
    exact ⟨_, rfl, ⟨rfl, hnxt, hedge, hreach, hle, le_rfl, hwnd⟩,
      fun h => Nat.lt_add_of_pos_right (hpos h)⟩
  · rw [if_neg (hmore.not.mpr h₁)]
    by_cases h₂ : e < N
    · rw [if_pos (hover.mpr h₂)]
      refine ⟨_, rfl, ⟨rfl, hnxt, hedge, hreach, h₂.le, Nat.zero_le _, hwnd⟩, fun _ => ?_⟩
      have hwide : pcb.rcvWnd < 0 + min (tcpWnd / 2) pcb.mss := by omega
      exact hwide
    · have hdiff : (pcb.rcvAnnRightEdge - pcb.rcvNxt).toNat = e - N := by
        rw [hnxt, hedge]
        exact toNat_seq_sub_seq isn _ _ (by omega) (by omega)
      rw [if_neg (hover.not.mpr h₂), hdiff, if_pos (by omega)]
      refine ⟨_, rfl, ⟨rfl, hnxt, hedge, hreach, ?_, ?_, hwnd⟩, fun _ => ?_⟩
      · exact (Nat.add_sub_of_le (not_lt.mp h₂)).ge
      · exact Nat.sub_le_iff_le_add'.mpr hle
      · have hwide : pcb.rcvWnd < e - N + min (tcpWnd / 2) pcb.mss := by omega
        exact hwide

theorem advance_frame {seg : Seg} (h : advance pcb seg = some pcb') :
    pcb'.state = pcb.state ∧ pcb'.rcvNxt = pcb.rcvNxt + BitVec.ofNat 32 seg.tcplen ∧
      seg.tcplen + pcb'.rcvWnd = pcb.rcvWnd := by
  rw [advance] at h
  split_ifs at h with hle
  obtain ⟨u, hu, rfl⟩ := Option.map_eq_some_iff.mp h
  obtain ⟨w, hw⟩ := tcpUpdateRcvAnnWnd_frame hu
  rw [hw]
  exact ⟨rfl, rfl, Nat.add_sub_of_le hle⟩

theorem Window.exists_advance {seg : Seg} (hw : Window isn mss N e pcb)
    (hroom : seg.tcplen ≤ pcb.rcvWnd) (hreach : N + seg.tcplen ≤ e + 1) :
    ∃ pcb', advance pcb seg = some pcb' ∧ Window isn mss (N + seg.tcplen) e pcb' ∧
      Wide mss pcb' := by
  obtain ⟨hmss, hnxt, hedge, -, hkept, hann, hwnd⟩ := hw
  rw [TcpReceive.advance, if_pos hroom]
  have hnxt' : pcb.rcvNxt + BitVec.ofNat 32 seg.tcplen = seq isn (N + seg.tcplen : ℕ) := by
    rw [hnxt, seq_add, Nat.cast_add]
  have hkept' : e ≤ N + seg.tcplen + (pcb.rcvWnd - seg.tcplen) := by omega
  obtain ⟨u, hu, hspec⟩ := tcpUpdateRcvAnnWnd_spec { pcb with
      rcvNxt := pcb.rcvNxt + BitVec.ofNat 32 seg.tcplen
      rcvWnd := pcb.rcvWnd - seg.tcplen } hmss hnxt' hedge hreach hkept'
    ((Nat.sub_le ..).trans hwnd)
  exact ⟨u.1, by rw [hu]; rfl, hspec⟩

theorem Window.advance {seg : Seg} (hw : Window isn mss N e pcb) (h : advance pcb seg = some pcb')
    (hreach : N + seg.tcplen ≤ e + 1) : Window isn mss (N + seg.tcplen) e pcb' ∧ Wide mss pcb' := by
  obtain ⟨-, -, hroom⟩ := advance_frame h
  obtain ⟨pcb'', hadv, hspec⟩ := hw.exists_advance (Nat.le.intro hroom) hreach
  cases h.symm.trans hadv
  exact hspec

theorem le_recvedWnd (len : ℕ) (hwnd : pcb.rcvWnd ≤ tcpWnd) : pcb.rcvWnd ≤ recvedWnd len pcb := by
  rw [recvedWnd]
  split_ifs with h
  · exact hwnd
  · exact not_lt.mp (not_or.mp h).2

theorem recvedWnd_le (len : ℕ) (pcb : Pcb) : recvedWnd len pcb ≤ tcpWnd := by
  rw [recvedWnd]
  split_ifs with h
  · exact le_rfl
  · exact not_lt.mp (not_or.mp h).1

theorem tcpRecved_frame {len : ℕ} (h : tcpRecved len pcb = some pcb') :
    ∃ a b, pcb' = { pcb with rcvWnd := recvedWnd len pcb, rcvAnnWnd := a, ackNow := b } := by
  obtain ⟨u, hu, rfl⟩ := Option.map_eq_some_iff.mp h
  obtain ⟨a, ha⟩ := tcpUpdateRcvAnnWnd_frame hu
  split_ifs
  · exact ⟨a, true, congrArg tcpAckNow ha⟩
  · exact ⟨a, pcb.ackNow, ha⟩

theorem Window.recved (len : ℕ) (hw : Window isn mss N e pcb) :
    ∃ pcb', tcpRecved len pcb = some pcb' ∧ Window isn mss N e pcb' ∧ Wide mss pcb' := by
  obtain ⟨hmss, hnxt, hedge, hreach, hkept, hann, hwnd⟩ := hw
  have hkept' : e ≤ N + recvedWnd len pcb := by
    have := le_recvedWnd len hwnd
    omega
  obtain ⟨u, hu, hwindow, hwide⟩ := tcpUpdateRcvAnnWnd_spec { pcb with
      rcvWnd := recvedWnd len pcb } hmss hnxt hedge hreach hkept' (recvedWnd_le len pcb)
  rw [tcpRecved, hu, Option.map_some]
  split_ifs
  · exact ⟨tcpAckNow u.1, rfl, hwindow.congr rfl rfl rfl rfl rfl, hwide⟩
  · exact ⟨u.1, rfl, hwindow, hwide⟩

/-! ## What is sent -/

/-- Only the flags and the announced edge change, and the packets that leave carry the same. -/
def Sends (pcb pcb' : Pcb) (acks : List Ack) : Prop :=
  ∃ edge d b, pcb' = { pcb with rcvAnnRightEdge := edge, ackDelay := d, ackNow := b } ∧
    (edge = pcb.rcvAnnRightEdge ∧ acks = [] ∨
      edge = pcb.rcvNxt + BitVec.ofNat 32 pcb.rcvAnnWnd ∧
        ∀ a ∈ acks, a = ⟨pcb.rcvNxt, pcb.rcvAnnWnd⟩)

theorem Sends.refl (pcb : Pcb) : Sends pcb pcb [] := ⟨_, _, _, rfl, .inl ⟨rfl, rfl⟩⟩

theorem Sends.trans {pcb'' : Pcb} {acks acks' : List Ack} (h : Sends pcb pcb' acks)
    (h' : Sends pcb' pcb'' acks') : Sends pcb pcb'' (acks ++ acks') := by
  obtain ⟨edge, d, b, rfl, hedge⟩ := h
  obtain ⟨edge', d', b', rfl, hedge'⟩ := h'
  refine ⟨edge', d', b', rfl, ?_⟩
  rcases hedge with ⟨rfl, rfl⟩ | ⟨rfl, hacks⟩ <;> rcases hedge' with ⟨rfl, rfl⟩ | ⟨rfl, hacks'⟩
  · exact .inl ⟨rfl, rfl⟩
  · exact .inr ⟨rfl, hacks'⟩
  · exact .inr ⟨rfl, by rwa [List.append_nil]⟩
  · exact .inr ⟨rfl, List.forall_mem_append.mpr ⟨hacks, hacks'⟩⟩

theorem Sends.ooseq {acks : List Ack} (h : Sends pcb pcb' acks) : pcb'.ooseq = pcb.ooseq := by
  obtain ⟨edge, d, b, rfl, -⟩ := h
  rfl

theorem Sends.rcvWnd {acks : List Ack} (h : Sends pcb pcb' acks) : pcb'.rcvWnd = pcb.rcvWnd := by
  obtain ⟨edge, d, b, rfl, -⟩ := h
  rfl

theorem sends_tcpAckNow (pcb : Pcb) : Sends pcb (tcpAckNow pcb) [] :=
  ⟨_, _, _, rfl, .inl ⟨rfl, rfl⟩⟩

theorem Sends.setAck {acks : List Ack} (h : Sends pcb pcb' acks) (pending : Bool) :
    Sends pcb (setAck pending pcb') acks := by
  obtain ⟨edge, d, b, rfl, hedge⟩ := h
  exact ⟨edge, pending, pending, rfl, hedge⟩

theorem sends_header (pcb : Pcb) (send : Send) :
    Sends pcb (tcpOutputHeader pcb send).1 (tcpOutputHeader pcb send).2 := by
  cases send with
  | unbuilt => exact .refl pcb
  | failed => exact ⟨_, _, _, rfl, .inr ⟨rfl, by simp [tcpOutputHeader]⟩⟩
  | sent => exact ⟨_, _, _, rfl, .inr ⟨rfl, by simp [tcpOutputHeader]⟩⟩

theorem sends_emptyAck (pcb : Pcb) (send : Send) :
    Sends pcb (tcpSendEmptyAck pcb send).1 (tcpSendEmptyAck pcb send).2 :=
  (sends_header pcb send).setAck _

theorem sends_outputSegments (segs : List Send) (pcb : Pcb) :
    Sends pcb (outputSegments segs pcb).1 (outputSegments segs pcb).2 := by
  induction segs generalizing pcb with
  | nil => exact .refl pcb
  | cons send segs ih =>
    rw [outputSegments]
    split_ifs
    · exact sends_header pcb send
    · exact ((sends_header pcb send).setAck false).trans (ih _)

theorem sends_tcpOutput (segs : List Send) (send : Send) (pcb : Pcb) :
    Sends pcb (tcpOutput segs send pcb).1 (tcpOutput segs send pcb).2 := by
  rw [tcpOutput]
  split_ifs
  · exact sends_emptyAck pcb send
  · exact .refl pcb
  · exact sends_outputSegments segs pcb

theorem sends_tcpFasttmr (segs : List Send) (send : Send) (pcb : Pcb) :
    Sends pcb (tcpFasttmr segs send pcb).1 (tcpFasttmr segs send pcb).2 := by
  rw [tcpFasttmr]
  split_ifs
  · exact (sends_tcpAckNow pcb).trans ((sends_tcpOutput segs send _).setAck false)
  · exact .refl pcb

theorem Sends.window {acks : List Ack} (h : Sends pcb pcb' acks) (hw : Window isn mss N e pcb) :
    ∃ e' ≥ e, Window isn mss N e' pcb' ∧ (Wide mss pcb → Wide mss pcb') ∧
      ∀ a ∈ acks, a = ⟨seq isn N, pcb.rcvAnnWnd⟩ ∧ N + pcb.rcvAnnWnd = e' := by
  obtain ⟨edge, d, b, rfl, hedge⟩ := h
  obtain ⟨hmss, hnxt, he, hreach, hkept, hann, hwnd⟩ := hw
  rcases hedge with ⟨rfl, rfl⟩ | ⟨rfl, hacks⟩
  · exact ⟨e, le_rfl, ⟨hmss, hnxt, he, hreach, hkept, hann, hwnd⟩, id, by simp⟩
  · refine ⟨N + pcb.rcvAnnWnd, hkept, ⟨hmss, hnxt, ?_, ?_, le_rfl, hann, hwnd⟩, id,
      fun a ha => ⟨?_, rfl⟩⟩
    · rw [hnxt, seq_add, Nat.cast_add]
    · exact (Nat.le_add_right ..).trans (Nat.le_succ _)
    · rw [hacks a ha, hnxt]

end EthernetSoc.TcpReceive
