import EthernetSoc.EthernetIf
import EthernetSoc.Lib.Buffer

/-!
# Receiving frames, and sending them again

`low_level_input` copies a received frame out of its slot into the chain that
`pbuf_alloc` hands out, with a log of the bytes it touches and of the write that
gives the slot back. The counters are the 32-bit ones of the source. A chain
with the bytes of a frame, however it is cut, is put back into a slot by
`low_level_output`, among the reader's accesses and completions.
-/

namespace EthernetSoc

def Pbuf.overwrite (q : Pbuf) (src : List Byte) : Pbuf where
  payload := (src ++ q.payload.drop src.length).take q.len
  len_lt := (List.length_take_le _ _).trans_lt q.len_lt

theorem Pbuf.payload_overwrite {q : Pbuf} {src : List Byte} (h : src.length = q.len) :
    (q.overwrite src).payload = src :=
  List.take_left' h

namespace EthernetIf

def Geometry.rxBuf (g : Geometry) (slot : ℕ) : ℕ := g.slotSize * slot

structure Writer where
  evPending : BitVec 32
  slot : ℕ
  length : BitVec 32

abbrev evSramWriter : BitVec 32 := 0x1

inductive RxEvent
  | read (k : ℕ)
  | store (len k : ℕ)
  | evPendingWrite (v : BitVec 32)
  deriving DecidableEq

def RxEvent.InBounds (rxlen : ℕ) : RxEvent → Prop
  | .read k => k < rxlen
  | .store len k => k < len
  | .evPendingWrite _ => True

def copyIn (mem : ℕ → Byte) (src : ℕ) (rxlen : BitVec 32) :
    BitVec 32 → List Pbuf → List Pbuf × List RxEvent
  | _, [] => ([], [])
  | copied, q :: p =>
    let len := BitVec.ofNat 32 q.len
    let chunk := if copied + len ≤ rxlen then len else rxlen - copied
    let r := copyIn mem src rxlen (copied + chunk) p
    (q.overwrite (Buffer.slice mem (src + copied.toNat) chunk.toNat) :: r.1,
      (List.range chunk.toNat).flatMap (fun k => [.read (copied.toNat + k), .store q.len k]) ++ r.2)

/-- `p` is what `pbuf_alloc` returns, an empty list for a null pointer. -/
def lowLevelInput (g : Geometry) (mem : ℕ → Byte) (w : Writer) (p : List Pbuf) :
    List Pbuf × List RxEvent :=
  if w.evPending &&& evSramWriter = 0 then ([], [])
  else
    let r := if p ≠ [] then copyIn mem (g.rxBuf w.slot) w.length 0 p else ([], [])
    (r.1, r.2 ++ [.evPendingWrite evSramWriter])

/-! ## The copy into the chain -/

theorem copyIn_spec (mem : ℕ → Byte) (src : ℕ) {rxlen : BitVec 32} (copied : BitVec 32)
    {p : List Pbuf} (h : copied.toNat + (Pbuf.bytes p).length = rxlen.toNat) :
    Pbuf.bytes (copyIn mem src rxlen copied p).1 =
      Buffer.slice mem (src + copied.toNat) (Pbuf.bytes p).length ∧
    ∀ e ∈ (copyIn mem src rxlen copied p).2,
      e.InBounds rxlen.toNat ∧ ∀ v, e ≠ .evPendingWrite v := by
  induction p generalizing copied with
  | nil => simp [copyIn, Buffer.slice]
  | cons q p ih =>
    rw [Pbuf.bytes_cons, List.length_append] at h
    have hq : q.payload.length = q.len := rfl
    have hlen : (BitVec.ofNat 32 q.len).toNat = q.len := by
      rw [BitVec.toNat_ofNat]
      have := q.len_lt
      omega
    have hsum : (copied + BitVec.ofNat 32 q.len).toNat = copied.toNat + q.len := by
      rw [BitVec.toNat_add, hlen]
      have := rxlen.isLt
      omega
    -- the chain is as long as the frame, so a segment is never clamped
    have hfit : copied + BitVec.ofNat 32 q.len ≤ rxlen := by
      rw [BitVec.le_def, hsum]
      omega
    obtain ⟨hbytes, hlog⟩ := ih (copied + BitVec.ofNat 32 q.len) (by rw [hsum]; omega)
    simp only [copyIn, hfit, if_true, hlen]
    constructor
    · rw [Pbuf.bytes_cons, Pbuf.payload_overwrite (Buffer.length_slice _ _ _), hbytes, hsum,
        ← Nat.add_assoc, ← Buffer.slice_add, Pbuf.bytes_cons, List.length_append, hq]
    · intro e he
      rcases List.mem_append.mp he with hmem | hmem
      · obtain ⟨k, hk, hk'⟩ := List.mem_flatMap.mp hmem
        have hlt := List.mem_range.mp hk
        simp only [List.mem_cons, List.not_mem_nil, or_false] at hk'
        rcases hk' with rfl | rfl
        · exact ⟨by simp only [RxEvent.InBounds]; omega, by simp⟩
        · exact ⟨hlt, by simp⟩
      · exact hlog e hmem

theorem lowLevelInput_spec (g : Geometry) (mem : ℕ → Byte) {w : Writer} {p : List Pbuf}
    (hpending : w.evPending &&& evSramWriter ≠ 0)
    (halloc : p ≠ [] → (Pbuf.bytes p).length = w.length.toNat) :
    (if p = [] then (lowLevelInput g mem w p).1 = []
      else (lowLevelInput g mem w p).1 ≠ [] ∧ Pbuf.bytes (lowLevelInput g mem w p).1 =
        Buffer.slice mem (g.rxBuf w.slot) w.length.toNat) ∧
    ∃ copy, (lowLevelInput g mem w p).2 = copy ++ [.evPendingWrite evSramWriter] ∧
      ∀ e ∈ copy, e.InBounds w.length.toNat ∧ ∀ v, e ≠ .evPendingWrite v := by
  cases p with
  | nil =>
    simp only [lowLevelInput, if_neg hpending]
    exact ⟨rfl, [], rfl, by simp⟩
  | cons q p =>
    have hlen := halloc (by simp)
    obtain ⟨hbytes, hlog⟩ := copyIn_spec mem (g.rxBuf w.slot) 0 ((Nat.zero_add _).trans hlen)
    simp only [lowLevelInput, if_neg hpending, ne_eq, reduceCtorEq, not_false_eq_true, if_true,
      if_false]
    refine ⟨⟨by simp [copyIn], ?_⟩, _, rfl, hlog⟩
    rw [hbytes, hlen]
    rfl

/-! ## A chain on its way out -/

section Send
variable {g : Geometry}

def Drained (s t : State) : Prop :=
  t.txslot = s.txslot ∧ t.returned = s.returned ∧
    t.fifo.map Command.key <:+ s.fifo.map Command.key

/-- The call made in `s` has returned `ERR_OK`, its slot holds `frame`, and its
command was queued behind those of `s`, of which the reader may have completed
some. -/
structure Placed (g : Geometry) (s : State) (p : List Pbuf) (frame : List Byte) (t : State) :
    Prop where
  returned : t.returned = s.returned ++ [(p, .ok)]
  bytes : slotBytes g t.mem s.txslot frame.length = frame
  fifo : t.fifo.map Command.key <:+ s.fifo.map Command.key ++ [(s.txslot, frame.length)]

/-- Where a call of `low_level_output` made in `s` has got to. -/
def Sending (g : Geometry) (s : State) (p : List Pbuf) (t : State) : Prop :=
  match t.cpu with
  | .idle => Placed g s p (Pbuf.bytes p) t
  | .waiting p' => p' = p ∧ Drained s t
  | .copying p' _ _ _ => p' = p ∧ Drained s t

theorem lowLevelOutput_sending {s t : State} {p : List Pbuf} (hinv : Inv g t)
    (hfit : (Pbuf.bytes p).length ≤ g.slotSize) (h : Sending g s p t) :
    Sending g s p (lowLevelOutput g t) := by
  cases hcpu : t.cpu with
  | idle => simpa only [lowLevelOutput, hcpu] using h
  | waiting p' =>
    simp only [Sending, hcpu] at h
    simp only [lowLevelOutput, hcpu]
    split_ifs
    · exact h
    · simpa only [Sending, hcpu] using h
  | copying p' len src rest =>
    have hc := hinv.cpu
    simp only [CpuInv, hcpu] at hc
    simp only [Sending, hcpu] at h
    obtain ⟨rfl, hdrained⟩ := h
    cases src with
    | cons b src =>
      simp only [lowLevelOutput, hcpu]
      exact ⟨rfl, hdrained⟩
    | nil =>
      cases rest with
      | cons q rest =>
        have hlen : q.len = q.payload.length := rfl
        have htotal := congrArg List.length hc.2.2
        simp only [List.length_append, Pbuf.bytes_cons, slotBytes, List.length_map,
          List.length_range, List.length_nil] at htotal
        simp only [lowLevelOutput, hcpu, if_neg (show ¬ len + q.len > g.slotSize by omega)]
        exact ⟨rfl, hdrained⟩
      | nil =>
        obtain ⟨htx, hret, done, hfifo⟩ := hdrained
        have hbytes := hc.2.2
        rw [List.append_nil, Pbuf.bytes_nil, List.append_nil, htx] at hbytes
        have hlen : (Pbuf.bytes p').length = len := by
          rw [hbytes, slotBytes, List.length_map, List.length_range]
        simp only [lowLevelOutput, hcpu]
        refine ⟨by simp [State.readerStart, State.ret, hret], ?_, done, ?_⟩
        · rw [hlen]
          exact hbytes.symm
        · rw [← hfifo, hlen]
          simp [State.readerStart, State.ret, Command.key, htx]

theorem Sending.reader {s t : State} {p : List Pbuf} (h : Sending g s p t) {fifo : List Command}
    (hfifo : fifo.map Command.key <:+ t.fifo.map Command.key) (wire : List (List Byte)) :
    Sending g s p { t with fifo := fifo, wire := wire } := by
  cases hcpu : t.cpu with
  | idle =>
    simp only [Sending, hcpu] at h ⊢
    exact ⟨h.returned, h.bytes, hfifo.trans h.fifo⟩
  | waiting p' =>
    simp only [Sending, hcpu] at h ⊢
    exact ⟨h.1, h.2.1, h.2.2.1, hfifo.trans h.2.2.2⟩
  | copying p' len src rest =>
    simp only [Sending, hcpu] at h ⊢
    exact ⟨h.1, h.2.1, h.2.2.1, hfifo.trans h.2.2.2⟩

theorem step_sending {s t t' : State} {p : List Pbuf} {a : Act} (hinv : Inv g t)
    (hfit : (Pbuf.bytes p).length ≤ g.slotSize) (h : Sending g s p t) (ha : ∀ q, a ≠ .call q)
    (hs : step g t a = some t') : Sending g s p t' := by
  obtain ⟨q, rfl, -⟩ | rfl | ⟨k, j, c, hk, rfl⟩ | ⟨c, rest, hfifo, -, rfl⟩ := step_cases hs
  · exact absurd rfl (ha q)
  · exact lowLevelOutput_sending hinv hfit h
  · have hkeys : (t.fifo.set k (c.fetch j (t.mem (g.txBuf c.slot + j)))).map Command.key =
        t.fifo.map Command.key := map_set_of_eq hk rfl
    exact h.reader (by rw [hkeys]) t.wire
  · apply h.reader
    rw [hfifo]
    exact List.suffix_cons _ _

theorem run_sending {s t t' : State} {p : List Pbuf} {as : List Act} (hinv : Inv g t)
    (hfit : (Pbuf.bytes p).length ≤ g.slotSize) (h : Sending g s p t)
    (has : ∀ q, Act.call q ∉ as) (hs : run g t as = some t') : Sending g s p t' := by
  induction as generalizing t with
  | nil =>
    obtain rfl := Option.some.inj hs
    exact h
  | cons a as ih =>
    obtain ⟨t₁, hstep, hrest⟩ := run_cons_eq_some.mp hs
    have ha : ∀ q, a ≠ .call q := fun q hq => has q (by simp [hq])
    exact ih (step_inv hinv hstep) (step_sending hinv hfit h ha hstep)
      (fun q hq => has q (List.mem_cons_of_mem a hq)) hrest

/-! ## The call returns -/

/-- The call under way can return without another one being made. -/
def Returns (g : Geometry) (t : State) : Prop :=
  ∃ as u, (∀ q, Act.call q ∉ as) ∧ run g t as = some u ∧ u.cpu = .idle

theorem Returns.of_run {t t' : State} {as : List Act} (has : ∀ q, Act.call q ∉ as)
    (hrun : run g t as = some t') (h : Returns g t') : Returns g t := by
  obtain ⟨bs, u, hbs, hu, hidle⟩ := h
  refine ⟨as ++ bs, u, ?_, by rw [run_append hrun, hu], hidle⟩
  intro q hq
  exact (List.mem_append.mp hq).elim (has q) (hbs q)

theorem Returns.of_cpu {t : State} (h : Returns g (lowLevelOutput g t)) : Returns g t :=
  Returns.of_run (by simp : ∀ q, Act.call q ∉ [Act.cpu]) rfl h

theorem returns_segment {p rest : List Pbuf}
    (h : ∀ t len, t.cpu = .copying p len [] rest → Returns g t) {src : List Byte} {t : State}
    {len : ℕ} (hcpu : t.cpu = .copying p len src rest) : Returns g t := by
  induction src generalizing t len with
  | nil => exact h t len hcpu
  | cons b src ih =>
    apply Returns.of_cpu
    simp only [lowLevelOutput, hcpu]
    exact ih rfl

theorem returns_copying {t : State} {p rest : List Pbuf} {len : ℕ} {src : List Byte}
    (hcpu : t.cpu = .copying p len src rest) : Returns g t := by
  induction rest generalizing t len src with
  | nil =>
    refine returns_segment ?_ hcpu
    intro t len hcpu
    apply Returns.of_cpu
    simp only [lowLevelOutput, hcpu]
    exact ⟨[], _, by simp, rfl, rfl⟩
  | cons q rest ih =>
    refine returns_segment ?_ hcpu
    intro t len hcpu
    apply Returns.of_cpu
    simp only [lowLevelOutput, hcpu]
    split_ifs
    · exact ⟨[], _, by simp, rfl, rfl⟩
    · exact ih rfl

theorem returns_of_inv {t : State} (hinv : Inv g t) : Returns g t := by
  -- the reader first completes all its commands, so that it is ready
  obtain ⟨as, u, hreader, hrun, hempty, -⟩ := queue_drains hinv
  have has : ∀ q, Act.call q ∉ as := fun q hq => hreader (.call q) hq
  apply Returns.of_run has hrun
  cases hcpu : u.cpu with
  | idle => exact ⟨[], u, by simp, rfl, hcpu⟩
  | waiting p =>
    apply Returns.of_cpu
    have hready : readerReady g u = true := by simp [readerReady, hempty, g.txSlots_pos]
    simp only [lowLevelOutput, hcpu, hready, if_true]
    exact returns_copying rfl
  | copying p len src rest => exact returns_copying hcpu

end Send

/-- A frame that fits a slot, in any slot and however `pbuf_alloc` cuts the
chain: the chain `low_level_input` returns holds the frame, unless there is
none; it reads nothing behind the frame, and gives the slot back once, as the
last thing. And a call of `low_level_output` for any chain with these bytes, in
any state reached from `ethernetif_init` and among any steps of the reader, can
return, and has put the frame with its length into the slot that was next when
it returns. -/
theorem frames_survive (g : Geometry) (mem : ℕ → Byte) {w : Writer} {p : List Pbuf}
    (hpending : w.evPending &&& evSramWriter ≠ 0) (hfit : w.length.toNat ≤ g.slotSize)
    (halloc : p ≠ [] → (Pbuf.bytes p).length = w.length.toNat) :
    let r := lowLevelInput g mem w p
    let frame := Buffer.slice mem (g.rxBuf w.slot) w.length.toNat
    (if p = [] then r.1 = [] else r.1 ≠ [] ∧ Pbuf.bytes r.1 = frame) ∧
    (∃ copy, r.2 = copy ++ [.evPendingWrite evSramWriter] ∧
      ∀ e ∈ copy, e.InBounds w.length.toNat ∧ ∀ v, e ≠ .evPendingWrite v) ∧
    ∀ mem₀ as s p', run g (ethernetifInit mem₀) as = some s → s.cpu = .idle →
      Pbuf.bytes p' = frame → ∀ as' t, (∀ q, Act.call q ∉ as') →
        run g s (.call p' :: as') = some t →
          Returns g t ∧ (t.cpu = .idle → Placed g s p' frame t ∧
            t.wire ++ t.fifo.map (queued g t.mem) =
              s.wire ++ s.fifo.map (queued g s.mem) ++ [frame]) := by
  intro r frame
  have hframe : frame.length = w.length.toNat := Buffer.length_slice _ _ _
  obtain ⟨hchain, hlog⟩ := lowLevelInput_spec g mem hpending halloc
  refine ⟨hchain, hlog, ?_⟩
  intro mem₀ as s p' hrun hidle hbytes as' t has' hrun'
  have hinv := run_inv (inv_init g mem₀) hrun
  have hstart : run g s [.call p'] = some { s with cpu := .waiting p' } := by
    simp [run, step, hidle]
  have hrest : run g { s with cpu := .waiting p' } as' = some t := by
    rw [← run_append hstart]
    exact hrun'
  have hcalled := hinv.call p'
  have hinv' := run_inv hcalled hrest
  refine ⟨returns_of_inv hinv', ?_⟩
  intro ht
  have hentry : Sending g s p' { s with cpu := .waiting p' } :=
    ⟨rfl, rfl, rfl, List.suffix_rfl⟩
  have hsent := run_sending hcalled (by rw [hbytes, hframe]; exact hfit) hentry has' hrest
  simp only [Sending, ht, hbytes] at hsent
  refine ⟨hsent, ?_⟩
  rw [hinv'.order, hinv.order, hsent.returned, okFrames, okFrames, List.filterMap_append]
  simp [hbytes]

theorem frames_survive_three_bytes :
    ∃ t, Pbuf.bytes (lowLevelInput twoSlots (BitVec.ofNat 8) ⟨1, 1, 3⟩
        [⟨[0], by decide⟩, ⟨[], by decide⟩, ⟨[0, 0], by decide⟩]).1 = [4, 5, 6] ∧
      run twoSlots (ethernetifInit fun _ => 0)
        (.call [⟨[4, 5], by decide⟩, ⟨[6], by decide⟩] :: List.replicate 7 .cpu) = some t ∧
      slotBytes twoSlots t.mem 0 3 = [4, 5, 6] := by
  obtain ⟨hchain, -, hout⟩ := frames_survive twoSlots (BitVec.ofNat 8) (w := ⟨1, 1, 3⟩)
    (p := [⟨[0], by decide⟩, ⟨[], by decide⟩, ⟨[0, 0], by decide⟩]) (by decide) (by decide)
    (fun _ => rfl)
  rw [if_neg (by simp)] at hchain
  obtain ⟨t, ht, hidle⟩ : ∃ t, run twoSlots (ethernetifInit fun _ => 0)
      (.call [⟨[4, 5], by decide⟩, ⟨[6], by decide⟩] :: List.replicate 7 .cpu) = some t ∧
        t.cpu = .idle := ⟨_, rfl, rfl⟩
  obtain ⟨-, hplaced⟩ := hout _ [] _ _ rfl rfl rfl (List.replicate 7 .cpu) t (by simp) ht
  exact ⟨t, hchain.2, ht, (hplaced hidle).1.bytes⟩

end EthernetIf
end EthernetSoc
