import EthernetSoc.HeapOps

/-!
# Runs of the heap

A client allocates, frees, trims and writes into what it holds, and a ledger
records what it holds: for each address that `mem_malloc` returned, the bytes as
the client last wrote them. As long as it asks only for what the interface
allows, no call ends in an assertion, and the blocks it holds stay where they
are, apart from one another, with their contents.
-/

namespace EthernetSoc.Heap
open Buffer (slice)
open Tiling

inductive Op
  | malloc (size : ℕ)
  | free (p : ℕ)
  | trim (p size : ℕ)
  | write (p i : ℕ) (v : Byte)

abbrev Ledger := ℕ → Option (List Byte)

def Ledger.record (live : Ledger) (h' : State) (r : Option ℕ) : Op → Ledger
  | .malloc k => r.elim live fun p => Function.update live p (some (slice h'.ram p k))
  | .free p => Function.update live p none
  | .trim p k => Function.update live p ((live p).map (List.take k))
  | .write p i v => Function.update live p ((live p).map fun d => d.set i v)

variable (A : Arena)

def exec : Op → State → Option (State × Option ℕ)
  | .malloc k, h => memMalloc A k h
  | .free p, h => (memFree A (some p) h).map fun h => (h, none)
  | .trim p k, h => memTrim A p k h
  | .write p i v, h => some (⟨Function.update h.ram (p + i) v, h.lfree⟩, none)

/-- What the interface allows. A block that reaches the end of the heap may not be trimmed by
so much that a block could be made of the rest: `mem_trim` asserts that there is one after it. -/
def Allowed (h : State) (live : Ledger) : Op → Prop
  | .malloc k => k < 2^16
  | .free p => live p ≠ none
  | .trim p k => (∃ d, live p = some d ∧ k ≤ d.length) ∧
      ((ptrToMem h.ram (p - 8)).next = A.size → A.size < p + (alignSize k + 20))
  | .write p i _ => ∃ d, live p = some d ∧ i < d.length

inductive Reaches : State → Ledger → Prop
  | init (m : Ram) : Reaches (memInit A m) fun _ => none
  | step {h h' : State} {live : Ledger} {op : Op} {r : Option ℕ} (hrun : Reaches h live)
      (hop : Allowed A h live op) (hexec : exec A op h = some (h', r)) :
      Reaches h' (live.record h' r op)

variable {A} {h : State} {live : Ledger} {bs : List Blk}

/-- The client may hold less of a block than the block has. -/
def Agrees (bs : List Blk) (live : Ledger) : Prop :=
  ∀ p, Option.Rel (fun d data => d <+: data) (live p) (lookup 8 bs p)

theorem agrees_update {bs' : List Blk} (hag : Agrees bs live) {p : ℕ} {o o' : Option (List Byte)}
    (hlook : ∀ q, lookup 8 bs' q = if q = p then o' else lookup 8 bs q)
    (hnew : Option.Rel (fun d data => d <+: data) o o') :
    Agrees bs' (Function.update live p o) := by
  intro q
  rw [hlook]
  by_cases hq : q = p
  · rw [if_pos hq, hq, Function.update_self]
    exact hnew
  · rw [if_neg hq, Function.update_of_ne hq]
    exact hag q

theorem Agrees.exists_block (hag : Agrees bs live) {p : ℕ} {d : List Byte} (hp : live p = some d) :
    ∃ pre b post data, bs = pre ++ b :: post ∧ b.owner = some data ∧ d <+: data ∧
      p = total pre + 8 := by
  have hrel := hag p
  rw [hp] at hrel
  rcases hlook : lookup 8 bs p with - | data
  · rw [hlook] at hrel
    cases hrel
  · rw [hlook] at hrel
    obtain ⟨pre, b, post, hbs, hb, hstart⟩ := exists_of_lookup hlook
    cases hrel with
    | some hsub => exact ⟨pre, b, post, data, hbs, hb, hsub, by omega⟩

theorem Agrees.none_iff (hag : Agrees bs live) (p : ℕ) : live p = none ↔ lookup 8 bs p = none := by
  have hrel := hag p
  generalize live p = o at hrel ⊢
  generalize lookup 8 bs p = o' at hrel ⊢
  cases hrel <;> simp

section Steps
variable (hr : Rep A h bs) (hag : Agrees bs live)
include hr hag

theorem malloc_step (k : ℕ) :
    ∃ h' r bs', memMalloc A k h = some (h', r) ∧ Rep A h' bs' ∧
      Agrees bs' (live.record h' r (.malloc k)) ∧ ∀ p, r = some p → live p = none := by
  by_cases hk : k = 0
  · refine ⟨h, none, bs, ?_, hr, hag, fun p hp => by cases hp⟩
    rw [memMalloc, if_pos hk]
  by_cases hbig : alignSize k > A.size ∨ alignSize k < k
  · refine ⟨h, none, bs, ?_, hr, hag, fun p hp => by cases hp⟩
    rw [memMalloc, if_neg hk, if_pos hbig]
  rw [not_or, not_lt, not_lt] at hbig
  obtain ⟨-, hnull⟩ | ⟨pre, b, post, data, h', rfl, hb, hfit, hlen, hsome, hr'⟩ :=
    memMalloc_spec hr hk hbig.1 hbig.2
  · exact ⟨h, none, bs, hnull, hr, hag, fun p hp => by cases hp⟩
  · refine ⟨h', some (total pre + 8), _, hsome, hr', ?_, fun p hp => ?_⟩
    · refine agrees_update hag (lookup_claimed hr.sized hfit) (.some ?_)
      rw [← slice_claimed hr'.toLinked]
      exact Buffer.slice_isPrefix_slice _ _ (hbig.2.trans hlen)
    · rw [hag.none_iff, ← Option.some.inj hp, Nat.add_comm,
        lookup_middle b (sized_append.mp hr.sized).1.pos, hb]

theorem free_step {p : ℕ} (hp : live p ≠ none) :
    ∃ h' bs', memFree A (some p) h = some h' ∧ Rep A h' bs' ∧
      Agrees bs' (live.record h' none (.free p)) ∧ (ptrToMem h'.ram (p - 8)).used = 0 := by
  obtain ⟨d, hd⟩ := Option.ne_none_iff_exists'.mp hp
  obtain ⟨pre, b, post, data, rfl, hb, -, rfl⟩ := hag.exists_block hd
  obtain ⟨h', hfree, hr', hused⟩ := memFree_spec hr (by rw [hb]; exact Option.some_ne_none data)
  refine ⟨h', _, hfree, hr', agrees_update hag (lookup_freed hr) .none, ?_⟩
  rwa [Nat.add_sub_cancel]

theorem trim_step {p k : ℕ} {d : List Byte} (hp : live p = some d) (hk : k ≤ d.length)
    (hend : (ptrToMem h.ram (p - 8)).next = A.size → A.size < p + (alignSize k + 20)) :
    ∃ h' bs', memTrim A p k h = some (h', some p) ∧ Rep A h' bs' ∧
      Agrees bs' (live.record h' (some p) (.trim p k)) := by
  obtain ⟨pre, b, post, data, rfl, hb, hsub, rfl⟩ := hag.exists_block hp
  rw [Nat.add_sub_cancel, hr.header] at hend
  have hlast : alignSize k + 20 ≤ data.length → total pre + b.size ≠ A.size := by
    intro hroom heq
    have hlen := hr.length_eq hb
    have hlt := hend heq
    omega
  obtain ⟨h', bs', htrim, hr', len, hlen, hlen', hlook⟩ :=
    memTrim_spec hr hb (hk.trans hsub.length_le) hlast
  refine ⟨h', bs', htrim, hr', agrees_update hag hlook ?_⟩
  rw [hp, Option.map_some]
  refine .some ?_
  obtain ⟨t, rfl⟩ := hsub
  have htake : (d ++ t).take k = d.take k := List.take_append_of_le_length hk
  rw [← htake, ← Nat.min_eq_left hlen, ← List.take_take]
  exact List.take_prefix k _

theorem write_step {p i : ℕ} {d : List Byte} (hp : live p = some d) (hi : i < d.length) (v : Byte) :
    ∃ bs', Rep A ⟨Function.update h.ram (p + i) v, h.lfree⟩ bs' ∧
      Agrees bs' (live.record ⟨Function.update h.ram (p + i) v, h.lfree⟩ none (.write p i v)) := by
  obtain ⟨pre, b, post, data, rfl, hb, hsub, rfl⟩ := hag.exists_block hp
  have hi' := hi.trans_le hsub.length_le
  have hlook : ∀ q, lookup 8 (pre ++ ⟨b.size, some (data.set i v)⟩ :: post) q =
      if q = total pre + 8 then some (data.set i v) else lookup 8 (pre ++ b :: post) q := by
    intro q
    rw [Nat.add_comm]
    refine lookup_own (sized_append.mp hr.sized).1.pos (hr.sized.pos b (by simp)) ?_ q
    rfl
  refine ⟨_, rep_write hr hb hi' v, agrees_update hag hlook ?_⟩
  rw [hp, Option.map_some]
  obtain ⟨t, rfl⟩ := hsub
  rw [List.set_append_left _ _ hi]
  exact .some (List.prefix_append _ _)

theorem exec_step {op : Op} (hop : Allowed A h live op) :
    ∃ h' r bs', exec A op h = some (h', r) ∧ Rep A h' bs' ∧ Agrees bs' (live.record h' r op) := by
  cases op with
  | malloc k =>
    obtain ⟨h', r, bs', hexec, hr', hag', -⟩ := malloc_step hr hag k
    exact ⟨h', r, bs', hexec, hr', hag'⟩
  | free p =>
    obtain ⟨h', bs', hfree, hr', hag', -⟩ := free_step hr hag hop
    refine ⟨h', none, bs', ?_, hr', hag'⟩
    rw [exec, hfree, Option.map_some]
  | trim p k =>
    obtain ⟨⟨d, hd, hk⟩, hend⟩ := hop
    obtain ⟨h', bs', htrim, hr', hag'⟩ := trim_step hr hag hd hk hend
    exact ⟨h', some p, bs', htrim, hr', hag'⟩
  | write p i v =>
    obtain ⟨d, hd, hi⟩ := hop
    obtain ⟨bs', hr', hag'⟩ := write_step hr hag hd hi v
    exact ⟨_, none, bs', rfl, hr', hag'⟩

end Steps

theorem Reaches.rep (hrun : Reaches A h live) : ∃ bs, Rep A h bs ∧ Agrees bs live := by
  induction hrun with
  | init m =>
    refine ⟨_, memInit_rep m, fun p => ?_⟩
    rw [lookup_eq_none (List.forall_mem_singleton.mpr rfl)]
    exact .none
  | step hrun hop hexec ih =>
    obtain ⟨bs, hr, hag⟩ := ih
    obtain ⟨h'', r'', bs', hexec', hr', hag'⟩ := exec_step hr hag hop
    cases hexec.symm.trans hexec'
    exact ⟨bs', hr', hag'⟩

theorem Reaches.next (hrun : Reaches A h live) (op : Op) (hop : Allowed A h live op) :
    ∃ h' r, Reaches A h' (live.record h' r op) := by
  obtain ⟨bs, hr, hag⟩ := hrun.rep
  obtain ⟨h', r, -, hexec, -, -⟩ := exec_step hr hag hop
  exact ⟨h', r, .step hrun hop hexec⟩

section Layout
variable (pre : List Blk) {post : List Blk} {b : Blk}

theorem Reaches.malloc (hrun : Reaches A h live) (hr : Rep A h (pre ++ b :: post))
    (hb : b.owner = none) {k : ℕ} (hk : k ≠ 0) (hge : k ≤ alignSize k)
    (hsize : 8 + alignSize k ≤ b.size)
    (hfit : firstFit (8 + alignSize k) 0 (pre ++ b :: post) = some (total pre)) :
    ∃ h' d data, d.length = k ∧ Reaches A h' (Function.update live (total pre + 8) (some d)) ∧
      Rep A h' (pre ++ claimed (alignSize k) b.size data ++ post) := by
  obtain ⟨hfills, -, hsmall⟩ := hr.bound
  obtain ⟨h', data, htake, -, hr'⟩ := takeBlock_spec hr hb (four_dvd_alignSize k)
    (twelve_le_alignSize k) hsize
  have hexec : exec A (.malloc k) h = some (h', some (total pre + 8)) := by
    rw [exec, memMalloc_eq hr hk (by omega) hge, hfit, Option.elim_some, htake]
  have hop : Allowed A h live (.malloc k) := by
    change k < 2^16
    omega
  exact ⟨h', _, data, Buffer.length_slice .., .step hrun hop hexec, hr'⟩

theorem Reaches.free (hrun : Reaches A h live) (hr : Rep A h (pre ++ b :: post))
    (hb : b.owner ≠ none) (hlive : live (total pre + 8) ≠ none) :
    ∃ h', Reaches A h' (Function.update live (total pre + 8) none) ∧
      Rep A h' (joinLeft pre (joinRight ⟨b.size, none⟩ post)) := by
  obtain ⟨h', hfree, hr', -⟩ := memFree_spec hr hb
  have hexec : exec A (.free (total pre + 8)) h = some (h', none) := by
    rw [exec, hfree, Option.map_some]
  have hop : Allowed A h live (.free (total pre + 8)) := hlive
  exact ⟨h', .step hrun hop hexec, hr'⟩

end Layout

theorem reaches_malloc (m : Ram) {k : ℕ} (hk : k ≠ 0) (hge : k ≤ alignSize k)
    (hfit : 8 + alignSize k ≤ A.size) :
    ∃ h d data, d.length = k ∧ Reaches A h (Function.update (fun _ => none) 8 (some d)) ∧
      Rep A h (claimed (alignSize k) A.size data) := by
  obtain ⟨h, d, data, hlen, hrun, hr⟩ := (Reaches.init m).malloc [] (memInit_rep m) rfl
    hk hge hfit (by rw [List.nil_append, firstFit, if_pos ⟨rfl, hfit⟩]; rfl)
  rw [List.append_nil] at hr
  exact ⟨h, d, data, hlen, hrun, hr⟩

theorem reaches_two (m : Ram) {k l p : ℕ} (hk : k ≠ 0 ∧ k ≤ alignSize k)
    (hl : l ≠ 0 ∧ l ≤ alignSize l) (hroom : alignSize k + alignSize l + 36 ≤ A.size)
    (hp : 8 + alignSize k + 8 = p) :
    ∃ h d e data data', d.length = k ∧ e.length = l ∧
      Reaches A h (Function.update (Function.update (fun _ => none) 8 (some d)) p (some e)) ∧
      Rep A h [⟨8 + alignSize k, some data⟩, ⟨8 + alignSize l, some data'⟩,
        ⟨A.size - (8 + alignSize k) - (8 + alignSize l), none⟩] := by
  obtain ⟨h, d, data, hd, hrun, hr⟩ := reaches_malloc (A := A) m hk.1 hk.2 (by omega)
  rw [claimed, if_pos (by omega)] at hr
  have hpre : total [(⟨8 + alignSize k, some data⟩ : Blk)] = 8 + alignSize k := rfl
  have hfit : firstFit (8 + alignSize l) 0 ([⟨8 + alignSize k, some data⟩] ++
      [(⟨A.size - (8 + alignSize k), none⟩ : Blk)]) = some (8 + alignSize k) := by
    rw [List.singleton_append, firstFit, if_neg (by simp), firstFit,
      if_pos ⟨rfl, by simp only; omega⟩, Nat.zero_add]
  obtain ⟨h', e, data', he, hrun', hr'⟩ := hrun.malloc
    [⟨8 + alignSize k, some data⟩] hr rfl hl.1 hl.2
    (by simp only; omega) hfit
  rw [claimed, if_pos (by simp only; omega)] at hr'
  exact ⟨h', d, e, data, data', hd, he, hp ▸ hrun', hr'⟩

theorem block_bounds {pre post : List Blk} {b : Blk} {d data : List Byte}
    (hr : Rep A h (pre ++ b :: post)) (hb : b.owner = some data) (hsub : d <+: data) :
    4 ∣ total pre + 8 ∧ total pre + 8 + d.length ≤ total pre + b.size ∧
      slice h.ram (total pre + 8) d.length = d := by
  have hlen := hr.length_eq hb
  have hle := hsub.length_le
  have hb20 := hr.bound.2.1
  refine ⟨dvd_add (four_dvd_total (sized_append.mp hr.sized).1) (by decide), by omega, ?_⟩
  obtain ⟨t, rfl⟩ := hsub
  rw [← Buffer.take_slice h.ram _ hle, hlen, hr.slice_eq hb, List.take_left]

theorem blocks_apart {pre post pre' post' : List Blk} {b b' : Blk}
    (heq : pre ++ b :: post = pre' ++ b' :: post') (hlt : total pre < total pre') :
    total pre + b.size ≤ total pre' := by
  rcases List.append_eq_append_iff.mp heq with ⟨ys, hpre, hrest⟩ | ⟨ys, hpre, hrest⟩
  · rcases ys with - | ⟨y, ys⟩
    · rw [hpre, List.append_nil] at hlt
      omega
    · rw [List.cons_append, List.cons.injEq] at hrest
      rw [hpre, total_append, total_cons, ← hrest.1]
      omega
  · rw [hpre, total_append] at hlt
    omega

/-- Every run that keeps to the interface is safe. Whatever it may ask for next is carried
out, a block that `mem_malloc` returns is not one that is still held, and every block it
holds is aligned, inside the heap, apart from the others, and as the client left it. -/
theorem heap_safe (hrun : Reaches A h live) :
    (∀ op, Allowed A h live op → ∃ h' r, exec A op h = some (h', r)) ∧
    (∀ k h' p, memMalloc A k h = some (h', some p) → live p = none) ∧
    (∀ p d, live p = some d → 4 ∣ p ∧ 8 ≤ p ∧ p + d.length ≤ A.size ∧
      slice h.ram p d.length = d) ∧
    ∀ p q d e, live p = some d → live q = some e → p < q → p + d.length + 8 ≤ q := by
  obtain ⟨bs, hr, hag⟩ := hrun.rep
  refine ⟨fun op hop => ?_, fun k h' p hmalloc => ?_, fun p d hp => ?_, fun p q d e hp hq hlt => ?_⟩
  · obtain ⟨h', r, -, hexec, -, -⟩ := exec_step hr hag hop
    exact ⟨h', r, hexec⟩
  · obtain ⟨h'', r, -, hmalloc', -, -, hfresh⟩ := malloc_step hr hag k
    cases hmalloc.symm.trans hmalloc'
    exact hfresh p rfl
  · obtain ⟨pre, b, post, data, rfl, hb, hsub, rfl⟩ := hag.exists_block hp
    obtain ⟨halign, hin, hslice⟩ := block_bounds hr hb hsub
    have hfills := hr.bound.1
    exact ⟨halign, by omega, by omega, hslice⟩
  · obtain ⟨pre, b, post, data, rfl, hb, hsub, rfl⟩ := hag.exists_block hp
    obtain ⟨pre', b', post', data', heq, hb', hsub', rfl⟩ := hag.exists_block hq
    obtain ⟨-, hin, -⟩ := block_bounds hr hb hsub
    have hapart := blocks_apart heq (by omega)
    omega

theorem heap_safe_memSize : ∃ (h : State) (live : Ledger) (d : List Byte), Reaches memSize h live ∧
    live 8 = some (d.set 0 7) ∧ d.length = 100 ∧ slice h.ram 8 100 = d.set 0 7 ∧
    live 116 ≠ none ∧ ∃ h' r, exec memSize (.free 116) h = some (h', r) := by
  obtain ⟨h, d, e, -, -, hd, -, hrun, -⟩ := reaches_two (A := memSize) (k := 100) (l := 50)
    (p := 116) (fun _ => 0) (by decide) (by decide) (by decide) rfl
  have hop : Allowed memSize h (Function.update (Function.update (fun _ => none) 8 (some d)) 116
      (some e)) (.write 8 0 7) := ⟨d, by simp, by omega⟩
  obtain ⟨h', r, hrun'⟩ := hrun.next (.write 8 0 7) hop
  obtain ⟨hnext, -, hkept, -⟩ := heap_safe hrun'
  have hslice := (hkept 8 (d.set 0 7) (by simp [Ledger.record])).2.2.2
  rw [List.length_set, hd] at hslice
  exact ⟨h', _, d, hrun', by simp [Ledger.record], hd, hslice, by simp [Ledger.record],
    hnext (.free 116) (by simp [Allowed, Ledger.record])⟩

theorem Seg.unique {m : Ram} {prev off : ℕ} {bs bs' : List Blk} (hs : Seg m prev off bs)
    (hs' : Seg m prev off bs') (hsize : Sized bs) (hsize' : Sized bs')
    (htotal : total bs = total bs') : bs = bs' := by
  induction bs generalizing prev off bs' with
  | nil =>
    rcases bs' with - | ⟨c, bs'⟩
    · rfl
    · have hc := (hsize' c (by simp)).1
      rw [total_nil, total_cons] at htotal
      omega
  | cons b bs ih =>
    rcases bs' with - | ⟨c, bs'⟩
    · have hb := (hsize b (by simp)).1
      rw [total_nil, total_cons] at htotal
      omega
    · obtain ⟨hhead, hdata, hrest⟩ := hs
      obtain ⟨hhead', hdata', hrest'⟩ := hs'
      obtain ⟨hnext, -, hflag⟩ := Mem.mk.inj (hhead.symm.trans hhead')
      obtain ⟨size, owner⟩ := b
      obtain ⟨size', owner'⟩ := c
      obtain rfl : size = size' := by simp only at hnext; omega
      have howner : owner = owner' := by
        cases owner with
        | none => exact (flag_eq_zero.mp (hflag ▸ flag_eq_zero.mpr rfl)).symm
        | some data =>
          cases owner' with
          | none => exact absurd (flag_eq_zero.mp (hflag.trans (flag_eq_zero.mpr rfl))) nofun
          | some data' => rw [← hdata data rfl, ← hdata' data' rfl]
      rw [total_cons, total_cons] at htotal
      rw [howner, ih hrest hrest' (List.forall_mem_cons.mp hsize).2
        (List.forall_mem_cons.mp hsize').2 (by simp only at htotal; omega)]

theorem Rep.unique {bs' : List Blk} (hr : Rep A h bs) (hr' : Rep A h bs') : bs = bs' :=
  hr.seg.unique hr'.seg hr.sized hr'.sized (hr.fills.trans hr'.fills.symm)

/-- `mem_malloc` returns `NULL` only when every stretch of the heap that could hold the block
and its header meets a block in use. -/
theorem memMalloc_null_iff (hrun : Reaches A h live) {k : ℕ} (hk : 0 < k) (hsize : k ≤ A.size) :
    ∃ bs, Rep A h bs ∧ (memMalloc A k h = some (h, none) ↔
      ∀ a, a + (8 + alignSize k) ≤ A.size → ∃ pre b post, bs = pre ++ b :: post ∧
        b.owner ≠ none ∧ total pre < a + (8 + alignSize k) ∧ a < total pre + b.size) := by
  obtain ⟨bs, hr, -⟩ := hrun.rep
  refine ⟨bs, hr, ?_⟩
  have hsmall := A.small
  have hmin := twelve_le_alignSize k
  by_cases hbig : alignSize k > A.size
  · refine iff_of_true ?_ fun a ha => by omega
    rw [memMalloc, if_neg (by omega), if_pos (.inl hbig)]
  have hge : k ≤ alignSize k := by
    rw [alignSize]
    split_ifs <;> omega
  obtain ⟨hfit, hnull⟩ | ⟨pre, b, post, data, h', rfl, hb, hfit, -, hsome, -⟩ :=
    memMalloc_spec hr (by omega) (not_lt.mp hbig) hge
  · refine iff_of_true hnull fun a ha => ?_
    by_contra hgap
    push Not at hgap
    have hlen : 0 < 8 + alignSize k := by omega
    obtain ⟨pre, b, post, rfl, hb, hle, hin⟩ := exists_free_of_gap hr.separated hr.sized.pos
      hlen (Nat.zero_le a) (by rw [Nat.zero_add, hr.fills]; exact ha)
      fun pre b post hbs hb => by have := hgap pre b post hbs hb; omega
    have hfound : (firstFit (8 + alignSize k) 0 (pre ++ b :: post)).isSome :=
      firstFit_isSome hb (by omega)
    rw [hfit] at hfound
    cases hfound
  · have hfills := hr.bound.1
    refine iff_of_false (fun hnull => ?_) fun hmeets => ?_
    · cases hnull.symm.trans hsome
    · obtain ⟨pre', b', post', heq, hb', hlow, hhigh⟩ := hmeets (total pre) (by omega)
      rcases Nat.lt_trichotomy (total pre) (total pre') with hlt | hsame | hgt
      · have hapart := blocks_apart heq hlt
        omega
      · have hlook : lookup 0 (pre ++ b :: post) (0 + total pre) = b.owner :=
          lookup_middle b (sized_append.mp hr.sized).1.pos
        have hsized := hr.sized
        rw [heq] at hlook hsized
        rw [hsame, lookup_middle b' (sized_append.mp hsized).1.pos] at hlook
        exact hb' (hlook.trans hb)
      · have hapart := blocks_apart heq.symm hgt
        omega

-- Two blocks of 1000 bytes, the first one freed again: of 3072 bytes 2064 are free, but no
-- 1108 in a row.
theorem memMalloc_null_iff_memSize : ∃ h live, Reaches memSize h live ∧ live 8 = none ∧
    live 1016 ≠ none ∧ memMalloc memSize 1100 h = some (h, none) := by
  obtain ⟨h, d, e, data, data', -, -, hrun, hr⟩ := reaches_two (A := memSize) (k := 1000)
    (l := 1000) (p := 1016) (fun _ => 0) (by decide) (by decide) (by decide) rfl
  obtain ⟨h', hrun', hr'⟩ := hrun.free [] hr nofun (by simp)
  obtain ⟨bs, hbs, hnull⟩ := memMalloc_null_iff hrun' (k := 1100) (by decide) (by decide)
  refine ⟨h', _, hrun', by simp, by simp, hnull.mpr fun a ha => ?_⟩
  rw [hbs.unique hr']
  refine ⟨[⟨1008, none⟩], ⟨1008, some data'⟩, [⟨1056, none⟩], rfl, nofun, ?_, ?_⟩
  · change 1008 < a + 1108
    omega
  · change a + 1108 ≤ 3072 at ha
    change a < 1008 + 1008
    omega

theorem heap_restored (hrun : Reaches A h live) (hfree : ∀ p, live p = none) :
    ptrToMem h.ram 0 = ⟨A.size, 0, 0⟩ ∧ h.lfree = 0 := by
  obtain ⟨bs, hr, hag⟩ := hrun.rep
  have hall : ∀ pre b post, bs = pre ++ b :: post → b.owner = none := by
    rintro pre b post rfl
    rw [← lookup_middle b (sized_append.mp hr.sized).1.pos]
    exact (hag.none_iff _).mp (hfree _)
  have hroom := A.room
  rcases bs with - | ⟨b, - | ⟨c, bs⟩⟩
  · have hfills := hr.fills
    rw [total_nil] at hfills
    omega
  · have hb := hall [] b [] rfl
    have hhead := (show Linked A h.ram ([] ++ [b]) from hr.toLinked).header
    have hfills := hr.fills
    rw [total_cons, total_nil, Nat.add_zero] at hfills
    rw [total_nil, Nat.zero_add, hfills, flag_eq_zero.mpr hb] at hhead
    exact ⟨hhead, by rw [hr.lfree, firstFree, if_pos hb]⟩
  · have hsep := (separated_free (hall [] b (c :: bs) rfl)).mp hr.separated
    exact absurd (hall [b] c bs rfl) (hsep.2 c rfl)

theorem heap_restored_memSize : ∃ (d e : List Byte) (h h' : State) (live : Ledger),
    Reaches memSize h (Function.update (Function.update (fun _ => none) 8 (some d)) 116 (some e)) ∧
    Reaches memSize h' live ∧ (∀ p, live p = none) ∧ ptrToMem h'.ram 0 = ⟨3072, 0, 0⟩ ∧
    h'.lfree = 0 := by
  obtain ⟨h, d, e, data, data', hd, -, hrun, hr⟩ := reaches_two (A := memSize) (k := 100)
    (l := 50) (p := 116) (fun _ => 0) (by decide) (by decide) (by decide) rfl
  have hhead := (show Linked memSize h.ram ([] ++ _ :: _) from hr.toLinked).header
  have hnext : (ptrToMem h.ram (8 - 8)).next = 108 := congrArg Mem.next hhead
  have htrim : Allowed memSize h (Function.update (Function.update (fun _ => none) 8 (some d)) 116
      (some e)) (.trim 8 20) := by
    refine ⟨⟨d, by simp, by omega⟩, fun hend => ?_⟩
    rw [hnext] at hend
    exact absurd hend (by decide)
  obtain ⟨h₁, r₁, hrun₁⟩ := hrun.next (.trim 8 20) htrim
  obtain ⟨h₂, r₂, hrun₂⟩ := hrun₁.next (.free 116) (by simp [Allowed, Ledger.record])
  obtain ⟨h₃, r₃, hrun₃⟩ := hrun₂.next (.free 8) (by simp [Allowed, Ledger.record])
  obtain ⟨live, hrun', hnone⟩ : ∃ live, Reaches memSize h₃ live ∧ ∀ p, live p = none := by
    refine ⟨_, hrun₃, fun p => ?_⟩
    simp only [Ledger.record, Function.update_apply]
    split_ifs <;> rfl
  exact ⟨d, e, h, h₃, live, hrun, hrun', hnone, heap_restored hrun' hnone⟩

theorem double_free_hangs (hrun : Reaches A h live) {p : ℕ} (hp : live p ≠ none) :
    ∃ h', memFree A (some p) h = some h' ∧ memFree A (some p) h' = none := by
  obtain ⟨bs, hr, hag⟩ := hrun.rep
  obtain ⟨h', -, hfree, -, -, hused⟩ := free_step hr hag hp
  refine ⟨h', hfree, ?_⟩
  rw [memFree, Option.elim_some]
  split_ifs
  · rfl
  · rfl
  · exact if_pos hused

theorem double_free_hangs_memSize : ∃ h h', memFree memSize (some 8) h = some h' ∧
    memFree memSize (some 8) h' = none := by
  obtain ⟨h, d, -, -, hrun, -⟩ := reaches_malloc (A := memSize) (k := 100) (fun _ => 0) (by decide)
    (by decide) (by decide)
  refine ⟨h, double_free_hangs hrun ?_⟩
  rw [Function.update_self]
  exact Option.some_ne_none _

/-- A trim of a block that is held hangs exactly when the block is the last of the heap and has
room for a header and twelve bytes behind its new length. -/
theorem memTrim_hangs_iff (hrun : Reaches A h live) {p k : ℕ} {d : List Byte}
    (hp : live p = some d) (hk : k ≤ d.length) :
    memTrim A p k h = none ↔ (ptrToMem h.ram (p - 8)).next = A.size ∧
      alignSize k + 20 ≤ (ptrToMem h.ram (p - 8)).next - p := by
  obtain ⟨bs, hr, hag⟩ := hrun.rep
  constructor
  · intro hhang
    by_contra hcond
    obtain ⟨h', bs', htrim, -⟩ := trim_step hr hag hp hk fun hend => by
      rw [hend] at hcond
      omega
    rw [hhang] at htrim
    cases htrim
  · rintro ⟨hend, hroom⟩
    rw [hend] at hroom
    obtain ⟨pre, b, post, data, rfl, hb, hsub, rfl⟩ := hag.exists_block hp
    rw [Nat.add_sub_cancel, hr.header] at hend
    simp only at hend
    have hlen := hr.length_eq hb
    have hfills := hr.bound.1
    rcases post with - | ⟨c, post⟩
    · exact memTrim_last hr.toLinked hb (hk.trans hsub.length_le) (by omega)
    · have hc := (hr.sized c (by simp)).1
      rw [total_cons] at hfills
      omega

-- 3045 bytes take the whole heap, since no block could be made of what is left.
theorem memTrim_hangs_memSize : ∃ h live, Reaches memSize h live ∧ live 8 ≠ none ∧
    memTrim memSize 8 3044 h = none := by
  obtain ⟨h, d, data, hd, hrun, hr⟩ := reaches_malloc (A := memSize) (k := 3045) (fun _ => 0)
    (by decide) (by decide) (by decide)
  have hhead := (show Linked memSize h.ram ([] ++ [⟨3072, some data⟩]) from hr.toLinked).header
  have hnext : (ptrToMem h.ram (8 - 8)).next = 3072 := congrArg Mem.next hhead
  refine ⟨h, _, hrun, by simp, (memTrim_hangs_iff hrun (Function.update_self ..) ?_).mpr ?_⟩
  · omega
  · rw [hnext]
    decide

end EthernetSoc.Heap
