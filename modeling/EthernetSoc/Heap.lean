import EthernetSoc.Lib.Words
import EthernetSoc.Lib.Buffer
import EthernetSoc.Lib.Tiling
import EthernetSoc.Pbuf

/-!
# The heap of mem.c

The heap is an array of bytes in which every block begins with a `struct mem`:
two offsets of sixteen bits and a byte that says whether the block is in use.
Addresses are offsets from `ram`, and `ram_end` is the offset of the last
`struct mem`. The functions below read and write those bytes as the C code does;
`none` is an assertion that fails, which `cc.h` turns into an endless loop, or a
scan that would never end.
-/

namespace EthernetSoc.Heap
open Words (load store)
open Buffer (slice)
open Tiling

abbrev Ram := ℕ → Byte

structure Mem where
  next : ℕ
  prev : ℕ
  used : Byte
deriving DecidableEq

def ptrToMem (m : Ram) (p : ℕ) : Mem := ⟨(load 2 m p).toNat, (load 2 m (p+2)).toNat, m (p+4)⟩

def setNext (m : Ram) (p v : ℕ) : Ram := store 2 m p (BitVec.ofNat 32 v)
def setPrev (m : Ram) (p v : ℕ) : Ram := store 2 m (p+2) (BitVec.ofNat 32 v)
def setUsed (m : Ram) (p : ℕ) (v : Byte) : Ram := Function.update m (p+4) v

/-- `MEM_SIZE_ALIGNED`: below 64000, so that `mem_size_t` has sixteen bits. -/
structure Arena where
  size : ℕ
  four_dvd : 4 ∣ size
  room : 20 ≤ size
  small : size ≤ 64000

def memSize : Arena := ⟨3 * 1024, by decide, by decide, by decide⟩

structure State where
  ram : Ram
  lfree : ℕ

def sub32 (a b : ℕ) : ℕ := (a + 2^32 - b) % 2^32

def alignSize (k : ℕ) : ℕ :=
  let size := (k + 3) / 4 * 4 % 2^16
  if size < 12 then 12 else size

variable (A : Arena)

def linkPrev (q p : ℕ) (m : Ram) : Ram := if q ≠ A.size then setPrev m q p else m

def plugForward (mem : ℕ) (h : State) : State :=
  let nmem := (ptrToMem h.ram mem).next
  if mem ≠ nmem ∧ (ptrToMem h.ram nmem).used = 0 ∧ nmem ≠ A.size then
    let ram := setNext h.ram mem (ptrToMem h.ram nmem).next
    ⟨linkPrev A (ptrToMem ram nmem).next mem ram, if h.lfree = nmem then mem else h.lfree⟩
  else h

def plugBackward (mem : ℕ) (h : State) : State :=
  let pmem := (ptrToMem h.ram mem).prev
  if pmem ≠ mem ∧ (ptrToMem h.ram pmem).used = 0 then
    let ram := setNext h.ram pmem (ptrToMem h.ram mem).next
    ⟨linkPrev A (ptrToMem ram mem).next pmem ram, if h.lfree = mem then pmem else h.lfree⟩
  else h

def plugHoles (mem : ℕ) (h : State) : Option State :=
  if mem < A.size ∧ (ptrToMem h.ram mem).used = 0 ∧ (ptrToMem h.ram mem).next ≤ A.size then
    some (plugBackward A mem (plugForward A mem h))
  else none

def memInit (m : Ram) : State :=
  let m := setUsed (setPrev (setNext m 0 A.size) 0 0) 0 0
  ⟨setPrev (setNext (setUsed m A.size 1) A.size A.size) A.size A.size, 0⟩

def memLinkValid (m : Ram) (mem : ℕ) : Bool :=
  let h := ptrToMem m mem
  !(h.next > A.size || h.prev > A.size ||
    (h.prev != mem && (ptrToMem m h.prev).next != mem) ||
    (h.next != A.size && (ptrToMem m h.next).prev != mem))

def memFree (rmem : Option ℕ) (h : State) : Option State :=
  rmem.elim (some h) fun rmem =>
    if rmem % 4 ≠ 0 then none
    else if rmem < 8 ∨ A.size < rmem + 12 then none
    else
      let mem := rmem - 8
      if (ptrToMem h.ram mem).used = 0 then none
      else if ¬memLinkValid A h.ram mem then none
      else plugHoles A mem ⟨setUsed h.ram mem 0, if mem < h.lfree then mem else h.lfree⟩

/-- Puts a free block at `ptr2`, between the block at `ptr` and the one at `next`. -/
def carve (ptr ptr2 next : ℕ) (m : Ram) : Ram :=
  setNext (setPrev (setNext (setUsed m ptr2 0) ptr2 next) ptr2 ptr) ptr ptr2

def insertFree (ptr ptr2 next : ℕ) (m : Ram) : Ram :=
  let m := carve ptr ptr2 next m
  linkPrev A (ptrToMem m ptr2).next ptr2 m

/-- The part of `mem_trim` that gives bytes back: `next` is where the block ends. -/
def shrink (ptr next newsize size : ℕ) (h : State) : Option State :=
  let ptr2 := (ptr + 8 + newsize) % 2^16
  if (ptrToMem h.ram next).used = 0 then
    if next = A.size then none
    else some ⟨insertFree A ptr ptr2 (ptrToMem h.ram next).next h.ram,
      if h.lfree = next then ptr2 else h.lfree⟩
  else if newsize + 8 + 12 ≤ size then
    if next = A.size then none
    else some ⟨insertFree A ptr ptr2 next h.ram, if ptr2 < h.lfree then ptr2 else h.lfree⟩
  else some h

def memTrim (rmem newSize : ℕ) (h : State) : Option (State × Option ℕ) :=
  let newsize := alignSize newSize
  if newsize > A.size ∨ newsize < newSize then some (h, none)
  -- below 8 the block's header would lie in front of the heap
  else if rmem < 8 ∨ A.size ≤ rmem then none
  else
    let ptr := rmem - 8
    let next := (ptrToMem h.ram ptr).next
    let size := (next + 2^16 - ptr + 2^16 - 8) % 2^16
    if size < newsize then none
    else if newsize = size then some (h, some rmem)
    else (shrink A ptr next newsize size h).map fun h => (h, some rmem)

/-- The scan of `mem_malloc`. A scan that has not ended after as many steps as the heap
has bytes has come back to a block it has seen, and never ends. -/
def search (size : ℕ) (m : Ram) : ℕ → ℕ → Option (Option ℕ)
  | 0, _ => none
  | fuel+1, ptr =>
    if ptr < A.size - size then
      let mem := ptrToMem m ptr
      if mem.used = 0 ∧ size ≤ sub32 mem.next (ptr + 8) then some (some ptr)
      else search size m fuel mem.next
    else some none

def claim (size ptr : ℕ) (m : Ram) : Option Ram :=
  let next := (ptrToMem m ptr).next
  if size + 8 + 12 ≤ sub32 next (ptr + 8) then
    let ptr2 := (ptr + 8 + size) % 2^16
    if ptr2 = A.size then none
    else
      let m := setUsed (carve ptr ptr2 next m) ptr 1
      some (linkPrev A (ptrToMem m ptr2).next ptr2 m)
  else some (setUsed m ptr 1)

def nextFree (m : Ram) : ℕ → ℕ → Option ℕ
  | 0, _ => none
  | fuel+1, cur =>
    if (ptrToMem m cur).used ≠ 0 ∧ cur ≠ A.size then nextFree m fuel (ptrToMem m cur).next
    else some cur

def adjustLfree (m : Ram) (ptr lfree : ℕ) : Option ℕ :=
  if ptr = lfree then do
    let cur ← nextFree A m (A.size + 1) lfree
    if cur ≠ A.size ∧ (ptrToMem m cur).used ≠ 0 then none else some cur
  else some lfree

/-- What `mem_malloc` does with the block that its scan has stopped at. -/
def takeBlock (size ptr : ℕ) (h : State) : Option (State × Option ℕ) :=
  (claim A size ptr h.ram).bind fun ram =>
    (adjustLfree A ram ptr h.lfree).bind fun lfree =>
      if A.size < ptr + 8 + size ∨ (ptr + 8) % 4 ≠ 0 ∨ ptr % 4 ≠ 0 then none
      else some (⟨ram, lfree⟩, some (ptr + 8))

def memMalloc (sizeIn : ℕ) (h : State) : Option (State × Option ℕ) :=
  let size := alignSize sizeIn
  if sizeIn = 0 then some (h, none)
  else if size > A.size ∨ size < sizeIn then some (h, none)
  else
    (search A size h.ram (A.size + 1) h.lfree).bind fun found =>
      found.elim (some (h, none)) fun ptr => takeBlock A size ptr h

section Bytes
variable {m m' : Ram} {p q v : ℕ}

theorem ptrToMem_congr (h : ∀ j, p ≤ j → j < p+8 → m j = m' j) : ptrToMem m p = ptrToMem m' p := by
  have hnext : load 2 m p = load 2 m' p :=
    Words.load_congr fun j hj hj' => h j (by omega) (by omega)
  have hprev : load 2 m (p+2) = load 2 m' (p+2) :=
    Words.load_congr fun j hj hj' => h j (by omega) (by omega)
  rw [ptrToMem, ptrToMem, hnext, hprev, h (p+4) (by omega) (by omega)]

theorem setNext_of_le {j : ℕ} (h : p+2 ≤ j) : setNext m p v j = m j :=
  Words.store_apart 2 m _ (.inr h)

theorem setNext_apart {j : ℕ} (h : j < p ∨ p+8 ≤ j) : setNext m p v j = m j :=
  Words.store_apart 2 m _ (by omega)

theorem setPrev_apart {j : ℕ} (h : j < p ∨ p+8 ≤ j) : setPrev m p v j = m j :=
  Words.store_apart 2 m _ (by omega)

theorem setUsed_of_ne {j : ℕ} {u : Byte} (h : j ≠ p+4) : setUsed m p u j = m j := by
  rw [setUsed, Function.update_of_ne h]

theorem setUsed_apart {j : ℕ} {u : Byte} (h : j < p ∨ p+8 ≤ j) : setUsed m p u j = m j :=
  setUsed_of_ne (by omega)

theorem ptrToMem_setNext (hv : v < 2^16) :
    ptrToMem (setNext m p v) p = { ptrToMem m p with next := v } := by
  have hprev : load 2 (setNext m p v) (p+2) = load 2 m (p+2) :=
    Words.load_congr fun j hj hj' => Words.store_apart 2 m _ (by omega)
  have hused : setNext m p v (p+4) = m (p+4) := Words.store_apart 2 m _ (by omega)
  have hnext : (load 2 (setNext m p v) p).toNat = v := Words.toNat_load_store_two m p hv
  rw [ptrToMem, hprev, hused, hnext, ptrToMem]

theorem ptrToMem_setPrev (hv : v < 2^16) :
    ptrToMem (setPrev m p v) p = { ptrToMem m p with prev := v } := by
  have hnext : load 2 (setPrev m p v) p = load 2 m p :=
    Words.load_congr fun j hj hj' => Words.store_apart 2 m _ (by omega)
  have hused : setPrev m p v (p+4) = m (p+4) := Words.store_apart 2 m _ (by omega)
  have hprev : (load 2 (setPrev m p v) (p+2)).toNat = v := Words.toNat_load_store_two m (p+2) hv
  rw [ptrToMem, hnext, hused, hprev, ptrToMem]

theorem ptrToMem_setUsed (u : Byte) :
    ptrToMem (setUsed m p u) p = { ptrToMem m p with used := u } := by
  have hnext : load 2 (setUsed m p u) p = load 2 m p :=
    Words.load_congr fun j hj hj' => setUsed_of_ne (by omega)
  have hprev : load 2 (setUsed m p u) (p+2) = load 2 m (p+2) :=
    Words.load_congr fun j hj hj' => setUsed_of_ne (by omega)
  rw [ptrToMem, hnext, hprev, setUsed, Function.update_self, ptrToMem]

section Apart
variable (h : p+8 ≤ q ∨ q+8 ≤ p)
include h

theorem ptrToMem_setNext_apart : ptrToMem (setNext m p v) q = ptrToMem m q :=
  ptrToMem_congr fun _ _ _ => setNext_apart (by omega)

theorem ptrToMem_setPrev_apart : ptrToMem (setPrev m p v) q = ptrToMem m q :=
  ptrToMem_congr fun _ _ _ => setPrev_apart (by omega)

theorem ptrToMem_setUsed_apart (u : Byte) : ptrToMem (setUsed m p u) q = ptrToMem m q :=
  ptrToMem_congr fun _ _ _ => setUsed_apart (by omega)

end Apart

section Carve
variable {ptr ptr2 next : ℕ}

theorem carve_apart {j : ℕ} (h : j < ptr ∨ ptr+8 ≤ j) (h2 : j < ptr2 ∨ ptr2+8 ≤ j) :
    carve ptr ptr2 next m j = m j := by
  rw [carve, setNext_apart h, setPrev_apart h2, setNext_apart h2, setUsed_apart h2]

theorem ptrToMem_carve_ptr2 (h : ptr+8 ≤ ptr2) (h2 : ptr2 < 2^16) (hnext : next < 2^16) :
    ptrToMem (carve ptr ptr2 next m) ptr2 = ⟨next, ptr, 0⟩ := by
  rw [carve, ptrToMem_setNext_apart (.inl h), ptrToMem_setPrev (by omega),
    ptrToMem_setNext hnext, ptrToMem_setUsed]

theorem ptrToMem_carve_ptr (h : ptr+8 ≤ ptr2) (h2 : ptr2 < 2^16) :
    ptrToMem (carve ptr ptr2 next m) ptr = { ptrToMem m ptr with next := ptr2 } := by
  rw [carve, ptrToMem_setNext h2, ptrToMem_setPrev_apart (.inr h), ptrToMem_setNext_apart (.inr h),
    ptrToMem_setUsed_apart (.inr h)]

end Carve

theorem linkPrev_apart {j : ℕ} (h : j < q ∨ q+8 ≤ j) : linkPrev A q p m j = m j := by
  rw [linkPrev]
  split_ifs
  · exact setPrev_apart h
  · rfl

end Bytes

abbrev Blk := Block (List Byte)

def flag (b : Blk) : Byte := if b.owner = none then 0 else 1

theorem flag_eq_zero {b : Blk} : flag b = 0 ↔ b.owner = none := by
  rw [flag]
  split_ifs with h <;> simp [h]

/-- The bytes from `off` on hold these blocks, each with its `struct mem`, linked to the
one before it; what a block's owner has written is its data. -/
def Seg (m : Ram) : ℕ → ℕ → List Blk → Prop
  | _, _, [] => True
  | prev, off, b :: bs =>
    ptrToMem m off = ⟨off + b.size, prev, flag b⟩ ∧
      (∀ data, b.owner = some data → slice m (off+8) (b.size-8) = data) ∧
      Seg m off (off + b.size) bs

def Sized (bs : List Blk) : Prop := ∀ b ∈ bs, 20 ≤ b.size ∧ 4 ∣ b.size

section Segments
variable {m m' : Ram} {prev off : ℕ} {bs : List Blk}

theorem seg_append {xs ys : List Blk} :
    Seg m prev off (xs ++ ys) ↔
      Seg m prev off xs ∧ Seg m (lastStart prev off xs) (off + total xs) ys := by
  induction xs generalizing prev off with
  | nil => rw [List.nil_append, Seg, lastStart, total_nil, Nat.add_zero, true_and]
  | cons x xs ih =>
    rw [List.cons_append, Seg, Seg, ih, lastStart, total_cons, Nat.add_assoc]
    tauto

theorem Seg.congr (hs : Seg m prev off bs) (hsize : Sized bs)
    (h : ∀ j, off ≤ j → j < off + total bs → m' j = m j) : Seg m' prev off bs := by
  induction bs generalizing prev off with
  | nil => trivial
  | cons b bs ih =>
    obtain ⟨hhead, hdata, hrest⟩ := hs
    obtain ⟨hb, hbs⟩ := List.forall_mem_cons.mp hsize
    rw [total_cons] at h
    refine ⟨?_, fun data hd => ?_, ih hrest hbs fun j hj hj' => h j (by omega) (by omega)⟩
    · rw [← hhead]
      exact ptrToMem_congr fun j hj hj' => h j (by omega) (by omega)
    · rw [← hdata data hd]
      exact Buffer.slice_congr fun j hj hj' => h j (by omega) (by omega)

theorem Seg.relink (hs : Seg m prev off bs) (hsize : Sized bs) (hend : off + total bs = A.size)
    {p : ℕ} (hp : p < 2^16) : Seg (linkPrev A off p m) p off bs := by
  rcases bs with - | ⟨b, bs⟩
  · trivial
  · obtain ⟨hhead, hdata, hrest⟩ := hs
    obtain ⟨hb, hbs⟩ := List.forall_mem_cons.mp hsize
    rw [total_cons] at hend
    have hlink : linkPrev A off p m = setPrev m off p := if_pos (by omega)
    refine ⟨?_, fun data hd => ?_, hrest.congr hbs fun j hj _ => ?_⟩
    · rw [hlink, ptrToMem_setPrev hp, hhead]
    · rw [← hdata data hd]
      exact Buffer.slice_congr fun j hj _ => linkPrev_apart A (by omega)
    · exact linkPrev_apart A (by omega)

end Segments

structure Linked (m : Ram) (bs : List Blk) : Prop where
  seg : Seg m 0 0 bs
  sized : Sized bs
  fills : total bs = A.size
  stop : (ptrToMem m A.size).used ≠ 0

structure Rep (h : State) (bs : List Blk) : Prop extends Linked A h.ram bs where
  separated : Separated bs
  lfree : h.lfree = firstFree 0 bs

variable {A}

theorem Sized.pos {bs : List Blk} (h : Sized bs) : ∀ b ∈ bs, 0 < b.size :=
  fun b hb => by have := h b hb; omega

theorem sized_append {xs ys : List Blk} : Sized (xs ++ ys) ↔ Sized xs ∧ Sized ys :=
  List.forall_mem_append

theorem four_dvd_total {bs : List Blk} (h : Sized bs) : 4 ∣ total bs := by
  induction bs with
  | nil => exact dvd_zero 4
  | cons b bs ih =>
    obtain ⟨hb, hbs⟩ := List.forall_mem_cons.mp h
    rw [total_cons]
    exact dvd_add hb.2 (ih hbs)

namespace Linked
variable {m m' : Ram} {pre mid mid' post : List Blk} {b c : Blk}

theorem bound (hl : Linked A m (pre ++ b :: post)) :
    total pre + (b.size + total post) = A.size ∧ 20 ≤ b.size ∧ A.size ≤ 64000 := by
  have hb := hl.sized b (List.mem_append_right _ (List.mem_cons_self ..))
  have hfills := hl.fills
  rw [total_append, total_cons] at hfills
  exact ⟨hfills, hb.1, A.small⟩

theorem header (hl : Linked A m (pre ++ b :: post)) :
    ptrToMem m (total pre) = ⟨total pre + b.size, lastStart 0 0 pre, flag b⟩ := by
  have h := (seg_append.mp hl.seg).2.1
  rwa [Nat.zero_add] at h

theorem header_next (hl : Linked A m (pre ++ b :: c :: post)) :
    ptrToMem m (total pre + b.size) = ⟨total pre + b.size + c.size, total pre, flag c⟩ := by
  have h := (seg_append.mp hl.seg).2.2.2.1
  rwa [Nat.zero_add] at h

theorem slice_eq (hl : Linked A m (pre ++ b :: post)) {data : List Byte}
    (hb : b.owner = some data) : slice m (total pre + 8) (b.size - 8) = data := by
  have hdata := (seg_append.mp hl.seg).2.2.1 data hb
  rwa [Nat.zero_add] at hdata

theorem length_eq (hl : Linked A m (pre ++ b :: post)) {data : List Byte}
    (hb : b.owner = some data) : data.length = b.size - 8 := by
  rw [← hl.slice_eq hb, Buffer.length_slice]

theorem used_next (hl : Linked A m (pre ++ b :: post)) (h : ∀ c ∈ post.head?, c.owner ≠ none) :
    (ptrToMem m (total pre + b.size)).used ≠ 0 := by
  rcases post with - | ⟨c, post⟩
  · have hfills := hl.bound.1
    rw [total_nil, Nat.add_zero] at hfills
    rw [hfills]
    exact hl.stop
  · rw [hl.header_next]
    exact mt flag_eq_zero.mp (h c rfl)

theorem replace (hl : Linked A m (pre ++ mid ++ post)) (hmid' : Sized mid')
    (htotal : total mid' = total mid) (hlow : ∀ j, j < total pre → m' j = m j)
    (hnew : Seg m' (lastStart 0 0 pre) (total pre) mid')
    (hpost : Seg m' (lastStart (lastStart 0 0 pre) (total pre) mid') (total pre + total mid) post)
    (hstop : ∀ j, A.size ≤ j → m' j = m j) : Linked A m' (pre ++ mid' ++ post) := by
  have hsized := hl.sized
  rw [sized_append, sized_append] at hsized
  have hpre := hl.seg
  rw [List.append_assoc, seg_append] at hpre
  refine ⟨?_, ?_, ?_, ?_⟩
  · rw [List.append_assoc, seg_append, seg_append, Nat.zero_add, htotal]
    exact ⟨hpre.1.congr hsized.1.1 fun j _ hj => hlow j (by omega), hnew, hpost⟩
  · rw [sized_append, sized_append]
    exact ⟨⟨hsized.1.1, hmid'⟩, hsized.2⟩
  · rw [← hl.fills, total_append, total_append, htotal, total_append, total_append]
  · rw [ptrToMem_congr fun j hj _ => hstop j hj]
    exact hl.stop

theorem seg_post (hl : Linked A m (pre ++ mid ++ post)) :
    Seg m (lastStart (lastStart 0 0 pre) (total pre) mid) (total pre + total mid) post := by
  have h := hl.seg
  rw [List.append_assoc, seg_append, seg_append, Nat.zero_add] at h
  exact h.2.2

theorem fills_mid (hl : Linked A m (pre ++ mid ++ post)) :
    total pre + total mid + total post = A.size := by
  rw [← hl.fills, total_append, total_append]

/-- Replaces the middle of the heap: the new blocks are in place in `m'`, and the block
after them is linked to the last of them. -/
theorem splice (hl : Linked A m (pre ++ mid ++ post)) (hmid' : Sized mid')
    (htotal : total mid' = total mid)
    (hsame : ∀ j, j < total pre ∨ total pre + total mid ≤ j → m' j = m j)
    (hnew : Seg m' (lastStart 0 0 pre) (total pre) mid') {p q : ℕ}
    (hp : p = lastStart (lastStart 0 0 pre) (total pre) mid') (hq : q = total pre + total mid)
    (hlt : p < 2^16) : Linked A (linkPrev A q p m') (pre ++ mid' ++ post) := by
  subst hp hq
  have hpost := (sized_append.mp hl.sized).2
  have hfills := hl.fills_mid
  refine hl.replace hmid' htotal (fun j hj => ?_) ?_ ?_ fun j hj => ?_
  · rw [linkPrev_apart A (by omega), hsame j (.inl hj)]
  · exact hnew.congr hmid' fun j _ hj => linkPrev_apart A (by omega)
  · exact (hl.seg_post.congr hpost fun j hj _ => hsame j (.inr hj)).relink A hpost hfills hlt
  · -- the link is written inside the heap, in front of the last header
    rw [← hsame j (by omega)]
    rcases post with - | ⟨c, post⟩
    · rw [total_nil] at hfills
      rw [linkPrev, if_neg (not_not_intro (by omega))]
    · have hc := (hpost c (List.mem_cons_self ..)).1
      rw [total_cons] at hfills
      exact linkPrev_apart A (by omega)

theorem patch (hl : Linked A m (pre ++ mid ++ post)) (hmid' : Sized mid')
    (htotal : total mid' = total mid)
    (hsame : ∀ j, j < total pre ∨ total pre + total mid ≤ j → m' j = m j)
    (hnew : Seg m' (lastStart 0 0 pre) (total pre) mid')
    (hlast : lastStart (lastStart 0 0 pre) (total pre) mid' =
      lastStart (lastStart 0 0 pre) (total pre) mid) : Linked A m' (pre ++ mid' ++ post) := by
  have hfills := hl.fills_mid
  refine hl.replace hmid' htotal (fun j hj => hsame j (.inl hj)) hnew ?_ fun j hj =>
    hsame j (by omega)
  rw [hlast]
  exact hl.seg_post.congr (sized_append.mp hl.sized).2 fun j hj _ => hsame j (.inr hj)

-- Both ways of plugging a hole: the first of two neighbours takes over the second.
theorem merge (hl : Linked A m (pre ++ b :: c :: post)) (hb : b.owner = none) :
    Linked A (linkPrev A (total pre + b.size + c.size) (total pre)
      (setNext m (total pre) (total pre + b.size + c.size)))
      (pre ++ ⟨b.size + c.size, none⟩ :: post) := by
  obtain ⟨hfills, hb20, hsmall⟩ := hl.bound
  rw [total_cons] at hfills
  have hsb := hl.sized b (by simp)
  have hsc := hl.sized c (by simp)
  have hmid : total [b, c] = b.size + c.size := by rw [total_cons, total_cons, total_nil]; rfl
  have hl' : Linked A m (pre ++ [b, c] ++ post) := by
    rw [List.append_assoc]
    exact hl
  rw [← List.singleton_append, ← List.append_assoc]
  refine hl'.splice ?_ ?_ ?_ ?_ rfl ?_ (by omega)
  · refine List.forall_mem_singleton.mpr ⟨?_, ?_⟩
    · change 20 ≤ b.size + c.size
      omega
    · exact dvd_add hsb.2 hsc.2
  · rw [hmid, total_cons, total_nil]
    rfl
  · intro j hj
    rw [hmid] at hj
    exact setNext_apart (by omega)
  · refine ⟨?_, fun data hd => absurd hd (Option.some_ne_none data).symm, trivial⟩
    rw [ptrToMem_setNext (by omega), hl.header, flag_eq_zero.mpr hb, Nat.add_assoc]
    rfl
  · rw [hmid, Nat.add_assoc]

theorem divide (hl : Linked A m (pre ++ mid ++ post)) (hmid : 4 ∣ total mid) {k : ℕ}
    (hk : 4 ∣ k) (hmin : 12 ≤ k) (hroom : 8 + k + 20 ≤ total mid) {owner : Option (List Byte)}
    (hdata : ∀ data, owner = some data → slice m (total pre + 8) k = data)
    (hhead : ptrToMem m' (total pre) =
      ⟨total pre + 8 + k, lastStart 0 0 pre, flag ⟨8 + k, owner⟩⟩)
    (hrest : ptrToMem m' (total pre + 8 + k) = ⟨total pre + total mid, total pre, 0⟩)
    (hsame : ∀ j, j < total pre ∨ total pre + 8 ≤ j →
      j < total pre + 8 + k ∨ total pre + 8 + k + 8 ≤ j → m' j = m j) :
    Linked A (linkPrev A (total pre + total mid) (total pre + 8 + k) m')
      (pre ++ ⟨8 + k, owner⟩ :: ⟨total mid - (8 + k), none⟩ :: post) := by
  have hfills := hl.fills_mid
  have hsmall := A.small
  have hsplit : pre ++ ⟨8 + k, owner⟩ :: ⟨total mid - (8 + k), none⟩ :: post =
      pre ++ [⟨8 + k, owner⟩, ⟨total mid - (8 + k), none⟩] ++ post := by
    rw [List.append_assoc]
    rfl
  rw [hsplit]
  refine hl.splice ?_ ?_ (fun j hj => hsame j (by omega) (by omega)) ?_ ?_ rfl (by omega)
  · refine List.forall_mem_cons.mpr ⟨?_, List.forall_mem_singleton.mpr ?_⟩ <;> simp only <;> omega
  · rw [total_cons, total_cons, total_nil]
    simp only
    omega
  · refine ⟨?_, fun data hd => ?_, ?_, fun data hd => ?_, trivial⟩
    · rw [hhead, Nat.add_assoc]
    · rw [← hdata data hd]
      simp only [Nat.add_sub_cancel_left]
      exact Buffer.slice_congr fun j hj hj' => hsame j (.inr hj) (by omega)
    · simp only
      rw [← Nat.add_assoc, hrest, show total pre + 8 + k + (total mid - (8 + k)) =
        total pre + total mid by omega]
      rfl
    · cases hd
  · exact Nat.add_assoc ..

end Linked

end EthernetSoc.Heap
