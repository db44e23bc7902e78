import EthernetSoc.Heap

/-!
# What the heap's operations do to its blocks

One lemma for each operation, over the list of blocks that the bytes represent:
`mem_free` joins the block with its free neighbours, `mem_malloc` takes the first
free block that is large enough, wherever `lfree` lets the scan begin, and
`mem_trim` gives the end of a block back. None of them fails, except that
`mem_trim` refuses to put a free block at the end of the heap.
-/

namespace EthernetSoc.Heap
open Buffer (slice)
open Tiling

variable {A : Arena}

theorem memInit_rep (m : Ram) : Rep A (memInit A m) [⟨A.size, none⟩] := by
  have hroom := A.room
  have hsmall := A.small
  have hfirst : ptrToMem (memInit A m).ram 0 = ⟨A.size, 0, 0⟩ := by
    rw [memInit, ptrToMem_setPrev_apart (.inr (by omega)), ptrToMem_setNext_apart (.inr (by omega)),
      ptrToMem_setUsed_apart (.inr (by omega)), ptrToMem_setUsed, ptrToMem_setPrev (by decide),
      ptrToMem_setNext (by omega)]
  have hstop : (ptrToMem (memInit A m).ram A.size).used = 1 := by
    rw [memInit, ptrToMem_setPrev (by omega), ptrToMem_setNext (by omega), ptrToMem_setUsed]
  refine ⟨⟨⟨?_, fun data hd => (by cases hd), trivial⟩, ?_, ?_, ?_⟩, List.isChain_singleton _, rfl⟩
  · rw [hfirst, Nat.zero_add]
    rfl
  · exact List.forall_mem_singleton.mpr ⟨A.room, A.four_dvd⟩
  · rw [total_cons, total_nil, Nat.add_zero]
  · rw [hstop]
    decide

section Free
variable {h : State} {pre post : List Blk} {b : Blk}

theorem plugForward_spec (hl : Linked A h.ram (pre ++ b :: post)) (hb : b.owner = none)
    (hfree : h.lfree ≤ total pre) :
    Linked A (plugForward A (total pre) h).ram (pre ++ joinRight b post) ∧
      (plugForward A (total pre) h).lfree = h.lfree ∧
      (plugForward A (total pre) h).ram (total pre + 4) = h.ram (total pre + 4) := by
  obtain ⟨hfills, hb20, hsmall⟩ := hl.bound
  have hhead := hl.header
  by_cases hc : ∀ c ∈ post.head?, c.owner ≠ none
  · have hstay : plugForward A (total pre) h = h := by
      rw [plugForward, hhead]
      exact if_neg fun hcond => hl.used_next hc hcond.2.1
    have hjoin : joinRight b post = b :: post := by
      rcases post with - | ⟨c, post⟩
      · rfl
      · rw [joinRight, if_neg (hc c rfl)]
    rw [hstay, hjoin]
    exact ⟨hl, rfl, rfl⟩
  · rcases post with - | ⟨c, post⟩
    · exact absurd (fun c hc => by cases hc) hc
    · have hfree' : c.owner = none := by
        by_contra hne
        exact hc fun d hd => by cases hd; exact hne
      have hc20 := (hl.sized c (by simp)).1
      have hnext := hl.header_next
      rw [total_cons] at hfills
      have hnum : (ptrToMem (setNext h.ram (total pre) (total pre + b.size + c.size))
          (total pre + b.size)).next = total pre + b.size + c.size := by
        rw [ptrToMem_setNext_apart (.inl (by omega)), hnext]
      have hstep : plugForward A (total pre) h = ⟨linkPrev A (total pre + b.size + c.size)
          (total pre) (setNext h.ram (total pre) (total pre + b.size + c.size)), h.lfree⟩ := by
        rw [plugForward, hhead]
        simp only
        rw [if_pos ⟨by omega, by rw [hnext]; exact flag_eq_zero.mpr hfree', by omega⟩,
          if_neg (by omega), hnext]
        simp only
        rw [hnum]
      rw [hstep, joinRight, if_pos hfree']
      refine ⟨hl.merge hb, rfl, ?_⟩
      simp only
      rw [linkPrev_apart A (by omega), setNext_of_le (by omega)]

theorem plugBackward_spec (hl : Linked A h.ram (pre ++ b :: post)) (hb : b.owner = none)
    (hfree : h.lfree ≤ firstFree 0 (pre ++ b :: post)) :
    Linked A (plugBackward A (total pre) h).ram (joinLeft pre (b :: post)) ∧
      (plugBackward A (total pre) h).lfree = h.lfree ∧
      (plugBackward A (total pre) h).ram (total pre + 4) = h.ram (total pre + 4) := by
  have hhead := hl.header
  have hb20 := hl.bound.2.1
  rcases List.eq_nil_or_concat' pre with rfl | ⟨pre, a, rfl⟩
  · rw [plugBackward, hhead]
    simp only
    rw [if_neg fun hcond => hcond.1 rfl]
    exact ⟨hl, rfl, rfl⟩
  · rw [lastStart_concat, Nat.zero_add] at hhead
    have hstart : total (pre ++ [a]) = total pre + a.size := by
      rw [total_append, total_cons, total_nil, Nat.add_zero]
    rw [hstart] at hhead ⊢
    rw [List.append_assoc] at hl hfree
    have hprev := hl.header
    obtain ⟨hfills, ha20, hsmall⟩ := hl.bound
    rw [joinLeft_concat]
    by_cases ha : a.owner = none
    · have hlow : h.lfree ≤ total pre := by
        have hle : firstFree 0 (pre ++ ([a] ++ b :: post)) ≤ 0 + total pre := firstFree_le ha 0
        omega
      have hnum : (ptrToMem (setNext h.ram (total pre) (total pre + a.size + b.size))
          (total pre + a.size)).next = total pre + a.size + b.size := by
        rw [ptrToMem_setNext_apart (.inl (by omega)), hhead]
      have hstep : plugBackward A (total pre + a.size) h = ⟨linkPrev A
          (total pre + a.size + b.size) (total pre)
          (setNext h.ram (total pre) (total pre + a.size + b.size)), h.lfree⟩ := by
        rw [plugBackward, hhead]
        simp only
        rw [if_pos ⟨by omega, by rw [hprev]; exact flag_eq_zero.mpr ha⟩, if_neg (by omega), hnum]
      rw [hstep, if_pos ha, joinRight, if_pos hb]
      refine ⟨hl.merge ha, rfl, ?_⟩
      simp only
      rw [linkPrev_apart A (by omega), setNext_of_le (by omega)]
    · have hstay : plugBackward A (total pre + a.size) h = h := by
        rw [plugBackward, hhead]
        simp only
        refine if_neg fun hcond => mt flag_eq_zero.mp ha ?_
        rw [hprev] at hcond
        exact hcond.2
      rw [hstay, if_neg ha, List.append_assoc]
      exact ⟨hl, rfl, rfl⟩

theorem memLinkValid_of_linked {m : Ram} (hl : Linked A m (pre ++ b :: post)) :
    memLinkValid A m (total pre) = true := by
  obtain ⟨hfills, hb20, hsmall⟩ := hl.bound
  have hprev : lastStart 0 0 pre ≤ A.size ∧
      (lastStart 0 0 pre = total pre ∨ (ptrToMem m (lastStart 0 0 pre)).next = total pre) := by
    rcases List.eq_nil_or_concat' pre with rfl | ⟨pre, a, rfl⟩
    · exact ⟨Nat.zero_le _, .inl rfl⟩
    · rw [List.append_assoc] at hl
      rw [lastStart_concat, Nat.zero_add, hl.header, total_append, total_cons, total_nil]
      rw [total_append] at hfills
      exact ⟨by omega, .inr rfl⟩
  have hnext : total pre + b.size = A.size ∨
      (ptrToMem m (total pre + b.size)).prev = total pre := by
    rcases post with - | ⟨c, post⟩
    · exact .inl (by rw [total_nil] at hfills; omega)
    · exact .inr (by rw [hl.header_next])
  rw [memLinkValid, hl.header]
  simp only [gt_iff_lt, Bool.not_eq_true', Bool.or_eq_false_iff, decide_eq_false_iff_not,
    Bool.and_eq_false_iff, bne_eq_false_iff_eq]
  exact ⟨⟨⟨by omega, by omega⟩, hprev.2⟩, hnext⟩

theorem linked_setUsed {m : Ram} {owner : Option (List Byte)} {u : Byte}
    (hl : Linked A m (pre ++ b :: post)) (hu : u = flag ⟨b.size, owner⟩)
    (hdata : ∀ data, owner = some data → slice m (total pre + 8) (b.size - 8) = data) :
    Linked A (setUsed m (total pre) u) (pre ++ ⟨b.size, owner⟩ :: post) := by
  obtain ⟨hfills, hb20, hsmall⟩ := hl.bound
  have hl' : Linked A m (pre ++ [b] ++ post) := by
    rw [List.append_assoc]
    exact hl
  rw [← List.singleton_append, ← List.append_assoc]
  refine hl'.patch ?_ rfl (fun j hj => setUsed_apart ?_) ⟨?_, fun data hd => ?_, trivial⟩ rfl
  · exact List.forall_mem_singleton.mpr (hl.sized b (by simp))
  · rw [total_cons, total_nil] at hj
    omega
  · rw [ptrToMem_setUsed, hl.header, hu]
  · rw [← hdata data hd]
    exact Buffer.slice_congr fun j hj _ => setUsed_apart (.inr hj)

theorem memFree_spec (hr : Rep A h (pre ++ b :: post)) (hb : b.owner ≠ none) :
    ∃ h', memFree A (some (total pre + 8)) h = some h' ∧
      Rep A h' (joinLeft pre (joinRight ⟨b.size, none⟩ post)) ∧
      (ptrToMem h'.ram (total pre)).used = 0 := by
  obtain ⟨hfills, hb20, hsmall⟩ := hr.bound
  obtain ⟨hsizepre, hsizepost⟩ := sized_append.mp hr.sized
  have haligned := four_dvd_total hsizepre
  have hlow : (total pre + 8) - 8 = total pre := Nat.add_sub_cancel ..
  have hused : (ptrToMem h.ram (total pre)).used ≠ 0 := by
    rw [hr.header]
    exact mt flag_eq_zero.mp hb
  set h₀ : State := ⟨setUsed h.ram (total pre) 0,
    if total pre < h.lfree then total pre else h.lfree⟩ with hh₀
  have hl₀ : Linked A h₀.ram (pre ++ ⟨b.size, none⟩ :: post) :=
    linked_setUsed hr.toLinked rfl fun data hd => absurd hd (Option.some_ne_none data).symm
  have hlfree₀ : h₀.lfree = firstFree 0 (pre ++ ⟨b.size, none⟩ :: post) := by
    rw [firstFree_insert hsizepre.pos rfl (lt_firstFree_cons hb (by omega) _ post), ← hr.lfree,
      Nat.zero_add]
  have hhead₀ := hl₀.header
  have hle : h₀.lfree ≤ total pre := by
    rw [hlfree₀, ← Nat.zero_add (total pre)]
    exact firstFree_le rfl 0
  obtain ⟨hlf, hlfreef, husedf⟩ := plugForward_spec hl₀ rfl hle
  obtain ⟨d, rest, hjoin, hd⟩ := joinRight_eq_cons (b := (⟨b.size, none⟩ : Blk)) rfl post
  rw [hjoin] at hlf
  have hsame : firstFree 0 (pre ++ d :: rest) = firstFree 0 (pre ++ ⟨b.size, none⟩ :: post) := by
    refine firstFree_append_congr ?_
    rw [firstFree, if_pos hd, firstFree, if_pos rfl]
  obtain ⟨hlb, hlfreeb, husedb⟩ := plugBackward_spec hlf hd (by rw [hlfreef, hlfree₀, hsame])
  refine ⟨plugBackward A (total pre) (plugForward A (total pre) h₀), ?_, ⟨?_, ?_, ?_⟩, ?_⟩
  · rw [memFree, Option.elim_some, if_neg (by omega), if_neg (by omega), hlow]
    simp only
    rw [if_neg hused, if_neg (not_not_intro (memLinkValid_of_linked hr.toLinked)), plugHoles,
      ← hh₀, hhead₀]
    exact if_pos ⟨by omega, rfl, by simp only; omega⟩
  · rwa [hjoin]
  · exact separated_join hr.separated
  · rw [hlfreeb, hlfreef, hlfree₀, firstFree_joinLeft, hjoin, hsame]
  · calc (plugBackward A (total pre) (plugForward A (total pre) h₀)).ram (total pre + 4)
        = h₀.ram (total pre + 4) := by rw [husedb, husedf]
      _ = (ptrToMem h₀.ram (total pre)).used := rfl
      _ = 0 := by rw [hhead₀]; rfl

theorem lookup_freed (hr : Rep A h (pre ++ b :: post)) (q : ℕ) :
    lookup 8 (joinLeft pre (joinRight ⟨b.size, none⟩ post)) q =
      if q = total pre + 8 then none else lookup 8 (pre ++ b :: post) q := by
  obtain ⟨hpre, hpost⟩ := sized_append.mp hr.sized
  have hrest : ∀ c ∈ post, 0 < c.size := fun c hc => hpost.pos c (List.mem_cons_of_mem _ hc)
  have hb : 0 < b.size := hpost.pos b (List.mem_cons_self ..)
  have hjoined : ∀ c ∈ joinRight ⟨b.size, none⟩ post, 0 < c.size := pos_joinRight hb hrest
  rw [lookup_joinLeft hjoined, lookup_append_congr (lookup_joinRight rfl hrest q), Nat.add_comm]
  refine lookup_own hpre.pos hb ?_ q
  rfl

end Free

section Malloc
variable {h : State} {m : Ram} {prev off size : ℕ} {bs : List Blk}

theorem sub32_of_le {a b : ℕ} (h : b ≤ a) (ha : a < 2^32) : sub32 a b = a - b := by
  rw [sub32]
  omega

theorem search_spec (hs : Seg m prev off bs) (hsize : Sized bs) (hend : off + total bs = A.size)
    {fuel : ℕ} (hfuel : bs.length < fuel) :
    search A size m fuel off = some (firstFit (8 + size) off bs) := by
  have hsmall := A.small
  induction bs generalizing prev off fuel with
  | nil =>
    obtain ⟨fuel, rfl⟩ := Nat.exists_eq_add_of_lt hfuel
    rw [total_nil] at hend
    rw [search, if_neg (by omega), firstFit]
  | cons b bs ih =>
    obtain ⟨hhead, -, hrest⟩ := hs
    obtain ⟨hb, hbs⟩ := List.forall_mem_cons.mp hsize
    rw [List.length_cons] at hfuel
    obtain ⟨fuel, rfl⟩ : ∃ f, fuel = f + 1 := ⟨fuel - 1, by omega⟩
    rw [search]
    by_cases hroom : off < A.size - size
    · rw [total_cons] at hend
      have hsub : sub32 (off + b.size) (off + 8) = b.size - 8 := by
        rw [sub32_of_le (by omega) (by omega)]
        omega
      rw [if_pos hroom, hhead]
      simp only
      rw [hsub, firstFit, ih hrest hbs (by omega) (by omega)]
      have hiff : (flag b = 0 ∧ size ≤ b.size - 8) ↔ (b.owner = none ∧ 8 + size ≤ b.size) := by
        rw [flag_eq_zero]
        exact and_congr_right fun _ => by omega
      by_cases hfit : b.owner = none ∧ 8 + size ≤ b.size
      · rw [if_pos (hiff.mpr hfit), if_pos hfit]
      · rw [if_neg fun h => hfit (hiff.mp h), if_neg hfit]
    · rw [if_neg hroom, firstFit_eq_none (by omega)]

theorem nextFree_spec (hs : Seg m prev off bs) (hsize : Sized bs) (hend : off + total bs = A.size)
    {fuel : ℕ} (hfuel : bs.length < fuel) : nextFree A m fuel off = some (firstFree off bs) := by
  induction bs generalizing prev off fuel with
  | nil =>
    obtain ⟨fuel, rfl⟩ := Nat.exists_eq_add_of_lt hfuel
    rw [total_nil] at hend
    rw [nextFree, if_neg fun hcond => hcond.2 (by omega), firstFree]
  | cons b bs ih =>
    obtain ⟨hhead, -, hrest⟩ := hs
    obtain ⟨hb, hbs⟩ := List.forall_mem_cons.mp hsize
    rw [List.length_cons] at hfuel
    obtain ⟨fuel, rfl⟩ : ∃ f, fuel = f + 1 := ⟨fuel - 1, by omega⟩
    rw [total_cons] at hend
    rw [nextFree, hhead, firstFree]
    simp only
    by_cases hfree : b.owner = none
    · rw [if_pos hfree, if_neg fun hcond => hcond.1 (flag_eq_zero.mpr hfree)]
    · rw [if_neg hfree, if_pos ⟨mt flag_eq_zero.mp hfree, by omega⟩,
        ih hrest hbs (by omega) (by omega)]

/-- What `mem_malloc` makes of a free block of `n` bytes: the rest stays free if it has room
for a header and twelve bytes. -/
def claimed (size n : ℕ) (data : List Byte) : List Blk :=
  if size + 20 ≤ n - 8 then [⟨8 + size, some data⟩, ⟨n - (8 + size), none⟩]
  else [⟨n, some data⟩]

theorem claim_spec {pre post : List Blk} {b : Blk} (hl : Linked A m (pre ++ b :: post))
    (hsize : 4 ∣ size) (hmin : 12 ≤ size) (hfit : 8 + size ≤ b.size) :
    ∃ m' data, claim A size (total pre) m = some m' ∧ size ≤ data.length ∧
      Linked A m' (pre ++ claimed size b.size data ++ post) := by
  obtain ⟨hfills, hb20, hsmall⟩ := hl.bound
  have hsub : sub32 (total pre + b.size) (total pre + 8) = b.size - 8 := by
    rw [sub32_of_le (by omega) (by omega)]
    omega
  rw [claim, hl.header]
  simp only
  rw [hsub]
  by_cases hsplit : size + 20 ≤ b.size - 8
  · have hptr2 : (total pre + 8 + size) % 2^16 = total pre + 8 + size := Nat.mod_eq_of_lt (by omega)
    rw [if_pos (by omega), hptr2, if_neg (by omega)]
    set m' := setUsed (carve (total pre) (total pre + 8 + size) (total pre + b.size) m)
      (total pre) 1 with hm'
    have hrest : ptrToMem m' (total pre + 8 + size) = ⟨total pre + b.size, total pre, 0⟩ := by
      rw [hm', ptrToMem_setUsed_apart (.inl (by omega)),
        ptrToMem_carve_ptr2 (by omega) (by omega) (by omega)]
    have hhead : ptrToMem m' (total pre) = ⟨total pre + 8 + size, lastStart 0 0 pre, 1⟩ := by
      rw [hm', ptrToMem_setUsed, ptrToMem_carve_ptr (by omega) (by omega), hl.header]
    have hmid : total [b] = b.size := by rw [total_cons, total_nil, Nat.add_zero]
    have hl' : Linked A m (pre ++ [b] ++ post) := by
      rw [List.append_assoc]
      exact hl
    refine ⟨_, slice m (total pre + 8) size, rfl, (Buffer.length_slice ..).ge, ?_⟩
    have hsame : ∀ j, j < total pre ∨ total pre + 8 ≤ j →
        j < total pre + 8 + size ∨ total pre + 8 + size + 8 ≤ j → m' j = m j := fun j hj hj' => by
      rw [hm', setUsed_apart hj, carve_apart hj hj']
    rw [hrest, claimed, if_pos hsplit, List.append_assoc, ← hmid]
    refine hl'.divide ?_ hsize hmin (by omega) (fun data hd => Option.some.inj hd) hhead ?_ hsame
    · rw [hmid]
      exact (hl.sized b (by simp)).2
    · rw [hrest, hmid]
  · rw [if_neg (by omega)]
    refine ⟨_, slice m (total pre + 8) (b.size - 8), rfl, ?_, ?_⟩
    · rw [Buffer.length_slice]
      omega
    · rw [claimed, if_neg hsplit, List.append_assoc]
      exact linked_setUsed hl rfl fun data hd => Option.some.inj hd

theorem twelve_le_alignSize (k : ℕ) : 12 ≤ alignSize k := by
  rw [alignSize]
  split_ifs <;> omega

theorem four_dvd_alignSize (k : ℕ) : 4 ∣ alignSize k := by
  rw [alignSize]
  split_ifs <;> omega

theorem search_lfree (hr : Rep A h bs) (size : ℕ) :
    search A size h.ram (A.size + 1) h.lfree = some (firstFit (8 + size) 0 bs) := by
  obtain ⟨pre, post, hbs, hpre, hfirst, -⟩ := exists_firstFree 0 bs
  have hlength := length_le_total hr.sized.pos
  have hfills := hr.fills
  have hseg := hr.seg
  have hsized := hr.sized
  rw [hbs, List.length_append] at hlength
  rw [hbs, seg_append] at hseg
  rw [hbs, sized_append] at hsized
  rw [hbs, total_append] at hfills
  rw [hr.lfree, hfirst, search_spec hseg.2 hsized.2 (by omega)]
  · rw [hbs, firstFit_append_of_allOwned hpre]
  · rw [total_append] at hlength
    omega

theorem separated_claimed {pre post : List Blk} {b : Blk} {data : List Byte}
    (hsep : Separated (pre ++ b :: post)) (hb : b.owner = none) :
    Separated (pre ++ claimed size b.size data ++ post) := by
  obtain ⟨hpre, hpost, -⟩ := separated_append.mp hsep
  have hfree := (separated_free hb).mp hpost
  rw [claimed]
  split_ifs
  · rw [List.append_assoc]
    exact (separated_owned (by simp)).mpr ⟨hpre, (separated_free rfl).mpr hfree⟩
  · rw [List.append_assoc]
    exact (separated_owned (by simp)).mpr ⟨hpre, hfree.1⟩

theorem used_firstFree (hl : Linked A m bs) :
    firstFree 0 bs = A.size ∨ (ptrToMem m (firstFree 0 bs)).used = 0 := by
  obtain ⟨pre, post, rfl, -, hfirst, hhead⟩ := exists_firstFree 0 bs
  rw [hfirst, Nat.zero_add]
  rcases post with - | ⟨b, post⟩
  · left
    rw [← hl.fills, total_append, total_nil, Nat.add_zero]
  · right
    rw [hl.header]
    exact flag_eq_zero.mpr (hhead b rfl)

theorem adjustLfree_spec {pre post : List Blk} {b : Blk} {data : List Byte} {lfree : ℕ}
    (hl : Linked A m (pre ++ claimed size b.size data ++ post)) (hb : b.owner = none)
    (hlfree : lfree = firstFree 0 (pre ++ b :: post)) :
    adjustLfree A m (total pre) lfree =
      some (firstFree 0 (pre ++ claimed size b.size data ++ post)) := by
  have hlength := length_le_total hl.sized.pos
  have hfills := hl.fills
  have hseg := hl.seg
  have hsized := hl.sized
  have hused := used_firstFree hl
  rw [List.append_assoc] at hlength hfills hseg hsized hused ⊢
  rw [adjustLfree]
  rw [hfills, List.length_append] at hlength
  rw [total_append] at hfills
  rw [seg_append, Nat.zero_add] at hseg
  rw [sized_append] at hsized
  by_cases hpre : AllOwned pre
  · rw [firstFree_append_of_allOwned hpre, firstFree, if_pos hb, Nat.zero_add] at hlfree
    rw [firstFree_append_of_allOwned hpre, Nat.zero_add] at hused ⊢
    rw [if_pos hlfree.symm, hlfree, nextFree_spec hseg.2 hsized.2 hfills (by omega)]
    exact if_neg fun hcond => hused.elim hcond.1 hcond.2
  · have hlt := firstFree_lt_of_not_allOwned hsized.1.pos hpre 0
    rw [firstFree_append_of_not_allOwned hpre] at hlfree
    rw [if_neg (by omega), firstFree_append_of_not_allOwned hpre, hlfree]

theorem takeBlock_spec {pre post : List Blk} {b : Blk} (hr : Rep A h (pre ++ b :: post))
    (hb : b.owner = none) (hsize : 4 ∣ size) (hmin : 12 ≤ size) (hfit : 8 + size ≤ b.size) :
    ∃ h' data, takeBlock A size (total pre) h = some (h', some (total pre + 8)) ∧
      size ≤ data.length ∧ Rep A h' (pre ++ claimed size b.size data ++ post) := by
  obtain ⟨m', data, hclaim, hlen, hl'⟩ := claim_spec hr.toLinked hsize hmin hfit
  obtain ⟨hfills, -, -⟩ := hr.bound
  have haligned := four_dvd_total (sized_append.mp hr.sized).1
  refine ⟨⟨m', firstFree 0 (pre ++ claimed size b.size data ++ post)⟩, data, ?_, hlen, hl',
    separated_claimed hr.separated hb, rfl⟩
  rw [takeBlock, hclaim, Option.bind_some, adjustLfree_spec hl' hb hr.lfree, Option.bind_some,
    if_neg (by omega)]

theorem memMalloc_eq (hr : Rep A h bs) {sizeIn : ℕ} (hne : sizeIn ≠ 0)
    (hle : alignSize sizeIn ≤ A.size) (hge : sizeIn ≤ alignSize sizeIn) :
    memMalloc A sizeIn h = (firstFit (8 + alignSize sizeIn) 0 bs).elim (some (h, none))
      fun ptr => takeBlock A (alignSize sizeIn) ptr h := by
  rw [memMalloc, if_neg hne, if_neg (by omega), search_lfree hr, Option.bind_some]

theorem memMalloc_spec (hr : Rep A h bs) {sizeIn : ℕ} (hne : sizeIn ≠ 0)
    (hle : alignSize sizeIn ≤ A.size) (hge : sizeIn ≤ alignSize sizeIn) :
    (firstFit (8 + alignSize sizeIn) 0 bs = none ∧ memMalloc A sizeIn h = some (h, none)) ∨
    ∃ pre b post data h', bs = pre ++ b :: post ∧ b.owner = none ∧
      8 + alignSize sizeIn ≤ b.size ∧ alignSize sizeIn ≤ data.length ∧
      memMalloc A sizeIn h = some (h', some (total pre + 8)) ∧
      Rep A h' (pre ++ claimed (alignSize sizeIn) b.size data ++ post) := by
  have hscan := memMalloc_eq hr hne hle hge
  rcases hfit : firstFit (8 + alignSize sizeIn) 0 bs with - | ptr
  · rw [hfit, Option.elim_none] at hscan
    exact .inl ⟨rfl, hscan⟩
  · right
    rw [hfit, Option.elim_some] at hscan
    obtain ⟨pre, b, post, rfl, hb, hsize, rfl⟩ := exists_of_firstFit hfit
    obtain ⟨h', data, htake, hlen, hr'⟩ := takeBlock_spec hr hb (four_dvd_alignSize sizeIn)
      (twelve_le_alignSize sizeIn) hsize
    rw [Nat.zero_add, htake] at hscan
    exact ⟨pre, b, post, data, h', rfl, hb, hsize, hlen, hscan, hr'⟩

theorem slice_claimed {pre post : List Blk} {n : ℕ} {data : List Byte}
    (hl : Linked A m (pre ++ claimed size n data ++ post)) :
    slice m (total pre + 8) data.length = data := by
  rw [claimed, List.append_assoc] at hl
  split_ifs at hl
  all_goals
    rw [hl.length_eq rfl]
    exact hl.slice_eq rfl

theorem lookup_claimed {pre post : List Blk} {b : Blk} {data : List Byte}
    (hsized : Sized (pre ++ b :: post)) (hfit : 8 + size ≤ b.size) (q : ℕ) :
    lookup 8 (pre ++ claimed size b.size data ++ post) q =
      if q = total pre + 8 then some data else lookup 8 (pre ++ b :: post) q := by
  obtain ⟨hpre, hpost⟩ := sized_append.mp hsized
  have hb : 0 < b.size := hpost.pos b (List.mem_cons_self ..)
  rw [claimed, List.append_assoc, Nat.add_comm (total pre)]
  by_cases hsplit : size + 20 ≤ b.size - 8
  · rw [if_pos hsplit]
    refine lookup_swap hpre.pos (List.forall_mem_singleton.mpr hb) ?_ (List.forall_mem_nil _)
      ?_ ?_ q
    · refine List.forall_mem_cons.mpr ⟨?_, List.forall_mem_singleton.mpr ?_⟩ <;> simp only <;> omega
    · exact List.forall_mem_singleton.mpr rfl
    · simp only [total_cons, total_nil]
      omega
  · rw [if_neg hsplit]
    refine lookup_own hpre.pos hb ?_ q
    rfl

end Malloc

section Write
variable {h : State} {pre post : List Blk} {b : Blk} {data : List Byte}

theorem rep_write (hr : Rep A h (pre ++ b :: post)) (hb : b.owner = some data) {i : ℕ}
    (hi : i < data.length) (v : Byte) :
    Rep A ⟨Function.update h.ram (total pre + 8 + i) v, h.lfree⟩
      (pre ++ ⟨b.size, some (data.set i v)⟩ :: post) := by
  have hdata := hr.slice_eq hb
  have hlen := hr.length_eq hb
  have hne : b.owner ≠ none := by
    rw [hb]
    exact Option.some_ne_none data
  have hsep := (separated_owned hne).mp hr.separated
  have hl : Linked A h.ram (pre ++ [b] ++ post) := by
    rw [List.append_assoc]
    exact hr.toLinked
  have hkeep : ∀ j, j ≠ total pre + 8 + i →
      Function.update h.ram (total pre + 8 + i) v j = h.ram j :=
    fun j hj => Function.update_of_ne hj v h.ram
  have hnew : Linked A (Function.update h.ram (total pre + 8 + i) v)
      (pre ++ [⟨b.size, some (data.set i v)⟩] ++ post) := by
    refine hl.patch ?_ rfl (fun j hj => hkeep j ?_) ⟨?_, fun d hd => ?_, trivial⟩ rfl
    · exact List.forall_mem_singleton.mpr (hr.sized b (by simp))
    · rw [total_cons, total_nil] at hj
      omega
    · rw [ptrToMem_congr fun j _ hj => hkeep j (by omega), hr.header, flag, flag, hb]
      rfl
    · rw [← Option.some.inj hd, ← hdata]
      exact Buffer.slice_update ..
  rw [List.append_assoc] at hnew
  refine ⟨hnew, (separated_owned (Option.some_ne_none _)).mpr hsep, ?_⟩
  rw [hr.lfree]
  refine firstFree_append_congr ?_
  rw [firstFree, if_neg hne, firstFree, if_neg (Option.some_ne_none _)]

end Write

section Trim
variable {h : State} {pre post : List Blk} {b : Blk} {data : List Byte}

theorem alignSize_le {k n : ℕ} (hk : k ≤ n) (hn : 4 ∣ n) (hmin : 12 ≤ n) (hsmall : n < 2^16) :
    alignSize k ≤ n ∧ k ≤ alignSize k := by
  rw [alignSize]
  split_ifs <;> omega

theorem linked_insertFree {m : Ram} {more : List Blk} (hl : Linked A m (pre ++ b :: more ++ post))
    (hb : b.owner = some data) {k : ℕ} (hk : 4 ∣ k) (hmin : 12 ≤ k) (hlt : 8 + k ≤ b.size)
    (hroom : 8 + k + 20 ≤ total (b :: more)) :
    Linked A (insertFree A (total pre) (total pre + 8 + k) (total pre + total (b :: more)) m)
      (pre ++ ⟨8 + k, some (data.take k)⟩ :: ⟨total (b :: more) - (8 + k), none⟩ :: post) := by
  have hl' : Linked A m (pre ++ b :: (more ++ post)) := by
    rw [List.append_assoc] at hl
    exact hl
  have hfills := hl.fills_mid
  have hsmall := A.small
  have hrest : ptrToMem (carve (total pre) (total pre + 8 + k) (total pre + total (b :: more)) m)
      (total pre + 8 + k) = ⟨total pre + total (b :: more), total pre, 0⟩ :=
    ptrToMem_carve_ptr2 (by omega) (by omega) (by omega)
  rw [insertFree, hrest]
  refine hl.divide (four_dvd_total (sized_append.mp (sized_append.mp hl.sized).1).2) hk hmin hroom
    (fun d hd => ?_) ?_ hrest fun j hj hj' => carve_apart hj hj'
  · rw [← Option.some.inj hd, ← hl'.slice_eq hb, Buffer.take_slice m _ (by omega)]
  · rw [ptrToMem_carve_ptr (by omega) (by omega), hl'.header, flag, flag, hb]
    rfl

/-- What a trim leaves of the heap: the block keeps its first bytes, and no other block of
the owner's changes. -/
def Trimmed (bs : List Blk) (p newSize : ℕ) (data : List Byte) (bs' : List Blk) : Prop :=
  ∃ len, newSize ≤ len ∧ len ≤ data.length ∧
    ∀ q, lookup 8 bs' q = if q = p then some (data.take len) else lookup 8 bs q

theorem trimmed_divide {more : List Blk} {k n newSize : ℕ}
    (hsized : Sized (pre ++ b :: (more ++ post))) (hmore : ∀ c ∈ more, c.owner = none)
    (hn : newSize ≤ k) (hk : k ≤ data.length) (hpos : 0 < n)
    (htotal : 8 + k + n = total (b :: more)) :
    Trimmed (pre ++ b :: (more ++ post)) (total pre + 8) newSize data
      (pre ++ ⟨8 + k, some (data.take k)⟩ :: ⟨n, none⟩ :: post) := by
  obtain ⟨hpre, hmid⟩ := sized_append.mp hsized
  rw [← List.cons_append, sized_append] at hmid
  refine ⟨k, hn, hk, fun q => ?_⟩
  change lookup 8 (pre ++ ⟨8 + k, some (data.take k)⟩ :: ([⟨n, none⟩] ++ post)) q = _
  rw [Nat.add_comm (total pre)]
  refine lookup_swap hpre.pos hmid.1.pos ?_ hmore (List.forall_mem_singleton.mpr rfl) ?_ q
  · exact List.forall_mem_cons.mpr ⟨Nat.add_pos_left (by decide) _,
      List.forall_mem_singleton.mpr hpos⟩
  · rw [← htotal, total_cons, total_cons, total_nil]
    rfl

section Shrink
variable {k newSize : ℕ} (hb : b.owner = some data) (hk : 4 ∣ k) (hmin : 12 ≤ k)
  (hlt : 8 + k < b.size) (hn : newSize ≤ k)
include hb hk hmin hlt hn

theorem rep_insertFree {more : List Blk} (hl : Linked A h.ram (pre ++ b :: (more ++ post)))
    (hmore : ∀ c ∈ more, c.owner = none) (hroom : 8 + k + 20 ≤ total (b :: more))
    (hpre : Separated pre) (hpost : Separated post) (hhead : ∀ c ∈ post.head?, c.owner ≠ none)
    {lfree : ℕ} (hlfree : lfree = firstFree 0 (pre ++ ⟨8 + k, some (data.take k)⟩ ::
      ⟨total (b :: more) - (8 + k), none⟩ :: post)) :
    ∃ bs', Rep A ⟨insertFree A (total pre) (total pre + 8 + k) (total pre + total (b :: more))
        h.ram, lfree⟩ bs' ∧
      Trimmed (pre ++ b :: (more ++ post)) (total pre + 8) newSize data bs' := by
  have hl' : Linked A h.ram (pre ++ b :: more ++ post) := by
    rw [List.append_assoc]
    exact hl
  have hlen := hl.length_eq hb
  have hnew := linked_insertFree hl' hb hk hmin (by omega) hroom
  refine ⟨_, ⟨hnew, ?_, hlfree⟩, ?_⟩
  · rw [separated_owned (Option.some_ne_none _), separated_free rfl]
    exact ⟨hpre, hpost, hhead⟩
  · exact trimmed_divide hl.sized hmore hn (by omega) (by omega) (by omega)

theorem shrink_free {c : Blk} (hr : Rep A h (pre ++ b :: c :: post)) (hc : c.owner = none) :
    ∃ h' bs', shrink A (total pre) (total pre + b.size) k (b.size - 8) h = some h' ∧
      Rep A h' bs' ∧ Trimmed (pre ++ b :: c :: post) (total pre + 8) newSize data bs' := by
  obtain ⟨hfills, hb20, hsmall⟩ := hr.bound
  rw [total_cons] at hfills
  have hc20 := (hr.sized c (by simp)).1
  have hsizepre := (sized_append.mp hr.sized).1
  have hmid : total [b, c] = b.size + c.size := by rw [total_cons, total_cons, total_nil]; rfl
  have hne : b.owner ≠ none := by
    rw [hb]
    exact Option.some_ne_none data
  have hsep := hr.separated
  rw [separated_owned hne, separated_free hc] at hsep
  have hfree : (ptrToMem h.ram (total pre + b.size)).used = 0 := by
    rw [hr.header_next]
    exact flag_eq_zero.mpr hc
  have hlfree : (if h.lfree = total pre + b.size then total pre + 8 + k else h.lfree) =
      firstFree 0 (pre ++ ⟨8 + k, some (data.take k)⟩ ::
        ⟨total [b, c] - (8 + k), none⟩ :: post) := by
    rw [hr.lfree]
    by_cases hpre : AllOwned pre
    · rw [firstFree_append_of_allOwned hpre, firstFree_append_of_allOwned hpre, firstFree,
        if_neg hne, firstFree, if_pos hc, firstFree, if_neg (Option.some_ne_none _), firstFree,
        if_pos rfl, Nat.zero_add, if_pos rfl, Nat.add_assoc]
    · have hlow := firstFree_lt_of_not_allOwned hsizepre.pos hpre 0
      rw [firstFree_append_of_not_allOwned hpre, firstFree_append_of_not_allOwned hpre,
        if_neg (by omega)]
  have hl : Linked A h.ram (pre ++ b :: ([c] ++ post)) := hr.toLinked
  obtain ⟨bs', hrep, htrim⟩ := rep_insertFree hb hk hmin hlt hn hl
    (List.forall_mem_singleton.mpr hc) (by rw [hmid]; omega) hsep.1 hsep.2.1 hsep.2.2 hlfree
  refine ⟨_, bs', ?_, hrep, htrim⟩
  rw [shrink, if_pos hfree, if_neg (by omega), hr.header_next, hmid,
    Nat.mod_eq_of_lt (a := total pre + 8 + k) (by omega), Nat.add_assoc (total pre) b.size]

theorem shrink_used (hr : Rep A h (pre ++ b :: post)) (hhead : ∀ c ∈ post.head?, c.owner ≠ none)
    (hroom : k + 20 ≤ b.size - 8) (hlast : total pre + b.size ≠ A.size) :
    ∃ h' bs', shrink A (total pre) (total pre + b.size) k (b.size - 8) h = some h' ∧
      Rep A h' bs' ∧ Trimmed (pre ++ b :: post) (total pre + 8) newSize data bs' := by
  obtain ⟨hfills, hb20, hsmall⟩ := hr.bound
  have hsizepre := (sized_append.mp hr.sized).1
  have hmid : total [b] = b.size := by rw [total_cons, total_nil, Nat.add_zero]
  have hne : b.owner ≠ none := by
    rw [hb]
    exact Option.some_ne_none data
  have hsep := (separated_owned hne).mp hr.separated
  have hlfree : (if total pre + 8 + k < h.lfree then total pre + 8 + k else h.lfree) =
      firstFree 0 (pre ++ ⟨8 + k, some (data.take k)⟩ :: ⟨total [b] - (8 + k), none⟩ :: post) := by
    rw [hr.lfree]
    by_cases hpre : AllOwned pre
    · have hle := le_firstFree (total pre + b.size) post
      rw [firstFree_append_of_allOwned hpre, firstFree_append_of_allOwned hpre, firstFree,
        if_neg hne, firstFree, if_neg (Option.some_ne_none _), firstFree,
        if_pos rfl, Nat.zero_add, if_pos (by omega), Nat.add_assoc]
    · have hlow := firstFree_lt_of_not_allOwned hsizepre.pos hpre 0
      rw [firstFree_append_of_not_allOwned hpre, firstFree_append_of_not_allOwned hpre,
        if_neg (by omega)]
  have hl : Linked A h.ram (pre ++ b :: ([] ++ post)) := hr.toLinked
  obtain ⟨bs', hrep, htrim⟩ := rep_insertFree hb hk hmin hlt hn hl
    (fun c hc => absurd hc List.not_mem_nil) (by rw [hmid]; omega) hsep.1 hsep.2 hhead hlfree
  refine ⟨_, bs', ?_, hrep, htrim⟩
  rw [shrink, if_neg (hr.used_next hhead), if_pos (by omega), if_neg hlast, hmid,
    Nat.mod_eq_of_lt (a := total pre + 8 + k) (by omega)]

end Shrink

theorem memTrim_eq (hl : Linked A h.ram (pre ++ b :: post)) {newSize : ℕ}
    (hle : alignSize newSize ≤ b.size - 8) (hge : newSize ≤ alignSize newSize) :
    memTrim A (total pre + 8) newSize h =
      (if alignSize newSize = b.size - 8 then some h
        else shrink A (total pre) (total pre + b.size) (alignSize newSize) (b.size - 8) h).map
        fun h => (h, some (total pre + 8)) := by
  obtain ⟨hfills, hb20, hsmall⟩ := hl.bound
  have hsize : (total pre + b.size + 2^16 - total pre + 2^16 - 8) % 2^16 = b.size - 8 := by omega
  have hptr : total pre + 8 - 8 = total pre := Nat.add_sub_cancel ..
  rw [memTrim, if_neg (by omega), if_neg (by omega)]
  simp only [hptr, hl.header, hsize]
  rw [if_neg (by omega)]
  split_ifs <;> rfl

theorem trimmed_self (hr : Rep A h (pre ++ b :: post)) (hb : b.owner = some data) {newSize : ℕ}
    (hsize : newSize ≤ data.length) :
    Trimmed (pre ++ b :: post) (total pre + 8) newSize data (pre ++ b :: post) := by
  refine ⟨data.length, hsize, le_rfl, fun q => ?_⟩
  rw [List.take_length]
  split_ifs with hq
  · rw [hq, Nat.add_comm, lookup_middle b (sized_append.mp hr.sized).1.pos, hb]
  · rfl

theorem memTrim_spec (hr : Rep A h (pre ++ b :: post)) (hb : b.owner = some data) {newSize : ℕ}
    (hsize : newSize ≤ data.length)
    (hlast : alignSize newSize + 20 ≤ data.length → total pre + b.size ≠ A.size) :
    ∃ h' bs', memTrim A (total pre + 8) newSize h = some (h', some (total pre + 8)) ∧
      Rep A h' bs' ∧ Trimmed (pre ++ b :: post) (total pre + 8) newSize data bs' := by
  obtain ⟨hfills, hb20, hsmall⟩ := hr.bound
  have hfour := (hr.sized b (by simp)).2
  have hlen := hr.length_eq hb
  have hmin := twelve_le_alignSize newSize
  have hdvd := four_dvd_alignSize newSize
  have hsize' : newSize ≤ b.size - 8 := by omega
  obtain ⟨hle, hge⟩ := alignSize_le hsize' (by omega) (by omega) (by omega)
  rw [memTrim_eq hr.toLinked hle hge]
  split_ifs with hexact
  · exact ⟨h, _, rfl, hr, trimmed_self hr hb hsize⟩
  · have hshrink : ∃ h' bs', shrink A (total pre) (total pre + b.size) (alignSize newSize)
        (b.size - 8) h = some h' ∧ Rep A h' bs' ∧
        Trimmed (pre ++ b :: post) (total pre + 8) newSize data bs' := by
      by_cases hhead : ∀ c ∈ post.head?, c.owner ≠ none
      · by_cases hroom : alignSize newSize + 20 ≤ b.size - 8
        · exact shrink_used hb hdvd hmin (by omega) hge hr hhead hroom (hlast (by omega))
        · refine ⟨h, _, ?_, hr, trimmed_self hr hb hsize⟩
          rw [shrink, if_neg (hr.used_next hhead), if_neg (by omega)]
      · rcases post with - | ⟨c, post⟩
        · exact absurd (fun c hc => by cases hc) hhead
        · have hc : c.owner = none := by
            by_contra hne
            exact hhead fun d hd => by cases hd; exact hne
          exact shrink_free hb hdvd hmin (by omega) hge hr hc
    obtain ⟨h', bs', heq, hrep, htrim⟩ := hshrink
    refine ⟨h', bs', ?_, hrep, htrim⟩
    rw [heq, Option.map_some]

theorem memTrim_last (hl : Linked A h.ram (pre ++ [b])) (hb : b.owner = some data) {newSize : ℕ}
    (hsize : newSize ≤ data.length) (hroom : alignSize newSize + 20 ≤ data.length) :
    memTrim A (total pre + 8) newSize h = none := by
  obtain ⟨hfills, hb20, hsmall⟩ := hl.bound
  rw [total_nil, Nat.add_zero] at hfills
  have hfour := (hl.sized b (by simp)).2
  have hlen := hl.length_eq hb
  have hsize' : newSize ≤ b.size - 8 := by omega
  obtain ⟨hle, hge⟩ := alignSize_le hsize' (by omega) (by omega) (by omega)
  rw [memTrim_eq hl hle hge, if_neg (by omega), shrink,
    if_neg (hl.used_next fun c hc => by cases hc), if_pos (by omega), if_pos hfills,
    Option.map_none]

end Trim

end EthernetSoc.Heap
