import Mathlib.Tactic

/-!
# Tilings of an interval by owned and free blocks

A list of blocks laid one after the other from an offset. `lookup` reads the
owner of the block that starts at an address, `firstFree` is where the first
free block starts and `firstFit` where the first free block of a given size
starts. In a separated tiling no two free blocks touch; every stretch without
an owner then lies inside one free block, so that `firstFit` finds a place
whenever there is one.
-/

namespace EthernetSoc.Tiling

structure Block (α : Type*) where
  size : ℕ
  owner : Option α

variable {α : Type*}

def total (bs : List (Block α)) : ℕ := (bs.map Block.size).sum

@[simp]
theorem total_nil : total ([] : List (Block α)) = 0 := rfl

@[simp]
theorem total_cons (b : Block α) (bs : List (Block α)) : total (b :: bs) = b.size + total bs := by
  rw [total, List.map_cons, List.sum_cons, total]

@[simp]
theorem total_append (xs ys : List (Block α)) : total (xs ++ ys) = total xs + total ys := by
  rw [total, List.map_append, List.sum_append, total, total]

theorem length_le_total {bs : List (Block α)} (hpos : ∀ b ∈ bs, 0 < b.size) :
    bs.length ≤ total bs := by
  induction bs with
  | nil => exact le_rfl
  | cons b bs ih =>
    obtain ⟨hb, hbs⟩ := List.forall_mem_cons.mp hpos
    have hle := ih hbs
    rw [List.length_cons, total_cons]
    omega

def lastStart : ℕ → ℕ → List (Block α) → ℕ
  | prev, _, [] => prev
  | _, off, b :: bs => lastStart off (off + b.size) bs

theorem lastStart_concat (prev off : ℕ) (bs : List (Block α)) (b : Block α) :
    lastStart prev off (bs ++ [b]) = off + total bs := by
  induction bs generalizing prev off with
  | nil => rfl
  | cons c cs ih => rw [List.cons_append, lastStart, ih, total_cons, Nat.add_assoc]

def lookup : ℕ → List (Block α) → ℕ → Option α
  | _, [], _ => none
  | off, b :: bs, p => if p = off then b.owner else lookup (off + b.size) bs p

def firstFree : ℕ → List (Block α) → ℕ
  | off, [] => off
  | off, b :: bs => if b.owner = none then off else firstFree (off + b.size) bs

def firstFit (size : ℕ) : ℕ → List (Block α) → Option ℕ
  | _, [] => none
  | off, b :: bs =>
    if b.owner = none ∧ size ≤ b.size then some off else firstFit size (off + b.size) bs

def Separated (bs : List (Block α)) : Prop :=
  bs.IsChain fun a b => a.owner ≠ none ∨ b.owner ≠ none

def AllOwned (bs : List (Block α)) : Prop := ∀ b ∈ bs, b.owner ≠ none

section Lookup
variable {off p : ℕ} {bs : List (Block α)}

theorem lookup_of_lt (h : p < off) : lookup off bs p = none := by
  induction bs generalizing off with
  | nil => rfl
  | cons b bs ih => rw [lookup, if_neg (by omega), ih (by omega)]

theorem lookup_append_left (xs ys : List (Block α)) (h : p < off + total xs) :
    lookup off (xs ++ ys) p = lookup off xs p := by
  induction xs generalizing off with
  | nil => exact lookup_of_lt (by simpa using h)
  | cons x xs ih =>
    rw [List.cons_append, lookup, lookup, ih (by rw [total_cons] at h; omega)]

variable (hpos : ∀ b ∈ bs, 0 < b.size)
include hpos

theorem lookup_append_right (ys : List (Block α)) (h : off + total bs ≤ p) :
    lookup off (bs ++ ys) p = lookup (off + total bs) ys p := by
  induction bs generalizing off with
  | nil => rfl
  | cons b bs ih =>
    have hb := hpos b (List.mem_cons_self ..)
    rw [total_cons] at h ⊢
    rw [List.cons_append, lookup, if_neg (by omega),
      ih (fun c hc => hpos c (List.mem_cons_of_mem _ hc)) (by omega), Nat.add_assoc]

omit hpos in
theorem exists_of_lookup {a : α} (h : lookup off bs p = some a) :
    ∃ pre b post, bs = pre ++ b :: post ∧ b.owner = some a ∧ p = off + total pre := by
  induction bs generalizing off with
  | nil => cases h
  | cons b bs ih =>
    rw [lookup] at h
    split_ifs at h with hp
    · exact ⟨[], b, bs, rfl, h, by simpa using hp⟩
    · obtain ⟨pre, c, post, rfl, hc, rfl⟩ := ih h
      exact ⟨b :: pre, c, post, rfl, hc, by rw [total_cons, Nat.add_assoc]⟩

end Lookup

section Replace
variable {off : ℕ} {pre mid mid' post : List (Block α)}

theorem lookup_middle (b : Block α) (h : ∀ b ∈ pre, 0 < b.size) :
    lookup off (pre ++ b :: post) (off + total pre) = b.owner := by
  rw [lookup_append_right h _ le_rfl, lookup, if_pos rfl]

-- Only the addresses inside the middle can see that it was replaced.
theorem lookup_replace (hpre : ∀ b ∈ pre, 0 < b.size) (hmid : ∀ b ∈ mid, 0 < b.size)
    (hmid' : ∀ b ∈ mid', 0 < b.size) (htotal : total mid' = total mid) (p : ℕ) :
    lookup off (pre ++ mid' ++ post) p =
      if off + total pre ≤ p ∧ p < off + total pre + total mid then
        lookup (off + total pre) mid' p else lookup off (pre ++ mid ++ post) p := by
  rw [List.append_assoc, List.append_assoc]
  by_cases hlow : p < off + total pre
  · rw [if_neg (by omega), lookup_append_left _ _ hlow, lookup_append_left _ _ hlow]
  · rw [lookup_append_right hpre _ (by omega), lookup_append_right hpre _ (by omega)]
    by_cases hin : p < off + total pre + total mid
    · rw [if_pos (by omega), lookup_append_left _ _ (by omega)]
    · rw [if_neg (by omega), lookup_append_right hmid' _ (by omega),
        lookup_append_right hmid _ (by omega), htotal]

theorem lookup_eq_none {bs : List (Block α)} (h : ∀ b ∈ bs, b.owner = none) (off p : ℕ) :
    lookup off bs p = none := by
  induction bs generalizing off with
  | nil => rfl
  | cons b bs ih =>
    obtain ⟨hb, hbs⟩ := List.forall_mem_cons.mp h
    rw [lookup, hb, ih hbs, ite_self]

/-- Gives the first block of a stretch another owner; the others are free before and after. -/
theorem lookup_swap {a a' : Block α} (hpre : ∀ b ∈ pre, 0 < b.size)
    (hmid : ∀ b ∈ a :: mid, 0 < b.size) (hmid' : ∀ b ∈ a' :: mid', 0 < b.size)
    (hfree : ∀ b ∈ mid, b.owner = none) (hfree' : ∀ b ∈ mid', b.owner = none)
    (htotal : total (a' :: mid') = total (a :: mid)) (p : ℕ) :
    lookup off (pre ++ a' :: (mid' ++ post)) p =
      if p = off + total pre then a'.owner else lookup off (pre ++ a :: (mid ++ post)) p := by
  have ha := hmid a (List.mem_cons_self ..)
  rw [← List.cons_append, ← List.cons_append, ← List.append_assoc, ← List.append_assoc,
    lookup_replace hpre hmid hmid' htotal]
  by_cases hp : p = off + total pre
  · have hin : p < off + total pre + total (a :: mid) := by
      rw [total_cons]
      omega
    rw [if_pos ⟨by omega, hin⟩, if_pos hp, lookup, if_pos hp]
  · rw [if_neg hp]
    split_ifs with hin
    · rw [lookup, if_neg hp, lookup_eq_none hfree', List.append_assoc,
        lookup_append_right hpre _ hin.1, lookup_append_left _ _ hin.2, lookup, if_neg hp,
        lookup_eq_none hfree]
    · rfl

theorem lookup_own {a a' : Block α} (hpre : ∀ b ∈ pre, 0 < b.size) (ha : 0 < a.size)
    (hsize : a'.size = a.size) (p : ℕ) :
    lookup off (pre ++ a' :: post) p =
      if p = off + total pre then a'.owner else lookup off (pre ++ a :: post) p := by
  have hnil : ∀ b ∈ ([] : List (Block α)), b.owner = none := List.forall_mem_nil _
  refine lookup_swap hpre (List.forall_mem_singleton.mpr ha)
    (List.forall_mem_singleton.mpr ?_) hnil hnil ?_ p
  · rw [hsize]
    exact ha
  · rw [total_cons, total_cons, hsize]

end Replace

section FirstFree

theorem le_firstFree (off : ℕ) (bs : List (Block α)) : off ≤ firstFree off bs := by
  induction bs generalizing off with
  | nil => exact le_rfl
  | cons b bs ih =>
    rw [firstFree]
    split_ifs
    · exact le_rfl
    · exact (Nat.le_add_right _ _).trans (ih _)

theorem firstFree_append_of_allOwned {xs : List (Block α)} (h : AllOwned xs) (off : ℕ)
    (ys : List (Block α)) : firstFree off (xs ++ ys) = firstFree (off + total xs) ys := by
  induction xs generalizing off with
  | nil => rfl
  | cons x xs ih =>
    rw [List.cons_append, firstFree, if_neg (h x (List.mem_cons_self ..)),
      ih fun b hb => h b (List.mem_cons_of_mem _ hb), total_cons, Nat.add_assoc]

theorem firstFree_append_of_not_allOwned {xs : List (Block α)} (h : ¬AllOwned xs) (off : ℕ)
    (ys : List (Block α)) : firstFree off (xs ++ ys) = firstFree off xs := by
  induction xs generalizing off with
  | nil => exact absurd (fun b hb => absurd hb (List.not_mem_nil)) h
  | cons x xs ih =>
    rw [List.cons_append, firstFree, firstFree]
    by_cases hx : x.owner = none
    · rw [if_pos hx, if_pos hx]
    · rw [if_neg hx, if_neg hx]
      exact ih (fun hxs => h (List.forall_mem_cons.mpr ⟨hx, hxs⟩)) _

theorem firstFree_lt_of_not_allOwned {xs : List (Block α)} (hpos : ∀ b ∈ xs, 0 < b.size)
    (h : ¬AllOwned xs) (off : ℕ) : firstFree off xs < off + total xs := by
  induction xs generalizing off with
  | nil => exact absurd (fun b hb => absurd hb (List.not_mem_nil)) h
  | cons x xs ih =>
    have hx := hpos x (List.mem_cons_self ..)
    rw [firstFree, total_cons]
    split_ifs with hnone
    · omega
    · rw [← Nat.add_assoc]
      exact ih (fun b hb => hpos b (List.mem_cons_of_mem _ hb))
        (fun hxs => h (List.forall_mem_cons.mpr ⟨hnone, hxs⟩)) _

theorem firstFree_le {pre post : List (Block α)} {b : Block α} (hb : b.owner = none) (off : ℕ) :
    firstFree off (pre ++ b :: post) ≤ off + total pre := by
  induction pre generalizing off with
  | nil => rw [List.nil_append, firstFree, if_pos hb, total_nil, Nat.add_zero]
  | cons c pre ih =>
    rw [List.cons_append, firstFree, total_cons]
    split_ifs
    · exact Nat.le_add_right _ _
    · rw [← Nat.add_assoc]
      exact ih _

theorem firstFree_insert {pre xs ys : List (Block α)} {b : Block α}
    (hpos : ∀ b ∈ pre, 0 < b.size) (hb : b.owner = none) {off : ℕ}
    (hys : off + total pre < firstFree (off + total pre) ys) :
    firstFree off (pre ++ b :: xs) =
      if off + total pre < firstFree off (pre ++ ys) then off + total pre
      else firstFree off (pre ++ ys) := by
  by_cases hpre : AllOwned pre
  · rw [firstFree_append_of_allOwned hpre, firstFree_append_of_allOwned hpre, if_pos hys,
      firstFree, if_pos hb]
  · have hlt := firstFree_lt_of_not_allOwned hpos hpre off
    rw [firstFree_append_of_not_allOwned hpre, firstFree_append_of_not_allOwned hpre,
      if_neg (by omega)]

theorem lt_firstFree_cons {b : Block α} (hb : b.owner ≠ none) (hpos : 0 < b.size) (off : ℕ)
    (bs : List (Block α)) : off < firstFree off (b :: bs) := by
  have hle := le_firstFree (off + b.size) bs
  rw [firstFree, if_neg hb]
  omega

theorem exists_firstFree (off : ℕ) (bs : List (Block α)) :
    ∃ pre post, bs = pre ++ post ∧ AllOwned pre ∧ firstFree off bs = off + total pre ∧
      ∀ b ∈ post.head?, b.owner = none := by
  induction bs generalizing off with
  | nil => exact ⟨[], [], rfl, fun _ h => absurd h List.not_mem_nil, rfl, fun _ h => by cases h⟩
  | cons b bs ih =>
    by_cases hb : b.owner = none
    · refine ⟨[], b :: bs, rfl, fun _ h => absurd h List.not_mem_nil, ?_, fun c hc => ?_⟩
      · rw [firstFree, if_pos hb, total_nil, Nat.add_zero]
      · cases hc
        exact hb
    · obtain ⟨pre, post, rfl, hpre, hfirst, hhead⟩ := ih (off + b.size)
      refine ⟨b :: pre, post, rfl, List.forall_mem_cons.mpr ⟨hb, hpre⟩, ?_, hhead⟩
      rw [firstFree, if_neg hb, hfirst, total_cons, Nat.add_assoc]

theorem firstFit_append_of_allOwned {xs : List (Block α)} (h : AllOwned xs) (size off : ℕ)
    (ys : List (Block α)) :
    firstFit size off (xs ++ ys) = firstFit size (off + total xs) ys := by
  induction xs generalizing off with
  | nil => rfl
  | cons x xs ih =>
    rw [List.cons_append, firstFit, if_neg fun hx => h x (List.mem_cons_self ..) hx.1,
      ih fun b hb => h b (List.mem_cons_of_mem _ hb), total_cons, Nat.add_assoc]

theorem firstFit_eq_none {size : ℕ} {bs : List (Block α)} (h : total bs < size) (off : ℕ) :
    firstFit size off bs = none := by
  induction bs generalizing off with
  | nil => rfl
  | cons b bs ih =>
    rw [total_cons] at h
    rw [firstFit, if_neg (by omega), ih (by omega)]

theorem exists_of_firstFit {size off p : ℕ} {bs : List (Block α)}
    (h : firstFit size off bs = some p) :
    ∃ pre b post, bs = pre ++ b :: post ∧ b.owner = none ∧ size ≤ b.size ∧
      p = off + total pre := by
  induction bs generalizing off with
  | nil => cases h
  | cons b bs ih =>
    rw [firstFit] at h
    split_ifs at h with hb
    · cases h
      exact ⟨[], b, bs, rfl, hb.1, hb.2, rfl⟩
    · obtain ⟨pre, c, post, rfl, hc, hsize, rfl⟩ := ih h
      exact ⟨b :: pre, c, post, rfl, hc, hsize, by rw [total_cons, Nat.add_assoc]⟩

theorem firstFit_isSome {size off : ℕ} {pre post : List (Block α)} {b : Block α}
    (hb : b.owner = none) (hsize : size ≤ b.size) :
    (firstFit size off (pre ++ b :: post)).isSome := by
  induction pre generalizing off with
  | nil => rw [List.nil_append, firstFit, if_pos ⟨hb, hsize⟩, Option.isSome_some]
  | cons c pre ih =>
    rw [List.cons_append, firstFit]
    split_ifs
    · rfl
    · exact ih

end FirstFree

section Separated

theorem separated_append {xs ys : List (Block α)} :
    Separated (xs ++ ys) ↔ Separated xs ∧ Separated ys ∧
      ∀ a ∈ xs.getLast?, ∀ b ∈ ys.head?, a.owner ≠ none ∨ b.owner ≠ none :=
  List.isChain_append

theorem separated_owned {pre post : List (Block α)} {b : Block α} (hb : b.owner ≠ none) :
    Separated (pre ++ b :: post) ↔ Separated pre ∧ Separated post := by
  rw [separated_append]
  constructor
  · rintro ⟨hpre, hpost, -⟩
    exact ⟨hpre, hpost.of_cons⟩
  · rintro ⟨hpre, hpost⟩
    refine ⟨hpre, ?_, fun a _ c hc => .inr (by cases hc; exact hb)⟩
    rcases post with - | ⟨c, post⟩
    · exact List.isChain_singleton b
    · exact List.isChain_cons_cons.mpr ⟨.inl hb, hpost⟩

theorem separated_free {post : List (Block α)} {b : Block α} (hb : b.owner = none) :
    Separated (b :: post) ↔ Separated post ∧ ∀ c ∈ post.head?, c.owner ≠ none := by
  rcases post with - | ⟨c, post⟩
  · exact ⟨fun _ => ⟨List.isChain_nil, fun c hc => by cases hc⟩, fun _ => List.isChain_singleton b⟩
  · rw [Separated, List.isChain_cons_cons]
    constructor
    · rintro ⟨hc, hpost⟩
      exact ⟨hpost, fun d hd => by cases hd; exact hc.resolve_left (not_not_intro hb)⟩
    · rintro ⟨hpost, hc⟩
      exact ⟨.inr (hc c rfl), hpost⟩

/-- In a separated tiling, what has no owner anywhere is inside one free block. -/
theorem exists_free_of_gap {off a len : ℕ} {bs : List (Block α)} (hsep : Separated bs)
    (hpos : ∀ b ∈ bs, 0 < b.size) (hlen : 0 < len) (hoff : off ≤ a)
    (hend : a + len ≤ off + total bs)
    (hgap : ∀ pre b post, bs = pre ++ b :: post → b.owner ≠ none →
      off + total pre + b.size ≤ a ∨ a + len ≤ off + total pre) :
    ∃ pre b post, bs = pre ++ b :: post ∧ b.owner = none ∧ off + total pre ≤ a ∧
      a + len ≤ off + total pre + b.size := by
  induction bs generalizing off with
  | nil => rw [total_nil] at hend; omega
  | cons b bs ih =>
    have hrest : ∀ pre c post, bs = pre ++ c :: post → c.owner ≠ none →
        off + b.size + total pre + c.size ≤ a ∨ a + len ≤ off + b.size + total pre := by
      intro pre c post hbs hc
      have h := hgap (b :: pre) c post (by rw [hbs, List.cons_append]) hc
      rw [total_cons] at h
      omega
    rw [total_cons] at hend
    have hhead := hgap [] b bs rfl
    rw [total_nil] at hhead
    by_cases hnext : off + b.size ≤ a
    · have hpos' : ∀ c ∈ bs, 0 < c.size := fun c hc => hpos c (List.mem_cons_of_mem _ hc)
      obtain ⟨pre, c, post, rfl, hc, hle, hin⟩ :=
        ih hsep.of_cons hpos' hnext (by omega) hrest
      refine ⟨b :: pre, c, post, rfl, hc, ?_, ?_⟩ <;> rw [total_cons] <;> omega
    · have hfree : b.owner = none := by
        by_contra hb
        have h := hhead hb
        omega
      refine ⟨[], b, bs, rfl, hfree, by simpa using hoff, ?_⟩
      rw [total_nil]
      by_contra hlong
      -- the stretch would run on into the next block, which is owned
      rcases bs with - | ⟨c, cs⟩
      · rw [total_nil] at hend; omega
      · have hc : c.owner ≠ none :=
          (List.isChain_cons_cons.mp hsep).1.resolve_left (not_not_intro hfree)
        have h := hrest [] c cs rfl hc
        have hcpos := hpos c (List.mem_cons_of_mem _ (List.mem_cons_self ..))
        rw [total_nil] at h
        omega

end Separated

section Join
variable {off : ℕ} {pre post : List (Block α)} {b : Block α}

/-- A free block takes over the block on its right if that one is free. -/
def joinRight (b : Block α) : List (Block α) → List (Block α)
  | [] => [b]
  | c :: cs => if c.owner = none then ⟨b.size + c.size, none⟩ :: cs else b :: c :: cs

/-- The last block of `pre` takes over the block that follows it if both are free. -/
def joinLeft (pre post : List (Block α)) : List (Block α) :=
  match pre.getLast? with
  | some a => if a.owner = none then pre.dropLast ++ joinRight a post else pre ++ post
  | none => post

theorem joinLeft_concat (pre post : List (Block α)) (a : Block α) :
    joinLeft (pre ++ [a]) post =
      if a.owner = none then pre ++ joinRight a post else pre ++ [a] ++ post := by
  rw [joinLeft, List.getLast?_concat, List.dropLast_concat]

theorem joinRight_eq_cons (hb : b.owner = none) (post : List (Block α)) :
    ∃ d rest, joinRight b post = d :: rest ∧ d.owner = none := by
  rcases post with - | ⟨c, cs⟩
  · exact ⟨b, [], rfl, hb⟩
  · rw [joinRight]
    split_ifs
    · exact ⟨_, cs, rfl, rfl⟩
    · exact ⟨b, c :: cs, rfl, hb⟩

theorem lookup_append_congr {xs ys : List (Block α)} {p : ℕ}
    (h : lookup (off + total pre) xs p = lookup (off + total pre) ys p) :
    lookup off (pre ++ xs) p = lookup off (pre ++ ys) p := by
  induction pre generalizing off with
  | nil => exact h
  | cons b pre ih =>
    rw [total_cons, ← Nat.add_assoc] at h
    rw [List.cons_append, List.cons_append, lookup, lookup, ih h]

theorem lookup_joinRight (hb : b.owner = none) (hpos : ∀ c ∈ post, 0 < c.size) (p : ℕ) :
    lookup off (joinRight b post) p = lookup off (b :: post) p := by
  rcases post with - | ⟨c, cs⟩
  · rfl
  · have hc := hpos c (List.mem_cons_self ..)
    rw [joinRight]
    split_ifs with hfree
    · rw [lookup, lookup, lookup, hb, hfree, Nat.add_assoc]
      by_cases hp : p = off + b.size
      · rw [if_pos hp, lookup_of_lt (by simp only; omega)]
      · rw [if_neg hp]
    · rfl

theorem pos_joinRight (hb : 0 < b.size) (hpos : ∀ c ∈ post, 0 < c.size) :
    ∀ c ∈ joinRight b post, 0 < c.size := by
  rcases post with - | ⟨c, cs⟩
  · exact List.forall_mem_singleton.mpr hb
  · rw [joinRight]
    split_ifs
    · exact List.forall_mem_cons.mpr
        ⟨Nat.add_pos_left hb _, fun d hd => hpos d (List.mem_cons_of_mem _ hd)⟩
    · exact List.forall_mem_cons.mpr ⟨hb, hpos⟩

theorem lookup_joinLeft (hpos : ∀ c ∈ post, 0 < c.size) (p : ℕ) :
    lookup off (joinLeft pre post) p = lookup off (pre ++ post) p := by
  rcases List.eq_nil_or_concat' pre with rfl | ⟨pre, a, rfl⟩
  · rfl
  · rw [joinLeft_concat]
    split_ifs with ha
    · rw [List.append_assoc]
      exact lookup_append_congr (lookup_joinRight ha hpos p)
    · rfl

theorem firstFree_append_congr {xs ys : List (Block α)}
    (h : firstFree (off + total pre) xs = firstFree (off + total pre) ys) :
    firstFree off (pre ++ xs) = firstFree off (pre ++ ys) := by
  induction pre generalizing off with
  | nil => exact h
  | cons b pre ih =>
    rw [total_cons, ← Nat.add_assoc] at h
    rw [List.cons_append, List.cons_append, firstFree, firstFree, ih h]

theorem firstFree_joinRight (hb : b.owner = none) :
    firstFree off (joinRight b post) = off := by
  obtain ⟨d, rest, hjoin, hd⟩ := joinRight_eq_cons hb post
  rw [hjoin, firstFree, if_pos hd]

theorem firstFree_joinLeft : firstFree off (joinLeft pre post) = firstFree off (pre ++ post) := by
  rcases List.eq_nil_or_concat' pre with rfl | ⟨pre, a, rfl⟩
  · rfl
  · rw [joinLeft_concat]
    split_ifs with ha
    · rw [List.append_assoc]
      refine firstFree_append_congr ?_
      rw [firstFree_joinRight ha, List.singleton_append, firstFree, if_pos ha]
    · rfl

theorem separated_joinRight (h : Separated post) : Separated (joinRight b post) := by
  rcases post with - | ⟨c, cs⟩
  · exact List.isChain_singleton b
  · rw [joinRight]
    split_ifs with hc
    · rcases cs with - | ⟨e, es⟩
      · exact List.isChain_singleton _
      · obtain ⟨hne, hes⟩ := List.isChain_cons_cons.mp h
        exact List.isChain_cons_cons.mpr ⟨.inr (hne.resolve_left (not_not_intro hc)), hes⟩
    · exact List.isChain_cons_cons.mpr ⟨.inr hc, h⟩

/-- Freeing a block and joining it with its free neighbours keeps a tiling separated. -/
theorem separated_join {a : Block α} (h : Separated (pre ++ a :: post)) :
    Separated (joinLeft pre (joinRight b post)) := by
  obtain ⟨hpre, hpost, -⟩ := separated_append.mp h
  have hright : Separated (joinRight b post) := separated_joinRight hpost.of_cons
  rcases List.eq_nil_or_concat' pre with rfl | ⟨pre, c, rfl⟩
  · exact hright
  · rw [joinLeft_concat]
    split_ifs with hc
    · obtain ⟨hpre', -, hlast⟩ := separated_append.mp hpre
      refine separated_append.mpr ⟨hpre', separated_joinRight hright, fun d hd e _ => .inl ?_⟩
      exact (hlast d hd c rfl).resolve_right (not_not_intro hc)
    · refine separated_append.mpr ⟨hpre, hright, fun d hd e _ => .inl ?_⟩
      rw [List.getLast?_concat] at hd
      cases hd
      exact hc

end Join

end EthernetSoc.Tiling
