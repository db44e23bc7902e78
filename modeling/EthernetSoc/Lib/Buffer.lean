import Mathlib.Tactic

/-!
# Byte buffers as functions

A buffer is a function from offsets, with no length of its own: how much of it
may be touched is the business of the program that owns it. `blit` copies a list
into a buffer at an offset, `slice` reads a range of it. Appending at the end of
what has been filled so far is one `blit` after the other.
-/

namespace EthernetSoc.Buffer
variable {α : Type*}

def slice (buf : ℕ → α) (off len : ℕ) : List α := (List.range len).map fun k => buf (off + k)

def blit (buf : ℕ → α) (off : ℕ) (src : List α) : ℕ → α :=
  fun j => if off ≤ j then (src[j - off]?).getD (buf j) else buf j

@[simp] theorem length_slice (buf : ℕ → α) (off len : ℕ) : (slice buf off len).length = len := by
  simp [slice]

theorem slice_congr {buf buf' : ℕ → α} {off len : ℕ}
    (h : ∀ j, off ≤ j → j < off + len → buf j = buf' j) :
    slice buf off len = slice buf' off len := by
  apply List.map_congr_left
  intro k hk
  have hlt := List.mem_range.mp hk
  exact h (off + k) (by omega) (by omega)

theorem slice_add (buf : ℕ → α) (off m n : ℕ) :
    slice buf off (m + n) = slice buf off m ++ slice buf (off + m) n := by
  simp [slice, List.range_add, Nat.add_assoc]

theorem take_slice (buf : ℕ → α) (off : ℕ) {k len : ℕ} (h : k ≤ len) :
    (slice buf off len).take k = slice buf off k := by
  obtain ⟨n, rfl⟩ := Nat.exists_eq_add_of_le h
  rw [slice_add, List.take_append_of_le_length (length_slice ..).ge,
    List.take_of_length_le (length_slice ..).le]

theorem slice_drop (buf : ℕ → α) (off len k : ℕ) :
    (slice buf off len).drop k = slice buf (off + k) (len - k) := by
  apply List.ext_getElem (by simp)
  intro j _ _
  simp [slice, Nat.add_assoc]

theorem slice_isPrefix_slice (buf : ℕ → α) (off : ℕ) {k len : ℕ} (h : k ≤ len) :
    slice buf off k <+: slice buf off len := by
  rw [← take_slice buf off h]
  exact List.take_prefix k _

theorem slice_update (buf : ℕ → α) (off len i : ℕ) (v : α) :
    slice (Function.update buf (off + i) v) off len = (slice buf off len).set i v := by
  apply List.ext_getElem (by simp)
  intro k hk _
  rw [length_slice] at hk
  by_cases hi : i = k <;> simp [slice, Function.update_apply, hi, eq_comm]

theorem drop_slice (buf : ℕ → α) {len pos : ℕ} (h : pos < len) :
    (slice buf 0 len).drop pos = buf pos :: (slice buf 0 len).drop (pos+1) := by
  have hlt : pos < (slice buf 0 len).length := by rwa [length_slice]
  rw [List.drop_eq_getElem_cons hlt]
  simp [slice]

theorem slice_blit (buf : ℕ → α) (off : ℕ) (src : List α) :
    slice (blit buf off src) off src.length = src := by
  apply List.ext_getElem (by simp)
  intro k _ hk
  simp [slice, blit, hk]

theorem slice_blit_append (buf : ℕ → α) (n : ℕ) (src : List α) :
    slice (blit buf n src) 0 (n + src.length) = slice buf 0 n ++ src := by
  have hkeep : slice (blit buf n src) 0 n = slice buf 0 n := by
    apply slice_congr
    intro j _ hj
    exact if_neg (by omega)
  rw [slice_add, hkeep, Nat.zero_add, slice_blit]

end EthernetSoc.Buffer
