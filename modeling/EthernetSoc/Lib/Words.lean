import Mathlib.Tactic

/-!
# Bytes through a memory of words

A byte buffer is a function from offsets. `load` assembles a little-endian word
from the bytes at an offset and `store` puts its bytes back; both move at most
four bytes, the rest of a loaded word being zero. `fill` is the loop that writes
a table of words, `drain` the loop that stores the words of a table one after
the other, and filling a memory from a buffer and draining it copies the buffer.
`drainUpto` stops inside the last word, and leaves the bytes after it alone.
-/

namespace EthernetSoc.Words

def pack (b : ℕ → BitVec 8) : BitVec 32 := b 3 ++ b 2 ++ b 1 ++ b 0

def byteAt (w : BitVec 32) (i : ℕ) : BitVec 8 := w.extractLsb' (8*i) 8

theorem byteAt_pack (b : ℕ → BitVec 8) {i : ℕ} (hi : i < 4) : byteAt (pack b) i = b i := by
  apply BitVec.eq_of_getLsbD_eq
  intro k hk
  simp only [byteAt, pack, BitVec.getLsbD_extractLsb', BitVec.getLsbD_append, hk, decide_true,
    Bool.true_and]
  interval_cases i <;> interval_cases k <;> rfl

def load (n : ℕ) (mem : ℕ → BitVec 8) (k : ℕ) : BitVec 32 :=
  pack fun i => if i < n then mem (k+i) else 0

def store (n : ℕ) (mem : ℕ → BitVec 8) (k : ℕ) (w : BitVec 32) : ℕ → BitVec 8 :=
  fun j => if k ≤ j ∧ j < k+n then byteAt w (j-k) else mem j

theorem toNat_load_two (mem : ℕ → BitVec 8) (k : ℕ) :
    (load 2 mem k).toNat = (mem k).toNat + 256 * (mem (k+1)).toNat := by
  have h0 := (mem k).isLt
  have hpack : load 2 mem k = ((0#8 ++ 0#8) ++ mem (k+1)) ++ mem k := rfl
  have hzero : (0#8 ++ 0#8).toNat = 0 := rfl
  rw [hpack, BitVec.toNat_append, BitVec.toNat_append, hzero, Nat.zero_shiftLeft,
    Nat.zero_or, Nat.shiftLeft_eq, Nat.mul_comm _ (2^8), ← Nat.two_pow_add_eq_or_of_lt h0]
  omega

theorem toNat_byteAt (w : BitVec 32) (i : ℕ) : (byteAt w i).toNat = w.toNat / 2^(8*i) % 256 := by
  rw [byteAt, BitVec.extractLsb'_toNat, Nat.shiftRight_eq_div_pow]

theorem store_apart (n : ℕ) (mem : ℕ → BitVec 8) {k j : ℕ} (w : BitVec 32)
    (h : j < k ∨ k+n ≤ j) : store n mem k w j = mem j := if_neg (by omega)

theorem toNat_load_store_two (mem : ℕ → BitVec 8) (k : ℕ) {v : ℕ} (hv : v < 2^16) :
    (load 2 (store 2 mem k (BitVec.ofNat 32 v)) k).toNat = v := by
  have h0 : store 2 mem k (BitVec.ofNat 32 v) k = byteAt (BitVec.ofNat 32 v) (k-k) :=
    if_pos (by omega)
  have h1 : store 2 mem k (BitVec.ofNat 32 v) (k+1) = byteAt (BitVec.ofNat 32 v) (k+1-k) :=
    if_pos (by omega)
  rw [toNat_load_two, h0, h1, toNat_byteAt, toNat_byteAt, BitVec.toNat_ofNat, Nat.sub_self,
    Nat.add_sub_cancel_left]
  omega

theorem load_congr {n : ℕ} {mem mem' : ℕ → BitVec 8} {k : ℕ}
    (h : ∀ j, k ≤ j → j < k+n → mem j = mem' j) : load n mem k = load n mem' k := by
  have hbytes : (fun i => if i < n then mem (k+i) else 0) =
      fun i => if i < n then mem' (k+i) else 0 := by
    funext i
    split_ifs with hi
    · exact h (k+i) (by omega) (by omega)
    · rfl
  rw [load, load, hbytes]

section Loops
variable {A : Type*} (addr : ℕ → A)

def drain (m : A → BitVec 32) (n : ℕ) (out : ℕ → BitVec 8) : ℕ → BitVec 8 :=
  (List.range n).foldl (fun out i => store 4 out (i*4) (m (addr i))) out

theorem drain_succ (m : A → BitVec 32) (n : ℕ) (out : ℕ → BitVec 8) :
    drain addr m (n+1) out = store 4 (drain addr m n out) (n*4) (m (addr n)) := by
  simp [drain, List.range_succ]

theorem drain_apply (m : A → BitVec 32) (n : ℕ) (out : ℕ → BitVec 8) {j : ℕ} (hj : j < n*4) :
    drain addr m n out j = byteAt (m (addr (j/4))) (j%4) := by
  induction n with
  | zero => omega
  | succ n ih =>
    rw [drain_succ, store]
    by_cases hlast : n*4 ≤ j ∧ j < n*4+4
    · rw [if_pos hlast, show j/4 = n by omega, show j - n*4 = j%4 by omega]
    · rw [if_neg hlast, ih (by omega)]

def part (len i : ℕ) : ℕ := min 4 (len - i*4)

def drainUpto (len : ℕ) (m : A → BitVec 32) (n : ℕ) (out : ℕ → BitVec 8) : ℕ → BitVec 8 :=
  (List.range n).foldl (fun out i => store (part len i) out (i*4) (m (addr i))) out

theorem drainUpto_succ (len : ℕ) (m : A → BitVec 32) (n : ℕ) (out : ℕ → BitVec 8) :
    drainUpto addr len m (n+1) out =
      store (part len n) (drainUpto addr len m n out) (n*4) (m (addr n)) := by
  simp [drainUpto, List.range_succ]

theorem drainUpto_apply (len : ℕ) (m : A → BitVec 32) (n : ℕ) (out : ℕ → BitVec 8) (j : ℕ) :
    drainUpto addr len m n out j =
      if j < len ∧ j < n*4 then byteAt (m (addr (j/4))) (j%4) else out j := by
  induction n with
  | zero => simp [drainUpto]
  | succ n ih =>
    rw [drainUpto_succ, store, part, ih]
    by_cases hlast : n*4 ≤ j ∧ j < n*4 + min 4 (len - n*4)
    · rw [if_pos hlast, if_pos (by omega), show j/4 = n by omega, show j - n*4 = j%4 by omega]
    · rw [if_neg hlast]
      by_cases hj : j < len ∧ j < n*4
      · rw [if_pos hj, if_pos (by omega)]
      · rw [if_neg hj, if_neg (by omega)]

variable [DecidableEq A]

def fill (f : ℕ → BitVec 32) (n : ℕ) (m : A → BitVec 32) : A → BitVec 32 :=
  (List.range n).foldl (fun m i => Function.update m (addr i) (f i)) m

theorem fill_succ (f : ℕ → BitVec 32) (n : ℕ) (m : A → BitVec 32) :
    fill addr f (n+1) m = Function.update (fill addr f n m) (addr n) (f n) := by
  simp [fill, List.range_succ]

variable {addr} {N : ℕ} (hinj : ∀ i < N, ∀ j < N, addr i = addr j → i = j)
include hinj

theorem fill_apply (f : ℕ → BitVec 32) (m : A → BitVec 32) {n i : ℕ} (hn : n ≤ N) (hi : i < n) :
    fill addr f n m (addr i) = f i := by
  induction n with
  | zero => exact absurd hi (Nat.not_lt_zero i)
  | succ n ih =>
    rw [fill_succ]
    by_cases hin : i = n
    · rw [hin, Function.update_self]
    · have hne : addr i ≠ addr n := fun h => hin (hinj i (by omega) n (by omega) h)
      rw [Function.update_of_ne hne, ih (by omega) (by omega)]

theorem drain_fill (mem : ℕ → BitVec 8) (m : A → BitVec 32) {n : ℕ} (hn : n ≤ N)
    (out : ℕ → BitVec 8) {j : ℕ} (hj : j < n*4) :
    drain addr (fill addr (fun i => load 4 mem (i*4)) n m) n out j = mem j := by
  rw [drain_apply _ _ _ _ hj, fill_apply hinj _ _ hn (by omega), load, byteAt_pack _ (by omega),
    if_pos (by omega), show j/4*4 + j%4 = j by omega]

theorem drainUpto_fill (mem : ℕ → BitVec 8) (m : A → BitVec 32) {len : ℕ}
    (hlen : (len + 3) / 4 ≤ N) (out : ℕ → BitVec 8) (j : ℕ) :
    drainUpto addr len (fill addr (fun i => load (part len i) mem (i*4)) ((len + 3) / 4) m)
      ((len + 3) / 4) out j = if j < len then mem j else out j := by
  rw [drainUpto_apply]
  by_cases hj : j < len
  · rw [if_pos (by omega), if_pos hj, fill_apply hinj _ _ hlen (by omega), load,
      byteAt_pack _ (by omega), if_pos (by rw [part]; omega), show j/4*4 + j%4 = j by omega]
  · rw [if_neg (by omega), if_neg hj]

end Loops

theorem ofNat_injOn {w : ℕ} :
    ∀ i < 2^w, ∀ j < 2^w, BitVec.ofNat w i = BitVec.ofNat w j → i = j := by
  intro i hi j hj h
  have hnat := congrArg BitVec.toNat h
  rwa [BitVec.toNat_ofNat, BitVec.toNat_ofNat, Nat.mod_eq_of_lt hi, Nat.mod_eq_of_lt hj] at hnat

theorem fill_ofNat {w : ℕ} (f : ℕ → BitVec 32) (m : BitVec w → BitVec 32) {n : ℕ} (hn : n ≤ 2^w)
    (a : BitVec w) :
    fill (BitVec.ofNat w) f n m a = if a.toNat < n then f a.toNat else m a := by
  by_cases ha : a.toNat < n
  · have hself : a = BitVec.ofNat w a.toNat := by simp
    rw [if_pos ha]
    nth_rewrite 1 [hself]
    exact fill_apply ofNat_injOn f m hn ha
  · rw [if_neg ha]
    induction n with
    | zero => rfl
    | succ n ih =>
      have hne : a ≠ BitVec.ofNat w n := by
        rintro rfl
        rw [BitVec.toNat_ofNat, Nat.mod_eq_of_lt (by omega)] at ha
        omega
      rw [fill_succ, Function.update_of_ne hne, ih (by omega) (by omega)]

end EthernetSoc.Words
