import Mathlib.Data.BitVec
import Mathlib.Tactic

/-!
# Sequence numbers

The positions of a stream are numbered modulo `2^w` from an initial number, and two
numbers are compared by the sign of their difference. As long as the positions
themselves are less than half the number space apart, the comparison is that of the
positions.
-/

namespace EthernetSoc.SeqSpace
variable {w : ℕ}

def lt (a b : BitVec w) : Bool := (a - b).toInt < 0
def leq (a b : BitVec w) : Bool := (a - b).toInt ≤ 0
def gt (a b : BitVec w) : Bool := 0 < (a - b).toInt
def geq (a b : BitVec w) : Bool := 0 ≤ (a - b).toInt

def between (a b c : BitVec w) : Bool := geq a b && leq a c

/-- The number of a position. -/
def seq (isn : BitVec w) (z : ℤ) : BitVec w := isn + BitVec.ofInt w z

/-- Positions that the comparison tells apart. -/
def Near (w : ℕ) (a b : ℤ) : Prop := -2^w ≤ 2 * (a - b) ∧ 2 * (a - b) < 2^w

section Positions
variable (isn : BitVec w) (a b c : ℤ)

theorem seq_zero : seq isn 0 = isn := by
  simp [seq]

theorem seq_add (k : ℕ) : seq isn a + BitVec.ofNat w k = seq isn (a + k) := by
  rw [seq, seq, BitVec.add_assoc, BitVec.ofInt_add, BitVec.ofInt_natCast]

theorem seq_sub (k : ℕ) : seq isn a - BitVec.ofNat w k = seq isn (a - k) := by
  rw [seq, seq, BitVec.sub_eq_add_neg, BitVec.add_assoc, ← BitVec.ofInt_natCast, ← BitVec.ofInt_neg,
    ← BitVec.ofInt_add, ← sub_eq_add_neg]

theorem seq_sub_seq : seq isn a - seq isn b = BitVec.ofInt w (a - b) := by
  rw [seq, seq, add_sub_add_left_eq_sub, sub_eq_add_neg, ← BitVec.ofInt_neg, ← BitVec.ofInt_add,
    ← sub_eq_add_neg]

theorem toNat_seq_sub_seq {k : ℕ} (h : a = b + k) (hk : k < 2^w) :
    (seq isn a - seq isn b).toNat = k := by
  rw [seq_sub_seq, h, add_sub_cancel_left, BitVec.ofInt_natCast, BitVec.toNat_ofNat,
    Nat.mod_eq_of_lt hk]

variable {a b c}

theorem toInt_seq_sub_seq (h : Near w a b) : (seq isn a - seq isn b).toInt = a - b := by
  have hpow : ((2^w : ℕ) : ℤ) = 2^w := by norm_num
  rw [seq_sub_seq, BitVec.toInt_ofInt]
  obtain ⟨hlo, hhi⟩ := h
  exact Int.bmod_eq_of_le (by omega) (by omega)

theorem lt_seq (h : Near w a b) : lt (seq isn a) (seq isn b) = true ↔ a < b := by
  rw [lt, toInt_seq_sub_seq isn h, decide_eq_true_iff, sub_neg]

theorem leq_seq (h : Near w a b) : leq (seq isn a) (seq isn b) = true ↔ a ≤ b := by
  rw [leq, toInt_seq_sub_seq isn h, decide_eq_true_iff, sub_nonpos]

theorem gt_seq (h : Near w a b) : gt (seq isn a) (seq isn b) = true ↔ b < a := by
  rw [gt, toInt_seq_sub_seq isn h, decide_eq_true_iff, sub_pos]

theorem geq_seq (h : Near w a b) : geq (seq isn a) (seq isn b) = true ↔ b ≤ a := by
  rw [geq, toInt_seq_sub_seq isn h, decide_eq_true_iff, sub_nonneg]

theorem between_seq (hb : Near w a b) (hc : Near w a c) :
    between (seq isn a) (seq isn b) (seq isn c) = true ↔ b ≤ a ∧ a ≤ c := by
  rw [between, Bool.and_eq_true, geq_seq isn hb, leq_seq isn hc]

theorem seq_inj (h : Near w a b) : seq isn a = seq isn b ↔ a = b := by
  refine ⟨fun heq => ?_, congrArg _⟩
  have hdiff := toInt_seq_sub_seq isn h
  rw [heq, BitVec.sub_self, BitVec.toInt_zero] at hdiff
  omega

end Positions

end EthernetSoc.SeqSpace
