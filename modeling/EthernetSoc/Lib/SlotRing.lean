import Mathlib.Tactic

/-!
# Slots used in rotation

Use number `n` of a ring of `N` slots takes slot `n % N`. `recent N n k` lists
the slots of the last `k` uses before use `n`, oldest first: it grows at its end
when a slot is taken, loses its head when the oldest use is over, and does not
contain the next slot as long as it is shorter than the ring.
-/

namespace EthernetSoc.SlotRing

def recent (N n k : ℕ) : List ℕ := (List.range' (n-k) k).map (· % N)

variable {N n k : ℕ}

theorem recent_push (hk : k ≤ n) : recent N (n+1) (k+1) = recent N n k ++ [n % N] := by
  have hlast : n - k + 1 * k = n := by omega
  rw [recent, recent, Nat.add_sub_add_right, List.range'_concat, hlast, List.map_append]
  rfl

theorem recent_pop (hk : k+1 ≤ n) : recent N n (k+1) = (n-(k+1)) % N :: recent N n k := by
  have hnext : n - (k+1) + 1 = n - k := by omega
  rw [recent, recent, List.range'_succ, hnext, List.map_cons]

theorem next_not_mem (hk : k < N) (hn : k ≤ n) : n % N ∉ recent N n k := by
  intro h
  obtain ⟨i, hi, hmod⟩ := List.mem_map.mp h
  have hrange := List.mem_range'_1.mp hi
  have hdvd : N ∣ n - i := (Nat.modEq_iff_dvd' (by omega)).mp hmod
  have hle := Nat.le_of_dvd (by omega) hdvd
  omega

end EthernetSoc.SlotRing
