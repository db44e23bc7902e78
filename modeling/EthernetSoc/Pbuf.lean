import Mathlib.Tactic

/-!
# Packet buffers

A chain of lwIP packet buffers is the list of its segments, the empty list
standing for a null pointer. Segment lengths are sixteen-bit.
-/

namespace EthernetSoc

abbrev Byte := BitVec 8

structure Pbuf where
  payload : List Byte
  len_lt : payload.length < 2^16

namespace Pbuf

def len (q : Pbuf) : ℕ := q.payload.length

def bytes (p : List Pbuf) : List Byte := p.flatMap payload

def totLen (p : List Pbuf) : ℕ := (bytes p).length % 2^16

@[simp] theorem bytes_nil : bytes [] = [] := rfl

@[simp] theorem bytes_cons (q : Pbuf) (p : List Pbuf) : bytes (q :: p) = q.payload ++ bytes p := rfl

/-- What a copy loop reads at offset `k` of the payload. -/
def byte (q : Pbuf) (k : ℕ) : Byte := q.payload.getD k 0

theorem map_byte {q : Pbuf} {n : ℕ} (h : n ≤ q.len) :
    (List.range n).map q.byte = q.payload.take n := by
  have hlen : n ≤ q.payload.length := h
  apply List.ext_getElem (by simpa using hlen)
  intro k hk _
  have hlt : k < q.payload.length := by
    rw [List.length_map, List.length_range] at hk
    omega
  simp [byte, hlt]

theorem map_byte_len (q : Pbuf) : (List.range q.len).map q.byte = q.payload := by
  rw [map_byte le_rfl]
  exact List.take_length

end Pbuf
end EthernetSoc
