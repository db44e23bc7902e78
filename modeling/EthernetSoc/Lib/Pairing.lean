import Mathlib.Tactic

/-!
# Arrivals paired with departures

A log is a list of arrivals (`inl`) and departures (`inr`) in the order in which
they happened. A pairing gives every departure a related arrival before it and
uses no arrival twice. Logs grow at their end: an arrival keeps a pairing and is
free in it, and a departure may take any free arrival it is related to.
-/

namespace EthernetSoc

variable {α β : Type*} {R : α → β → Prop} {log : List (α ⊕ β)}

structure Pairing (R : α → β → Prop) (log : List (α ⊕ β)) where
  source : ℕ → ℕ
  earlier : ∀ j b, log[j]? = some (.inr b) → source j < j
  related : ∀ j b, log[j]? = some (.inr b) → ∃ a, log[source j]? = some (.inl a) ∧ R a b
  injective : ∀ j k b c, log[j]? = some (.inr b) → log[k]? = some (.inr c) →
    source j = source k → j = k

namespace Pairing

def nil : Pairing R [] where
  source := id
  earlier := by simp
  related := by simp
  injective := by simp

/-- The arrival `a` at position `i` has no departure yet. -/
structure Free (P : Pairing R log) (i : ℕ) (a : α) : Prop where
  arrival : log[i]? = some (.inl a)
  unused : ∀ j b, log[j]? = some (.inr b) → P.source j ≠ i

theorem getElem?_snoc {j : ℕ} {e e' : α ⊕ β} (h : (log ++ [e])[j]? = some e') :
    (j < log.length ∧ log[j]? = some e') ∨ (j = log.length ∧ e = e') := by
  by_cases hj : j < log.length
  · rw [List.getElem?_append_left hj] at h
    exact Or.inl ⟨hj, h⟩
  · rw [List.getElem?_append_right (not_lt.mp hj), List.getElem?_singleton] at h
    split_ifs at h with h0
    exact Or.inr ⟨by omega, Option.some.inj h⟩

theorem getElem?_arrive {j : ℕ} {a : α} {b : β} (h : (log ++ [.inl a])[j]? = some (.inr b)) :
    log[j]? = some (.inr b) := by
  rcases getElem?_snoc h with ⟨_, hold⟩ | ⟨_, hnew⟩
  · exact hold
  · cases hnew

theorem getElem?_append_of_some {i : ℕ} {e : α ⊕ β} (h : log[i]? = some e) (l : List (α ⊕ β)) :
    (log ++ l)[i]? = some e := by
  have hi : i < log.length := (List.getElem?_eq_some_iff.mp h).1
  rw [List.getElem?_append_left hi, h]

def arrive (P : Pairing R log) (a : α) : Pairing R (log ++ [.inl a]) where
  source := P.source
  earlier j b h := P.earlier j b (getElem?_arrive h)
  related j b h := by
    obtain ⟨a', ha, hR⟩ := P.related j b (getElem?_arrive h)
    exact ⟨a', getElem?_append_of_some ha _, hR⟩
  injective j k b c hj hk := P.injective j k b c (getElem?_arrive hj) (getElem?_arrive hk)

theorem Free.arrive {P : Pairing R log} {i : ℕ} {a' : α} (h : P.Free i a') (a : α) :
    (P.arrive a).Free i a' :=
  ⟨getElem?_append_of_some h.arrival _, fun j b hj => h.unused j b (getElem?_arrive hj)⟩

theorem free_arrive (P : Pairing R log) (a : α) : (P.arrive a).Free log.length a := by
  refine ⟨by simp, ?_⟩
  intro j b hj
  have hlog := getElem?_arrive hj
  have hlt : j < log.length := (List.getElem?_eq_some_iff.mp hlog).1
  have hsource : P.source j < j := P.earlier j b hlog
  exact ne_of_lt (hsource.trans hlt)

theorem Free.arrives {P : Pairing R log} {i : ℕ} {a : α} (h : P.Free i a) (as : List α) :
    ∃ P' : Pairing R (log ++ as.map Sum.inl), P'.Free i a := by
  induction as generalizing log with
  | nil =>
    rw [List.map_nil, List.append_nil]
    exact ⟨P, h⟩
  | cons a' as ih =>
    rw [List.map_cons, ← List.singleton_append, ← List.append_assoc]
    exact ih (h.arrive a')

theorem Free.depart {P : Pairing R log} {i : ℕ} {a : α} (h : P.Free i a) {b : β} (hR : R a b) :
    Nonempty (Pairing R (log ++ [.inr b])) := by
  have hi : i < log.length := (List.getElem?_eq_some_iff.mp h.arrival).1
  -- a departure of the longer log is one of the old ones or the new one
  have hcases : ∀ j c, (log ++ [.inr b])[j]? = some (.inr c) →
      (j < log.length ∧ log[j]? = some (.inr c)) ∨ (j = log.length ∧ b = c) := by
    intro j c hj
    simpa using getElem?_snoc hj
  refine ⟨⟨fun j => if j = log.length then i else P.source j, ?_, ?_, ?_⟩⟩
  · intro j c hj
    rcases hcases j c hj with ⟨hlt, hold⟩ | ⟨rfl, _⟩
    · rw [if_neg (ne_of_lt hlt)]
      exact P.earlier j c hold
    · rwa [if_pos rfl]
  · intro j c hj
    rcases hcases j c hj with ⟨hlt, hold⟩ | ⟨rfl, rfl⟩
    · rw [if_neg (ne_of_lt hlt)]
      obtain ⟨a', ha, hR'⟩ := P.related j c hold
      exact ⟨a', getElem?_append_of_some ha _, hR'⟩
    · rw [if_pos rfl]
      exact ⟨a, getElem?_append_of_some h.arrival _, hR⟩
  · intro j k c d hj hk heq
    rcases hcases j c hj with ⟨hjlt, hjold⟩ | ⟨rfl, _⟩ <;>
      rcases hcases k d hk with ⟨hklt, hkold⟩ | ⟨rfl, _⟩
    · rw [if_neg (ne_of_lt hjlt), if_neg (ne_of_lt hklt)] at heq
      exact P.injective j k c d hjold hkold heq
    · rw [if_pos rfl, if_neg (ne_of_lt hjlt)] at heq
      exact absurd heq (h.unused j c hjold)
    · rw [if_pos rfl, if_neg (ne_of_lt hklt)] at heq
      exact absurd heq.symm (h.unused k d hkold)
    · rfl

end Pairing
end EthernetSoc
