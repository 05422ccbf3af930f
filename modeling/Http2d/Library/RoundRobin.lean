import Http2d.Library.IntrusiveList
import Mathlib.Data.Int.CardIntervalMod

/-! Taking the members of a circular list in turn. -/
namespace RoundRobin

open IntrusiveList

variable {A : Type*} {m : Links A} {h : A} {xs : List A}

theorem next_getElem (hr : Ring m h xs) {i : ℕ} (hi : i < xs.length) (hj : i+1 < (xs ++ [h]).length) :
    m.next xs[i] = (xs ++ [h])[i+1] := by
  have hchain := List.isChain_iff_getElem.mp (linked_iff_isChain.mp hr.linked) (i+1)
    (by simp; omega)
  rw [List.getElem_cons_succ,List.getElem_cons_succ,List.getElem_append_left hi] at hchain
  exact hchain.1

theorem next_head (hr : Ring m h xs) (hne : 0 < xs.length) : m.next h = xs[0] := by
  have hchain := List.isChain_iff_getElem.mp (linked_iff_isChain.mp hr.linked) 0
    (by simp)
  rw [List.getElem_cons_zero,List.getElem_cons_succ,List.getElem_append_left hne] at hchain
  exact hchain.1

variable [DecidableEq A]

/-- The node behind `n`; the head is passed over. -/
def nextCircular (m : Links A) (h n : A) : A := if m.next n = h then m.next h else m.next n

/-- The last member is followed by the first one. -/
theorem nextCircular_getElem (hr : Ring m h xs) {i : ℕ} (hi : i < xs.length)
    (hj : (i+1) % xs.length < xs.length) : nextCircular m h xs[i] = xs[(i+1) % xs.length] := by
  have hnext := next_getElem hr hi (by simp [hi])
  rw [nextCircular,hnext]
  rcases Nat.lt_or_ge (i+1) xs.length with hlt | hge
  · have hmem : xs[i+1] ≠ h := fun he => hr.head_notMem (he ▸ List.getElem_mem hlt)
    rw [List.getElem_append_left hlt,if_neg hmem]
    simp only [Nat.mod_eq_of_lt hlt]
  · have hlast : i+1 = xs.length := by omega
    simp only [hlast,List.getElem_concat_length,Nat.mod_self]
    exact next_head hr (by omega)

/-- The member whose turn comes after `k` others is the one behind the member before. -/
theorem nextCircular_turn (hr : Ring m h xs) {k : ℕ} (hk : k % xs.length < xs.length)
    (hj : (k+1) % xs.length < xs.length) :
    nextCircular m h xs[k % xs.length] = xs[(k+1) % xs.length] := by
  rw [nextCircular_getElem hr hk (by rwa [Nat.mod_add_mod])]
  simp only [Nat.mod_add_mod]

/-- Of `k` turns each of `n` members has `k/n`, and those that are early in the circle may have one
more. -/
theorem count_turns {n : ℕ} (k : ℕ) {i : ℕ} (hi : i < n) :
    ((List.range k).map (· % n)).count i = k/n+if i < k % n then 1 else 0 := by
  have hcount := Nat.count_modEq_card k (by omega : 0 < n) i
  rw [Nat.mod_eq_of_lt hi] at hcount
  rw [← hcount,Nat.count_eq_card_filter_range,List.count,List.countP_map,List.countP_eq_length_filter,
    ← List.toFinset_card_of_nodup (List.nodup_range.filter _)]
  congr 1
  ext j
  simp [Nat.ModEq,Nat.mod_eq_of_lt hi]

end RoundRobin
