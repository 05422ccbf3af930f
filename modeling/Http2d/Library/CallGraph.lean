import Mathlib.Tactic
import Mathlib.Order.WellFounded

/-! Recursion along a relation.
`calls a b` says that the work on `a` begins the work on `b` before it is done. Where only finitely
many elements are called, the recursion ends exactly when it does not come to a cycle. -/
namespace CallGraph

open Relation

variable {α : Type*} {calls : α → α → Prop} {a b c : α}

/-- From `a` the calls lead to an element that they lead back to. -/
def ReachesCycle (calls : α → α → Prop) (a : α) : Prop :=
  ∃ c, ReflTransGen calls a c ∧ TransGen calls c c

theorem acc_of_reach (h : Acc (flip calls) a) (hreach : ReflTransGen calls a b) :
    Acc (flip calls) b := by
  induction hreach with
  | refl => exact h
  | tail _ hbc ih => exact ih.inv hbc

theorem not_acc_of_cycle (h : TransGen calls c c) : ¬ Acc (flip calls) c := by
  intro hacc
  have hswap : TransGen (flip calls) c c := transGen_swap.mpr h
  have hchain : ¬ Acc (TransGen (flip calls)) c :=
    not_acc_iff_exists_descending_chain.mpr ⟨fun _ => c,rfl,fun _ => hswap⟩
  exact hchain hacc.transGen

/-- An endless chain of calls. -/
theorem reaches_of_chain {f : ℕ → α} (hf : ∀ n, calls (f n) (f (n+1))) {n m : ℕ} (h : n ≤ m) :
    ReflTransGen calls (f n) (f m) := by
  induction h with
  | refl => exact .refl
  | step _ ih => exact ih.tail (hf _)

/-- Where finitely many elements can be come to. -/
theorem acc_iff_of_reach (hfin : {b | ReflTransGen calls a b}.Finite) :
    Acc (flip calls) a ↔ ¬ ReachesCycle calls a := by
  refine ⟨fun h ⟨c,hreach,hcycle⟩ => not_acc_of_cycle hcycle (acc_of_reach h hreach),fun h => ?_⟩
  by_contra hacc
  obtain ⟨f,rfl,hf⟩ := not_acc_iff_exists_descending_chain.mp hacc
  -- The chain stays in a finite set, so it comes to one of its elements twice.
  have hmaps : Set.MapsTo f Set.univ {b | ReflTransGen calls (f 0) b} :=
    fun n _ => reaches_of_chain hf (Nat.zero_le n)
  obtain ⟨n,-,m,-,hne,heq⟩ := Set.infinite_univ.exists_ne_map_eq_of_mapsTo hmaps hfin
  have hcycle {n m : ℕ} (hlt : n < m) (heq : f n = f m) : ReachesCycle calls (f 0) := by
    refine ⟨f n,reaches_of_chain hf (Nat.zero_le n),?_⟩
    have hfirst : TransGen calls (f n) (f (n+1)) := .single (hf n)
    have hcycle := hfirst.trans_left (reaches_of_chain hf hlt)
    rwa [← heq] at hcycle
  rcases lt_or_gt_of_ne hne with hlt | hlt
  · exact h (hcycle hlt heq)
  · exact h (hcycle hlt heq.symm)

theorem acc_iff (hfin : {b | ∃ a, calls a b}.Finite) :
    Acc (flip calls) a ↔ ¬ ReachesCycle calls a := by
  refine acc_iff_of_reach ((hfin.insert a).subset fun b hb => ?_)
  rcases ReflTransGen.cases_tail hb with rfl | ⟨c,_,hc⟩
  · exact Set.mem_insert _ _
  · exact Set.mem_insert_of_mem _ ⟨c,hc⟩

end CallGraph
