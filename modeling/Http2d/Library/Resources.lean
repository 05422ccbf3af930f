import Mathlib.Tactic

/-! Resources that are acquired and released, and the owners that point at them.
A resource is numbered when it is acquired, so that a number that was released is never live again.
Whoever releases says what it takes the resource to be. -/
namespace Resources

/-- What was acquired: the resources that are live with what is known of them, those that were
released, and the calls that released something that was not live. -/
structure Ledger (L : Type*) where
  made : ℕ
  live : List (ℕ × L)
  released : List ℕ
  bad : List (Option ℕ × L)

variable {L O : Type*}

def init : Ledger L := ⟨0,[],[],[]⟩

/-- A new resource. -/
def acquire (l : Ledger L) (x : L) : Ledger L := {l with made := l.made+1, live := (l.made,x)::l.live}

/-- The resource at a pointer is given back; none is a pointer to nothing. -/
def release [DecidableEq L] (l : Ledger L) (a : Option ℕ) (x : L) : Ledger L :=
  match a with
  | none => {l with bad := (none,x)::l.bad}
  | some a =>
    if (a,x) ∈ l.live then {l with live := l.live.erase (a,x), released := a::l.released}
    else {l with bad := (some a,x)::l.bad}

/-- Every owner that points at a resource points at a live one of its own, every live resource has
an owner, none was released twice and nothing else was released. -/
structure Owned (l : Ledger L) (holds : O → Option (ℕ × L)) : Prop where
  backed : ∀ o r, holds o = some r → r ∈ l.live
  unique : ∀ o o' r r', holds o = some r → holds o' = some r' → r.1 = r'.1 → o = o'
  owner : ∀ r ∈ l.live, ∃ o, holds o = some r
  once : (l.live.map Prod.fst ++ l.released).Perm (List.range l.made)
  clean : l.bad = []

variable {l : Ledger L} {holds : O → Option (ℕ × L)} {o : O}

theorem init_owned (h : ∀ o, holds o = none) : Owned (init : Ledger L) holds :=
  ⟨fun o r hr => absurd ((h o).symm.trans hr) (by simp),
    fun o _ r _ hr => absurd ((h o).symm.trans hr) (by simp),fun _ hr => absurd hr (by simp [init]),
    by simp [init],rfl⟩

theorem Owned.lt_made (h : Owned l holds) {r : ℕ × L} (hr : r ∈ l.live) : r.1 < l.made :=
  List.mem_range.mp (h.once.mem_iff.mp (List.mem_append_left _ (List.mem_map_of_mem hr)))

theorem Owned.ids_nodup (h : Owned l holds) : (l.live.map Prod.fst ++ l.released).Nodup :=
  h.once.nodup_iff.mpr List.nodup_range

variable [DecidableEq O]

theorem Owned.acquire (h : Owned l holds) (ho : holds o = none) (x : L) :
    Owned (acquire l x) (Function.update holds o (some (l.made,x))) := by
  have hother {p : O} {r : ℕ × L} (hp : p ≠ o)
      (hr : Function.update holds o (some (l.made,x)) p = some r) : holds p = some r := by
    rwa [Function.update_of_ne hp] at hr
  have hself {r : ℕ × L} (hr : Function.update holds o (some (l.made,x)) o = some r) :
      r = (l.made,x) := by
    rw [Function.update_self] at hr
    exact (Option.some.inj hr).symm
  refine ⟨fun p r hr => ?_,fun p p' r r' hr hr' heq => ?_,fun r hr => ?_,?_,h.clean⟩
  · by_cases hp : p = o
    · subst hp
      rw [hself hr]
      exact List.mem_cons_self
    · exact List.mem_cons_of_mem _ (h.backed p r (hother hp hr))
  · by_cases hp : p = o
    · by_cases hp' : p' = o
      · exact hp.trans hp'.symm
      · subst hp
        have hlt := h.lt_made (h.backed p' r' (hother hp' hr'))
        rw [hself hr] at heq
        exact absurd heq.symm hlt.ne
    · by_cases hp' : p' = o
      · subst hp'
        have hlt := h.lt_made (h.backed p r (hother hp hr))
        rw [hself hr'] at heq
        exact absurd heq hlt.ne
      · exact h.unique p p' r r' (hother hp hr) (hother hp' hr') heq
  · rcases List.mem_cons.mp hr with rfl | hr
    · exact ⟨o,Function.update_self ..⟩
    · obtain ⟨p,hp⟩ := h.owner r hr
      have hne : p ≠ o := fun he => by
        rw [he,ho] at hp
        cases hp
      exact ⟨p,(Function.update_of_ne hne ..).trans hp⟩
  · show (l.made::(l.live.map Prod.fst ++ l.released)).Perm (List.range (l.made+1))
    rw [List.range_succ]
    exact (h.once.cons l.made).trans (List.perm_append_singleton ..).symm

theorem Owned.release [DecidableEq L] (h : Owned l holds) {a : ℕ} {x : L} (ho : holds o = some (a,x)) :
    Owned (release l (some a) x) (Function.update holds o none) := by
  have hmem := h.backed o _ ho
  have hother {p : O} {r : ℕ × L} (hr : Function.update holds o none p = some r) :
      p ≠ o ∧ holds p = some r := by
    by_cases hp : p = o
    · subst hp
      rw [Function.update_self] at hr
      cases hr
    · exact ⟨hp,(Function.update_of_ne hp ..).symm.trans hr⟩
  have hne {p : O} {r : ℕ × L} (hp : p ≠ o) (hr : holds p = some r) : r ≠ (a,x) := fun he =>
    hp (h.unique p o r (a,x) hr ho (congrArg Prod.fst he))
  have hout : Resources.release l (some a) x =
      {l with live := l.live.erase (a,x), released := a::l.released} := if_pos hmem
  rw [hout]
  refine ⟨fun p r hr => ?_,fun p p' r r' hr hr' heq => ?_,fun r hr => ?_,?_,h.clean⟩
  · obtain ⟨hp,hr⟩ := hother hr
    exact (List.mem_erase_of_ne (hne hp hr)).mpr (h.backed p r hr)
  · exact h.unique p p' r r' (hother hr).2 (hother hr').2 heq
  · have hids := (List.nodup_append.mp h.ids_nodup).1
    obtain ⟨p,hp⟩ := h.owner r (List.mem_of_mem_erase hr)
    have hpo : p ≠ o := by
      rintro rfl
      rw [ho] at hp
      cases hp
      exact (List.Nodup.of_map _ hids).not_mem_erase hr
    exact ⟨p,(Function.update_of_ne hpo ..).trans hp⟩
  · have hperm : (l.live.map Prod.fst).Perm (a::(l.live.erase (a,x)).map Prod.fst) :=
      (List.perm_cons_erase hmem).map Prod.fst
    exact (List.perm_middle.trans (hperm.symm.append_right l.released)).trans h.once

end Resources
