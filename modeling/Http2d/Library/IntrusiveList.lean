import Http2d.Library.WhileLoop

/-! Circular lists whose links are fields of their members.
A list is known by its head, which is a node of the ring and no member of the list. Several lists
share the memory, and a node that is moved keeps its two fields. -/
namespace IntrusiveList

variable {A : Type*}

/-- The two fields of every node. -/
@[ext] structure Links (A : Type*) where
  next : A → A
  prev : A → A

/-- From `a` the links lead through `xs` to `b`, and back. -/
def Linked (m : Links A) : A → List A → A → Prop
  | a, [], b => m.next a = b ∧ m.prev b = a
  | a, x::xs, b => m.next a = x ∧ m.prev x = a ∧ Linked m x xs b

/-- The list with this head and these members. -/
structure Ring (m : Links A) (h : A) (xs : List A) : Prop where
  nodup : (h::xs).Nodup
  linked : Linked m h xs h

variable {m m' : Links A} {a b h n : A} {xs ys : List A}

/-- The path reads the links forward from all but its end and backward from all but its start. -/
theorem Linked.transport (hl : Linked m a xs b) (hnext : ∀ y ∈ a::xs, m'.next y = m.next y)
    (hprev : ∀ y ∈ xs ++ [b], m'.prev y = m.prev y) : Linked m' a xs b := by
  induction xs generalizing a with
  | nil =>
    obtain ⟨hn,hp⟩ := hl
    exact ⟨(hnext a (by simp)).trans hn,(hprev b (by simp)).trans hp⟩
  | cons x xs ih =>
    obtain ⟨hn,hp,hl⟩ := hl
    exact ⟨(hnext a (by simp)).trans hn,(hprev x (by simp)).trans hp,
      ih hl (fun y hy => hnext y (List.mem_cons_of_mem _ hy))
        (fun y hy => hprev y (List.mem_cons_of_mem _ hy))⟩

theorem Linked.next_mem (hl : Linked m a xs b) : m.next a ∈ xs ++ [b] := by
  cases xs with
  | nil => simp [hl.1]
  | cons x xs => simp [hl.1]

theorem Linked.prev_mem (hl : Linked m a xs b) : m.prev b ∈ a::xs := by
  induction xs generalizing a with
  | nil => simp [hl.2]
  | cons x xs ih => exact List.mem_cons_of_mem _ (ih hl.2.2)

theorem linked_append {y : A} : Linked m a (xs ++ y::ys) b ↔ Linked m a xs y ∧ Linked m y ys b := by
  induction xs generalizing a with
  | nil => simp [Linked,and_assoc]
  | cons x xs ih => simp [Linked,ih,and_assoc]

/-- The links determine the members. -/
theorem Linked.unique (hx : Linked m a xs b) (hy : Linked m a ys b) (hbx : b ∉ xs) (hby : b ∉ ys) :
    xs = ys := by
  induction xs generalizing a ys with
  | nil =>
    cases ys with
    | nil => rfl
    | cons y ys => exact absurd (hx.1.symm.trans hy.1) (fun h => hby (by simp [h]))
  | cons x xs ih =>
    cases ys with
    | nil => exact absurd (hy.1.symm.trans hx.1) (fun h => hbx (by simp [h]))
    | cons y ys =>
      obtain rfl : x = y := hx.1.symm.trans hy.1
      rw [ih hx.2.2 hy.2.2 (fun h => hbx (List.mem_cons_of_mem _ h))
        (fun h => hby (List.mem_cons_of_mem _ h))]

theorem Ring.head_notMem (hr : Ring m h xs) : h ∉ xs := (List.nodup_cons.mp hr.nodup).1

theorem Ring.members_nodup (hr : Ring m h xs) : xs.Nodup := (List.nodup_cons.mp hr.nodup).2

theorem Ring.unique (hx : Ring m h xs) (hy : Ring m h ys) : xs = ys :=
  hx.linked.unique hy.linked hx.head_notMem hy.head_notMem

/-- Any member can be the head of the circle. -/
theorem Ring.rotate (hr : Ring m h (xs ++ n::ys)) : Ring m n (ys ++ h::xs) := by
  obtain ⟨h1,h2⟩ := linked_append.mp hr.linked
  have hswap : (n::ys ++ h::xs).Perm (h::xs ++ n::ys) := List.perm_append_comm
  have hnd : (n::(ys ++ h::xs)).Nodup := hswap.nodup_iff.mpr hr.nodup
  exact ⟨hnd,linked_append.mpr ⟨h2,h1⟩⟩

/-- The first and the last member of a list that is not empty. -/
theorem Ring.ends_mem (hr : Ring m h xs) (hne : xs ≠ []) : m.next h ∈ xs ∧ m.prev h ∈ xs := by
  cases xs with
  | nil => exact absurd rfl hne
  | cons x xs => exact ⟨by simp [hr.linked.1],hr.linked.2.2.prev_mem⟩

theorem Ring.next_ne (hr : Ring m h xs) (hne : xs ≠ []) : m.next h ≠ h := fun he => by
  have hmem := (hr.ends_mem hne).1
  rw [he] at hmem
  exact hr.head_notMem hmem

/-- A list that shares no node with the changed one stays as it is. -/
theorem Ring.transport (hr : Ring m h xs) (hnext : ∀ y ∈ h::xs, m'.next y = m.next y)
    (hprev : ∀ y ∈ h::xs, m'.prev y = m.prev y) : Ring m' h xs :=
  ⟨hr.nodup,hr.linked.transport hnext fun y hy => hprev y (by
    rcases List.mem_append.mp hy with hy | hy
    · exact List.mem_cons_of_mem _ hy
    · simp [List.mem_singleton.mp hy])⟩

/-- The links read in the other direction. -/
def Links.flip (m : Links A) : Links A := ⟨m.prev,m.next⟩

theorem linked_iff_isChain :
    Linked m a xs b ↔ List.IsChain (fun x y => m.next x = y ∧ m.prev y = x) (a::(xs ++ [b])) := by
  induction xs generalizing a with
  | nil => simp [Linked]
  | cons x xs ih => rw [Linked,ih,List.cons_append,List.isChain_cons_cons,and_assoc]

theorem linked_flip : Linked m.flip b xs.reverse a ↔ Linked m a xs b := by
  have hrev : b::(xs.reverse ++ [a]) = (a::(xs ++ [b])).reverse := by simp
  rw [linked_iff_isChain,linked_iff_isChain,hrev,List.isChain_reverse]
  simp only [Links.flip,and_comm]

theorem ring_flip : Ring m.flip h xs.reverse ↔ Ring m h xs := by
  have hperm : (h::xs.reverse).Perm (h::xs) := (List.reverse_perm xs).cons h
  exact ⟨fun hr => ⟨hperm.nodup_iff.mp hr.nodup,linked_flip.mp hr.linked⟩,
    fun hr => ⟨hperm.nodup_iff.mpr hr.nodup,linked_flip.mpr hr.linked⟩⟩

/-- The links of the members do not depend on the ends of the path. -/
theorem Linked.reroot {a' b' : A} (hl : Linked m a xs b) (hne : xs ≠ []) (hnd : xs.Nodup)
    (hstart : m'.next a' = m.next a) (hfirst : m'.prev (m.next a) = a')
    (hlast : m'.next (m.prev b) = b') (hend : m'.prev b' = m.prev b)
    (hnext : ∀ y ∈ xs, y ≠ m.prev b → m'.next y = m.next y)
    (hprev : ∀ y ∈ xs, y ≠ m.next a → m'.prev y = m.prev y) : Linked m' a' xs b' := by
  induction xs generalizing a a' with
  | nil => exact absurd rfl hne
  | cons x xs ih =>
    obtain ⟨hx,hpx,hl⟩ := hl
    rw [hx] at hstart hfirst hprev
    cases xs with
    | nil =>
      rw [hl.2] at hlast hend
      exact ⟨hstart,hfirst,hlast,hend⟩
    | cons y ys =>
      obtain ⟨hxn,hnd⟩ := List.nodup_cons.mp hnd
      have hxlast : x ≠ m.prev b := fun he => hxn (he ▸ hl.2.2.prev_mem)
      have hyx : y ≠ x := fun he => hxn (by simp [he])
      refine ⟨hstart,hfirst,ih hl (List.cons_ne_nil y ys) hnd (hnext x (by simp) hxlast) ?_
        (fun z hz => hnext z (List.mem_cons_of_mem _ hz)) fun z hz _ => ?_⟩
      · rw [hl.1,hprev y (by simp) hyx,hl.2.1]
      · exact hprev z (List.mem_cons_of_mem _ hz) fun he => hxn (he ▸ hz)

theorem Ring.next_head_mem (hr : Ring m h xs) : m.next h ∈ h::xs := by
  rcases List.mem_append.mp hr.linked.next_mem with hm | hm
  · exact List.mem_cons_of_mem _ hm
  · simp [List.mem_singleton.mp hm]

/-- Lists with different heads that share no node. -/
structure Rings (m : Links A) (heads : List A) (items : A → List A) : Prop where
  ring : ∀ h ∈ heads, Ring m h (items h)
  disjoint : ∀ h ∈ heads, ∀ k ∈ heads, h ≠ k → (h::items h).Disjoint (k::items k)

/-- The node is in none of the lists. -/
def Outside (heads : List A) (items : A → List A) (n : A) : Prop := ∀ h ∈ heads, n ∉ h::items h

variable {heads : List A} {items : A → List A}

theorem Rings.congr {items' : A → List A} (hr : Rings m heads items)
    (heq : ∀ h ∈ heads, items h = items' h) : Rings m heads items' :=
  ⟨fun h hh => heq h hh ▸ hr.ring h hh,
    fun h hh k hk hhk => heq h hh ▸ heq k hk ▸ hr.disjoint h hh k hk hhk⟩

theorem Rings.mono {heads' : List A} (hr : Rings m heads items) (hsub : ∀ h ∈ heads', h ∈ heads) :
    Rings m heads' items :=
  ⟨fun h hh => hr.ring h (hsub h hh),
    fun h hh k hk hhk => hr.disjoint h (hsub h hh) k (hsub k hk) hhk⟩

theorem rings_flip : Rings m.flip heads (fun h => (items h).reverse) ↔ Rings m heads items := by
  have hdis (h k : A) : (h::(items h).reverse).Disjoint (k::(items k).reverse) ↔
      (h::items h).Disjoint (k::items k) := by
    simp only [List.Disjoint,List.mem_cons,List.mem_reverse]
  exact ⟨fun hr => ⟨fun h hh => ring_flip.mp (hr.ring h hh),
      fun h hh k hk hhk => (hdis h k).mp (hr.disjoint h hh k hk hhk)⟩,
    fun hr => ⟨fun h hh => ring_flip.mpr (hr.ring h hh),
      fun h hh k hk hhk => (hdis h k).mpr (hr.disjoint h hh k hk hhk)⟩⟩

section Operations

variable [DecidableEq A]

namespace Links

def setNext (m : Links A) (a b : A) : Links A := {m with next := Function.update m.next a b}
def setPrev (m : Links A) (a b : A) : Links A := {m with prev := Function.update m.prev a b}

@[simp] theorem setNext_prev (m : Links A) (a b : A) : (m.setNext a b).prev = m.prev := rfl
@[simp] theorem setPrev_next (m : Links A) (a b : A) : (m.setPrev a b).next = m.next := rfl
theorem setNext_next (m : Links A) (a b c : A) :
    (m.setNext a b).next c = if c = a then b else m.next c := Function.update_apply ..
theorem setPrev_prev (m : Links A) (a b c : A) :
    (m.setPrev a b).prev c = if c = a then b else m.prev c := Function.update_apply ..

/-- The head of an empty list points at itself. -/
def init (m : Links A) (h : A) : Links A := (m.setNext h h).setPrev h h

/-- A node is put behind the head. -/
def add (m : Links A) (n h : A) : Links A :=
  let m := m.setNext n (m.next h)
  let m := m.setPrev n h
  let m := m.setPrev (m.next h) n
  m.setNext h n

/-- A node is put in front of the head. -/
def addTail (m : Links A) (n h : A) : Links A :=
  let m := m.setNext n h
  let m := m.setPrev n (m.prev h)
  let m := m.setNext (m.prev h) n
  m.setPrev h n

/-- A node is taken out; its own fields stay. -/
def del (m : Links A) (n : A) : Links A :=
  let m := m.setPrev (m.next n) (m.prev n)
  m.setNext (m.prev n) (m.next n)

/-- The members of a list are given to another head; the old head keeps its fields. -/
def reparent (m : Links A) (l n : A) : Links A :=
  if m.next l = l then m
  else
    let m := m.setNext n (m.next l)
    let m := m.setPrev n (m.prev l)
    let m := m.setNext (m.prev n) n
    m.setPrev (m.next n) n

end Links

open Links

theorem ring_init (m : Links A) (h : A) : Ring (m.init h) h [] :=
  ⟨by simp,by simp [Linked,init,setNext_next,setPrev_prev]⟩

theorem Ring.init_eq (hr : Ring m h []) : m.init h = m := by
  ext y
  · by_cases hy : y = h
    · subst hy
      simp [Links.init,Links.setNext,hr.linked.1]
    · simp [Links.init,Links.setNext,hy]
  · by_cases hy : y = h
    · subst hy
      simp [Links.init,Links.setPrev,hr.linked.2]
    · simp [Links.init,Links.setPrev,hy]

theorem init_other (m : Links A) {h y : A} (hy : y ≠ h) :
    (m.init h).next y = m.next y ∧ (m.init h).prev y = m.prev y := by
  simp [Links.init,setNext_next,setPrev_prev,hy]

theorem add_next (m : Links A) (h n c : A) : (m.add n h).next c =
    if c = h then n else if c = n then m.next h else m.next c := by
  simp [Links.add,setNext_next]

theorem add_prev (m : Links A) {h n : A} (hne : n ≠ h) (c : A) : (m.add n h).prev c =
    if c = m.next h then n else if c = n then h else m.prev c := by
  simp [Links.add,setPrev_prev,setNext_next,hne.symm]

theorem del_next (m : Links A) {n : A} (hne : m.next n ≠ n) (c : A) : (m.del n).next c =
    if c = m.prev n then m.next n else m.next c := by
  simp [Links.del,setNext_next,setPrev_prev,hne.symm]

theorem del_prev (m : Links A) (n c : A) : (m.del n).prev c =
    if c = m.next n then m.prev n else m.prev c := by
  simp [Links.del,setPrev_prev]

/-- A new node becomes the first member. -/
theorem Ring.add (hr : Ring m h xs) (hn : n ∉ h::xs) : Ring (m.add n h) h (n::xs) := by
  have hne : n ≠ h := fun he => hn (by simp [he])
  have hnx : n ∉ xs := fun hm => hn (List.mem_cons_of_mem _ hm)
  have hh := hr.head_notMem
  refine ⟨by simp [hne.symm,hh,hnx,hr.members_nodup],?_⟩
  have hl := hr.linked
  cases xs with
  | nil =>
    obtain ⟨h1,h2⟩ := hl
    simp [Linked,add_next m h n,add_prev m hne,h1,hne]
  | cons x xs =>
    obtain ⟨h1,h2,hl⟩ := hl
    have hxn : x ≠ n := fun he => hnx (by simp [he])
    have hxh : x ≠ h := fun he => hh (by simp [he])
    have hxs := (List.nodup_cons.mp hr.members_nodup).1
    refine ⟨by simp [add_next m h n],by simp [add_prev m hne,h1,hxn.symm],
      by simp [add_next m h n,hne,h1],by simp [add_prev m hne,h1],?_⟩
    refine hl.transport (fun y hy => ?_) (fun y hy => ?_)
    · have hyn : y ≠ n := fun he => hnx (he ▸ hy)
      have hyh : y ≠ h := fun he => hh (he ▸ hy)
      simp [add_next m h n,hyn,hyh]
    · have hyx : y ≠ x := by
        rintro rfl
        rcases List.mem_append.mp hy with hy | hy
        · exact hxs hy
        · exact hxh (List.mem_singleton.mp hy)
      have hyn : y ≠ n := by
        rintro rfl
        rcases List.mem_append.mp hy with hy | hy
        · exact hnx (List.mem_cons_of_mem _ hy)
        · exact hne (List.mem_singleton.mp hy)
      simp [add_prev m hne,h1,hyx,hyn]

/-- A node is taken out of a path. -/
theorem Linked.del (h1 : Linked m a xs n) (h2 : Linked m n ys b) (hnd : (xs ++ n::ys).Nodup)
    (ha : a ∉ xs ++ n::ys) (hb : b ∉ xs ++ n::ys) : Linked (m.del n) a (xs ++ ys) b := by
  have hnext : m.next n ≠ n := by
    intro he
    have hmem := h2.next_mem
    rw [he] at hmem
    rcases List.mem_append.mp hmem with hmem | hmem
    · exact (List.nodup_cons.mp (List.nodup_append.mp hnd).2.1).1 hmem
    · exact hb (by simp [List.mem_singleton.mp hmem])
  induction xs generalizing a with
  | nil =>
    obtain ⟨hna,hpn⟩ := h1
    rw [List.nil_append] at hnd ha hb ⊢
    cases ys with
    | nil =>
      obtain ⟨hnb,hpb⟩ := h2
      simp [Linked,del_next m hnext,del_prev,hpn,hnb]
    | cons y ys =>
      obtain ⟨hny,hpy,h2⟩ := h2
      have hyys := (List.nodup_cons.mp (List.nodup_cons.mp hnd).2).1
      refine ⟨by simp [del_next m hnext,hpn,hny],by simp [del_prev,hpn,hny],?_⟩
      refine h2.transport (fun z hz => ?_) (fun z hz => ?_)
      · have hza : z ≠ a := fun he => ha (List.mem_cons_of_mem _ (he ▸ hz))
        simp [del_next m hnext,hpn,hza]
      · have hzy : z ≠ y := by
          rintro rfl
          rcases List.mem_append.mp hz with hz | hz
          · exact hyys hz
          · exact hb (by simp [List.mem_singleton.mp hz])
        simp [del_prev,hny,hzy]
  | cons x xs ih =>
    obtain ⟨hax,hpx,h1⟩ := h1
    rw [List.cons_append] at hnd ha hb
    obtain ⟨hx,hnd⟩ := List.nodup_cons.mp hnd
    have hlast : a ≠ m.prev n := fun he => ha (by
      have := h1.prev_mem
      rw [← he] at this
      exact List.mem_append_left (n::ys) this)
    have hfirst : x ≠ m.next n := fun he => by
      have hmem := h2.next_mem
      rw [← he] at hmem
      rcases List.mem_append.mp hmem with hmem | hmem
      · exact hx (List.mem_append_right _ (List.mem_cons_of_mem _ hmem))
      · exact hb (by simp [List.mem_singleton.mp hmem])
    exact ⟨by simp [del_next m hnext,hlast,hax],by simp [del_prev,hfirst,hpx],
      ih h1 hnd hx (fun hm => hb (List.mem_cons_of_mem _ hm))⟩

/-- A member is taken out. -/
theorem Ring.del (hr : Ring m h (xs ++ n::ys)) : Ring (m.del n) h (xs ++ ys) := by
  obtain ⟨h1,h2⟩ := linked_append.mp hr.linked
  refine ⟨hr.nodup.sublist ?_,h1.del h2 hr.members_nodup hr.head_notMem hr.head_notMem⟩
  exact ((List.sublist_cons_self n ys).append_left xs).cons_cons h

/-- One list is replaced by a list of its own nodes and of nodes that were in none; the links of the
other lists are the same. -/
theorem Rings.change (hr : Rings m heads items) (hh : h ∈ heads) (hring : Ring m' h xs)
    (hfrom : ∀ y ∈ xs, y ∈ items h ∨ Outside heads items y)
    (hsame : ∀ y, y ∉ h::items h → y ∉ xs → ¬ Outside heads items y →
      m'.next y = m.next y ∧ m'.prev y = m.prev y) :
    Rings m' heads (Function.update items h xs) := by
  have hother {k y : A} (hk : k ∈ heads) (hkh : k ≠ h) (hy : y ∈ k::items k) : y ∉ h::xs := by
    intro hyh
    rcases List.mem_cons.mp hyh with rfl | hyx
    · exact hr.disjoint k hk y hh hkh hy (by simp)
    · rcases hfrom y hyx with hm | hout
      · exact hr.disjoint k hk h hh hkh hy (List.mem_cons_of_mem _ hm)
      · exact hout k hk hy
  refine ⟨fun k hk => ?_,fun k hk l hl hkl y hyk hyl => ?_⟩
  · by_cases hkh : k = h
    · rw [hkh,Function.update_self]
      exact hring
    · rw [Function.update_of_ne hkh]
      have hkeep (y : A) (hy : y ∈ k::items k) := hsame y (hr.disjoint k hk h hh hkh hy)
        (fun hyx => hother hk hkh hy (List.mem_cons_of_mem _ hyx)) fun hout => hout k hk hy
      exact (hr.ring k hk).transport (fun y hy => (hkeep y hy).1) fun y hy => (hkeep y hy).2
  · by_cases hkh : k = h
    · have hlh : l ≠ h := fun he => hkl (hkh.trans he.symm)
      rw [hkh,Function.update_self] at hyk
      rw [Function.update_of_ne hlh] at hyl
      exact hother hl hlh hyl hyk
    · rw [Function.update_of_ne hkh] at hyk
      by_cases hlh : l = h
      · rw [hlh,Function.update_self] at hyl
        exact hother hk hkh hyk hyl
      · rw [Function.update_of_ne hlh] at hyl
        exact hr.disjoint k hk l hl hkl hyk hyl

theorem Rings.add (hr : Rings m heads items) (hh : h ∈ heads) (hn : Outside heads items n) :
    Rings (m.add n h) heads (Function.update items h (n::items h)) := by
  have hne : n ≠ h := fun he => hn h hh (by simp [he])
  refine hr.change hh ((hr.ring h hh).add (hn h hh)) (fun y hy => ?_) fun y hyh hyn _ => ?_
  · rcases List.mem_cons.mp hy with rfl | hy
    · exact Or.inr hn
    · exact Or.inl hy
  · have hy1 : y ≠ n := fun he => hyn (by simp [he])
    have hy2 : y ≠ h := fun he => hyh (by simp [he])
    have hy3 : y ≠ m.next h := fun he => hyh (he ▸ (hr.ring h hh).next_head_mem)
    exact ⟨by simp [add_next m h n,hy1,hy2],by simp [add_prev m hne,hy1,hy3]⟩

theorem addTail_eq_flip (m : Links A) (n h : A) : m.addTail n h = (m.flip.add n h).flip := rfl

/-- A new node becomes the last member. -/
theorem Ring.addTail (hr : Ring m h xs) (hn : n ∉ h::xs) : Ring (m.addTail n h) h (xs ++ [n]) := by
  have hadd := (ring_flip.mpr hr).add fun hm => hn (by simpa using hm)
  rw [addTail_eq_flip,← ring_flip,List.reverse_concat]
  exact hadd

theorem Rings.addTail (hr : Rings m heads items) (hh : h ∈ heads) (hn : Outside heads items n) :
    Rings (m.addTail n h) heads (Function.update items h (items h ++ [n])) := by
  have hout : Outside heads (fun k => (items k).reverse) n := fun k hk hm => hn k hk (by simpa using hm)
  have hadd := (rings_flip.mpr hr).add hh hout
  rw [addTail_eq_flip,← rings_flip]
  refine hadd.congr fun k _ => ?_
  by_cases hkh : k = h
  · rw [hkh,Function.update_self,Function.update_self,List.reverse_concat]
  · rw [Function.update_of_ne hkh,Function.update_of_ne hkh]

/-- A node outside becomes the head of an empty list. -/
theorem Rings.init (hr : Rings m heads items) (hn : Outside heads items n) :
    Rings (m.init n) (n::heads) (Function.update items n []) := by
  have hne (k : A) (hk : k ∈ heads) : k ≠ n := fun he => hn k hk (by simp [he])
  have hitems (k : A) (hk : k ∈ heads) : Function.update items n [] k = items k :=
    Function.update_of_ne (hne k hk) ..
  have hsep (k : A) (hk : k ∈ heads) : (k::items k).Disjoint [n] :=
    fun y hy hyn => hn k hk (List.mem_singleton.mp hyn ▸ hy)
  refine ⟨fun k hk => ?_,fun k hk l hl hkl => ?_⟩
  · rcases List.mem_cons.mp hk with rfl | hk
    · rw [Function.update_self]
      exact ring_init m k
    · rw [hitems k hk]
      have hkeep (y : A) (hy : y ∈ k::items k) := init_other m fun he : y = n => hn k hk (he ▸ hy)
      exact (hr.ring k hk).transport (fun y hy => (hkeep y hy).1) fun y hy => (hkeep y hy).2
  · rcases List.mem_cons.mp hk with rfl | hk
    · rcases List.mem_cons.mp hl with rfl | hl
      · exact absurd rfl hkl
      · rw [Function.update_self,hitems l hl]
        exact (hsep l hl).symm
    · rw [hitems k hk]
      rcases List.mem_cons.mp hl with hln | hl
      · rw [hln,Function.update_self]
        exact hsep k hk
      · rw [hitems l hl]
        exact hr.disjoint k hk l hl hkl

/-- A member of one list is not in the others. -/
theorem Rings.erase_other {k : A} (hr : Rings m heads items) (hh : h ∈ heads) (hk : k ∈ heads)
    (hkh : k ≠ h) (hn : n ∈ items h) : (items k).erase n = items k :=
  List.erase_of_not_mem fun hm =>
    hr.disjoint k hk h hh hkh (List.mem_cons_of_mem _ hm) (List.mem_cons_of_mem _ hn)

theorem Rings.del (hr : Rings m heads items) (hh : h ∈ heads) (hn : n ∈ items h) :
    Rings (m.del n) heads (fun l => (items l).erase n) := by
  have hring := hr.ring h hh
  obtain ⟨xs,ys,hsplit⟩ := List.append_of_mem hn
  have hnxs : n ∉ xs := by
    have hnd := hring.members_nodup
    rw [hsplit] at hnd
    exact fun hm => (List.nodup_append.mp hnd).2.2 n hm n (by simp) rfl
  have herase : (items h).erase n = xs ++ ys := by
    rw [hsplit,List.erase_append_right _ hnxs,List.erase_cons_head]
  rw [hsplit] at hring
  obtain ⟨h1,h2⟩ := linked_append.mp hring.linked
  have hnext : m.next n ∈ h::items h := by
    rw [hsplit]
    rcases List.mem_append.mp h2.next_mem with hm | hm
    · simp [hm]
    · simp [List.mem_singleton.mp hm]
  have hprev : m.prev n ∈ h::items h := by
    rw [hsplit]
    rcases List.mem_cons.mp h1.prev_mem with hm | hm
    · simp [hm]
    · simp [hm]
  have hself : m.next n ≠ n := by
    intro he
    have hmem := h2.next_mem
    rw [he] at hmem
    rcases List.mem_append.mp hmem with hmem | hmem
    · exact (List.nodup_cons.mp (List.nodup_append.mp hring.members_nodup).2.1).1 hmem
    · exact hring.head_notMem (by simp [List.mem_singleton.mp hmem])
  have hchange : Rings (m.del n) heads (Function.update items h (xs ++ ys)) := by
    refine hr.change hh hring.del (fun y hy => Or.inl ?_) fun y hyh _ _ => ?_
    · rw [hsplit]
      rcases List.mem_append.mp hy with hy | hy
      · simp [hy]
      · simp [hy]
    · have hyp : y ≠ m.prev n := fun he => hyh (he ▸ hprev)
      have hyn : y ≠ m.next n := fun he => hyh (he ▸ hnext)
      exact ⟨by simp [del_next m hself,hyp],by simp [del_prev,hyn]⟩
  refine hchange.congr fun k hk => ?_
  by_cases hkh : k = h
  · rw [hkh,Function.update_self,herase]
  · rw [Function.update_of_ne hkh,hr.erase_other hh hk hkh hn]

/-- The nodes that a walk of so many steps meets before it is back at the head. -/
def Links.walk (m : Links A) (h : A) : ℕ → A → List A
  | 0, _ => []
  | k+1, a => if a = h then [] else a::m.walk h k (m.next a)

theorem Linked.walk {k : ℕ} (hl : Linked m a xs h) (hh : h ∉ xs) (hk : xs.length ≤ k) :
    m.walk h k (m.next a) = xs := by
  induction xs generalizing a k with
  | nil =>
    rw [hl.1]
    cases k with
    | zero => rfl
    | succ k => exact if_pos rfl
  | cons x xs ih =>
    obtain ⟨k,rfl⟩ : ∃ j, k = j+1 := ⟨k-1,by simp only [List.length_cons] at hk; omega⟩
    have hx : x ≠ h := fun he => hh (by simp [he])
    rw [hl.1,Links.walk,if_neg hx,ih hl.2.2 (fun hm => hh (List.mem_cons_of_mem _ hm))
      (by simpa using hk)]

/-- A member of one list becomes the first member of another, or of its own. -/
def Links.move (m : Links A) (n k : A) : Links A := (m.del n).add n k

theorem Rings.move {k : A} (hr : Rings m heads items) (hh : h ∈ heads) (hk : k ∈ heads)
    (hn : n ∈ items h) : Rings (m.move n k) heads
      (Function.update (fun l => (items l).erase n) k (n::(items k).erase n)) := by
  refine (hr.del hh hn).add hk fun l hl hm => ?_
  rcases List.mem_cons.mp hm with rfl | hm
  · by_cases hnh : n = h
    · exact (hr.ring h hh).head_notMem (hnh ▸ hn)
    · exact hr.disjoint n hl h hh hnh (by simp) (List.mem_cons_of_mem _ hn)
  · exact (hr.ring l hl).members_nodup.not_mem_erase hm

theorem reparent_eq {m : Links A} {l k : A} (hne : m.next l ≠ l) (hk : k ≠ m.prev l) (c : A) :
    (m.reparent l k).next c = (if c = m.prev l then k else if c = k then m.next l else m.next c) ∧
    (m.reparent l k).prev c = if c = m.next l then k else if c = k then m.prev l else m.prev c := by
  simp [Links.reparent,hne,setNext_next,setPrev_prev,hk]

/-- The members arrive at their new head in their order. -/
theorem Ring.reparent {k : A} (hr : Ring m h xs) (hne : xs ≠ []) (hk : k ∉ h::xs) :
    Ring (m.reparent h k) k xs := by
  obtain ⟨hkh,hkx⟩ := not_or.mp (List.mem_cons.not.mp hk)
  obtain ⟨hnext,hprev⟩ := hr.ends_mem hne
  have hkl : k ≠ m.prev h := fun he => hkx (he ▸ hprev)
  have heq := reparent_eq (hr.next_ne hne) hkl
  have hkf : k ≠ m.next h := fun he => hkx (he ▸ hnext)
  refine ⟨List.nodup_cons.mpr ⟨hkx,hr.members_nodup⟩,hr.linked.reroot hne hr.members_nodup ?_ ?_ ?_ ?_ ?_ ?_⟩
  · simp [(heq k).1,hkl]
  · simp [(heq (m.next h)).2]
  · simp [(heq (m.prev h)).1]
  · simp [(heq k).2,hkf]
  · intro y hy hyl
    have hyk : y ≠ k := fun he => hkx (he ▸ hy)
    simp [(heq y).1,hyl,hyk]
  · intro y hy hyf
    have hyk : y ≠ k := fun he => hkx (he ▸ hy)
    simp [(heq y).2,hyf,hyk]

theorem Rings.reparent {k : A} (hr : Rings m heads items) (hh : h ∈ heads) (hk : k ∈ heads) (hkh : k ≠ h)
    (hne : items h ≠ []) : Rings (m.reparent h k) (heads.filter (· ≠ h))
      (Function.update items k (items h)) := by
  have hring := hr.ring h hh
  obtain ⟨hnext,hprev⟩ := hring.ends_mem hne
  have hdis := hr.disjoint k hk h hh hkh
  have hkx : k ∉ h::items h := hdis (by simp)
  have hkl : k ≠ m.prev h := fun he => hkx (List.mem_cons_of_mem _ (he ▸ hprev))
  have heq := reparent_eq (hring.next_ne hne) hkl
  have hsub (l : A) (hl : l ∈ heads.filter (· ≠ h)) : l ∈ heads ∧ l ≠ h := by simpa using hl
  refine (hr.mono fun l hl => (hsub l hl).1).change (by simpa using ⟨hk,hkh⟩) (hring.reparent hne hkx)
    (fun y hy => Or.inr fun l hl hyl => ?_) fun y hyk hyx _ => ?_
  · obtain ⟨hl,hlh⟩ := hsub l hl
    exact hr.disjoint l hl h hh hlh hyl (List.mem_cons_of_mem _ hy)
  · have hy1 : y ≠ m.next h := fun he => hyx (he ▸ hnext)
    have hy2 : y ≠ m.prev h := fun he => hyx (he ▸ hprev)
    have hy3 : y ≠ k := fun he => hyk (by simp [he])
    exact ⟨by simp [(heq y).1,hy2,hy3],by simp [(heq y).2,hy1,hy3]⟩

/-- A turn of a loop over the members that reads the next node before its body runs. -/
def forEachSafe (body : A → Links A → Links A) (h : A) (s : Links A × A × A) :
    WhileLoop.Turn (Links A × A × A) (Links A) :=
  if s.2.1 = h then .stop s.1
  else
    let m := body s.2.1 s.1
    .again (m,s.2.2,m.next s.2.2)

/-- The members that a loop moves to another list arrive there in reverse order. -/
theorem forEachSafe_move {k : A} (hr : Rings m heads items) (hh : h ∈ heads) (hk : k ∈ heads)
    (hhk : h ≠ k) : ∃ m', WhileLoop.run (forEachSafe (fun n m => m.move n k) h) ((items h).length+1)
        (m,m.next h,m.next (m.next h)) = some m' ∧
      Rings m' heads (Function.update (Function.update items h []) k ((items h).reverse ++ items k)) := by
  generalize hx : items h = xs
  induction xs generalizing m items with
  | nil =>
    have hring := hr.ring h hh
    rw [hx] at hring
    have hturn : forEachSafe (fun n m => m.move n k) h (m,m.next h,m.next (m.next h)) = .stop m :=
      if_pos hring.linked.1
    refine ⟨m,WhileLoop.run_stop hturn _,?_⟩
    rw [List.reverse_nil,List.nil_append,← hx,Function.update_eq_self,Function.update_eq_self]
    exact hr
  | cons x xs ih =>
    have hring := hr.ring h hh
    rw [hx] at hring
    have hxh : x ≠ h := fun he => hring.head_notMem (by simp [he])
    have hmove : Rings (m.move x k) heads (Function.update (Function.update items h xs) k
        (x::items k)) := by
      have hmem : x ∈ items h := by simp [hx]
      refine (hr.move hh hk hmem).congr fun l hl => ?_
      by_cases hlk : l = k
      · subst hlk
        rw [Function.update_self,Function.update_self,hr.erase_other hh hl hhk.symm hmem]
      · rw [Function.update_of_ne hlk,Function.update_of_ne hlk]
        by_cases hlh : l = h
        · subst hlh
          rw [Function.update_self,hx,List.erase_cons_head]
        · rw [Function.update_of_ne hlh,hr.erase_other hh hl hlh hmem]
    have hrest : Function.update (Function.update items h xs) k (x::items k) h = xs := by
      rw [Function.update_of_ne hhk,Function.update_self]
    -- the node read ahead is the first of the remaining members
    have hahead : m.next x = (m.move x k).next h := by
      have hring' := hmove.ring h hh
      rw [hrest] at hring'
      have hold := hring.linked.2.2
      have hnew := hring'.linked
      cases xs with
      | nil => rw [hold.1,hnew.1]
      | cons y ys => rw [hold.1,hnew.1]
    obtain ⟨m',hrun,hr'⟩ := ih hmove hrest
    refine ⟨m',?_,?_⟩
    · rw [List.length_cons,hring.linked.1]
      have hturn : forEachSafe (fun n m => m.move n k) h (m,x,m.next x) =
          .again (m.move x k,m.next x,(m.move x k).next (m.next x)) := if_neg hxh
      rw [WhileLoop.run_again hturn,hahead]
      exact hrun
    · have hitems : Function.update (Function.update (Function.update (Function.update items h xs) k
          (x::items k)) h []) k (xs.reverse ++ Function.update (Function.update items h xs) k
            (x::items k) k) =
          Function.update (Function.update items h []) k ((x::xs).reverse ++ items k) := by
        funext l
        by_cases hlk : l = k
        · subst hlk
          simp
        · by_cases hlh : l = h
          · subst hlh
            simp [hlk]
          · simp [hlk,hlh]
      rwa [hitems] at hr'

/-- The forward links alone lead from `p` through the nodes to `b`. -/
def Leads (next : A → A) : A → List A → A → Prop
  | p, [], b => p = b
  | p, x::xs, b => p = x ∧ Leads next (next x) xs b

omit [DecidableEq A] in
theorem Linked.leads (hl : Linked m a xs b) : Leads m.next (m.next a) xs b := by
  induction xs generalizing a with
  | nil => exact hl.1
  | cons x xs ih => exact ⟨hl.1,ih hl.2.2⟩

omit [DecidableEq A] in
theorem Leads.congr {next next' : A → A} {p : A} (hl : Leads next p xs b)
    (heq : ∀ y ∈ xs, next' y = next y) : Leads next' p xs b := by
  induction xs generalizing p with
  | nil => exact hl
  | cons x xs ih =>
    refine ⟨hl.1,?_⟩
    rw [heq x (by simp)]
    exact ih hl.2 fun y hy => heq y (List.mem_cons_of_mem _ hy)

/-- Nodes that are added to another list while their own is walked arrive there in reverse order. -/
theorem forEachSafe_add {k p : A} (hl : Leads m.next p xs h) (hh : h ∉ xs) (hr : Ring m k ys)
    (hnd : xs.Nodup) (hdis : ∀ x ∈ xs, x ∉ k::ys) :
    ∃ m', WhileLoop.run (forEachSafe (fun n m => m.add n k) h) (xs.length+1) (m,p,m.next p) = some m' ∧
      Ring m' k (xs.reverse ++ ys) ∧
      ∀ y, y ∉ xs → y ∉ k::ys → m'.next y = m.next y ∧ m'.prev y = m.prev y := by
  induction xs generalizing m p ys with
  | nil =>
    have hturn : forEachSafe (fun n m => m.add n k) h (m,p,m.next p) = .stop m := if_pos hl
    exact ⟨m,WhileLoop.run_stop hturn _,hr,fun _ _ _ => ⟨rfl,rfl⟩⟩
  | cons x xs ih =>
    obtain ⟨rfl,hl⟩ := hl
    obtain ⟨hpxs,hnd⟩ := List.nodup_cons.mp hnd
    have hpk := hdis p (by simp)
    have hne : p ≠ k := fun he => hpk (by simp [he])
    have hadd := hr.add hpk
    have hkeep (y : A) (hyp : y ≠ p) (hyk : y ∉ k::ys) :
        (m.add p k).next y = m.next y ∧ (m.add p k).prev y = m.prev y := by
      have hy1 : y ≠ k := fun he => hyk (by simp [he])
      have hy2 : y ≠ m.next k := fun he => hyk (he ▸ hr.next_head_mem)
      exact ⟨by simp [add_next m k p,hyp,hy1],by simp [add_prev m hne,hyp,hy2]⟩
    have hrest (y : A) (hy : y ∈ xs) : y ≠ p := fun he => hpxs (he ▸ hy)
    have hdis' (y : A) (hy : y ∈ xs) : y ∉ k::ys := hdis y (List.mem_cons_of_mem _ hy)
    have hl' : Leads (m.add p k).next (m.next p) xs h :=
      hl.congr fun y hy => (hkeep y (hrest y hy) (hdis' y hy)).1
    have hsep (y : A) (hy : y ∈ xs) : y ∉ k::p::ys := by
      have := hdis' y hy
      simp only [List.mem_cons,not_or] at this ⊢
      exact ⟨this.1,hrest y hy,this.2⟩
    obtain ⟨m',hrun,hring,hsame⟩ := ih hl' (fun hm => hh (List.mem_cons_of_mem _ hm)) hadd hnd hsep
    have hturn : forEachSafe (fun n m => m.add n k) h (m,p,m.next p) =
        .again (m.add p k,m.next p,(m.add p k).next (m.next p)) :=
      if_neg fun he : p = h => hh (by simp [he])
    refine ⟨m',?_,?_,fun y hy hyk => ?_⟩
    · rw [List.length_cons,WhileLoop.run_again hturn,hrun]
    · rw [List.reverse_cons,List.append_assoc]
      exact hring
    · obtain ⟨hyp,hyxs⟩ := not_or.mp (List.mem_cons.not.mp hy)
      have hyk' : y ∉ k::p::ys := by
        simp only [List.mem_cons,not_or] at hyk ⊢
        exact ⟨hyk.1,hyp,hyk.2⟩
      obtain ⟨hn,hp⟩ := hsame y hyxs hyk'
      obtain ⟨hn',hp'⟩ := hkeep y hyp hyk
      exact ⟨hn.trans hn',hp.trans hp'⟩

end Operations

end IntrusiveList
