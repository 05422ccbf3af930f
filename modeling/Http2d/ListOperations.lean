import Http2d.Library.IntrusiveList

/-! The operations of `list.h` and `http2d_list_invert`, driven together with plain lists.
A reference keeps for every head in use the sequence that its list should hold. -/
namespace Http2d

open IntrusiveList

variable {A : Type} [DecidableEq A]

/-- The reference: the heads in use, and what their lists hold. -/
structure RefLists (A : Type) where
  heads : List A
  items : A → List A

/-- A call. The last argument of `invert` is the address of its variable `new_list`. -/
inductive ListOp (A : Type)
  | init (head : A)
  | add (newEntry head : A)
  | addTail (newEntry head : A)
  | del (entry : A)
  | reparent (list newEntry : A)
  | invert (head newList : A)
  deriving DecidableEq, Repr

namespace ListOp

/-- `http2d_list_invert` returns. -/
def Inverts (m : Links A) (head newList : A) (m' : Links A) : Prop :=
  ∃ fuel m1, WhileLoop.run (forEachSafe (fun i m => m.add i newList) head) fuel
      (m.init newList,(m.init newList).next head,(m.init newList).next ((m.init newList).next head)) =
        some m1 ∧
    m' = m1.reparent newList head

/-- What a call does to the links. -/
def Runs (m : Links A) : ListOp A → Links A → Prop
  | init head, m' => m' = m.init head
  | add newEntry head, m' => m' = m.add newEntry head
  | addTail newEntry head, m' => m' = m.addTail newEntry head
  | del entry, m' => m' = m.del entry
  | reparent list newEntry, m' => m' = m.reparent list newEntry
  | invert head newList, m' => Inverts m head newList m'

/-- Nodes that are added are in no list, nodes that are deleted are in one, and a list is reparented
to an empty head. -/
def Legal (r : RefLists A) : ListOp A → Prop
  | init head => Outside r.heads r.items head
  | add newEntry head => head ∈ r.heads ∧ Outside r.heads r.items newEntry
  | addTail newEntry head => head ∈ r.heads ∧ Outside r.heads r.items newEntry
  | del entry => ∃ head ∈ r.heads, entry ∈ r.items head
  | reparent list newEntry => list ∈ r.heads ∧ newEntry ∈ r.heads ∧ r.items newEntry = []
  | invert head newList => head ∈ r.heads ∧ Outside r.heads r.items newList

/-- The call may change the list of this head. -/
def Concerns (h : A) (xs : List A) : ListOp A → Prop
  | init head => h = head
  | add _ head => h = head
  | addTail _ head => h = head
  | del entry => entry ∈ xs
  | reparent list newEntry => h = list ∨ h = newEntry
  | invert head _ => h = head

end ListOp

namespace RefLists

/-- The same call on the plain lists. A head whose members were given to another head is in use no
more, until it is initialized again. -/
def step (r : RefLists A) : ListOp A → RefLists A
  | .init head => ⟨head::r.heads,Function.update r.items head []⟩
  | .add newEntry head => ⟨r.heads,Function.update r.items head (newEntry::r.items head)⟩
  | .addTail newEntry head => ⟨r.heads,Function.update r.items head (r.items head ++ [newEntry])⟩
  | .del entry => ⟨r.heads,fun h => (r.items h).erase entry⟩
  | .reparent list newEntry =>
    if r.items list = [] then r
    else ⟨r.heads.filter (· ≠ list),Function.update r.items newEntry (r.items list)⟩
  | .invert head _ => ⟨r.heads,Function.update r.items head (r.items head).reverse⟩

def run (r : RefLists A) (ops : List (ListOp A)) : RefLists A := ops.foldl step r

/-- Every call is legal where it is made. -/
def LegalRun (r : RefLists A) : List (ListOp A) → Prop
  | [] => True
  | op::ops => op.Legal r ∧ LegalRun (r.step op) ops

end RefLists

/-- What the calls do to the links, one after the other. -/
def RunsAll : List (ListOp A) → Links A → Links A → Prop
  | [], m, m' => m = m'
  | op::ops, m, m' => ∃ m1, op.Runs m m1 ∧ RunsAll ops m1 m'

/-- The chain of the next links and the reversed chain of the prev links are this sequence. -/
structure Spells (m : Links A) (h : A) (xs : List A) : Prop where
  nodup : xs.Nodup
  next : m.walk h (xs.length+1) (m.next h) = xs
  prev : (m.flip.walk h (xs.length+1) (m.prev h)).reverse = xs

section Steps
variable {m m' : Links A} {r : RefLists A} {h t : A} {ops : List (ListOp A)}

theorem Spells.of_ring {xs : List A} (hr : Ring m h xs) : Spells m h xs := by
  have hwalk := hr.linked.walk hr.head_notMem (Nat.le_succ _)
  have hback := (ring_flip.mpr hr).linked.walk (ring_flip.mpr hr).head_notMem (Nat.le_succ _)
  rw [List.length_reverse] at hback
  exact ⟨hr.members_nodup,hwalk,(congrArg List.reverse hback).trans (List.reverse_reverse xs)⟩

/-- A list is reversed by way of the fresh head `t`. -/
theorem inverts_of_rings (hr : Rings m r.heads r.items) (hh : h ∈ r.heads)
    (ht : Outside r.heads r.items t) : ∃ m', ListOp.Inverts m h t m' ∧
      Rings m' r.heads (Function.update r.items h (r.items h).reverse) := by
  have hring := hr.ring h hh
  have hht := ht h hh
  have hinit (y : A) (hy : y ≠ t) := init_other m hy
  have hne (y : A) (hy : y ∈ h::r.items h) : y ≠ t := fun he => hht (he ▸ hy)
  have hl : Leads (m.init t).next ((m.init t).next h) (r.items h) h := by
    rw [(hinit h (hne h (by simp))).1]
    exact hring.linked.leads.congr fun y hy => (hinit y (hne y (List.mem_cons_of_mem _ hy))).1
  have hsep (y : A) (hy : y ∈ r.items h) : y ∉ [t] := by
    rw [List.mem_singleton]
    exact hne y (List.mem_cons_of_mem _ hy)
  obtain ⟨m1,hrun,hrev,hsame⟩ := forEachSafe_add hl hring.head_notMem (ring_init m t) hring.members_nodup
    hsep
  rw [List.append_nil] at hrev
  refine ⟨m1.reparent t h,⟨_,m1,hrun,rfl⟩,?_⟩
  have hout (y : A) (hyt : y ≠ t) (hy : y ∉ r.items h) : m1.next y = m.next y ∧ m1.prev y = m.prev y := by
    obtain ⟨hn,hp⟩ := hsame y hy (by simpa using hyt)
    exact ⟨hn.trans (hinit y hyt).1,hp.trans (hinit y hyt).2⟩
  have hother (y : A) (hy : y ∉ r.items h) (hin : ¬ Outside r.heads r.items y) :=
    hout y (fun he => hin (he ▸ ht)) hy
  by_cases hempty : r.items h = []
  · rw [hempty,List.reverse_nil] at hrev ⊢
    have hstay : m1.reparent t h = m1 := if_pos hrev.linked.1
    have hh1 := hout h (hne h (by simp)) hring.head_notMem
    rw [hstay]
    refine hr.change hh ?_ (by simp) fun y hyh _ hin => hother y (by simp [hempty]) hin
    refine (hempty ▸ hring).transport (fun y hy => ?_) fun y hy => ?_
    · rw [List.mem_singleton.mp hy,hh1.1]
    · rw [List.mem_singleton.mp hy,hh1.2]
  · have hrevne : (r.items h).reverse ≠ [] := by simpa using hempty
    have hnotin : h ∉ t::(r.items h).reverse := by
      simp only [List.mem_cons,List.mem_reverse,not_or]
      exact ⟨hne h (by simp),hring.head_notMem⟩
    obtain ⟨hfirst,hlast⟩ := hrev.ends_mem hrevne
    have hlast' : h ≠ m1.prev t := fun he => hnotin (List.mem_cons_of_mem _ (he ▸ hlast))
    have heq := reparent_eq (hrev.next_ne hrevne) hlast'
    refine hr.change hh (hrev.reparent hrevne hnotin) (fun y hy => Or.inl (by simpa using hy))
      fun y hyh hyx hin => ?_
    have hy1 : y ≠ m1.next t := fun he => hyx (he ▸ hfirst)
    have hy2 : y ≠ m1.prev t := fun he => hyx (he ▸ hlast)
    have hy3 : y ≠ h := fun he => hyh (by simp [he])
    rw [(heq y).1,(heq y).2,if_neg hy1,if_neg hy2,if_neg hy3,if_neg hy3]
    exact hother y (by simpa using hyx) hin

/-- One call keeps the lists in step with their reference. -/
theorem ListOp.runs_step {op : ListOp A} (hr : Rings m r.heads r.items) (hop : op.Legal r) :
    ∃ m', op.Runs m m' ∧ Rings m' (r.step op).heads (r.step op).items := by
  cases op with
  | init head => exact ⟨_,rfl,hr.init hop⟩
  | add newEntry head => exact ⟨_,rfl,hr.add hop.1 hop.2⟩
  | addTail newEntry head => exact ⟨_,rfl,hr.addTail hop.1 hop.2⟩
  | del entry =>
    obtain ⟨head,hh,hmem⟩ := hop
    exact ⟨_,rfl,hr.del hh hmem⟩
  | reparent list newEntry =>
    obtain ⟨hl,hn,hempty⟩ := hop
    refine ⟨_,rfl,?_⟩
    by_cases hitems : r.items list = []
    · have hring := hr.ring list hl
      rw [hitems] at hring
      have hstay : m.reparent list newEntry = m := if_pos hring.linked.1
      rw [hstay,RefLists.step,if_pos hitems]
      exact hr
    · rw [RefLists.step,if_neg hitems]
      exact hr.reparent hl hn (fun he => hitems (he ▸ hempty)) hitems
  | invert head newList => exact inverts_of_rings hr hop.1 hop.2

/-- A call has one outcome. -/
theorem ListOp.Runs.unique {op : ListOp A} {m1 m2 : Links A} (h1 : op.Runs m m1) (h2 : op.Runs m m2) :
    m1 = m2 := by
  cases op with
  | invert head newList =>
    obtain ⟨fuel,n1,hrun1,rfl⟩ := h1
    obtain ⟨fuel',n2,hrun2,rfl⟩ := h2
    rw [WhileLoop.run_unique hrun1 hrun2]
  | _ => exact h1.trans h2.symm

theorem RunsAll.rings (hr : Rings m r.heads r.items) (hl : r.LegalRun ops) :
    (∃ m', RunsAll ops m m') ∧
    ∀ m', RunsAll ops m m' → Rings m' (r.run ops).heads (r.run ops).items := by
  induction ops generalizing m r with
  | nil => exact ⟨⟨m,rfl⟩,fun m' h => h ▸ hr⟩
  | cons op ops ih =>
    obtain ⟨m1,h1,hr1⟩ := ListOp.runs_step hr hl.1
    obtain ⟨⟨m2,h2⟩,hall⟩ := ih hr1 hl.2
    refine ⟨⟨m2,m1,h1,h2⟩,fun m' hm' => ?_⟩
    obtain ⟨m1',h1',h2'⟩ := hm'
    exact hall m' (h1.unique h1' ▸ h2')

/-- A list that no call concerns is as it was. -/
theorem RefLists.run_spared (hh : h ∈ r.heads) (hops : ∀ op ∈ ops, ¬ op.Concerns h (r.items h)) :
    h ∈ (r.run ops).heads ∧ (r.run ops).items h = r.items h := by
  induction ops generalizing r with
  | nil => exact ⟨hh,rfl⟩
  | cons op ops ih =>
    obtain ⟨hop,hops⟩ := List.forall_mem_cons.mp hops
    have hone : h ∈ (r.step op).heads ∧ (r.step op).items h = r.items h := by
      cases op with
      | init head => exact ⟨List.mem_cons_of_mem _ hh,Function.update_of_ne hop ..⟩
      | add newEntry head => exact ⟨hh,Function.update_of_ne hop ..⟩
      | addTail newEntry head => exact ⟨hh,Function.update_of_ne hop ..⟩
      | del entry => exact ⟨hh,List.erase_of_not_mem hop⟩
      | reparent list newEntry =>
        obtain ⟨hlist,hnew⟩ := not_or.mp hop
        rw [RefLists.step]
        split_ifs
        · exact ⟨hh,rfl⟩
        · exact ⟨by simpa using ⟨hh,hlist⟩,Function.update_of_ne hnew ..⟩
      | invert head newList => exact ⟨hh,Function.update_of_ne hop ..⟩
    obtain ⟨hin,hsame⟩ := ih hone.1 (by rwa [hone.2])
    exact ⟨hin,hsame.trans hone.2⟩

end Steps

/-- Every legal sequence of calls runs. At its end both chains of every head in use spell what the
reference holds for it, and the lists that were not concerned are what they were. -/
theorem lists_refine {m : Links A} {r : RefLists A} {ops : List (ListOp A)}
    (hr : Rings m r.heads r.items) (hl : r.LegalRun ops) :
    (∃ m', RunsAll ops m m') ∧
    ∀ m', RunsAll ops m m' →
      (∀ h ∈ (r.run ops).heads, Spells m' h ((r.run ops).items h)) ∧
      ∀ h ∈ r.heads, (∀ op ∈ ops, ¬ op.Concerns h (r.items h)) → Spells m' h (r.items h) := by
  obtain ⟨hex,hall⟩ := RunsAll.rings hr hl
  refine ⟨hex,fun m' hm' => ?_⟩
  have hspells (h : A) (hh : h ∈ (r.run ops).heads) := Spells.of_ring ((hall m' hm').ring h hh)
  refine ⟨hspells,fun h hh hops => ?_⟩
  obtain ⟨hin,hsame⟩ := RefLists.run_spared hh hops
  exact hsame ▸ hspells h hin

/-- The lists 0, with the member 2, and 1, which is empty. -/
def twoLists : RefLists ℕ := ⟨[0,1],fun h => if h = 0 then [2] else []⟩

def twoLinks : Links ℕ := (((⟨id,id⟩ : Links ℕ).init 0).init 1).add 2 0

theorem twoLists_rings : Rings twoLinks twoLists.heads twoLists.items := by
  have hempty : Rings (⟨id,id⟩ : Links ℕ) [] fun _ => [] := ⟨by simp,by simp⟩
  have h0 := hempty.init (n:=0) (by simp [Outside])
  have h1 := h0.init (n:=1) (by simp [Outside])
  have h2 := h1.add (h:=0) (n:=2) (by simp) (by simp [Outside])
  refine (h2.congr fun h hh => ?_).mono (by simp [twoLists])
  rcases List.mem_cons.mp hh with rfl | hh
  · rfl
  · rcases List.mem_cons.mp hh with rfl | hh
    · rfl
    · exact absurd hh List.not_mem_nil

/-- A list is inverted, given to the other head, and its old head is used again. -/
theorem lists_refine_two :
    let ops : List (ListOp ℕ) := [.addTail 3 0,.invert 0 4,.reparent 0 1,.del 2,.init 0,.add 2 0]
    (∃ m', RunsAll ops twoLinks m') ∧
    ∀ m', RunsAll ops twoLinks m' →
      (∀ h ∈ (twoLists.run ops).heads, Spells m' h ((twoLists.run ops).items h)) ∧
      ∀ h ∈ twoLists.heads, (∀ op ∈ ops, ¬ op.Concerns h (twoLists.items h)) →
        Spells m' h (twoLists.items h) :=
  lists_refine twoLists_rings (by
    simp [RefLists.LegalRun,ListOp.Legal,RefLists.step,twoLists,Outside,Function.update])

/-- Behind `http2d_list_reparent` the links of the old head lead into the list of the new one: they
spell nothing. -/
theorem not_spells_reparent : Rings twoLinks twoLists.heads twoLists.items ∧
    (ListOp.reparent 0 1).Legal twoLists ∧
    ∀ m', (ListOp.reparent 0 1).Runs twoLinks m' → ∀ xs, ¬ Spells m' 0 xs := by
  refine ⟨twoLists_rings,by simp [ListOp.Legal,twoLists],fun m' hm' xs hs => ?_⟩
  have hstuck (k : ℕ) : (m'.walk 0 k 2).length = k ∧ (m'.walk 0 k 1).length = k := by
    have h1 : m'.next 1 = 2 := by rw [hm']; rfl
    have h2 : m'.next 2 = 1 := by rw [hm']; rfl
    induction k with
    | zero => exact ⟨rfl,rfl⟩
    | succ k ih =>
      simp only [Links.walk,h1,h2]
      exact ⟨congrArg (· + 1) ih.2,congrArg (· + 1) ih.1⟩
  have hstart : m'.next 0 = 2 := by rw [hm']; rfl
  have hlen := congrArg List.length hs.next
  rw [hstart,(hstuck _).1] at hlen
  omega

end Http2d
