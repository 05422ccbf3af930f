import Http2d.BufferOps
import Http2d.Library.IntrusiveList
import Http2d.SortOrder

/-! `http2d_list_sort`, link by link.
The head is taken out, the members stay a circle, and every pass merges the runs of the circle into a
new one. While a pass runs, the nodes that it has given out are linked from the first to the last, and
the forward links of the others are still those of the circle. -/
namespace Http2d

open IntrusiveList WhileLoop

section Code
variable {A : Type} [DecidableEq A] (null : A) (cmp : A → A → ℤ)

/-- The next node of the circle; the circle ends where it began. -/
def nextOf (m : Links A) (oldhead p : A) : Exec A :=
  if p = null then .error .fault
  else .ok (if m.next p = oldhead then null else m.next p)

/-- The loop that steps over one run, with the turns that are left: `q` and `psize`. -/
def stepOver (m : Links A) (oldhead : A) : (left : ℕ) → (q : A) → (psize : ℕ) → Exec (A × ℕ)
  | 0, q, psize => .ok (q,psize)
  | left+1, q, psize => do
    let q ← nextOf null m oldhead q
    if q = null then .ok (q,psize+1) else stepOver m oldhead left q (psize+1)

/-- The variables of the loop that merges two runs. -/
structure MergeVars (A : Type) where
  links : Links A
  p : A
  q : A
  list : A
  tail : A
  psize : ℕ
  qsize : ℕ

namespace MergeVars

/-- The node `e` becomes the last of the new list. -/
def emit (s : MergeVars A) (e : A) : MergeVars A :=
  if s.tail = null then {s with links := s.links.setPrev e s.tail, list := e, tail := e}
  else {s with links := (s.links.setNext s.tail e).setPrev e s.tail, tail := e}

def takeP (oldhead : A) (s : MergeVars A) : Exec (MergeVars A) := do
  let p ← nextOf null s.links oldhead s.p
  .ok (emit null {s with p := p, psize := s.psize-1} s.p)

def takeQ (oldhead : A) (s : MergeVars A) : Exec (MergeVars A) := do
  let q ← nextOf null s.links oldhead s.q
  .ok (emit null {s with q := q, qsize := s.qsize-1} s.q)

/-- The body of the loop that merges two runs. -/
def turn (oldhead : A) (s : MergeVars A) : Exec (MergeVars A) :=
  if s.psize = 0 then takeQ null oldhead s
  else if s.qsize = 0 ∨ s.q = null then takeP null oldhead s
  else if cmp s.p s.q ≤ 0 then takeP null oldhead s
  else takeQ null oldhead s

/-- The loop that merges two runs. Every turn takes one off the sum of the counters, which is the
bound here. -/
def loop (oldhead : A) : ℕ → MergeVars A → Exec (MergeVars A)
  | 0, s => .ok s
  | n+1, s =>
    if 0 < s.psize ∨ (0 < s.qsize ∧ s.q ≠ null) then do
      let s ← turn null cmp oldhead s
      loop oldhead n s
    else .ok s

end MergeVars

/-- The variables of a pass. -/
structure PassVars (A : Type) where
  links : Links A
  insize : ℕ
  oldhead : A
  p : A
  list : A
  tail : A
  nmerges : ℕ

namespace PassVars

/-- A pass starts. -/
def start (m : Links A) (insize : ℕ) (list : A) : PassVars A := ⟨m,insize,list,list,null,null,0⟩

/-- The body of the loop over the runs. -/
def mergeRuns (s : PassVars A) : Exec (PassVars A) := do
  let nmerges ← intValue (s.nmerges+1)
  let (q,psize) ← stepOver null s.links s.oldhead s.insize s.p 0
  let t ← MergeVars.loop null cmp s.oldhead (psize+s.insize)
    ⟨s.links,s.p,q,s.list,s.tail,psize,s.insize⟩
  .ok {s with links := t.links, p := t.q, list := t.list, tail := t.tail, nmerges := nmerges.toNat}

/-- The new list becomes a circle. -/
def close (s : PassVars A) : Exec (Links A) :=
  if s.tail = null ∨ s.list = null then .error .fault
  else .ok ((s.links.setNext s.tail s.list).setPrev s.list s.tail)

/-- Two more runs are merged, or the pass is over; the last pass has merged but once. -/
def turnExec (s : PassVars A) : Exec (Turn (PassVars A) (Exec (Links A × A))) :=
  if s.p ≠ null then do
    let s ← mergeRuns null cmp s
    .ok (.again s)
  else do
    let m ← close null s
    if s.nmerges ≤ 1 then .ok (.stop (.ok (m,s.list)))
    else do
      let insize ← intValue (s.insize*2)
      .ok (.again (start null m insize.toNat s.list))

def turn (s : PassVars A) : Turn (PassVars A) (Exec (Links A × A)) :=
  match turnExec null cmp s with
  | .ok t => t
  | .error e => .stop (.error e)

end PassVars

/-- `http2d_list_sort` returns. What puts the head in front of the first node of the circle is
`http2d_list_add_tail` of the head to that node. -/
def ListSorts (m : Links A) (head : A) (m' : Links A) : Prop :=
  ∃ fuel m1 list, run (PassVars.turn null cmp) fuel (.start null (m.del head) 1 (m.next head)) =
      some (.ok (m1,list)) ∧
    m' = m1.addTail head list

end Code

section Proofs
variable {A : Type} [DecidableEq A] {null : A} {cmp : A → A → ℤ} {m m' : Links A}
  {oldhead p q list tail e : A} {acc P R : List A}

/-- The pointer is at these nodes, the last of which is the last of the circle. -/
def Reads (null : A) (m : Links A) (oldhead : A) : A → List A → Prop
  | p, [] => p = null
  | p, x::R => p = x ∧ Reads null m oldhead (if m.next x = oldhead then null else m.next x) R

/-- The pointer is at these nodes; what it is behind them does not matter. -/
def ReadsRun (null : A) (m : Links A) (oldhead : A) : A → List A → Prop
  | _, [] => True
  | p, x::P => p = x ∧ ReadsRun null m oldhead (if m.next x = oldhead then null else m.next x) P

theorem Reads.congr (h : Reads null m oldhead p R) (heq : ∀ y ∈ R, m'.next y = m.next y) :
    Reads null m' oldhead p R := by
  induction R generalizing p with
  | nil => exact h
  | cons x R ih =>
    refine ⟨h.1,?_⟩
    rw [heq x (by simp)]
    exact ih h.2 fun y hy => heq y (List.mem_cons_of_mem _ hy)

theorem ReadsRun.congr (h : ReadsRun null m oldhead p P) (heq : ∀ y ∈ P, m'.next y = m.next y) :
    ReadsRun null m' oldhead p P := by
  induction P generalizing p with
  | nil => exact h
  | cons x P ih =>
    refine ⟨h.1,?_⟩
    rw [heq x (by simp)]
    exact ih h.2 fun y hy => heq y (List.mem_cons_of_mem _ hy)

theorem Reads.run (h : Reads null m oldhead p R) (n : ℕ) : ReadsRun null m oldhead p (R.take n) := by
  induction n generalizing p R with
  | zero => exact trivial
  | succ n ih =>
    cases R with
    | nil => exact trivial
    | cons x R => exact ⟨h.1,ih h.2⟩

theorem Reads.eq_null_iff (h : Reads null m oldhead p R) (hnull : null ∉ R) : p = null ↔ R = [] := by
  cases R with
  | nil => exact iff_of_true h rfl
  | cons x R => exact iff_of_false (fun he => hnull (by simp [← he,h.1])) (List.cons_ne_nil x R)

/-- A run of `left` nodes, or what is left, is stepped over. -/
theorem stepOver_reads (left psize : ℕ) (h : Reads null m oldhead q R) (hnull : null ∉ R)
    (hne : R ≠ []) : ∃ q', stepOver null m oldhead left q psize = .ok (q',psize+(R.take left).length) ∧
      Reads null m oldhead q' (R.drop left) := by
  induction left generalizing q psize R with
  | zero => exact ⟨q,rfl,h⟩
  | succ left ih =>
    cases R with
    | nil => exact absurd rfl hne
    | cons x R =>
      obtain ⟨rfl,h⟩ := h
      have hq : q ≠ null := fun he => hnull (by simp [he])
      have hnull' : null ∉ R := fun hm => hnull (List.mem_cons_of_mem _ hm)
      rw [stepOver,nextOf,if_neg hq,ok_bind]
      generalize (if m.next q = oldhead then null else m.next q) = q' at h ⊢
      by_cases hR : R = []
      · subst hR
        have hq' : q' = null := h
        rw [if_pos hq']
        exact ⟨q',by simp,by simpa using h⟩
      · rw [if_neg fun he => hR ((h.eq_null_iff hnull').mp he)]
        obtain ⟨q'',hstep,hreads⟩ := ih (psize+1) h hnull' hR
        refine ⟨q'',?_,hreads⟩
        rw [hstep,List.take_succ_cons,List.length_cons]
        congr 2
        omega

/-- One node behind the other. -/
def Behind (m : Links A) (y x : A) : Prop := m.next x = y ∧ m.prev y = x

omit [DecidableEq A] in
/-- Links that no pair of the chain uses may change. -/
theorem isChain_congr (h : (e::acc).IsChain (Behind m)) (hnext : ∀ y ∈ acc, m'.next y = m.next y)
    (hprev : ∀ y ∈ (e::acc).dropLast, m'.prev y = m.prev y) : (e::acc).IsChain (Behind m') := by
  induction acc generalizing e with
  | nil => exact List.isChain_singleton e
  | cons x acc ih =>
    rw [List.isChain_cons_cons] at h ⊢
    rw [List.dropLast_cons_cons] at hprev
    refine ⟨⟨(hnext x (by simp)).trans h.1.1,(hprev e (by simp)).trans h.1.2⟩,
      ih h.2 (fun y hy => hnext y (List.mem_cons_of_mem _ hy))
        fun y hy => hprev y (List.mem_cons_of_mem _ hy)⟩

/-- The nodes that were given out, the last one first. -/
structure Given (null : A) (m : Links A) (list tail : A) (acc : List A) : Prop where
  chain : acc.IsChain (Behind m)
  list : list = acc.getLastD null
  tail : tail = acc.headD null

theorem Given.emit {s : MergeVars A} (hg : Given null s.links s.list s.tail acc)
    (hnd : (e::acc).Nodup) (hnull : null ∉ acc) : ∃ m' list',
      s.emit null e = {s with links := m', list := list', tail := e} ∧
      Given null m' list' e (e::acc) ∧ ∀ y, y ∉ acc → m'.next y = s.links.next y := by
  obtain ⟨hchain,hlist,htail⟩ := hg
  cases acc with
  | nil =>
    refine ⟨s.links.setPrev e s.tail,e,if_pos htail,⟨List.isChain_singleton e,rfl,rfl⟩,fun _ _ => rfl⟩
  | cons x acc =>
    have hx : s.tail = x := htail
    have hxn : s.tail ≠ null := fun he => hnull (by simp [← he,hx])
    obtain ⟨hxe,hnd⟩ := List.nodup_cons.mp hnd
    have hxacc := (List.nodup_cons.mp hnd).1
    refine ⟨(s.links.setNext x e).setPrev e x,s.list,?_,⟨?_,hlist,rfl⟩,fun y hy => ?_⟩
    · rw [MergeVars.emit,if_neg hxn,hx]
    · rw [List.isChain_cons_cons]
      refine ⟨⟨by simp [Links.setNext_next],by simp [Links.setPrev_prev]⟩,
        isChain_congr hchain (fun y hy => ?_) fun y hy => ?_⟩
      · have hyx : y ≠ x := fun he => hxacc (he ▸ hy)
        simp [Links.setNext_next,hyx]
      · have hye : y ≠ e := fun he => hxe (he ▸ List.mem_of_mem_dropLast hy)
        simp [Links.setPrev_prev,hye]
    · have hyx : y ≠ x := fun he => hy (by simp [he])
      simp [Links.setNext_next,hyx]

/-- What holds while two runs are merged: `acc` are the nodes that were given out, `P` is left of the
run at `p`, and `R` are the nodes from `q` on. -/
structure Merging (null oldhead : A) (s : MergeVars A) (acc P R : List A) : Prop where
  given : Given null s.links s.list s.tail acc
  run : ReadsRun null s.links oldhead s.p P
  rest : Reads null s.links oldhead s.q R
  psize : s.psize = P.length
  nodup : (acc ++ (P ++ R)).Nodup
  null_notMem : null ∉ acc ++ (P ++ R)

/-- A node is given out that comes next in one of the runs. -/
theorem Merging.after {s : MergeVars A} {P' R' : List A} (hg : Given null s.links s.list s.tail acc)
    (hnd : (acc ++ (P ++ R)).Nodup) (hnull : null ∉ acc ++ (P ++ R))
    (hperm : (e::(P' ++ R')).Perm (P ++ R)) (hrun : ReadsRun null s.links oldhead s.p P')
    (hrest : Reads null s.links oldhead s.q R') (hpsize : s.psize = P'.length) :
    Merging null oldhead (s.emit null e) (e::acc) P' R' ∧ (s.emit null e).qsize = s.qsize := by
  have hall : (acc ++ e::(P' ++ R')).Perm (acc ++ (P ++ R)) := hperm.append_left acc
  have hmove : (e::acc ++ (P' ++ R')).Perm (acc ++ (P ++ R)) := List.perm_middle.symm.trans hall
  have hnd' := hmove.nodup_iff.mpr hnd
  have hnull' : null ∉ e::acc ++ (P' ++ R') := fun hm => hnull (hmove.mem_iff.mp hm)
  obtain ⟨hnde,-,hdis⟩ := List.nodup_append.mp hnd'
  have hnulla : null ∉ acc := fun hm => hnull (List.mem_append_left _ hm)
  obtain ⟨m',list',hemit,hg',hsame⟩ := hg.emit hnde hnulla
  have hkeep (y : A) (hy : y ∈ P' ++ R') : m'.next y = s.links.next y :=
    hsame y fun hya => hdis y (List.mem_cons_of_mem e hya) y hy rfl
  rw [hemit]
  exact ⟨⟨hg',hrun.congr fun y hy => hkeep y (List.mem_append_left _ hy),
    hrest.congr fun y hy => hkeep y (List.mem_append_right _ hy),hpsize,hnd',hnull'⟩,rfl⟩

theorem Merging.takeP {s : MergeVars A} {x : A} (hm : Merging null oldhead s acc (x::P) R) :
    ∃ t, s.takeP null oldhead = .ok t ∧ Merging null oldhead t (x::acc) P R ∧ t.qsize = s.qsize := by
  obtain ⟨hg,⟨hp,hrun⟩,hrest,hpsize,hnd,hnull⟩ := hm
  have hx : s.p ≠ null := fun he => hnull (by simp [← he,hp])
  rw [MergeVars.takeP,nextOf,if_neg hx,ok_bind,hp]
  exact ⟨_,rfl,Merging.after hg hnd hnull (.refl _) hrun hrest (by simp [hpsize])⟩

theorem Merging.takeQ {s : MergeVars A} {y : A} (hm : Merging null oldhead s acc P (y::R)) :
    ∃ t, s.takeQ null oldhead = .ok t ∧ Merging null oldhead t (y::acc) P R ∧ t.qsize = s.qsize-1 := by
  obtain ⟨hg,hrun,⟨hq,hrest⟩,hpsize,hnd,hnull⟩ := hm
  have hy : s.q ≠ null := fun he => hnull (by simp [← he,hq])
  rw [MergeVars.takeQ,nextOf,if_neg hy,ok_bind,hq]
  exact ⟨_,rfl,Merging.after hg hnd hnull List.perm_middle.symm hrun hrest hpsize⟩

/-- The first node of the merge of the two runs is given out. -/
def GivesFirst (null oldhead : A) (cmp : A → A → ℤ) (s : MergeVars A) (acc P R : List A)
    (result : Exec (MergeVars A)) : Prop := ∃ t e P' R', result = .ok t ∧
  Merging null oldhead t (e::acc) P' R' ∧
  P.merge (R.take s.qsize) (cmpLe cmp) = e::P'.merge (R'.take t.qsize) (cmpLe cmp) ∧
  R.drop s.qsize = R'.drop t.qsize ∧ t.psize+t.qsize+1 = s.psize+s.qsize

theorem Merging.givesP {cmp : A → A → ℤ} {s : MergeVars A} {x : A} (hm : Merging null oldhead s acc (x::P) R)
    (hstep : (x::P).merge (R.take s.qsize) (cmpLe cmp) = x::P.merge (R.take s.qsize) (cmpLe cmp)) :
    GivesFirst null oldhead cmp s acc (x::P) R (s.takeP null oldhead) := by
  have hpsize := hm.psize
  obtain ⟨t,ht,hm',hqs⟩ := hm.takeP
  refine ⟨t,x,P,R,ht,hm',by rw [hqs,hstep],by rw [hqs],?_⟩
  have := hm'.psize
  rw [List.length_cons] at hpsize
  omega

theorem Merging.givesQ {cmp : A → A → ℤ} {s : MergeVars A} {y : A} (hm : Merging null oldhead s acc P (y::R))
    (hpos : 0 < s.qsize) (hstep : P.merge (y::R.take (s.qsize-1)) (cmpLe cmp) =
      y::P.merge (R.take (s.qsize-1)) (cmpLe cmp)) :
    GivesFirst null oldhead cmp s acc P (y::R) (s.takeQ null oldhead) := by
  obtain ⟨k,hk⟩ : ∃ k, s.qsize = k+1 := ⟨s.qsize-1,by omega⟩
  have hpsize := hm.psize
  obtain ⟨t,ht,hm',hqs⟩ := hm.takeQ
  rw [hk,Nat.add_sub_cancel] at hqs hstep
  refine ⟨t,y,P,R,ht,hm',by rw [hk,List.take_succ_cons,hstep,hqs],by rw [hk,List.drop_succ_cons,hqs],?_⟩
  have := hm'.psize
  omega

/-- A turn gives out the first node of the merge of the two runs. -/
theorem Merging.turn (cmp : A → A → ℤ) {s : MergeVars A} (hm : Merging null oldhead s acc P R)
    (hmore : P ≠ [] ∨ R.take s.qsize ≠ []) :
    GivesFirst null oldhead cmp s acc P R (MergeVars.turn null cmp oldhead s) := by
  have hnull : null ∉ R := fun h => hm.null_notMem (by simp [h])
  have hq := hm.rest.eq_null_iff hnull
  have hpsize := hm.psize
  -- the first node of the second run
  have hsecond (hne : R.take s.qsize ≠ []) : 0 < s.qsize ∧ ∃ y R', R = y::R' := by
    rw [ne_eq,List.take_eq_nil_iff,not_or] at hne
    exact ⟨Nat.pos_of_ne_zero hne.1,List.exists_cons_of_ne_nil hne.2⟩
  cases P with
  | nil =>
    obtain ⟨hpos,y,R',rfl⟩ := hsecond (hmore.resolve_left (not_not.mpr rfl))
    have hps : s.psize = 0 := hpsize
    rw [MergeVars.turn,if_pos hps]
    exact hm.givesQ hpos (by simp)
  | cons x P =>
    have hps : s.psize ≠ 0 := by rw [hpsize]; exact Nat.succ_ne_zero _
    rw [MergeVars.turn,if_neg hps]
    by_cases hstop : s.qsize = 0 ∨ s.q = null
    · have hnil : R.take s.qsize = [] := by
        rcases hstop with h0 | h0
        · rw [h0]; rfl
        · rw [hq.mp h0]; exact List.take_nil
      rw [if_pos hstop]
      exact hm.givesP (by rw [hnil,List.merge_right,List.merge_right])
    · obtain ⟨h0,hqn⟩ := not_or.mp hstop
      have hne : R.take s.qsize ≠ [] := by
        rw [ne_eq,List.take_eq_nil_iff,not_or]
        exact ⟨h0,fun he => hqn (hq.mpr he)⟩
      obtain ⟨hpos,y,R',rfl⟩ := hsecond hne
      obtain ⟨k,hk⟩ : ∃ k, s.qsize = k+1 := ⟨s.qsize-1,by omega⟩
      have hp := hm.run.1
      have hqy := hm.rest.1
      rw [if_neg hstop,hp,hqy]
      by_cases hle : cmp x y ≤ 0
      · rw [if_pos hle]
        refine hm.givesP ?_
        rw [hk,List.take_succ_cons,List.cons_merge_cons_pos _ _ _ (by simpa [cmpLe] using hle)]
      · rw [if_neg hle]
        exact hm.givesQ hpos (List.cons_merge_cons_neg _ _ _ (by simpa [cmpLe] using hle))

/-- The loop gives out the merge of the two runs. -/
theorem Merging.loop (cmp : A → A → ℤ) (n : ℕ) {s : MergeVars A} (hm : Merging null oldhead s acc P R)
    (hn : n = s.psize+s.qsize) : ∃ t, MergeVars.loop null cmp oldhead n s = .ok t ∧
      Merging null oldhead t ((P.merge (R.take s.qsize) (cmpLe cmp)).reverse ++ acc) []
        (R.drop s.qsize) := by
  induction n generalizing s acc P R with
  | zero =>
    have hP : P = [] := List.eq_nil_of_length_eq_zero (by have := hm.psize; omega)
    have hqs : s.qsize = 0 := by omega
    subst hP
    rw [hqs]
    exact ⟨s,rfl,by simpa using hm⟩
  | succ n ih =>
    have hq := hm.rest.eq_null_iff fun h => hm.null_notMem (by simp [h])
    have hP : 0 < s.psize ↔ P ≠ [] := by rw [hm.psize,List.length_pos_iff]
    have hR : 0 < s.qsize ∧ s.q ≠ null ↔ R.take s.qsize ≠ [] := by
      rw [ne_eq,hq,ne_eq,List.take_eq_nil_iff,not_or,Nat.pos_iff_ne_zero]
    by_cases hmore : P ≠ [] ∨ R.take s.qsize ≠ []
    · obtain ⟨t,e,P',R',hturn,hm',hmerge,hdrop,hcount⟩ := hm.turn cmp hmore
      obtain ⟨t',hloop,hm''⟩ := ih hm' (by omega)
      refine ⟨t',?_,?_⟩
      · rw [MergeVars.loop,if_pos (by rwa [hP,hR]),hturn,ok_bind,hloop]
      · rw [hmerge,hdrop,List.reverse_cons,List.append_assoc]
        exact hm''
    · have hstop : ¬ (0 < s.psize ∨ (0 < s.qsize ∧ s.q ≠ null)) := by rwa [hP,hR]
      obtain ⟨hP0,hR0⟩ := not_or.mp hmore
      have hPnil := not_not.mp hP0
      have hRnil := not_not.mp hR0
      subst hPnil
      have hdrop : R.drop s.qsize = R := by
        have := List.take_append_drop s.qsize R
        rwa [hRnil,List.nil_append] at this
      rw [MergeVars.loop,if_neg hstop,hRnil,hdrop]
      exact ⟨s,rfl,by simpa using hm⟩

/-- What holds in a pass between two merges. -/
structure Passing (null : A) (s : PassVars A) (acc R : List A) : Prop where
  given : Given null s.links s.list s.tail acc
  rest : Reads null s.links s.oldhead s.p R
  nodup : (acc ++ R).Nodup
  null_notMem : null ∉ acc ++ R

/-- Two runs are merged, unless the merges are too many to count. -/
theorem Passing.mergeRuns (cmp : A → A → ℤ) {s : PassVars A} (hp : Passing null s acc R) (hne : R ≠ []) :
    (2^31 ≤ s.nmerges+1 ∧ PassVars.mergeRuns null cmp s = .error .fault) ∨
    (s.nmerges+1 < 2^31 ∧ ∃ t, PassVars.mergeRuns null cmp s = .ok t ∧
      Passing null t (((R.take s.insize).merge ((R.drop s.insize).take s.insize) (cmpLe cmp)).reverse ++ acc)
        (R.drop (s.insize+s.insize)) ∧
      t.insize = s.insize ∧ t.nmerges = s.nmerges+1) := by
  obtain ⟨hg,hrest,hnd,hnull⟩ := hp
  by_cases hcount : s.nmerges+1 < 2^31
  · refine Or.inr ⟨hcount,?_⟩
    have hnullR : null ∉ R := fun h => hnull (List.mem_append_right _ h)
    obtain ⟨q,hstep,hq⟩ := stepOver_reads s.insize 0 hrest hnullR hne
    rw [Nat.zero_add] at hstep
    have hsplit := List.take_append_drop s.insize R
    have hm : Merging null s.oldhead
        ⟨s.links,s.p,q,s.list,s.tail,(R.take s.insize).length,s.insize⟩ acc (R.take s.insize)
          (R.drop s.insize) :=
      ⟨hg,hrest.run s.insize,hq,rfl,by rwa [hsplit],by rwa [hsplit]⟩
    obtain ⟨t,hloop,hm'⟩ := hm.loop cmp ((R.take s.insize).length+s.insize) rfl
    have hnat : ((s.nmerges : ℤ)+1).toNat = s.nmerges+1 := by omega
    have hdrop := hm'.rest
    have hnodup := hm'.nodup
    have hnul := hm'.null_notMem
    rw [List.nil_append,List.drop_drop] at hnodup hnul
    rw [List.drop_drop] at hdrop
    refine ⟨{s with links := t.links, p := t.q, list := t.list, tail := t.tail, nmerges := s.nmerges+1},
      ?_,⟨hm'.given,hdrop,hnodup,hnul⟩,rfl,rfl⟩
    rw [PassVars.mergeRuns,intValue_ok (by omega) (by omega),ok_bind,hstep,ok_bind]
    simp only [hloop,ok_bind,hnat]
  · refine Or.inl ⟨not_lt.mp hcount,?_⟩
    rw [PassVars.mergeRuns,intValue_fault (by omega)]
    rfl

theorem Passing.turn_merge (cmp : A → A → ℤ) {s : PassVars A} (hp : Passing null s acc R) (hne : R ≠ []) :
    PassVars.turn null cmp s = match PassVars.mergeRuns null cmp s with
      | .ok t => .again t
      | .error e => .stop (.error e) := by
  have hp : s.p ≠ null := fun he => hne
    ((hp.rest.eq_null_iff fun h => hp.null_notMem (List.mem_append_right _ h)).mp he)
  rw [PassVars.turn,PassVars.turnExec,if_pos hp]
  cases PassVars.mergeRuns null cmp s <;> rfl

/-- A pass gives out what `mergePass` makes of the list, unless the merges are too many to count. -/
theorem Passing.pass (cmp : A → A → ℤ) (fuel : ℕ) {s : PassVars A} (hp : Passing null s acc R)
    (hfuel : R.length ≤ fuel) (hs : 0 < s.insize) (hcount : s.nmerges < 2^31) :
    (2^31 ≤ s.nmerges+(mergePass cmp s.insize fuel R).2 ∧ ∃ t, Visits (PassVars.turn null cmp) s t ∧
      PassVars.turn null cmp t = .stop (.error .fault)) ∨
    (s.nmerges+(mergePass cmp s.insize fuel R).2 < 2^31 ∧ ∃ t, Visits (PassVars.turn null cmp) s t ∧
      Passing null t ((mergePass cmp s.insize fuel R).1.reverse ++ acc) [] ∧
      t.insize = s.insize ∧ t.nmerges = s.nmerges+(mergePass cmp s.insize fuel R).2) := by
  induction fuel generalizing s acc R with
  | zero =>
    have hR := List.eq_nil_of_length_eq_zero (Nat.le_zero.mp hfuel)
    subst hR
    exact Or.inr ⟨hcount,s,.start s,hp,rfl,rfl⟩
  | succ fuel ih =>
    by_cases hne : R = []
    · subst hne
      simp only [mergePass_nil]
      exact Or.inr ⟨hcount,s,.start s,hp,rfl,rfl⟩
    · have hturn := hp.turn_merge cmp hne
      rw [mergePass_cons hne]
      rcases hp.mergeRuns cmp hne with ⟨hmany,hruns⟩ | ⟨hfew,t,hruns,hp',hin,hnm⟩
      · rw [hruns] at hturn
        exact Or.inl ⟨by omega,s,.start s,hturn⟩
      · rw [hruns] at hturn
        have hlen : (R.drop (s.insize+s.insize)).length ≤ fuel := by
          have := List.length_pos_of_ne_nil hne
          rw [List.length_drop]
          omega
        have hrest := ih hp' hlen (hin ▸ hs) (hnm ▸ hfew)
        rw [hin,hnm] at hrest
        rcases hrest with ⟨hmany,u,hu,hstop⟩ | ⟨hfew',u,hu,hp'',hin',hnm'⟩
        · exact Or.inl ⟨by omega,u,.turn hturn hu,hstop⟩
        · refine Or.inr ⟨by omega,u,.turn hturn hu,?_,hin',by omega⟩
          rw [List.reverse_append,List.append_assoc]
          exact hp''

/-- The nodes that were given out become a circle. -/
theorem Given.close (hg : Given null m list tail acc) (hnd : acc.Nodup) (hne : acc ≠ []) :
    ∃ ys, acc.reverse = list::ys ∧ Ring ((m.setNext tail list).setPrev list tail) list ys := by
  obtain ⟨hchain,hlist,htail⟩ := hg
  cases acc with
  | nil => exact absurd rfl hne
  | cons t rest =>
    have ht : tail = t := htail
    have hlast : list = (t::rest).getLast hne := by
      rw [hlist,List.getLastD_eq_getLast?,List.getLast?_eq_getLast_of_ne_nil hne]
      rfl
    have hsplit : (t::rest).dropLast ++ [list] = t::rest := by
      rw [hlast]
      exact List.dropLast_append_getLast hne
    have hrev : (t::rest).reverse = list::(t::rest).dropLast.reverse := by
      rw [← hsplit,List.reverse_append,List.dropLast_concat]
      rfl
    have hnd' := hnd
    rw [← hsplit] at hnd'
    have hlistn : list ∉ (t::rest).dropLast :=
      fun hm => (List.nodup_append.mp hnd').2.2 list hm list (by simp) rfl
    refine ⟨_,hrev,⟨hrev ▸ List.nodup_reverse.mpr hnd,?_⟩⟩
    have hcircle : list::((t::rest).dropLast.reverse ++ [list]) = (list::t::rest).reverse := by
      rw [List.reverse_cons,hrev]
      rfl
    have htr : t ∉ rest := (List.nodup_cons.mp hnd).1
    have hback : (list::t::rest).IsChain (Behind ((m.setNext tail list).setPrev list tail)) := by
      rw [List.isChain_cons_cons,ht]
      refine ⟨⟨by simp [Links.setNext_next],by simp [Links.setPrev_prev]⟩,
        isChain_congr hchain (fun y hy => ?_) fun y hy => ?_⟩
      · have hyt : y ≠ t := fun he => htr (he ▸ hy)
        simp [Links.setNext_next,hyt]
      · have hyl : y ≠ list := fun he => hlistn (he ▸ hy)
        simp [Links.setPrev_prev,hyl]
    rw [linked_iff_isChain,hcircle,List.isChain_reverse]
    exact hback

/-- The pass is over when all nodes were given out. -/
theorem Passing.turn_close (cmp : A → A → ℤ) {s : PassVars A} (hp : Passing null s acc [])
    (hne : acc ≠ []) : ∃ m' ys, acc.reverse = s.list::ys ∧ Ring m' s.list ys ∧
      PassVars.turn null cmp s =
        if s.nmerges ≤ 1 then .stop (.ok (m',s.list))
        else if s.insize*2 < 2^31 then .again (.start null m' (s.insize*2) s.list)
        else .stop (.error .fault) := by
  obtain ⟨hg,hrest,hnd,hnull⟩ := hp
  rw [List.append_nil] at hnd hnull
  obtain ⟨ys,hrev,hring⟩ := hg.close hnd hne
  have hp : s.p = null := hrest
  have hlist : s.list ≠ null := fun he => hnull (List.mem_reverse.mp (by simp [hrev,he]))
  have htail : s.tail ≠ null := by
    rw [hg.tail]
    cases acc with
    | nil => exact absurd rfl hne
    | cons t rest => exact fun he : t = null => hnull (he ▸ List.mem_cons_self ..)
  refine ⟨_,ys,hrev,hring,?_⟩
  have hclose : s.close null = .ok ((s.links.setNext s.tail s.list).setPrev s.list s.tail) :=
    if_neg (not_or.mpr ⟨htail,hlist⟩)
  rw [PassVars.turn,PassVars.turnExec,if_neg (not_not.mpr hp),hclose,ok_bind]
  by_cases hone : s.nmerges ≤ 1
  · rw [if_pos hone,if_pos hone]
  · rw [if_neg hone,if_neg hone]
    by_cases hsize : s.insize*2 < 2^31
    · have hnat : ((s.insize : ℤ)*2).toNat = s.insize*2 := by omega
      rw [if_pos hsize,intValue_ok (by omega) (by omega),ok_bind,hnat]
    · rw [if_neg hsize,intValue_fault (by omega)]
      rfl

theorem reads_of_leads {ys : List A} (hl : Leads m.next p ys oldhead) (hold : oldhead ∉ ys) :
    Reads null m oldhead (if p = oldhead then null else p) ys := by
  induction ys generalizing p with
  | nil => exact if_pos hl
  | cons y ys ih =>
    obtain ⟨rfl,hl⟩ := hl
    obtain ⟨hne,hold⟩ := not_or.mp (List.mem_cons.not.mp hold)
    rw [if_neg (Ne.symm hne)]
    exact ⟨rfl,ih hl hold⟩

theorem Passing.start {f : A} {ys : List A} (hr : Ring m f ys) (hnull : null ∉ f::ys) (insize : ℕ) :
    Passing null (.start null m insize f) [] (f::ys) :=
  ⟨⟨.nil,rfl,rfl⟩,⟨rfl,reads_of_leads hr.linked.leads hr.head_notMem⟩,hr.nodup,hnull⟩

/-- A pass over the circle. -/
theorem circle_pass (cmp : A → A → ℤ) {f : A} {ys L : List A} (hr : Ring m f ys) (hL : L = f::ys)
    (hnull : null ∉ L) {insize : ℕ} (hs : 0 < insize) :
    (2^31 ≤ (mergePass cmp insize L.length L).2 ∧
      ∃ fuel, run (PassVars.turn null cmp) fuel (.start null m insize f) = some (.error .fault)) ∨
    ∃ t m' f' ys', Visits (PassVars.turn null cmp) (.start null m insize f) t ∧
      (mergePass cmp insize L.length L).1 = f'::ys' ∧ Ring m' f' ys' ∧
      PassVars.turn null cmp t =
        if (mergePass cmp insize L.length L).2 ≤ 1 then .stop (.ok (m',f'))
        else if insize*2 < 2^31 then .again (.start null m' (insize*2) f')
        else .stop (.error .fault) := by
  subst hL
  have hpass := (Passing.start hr hnull insize).pass cmp (f::ys).length le_rfl hs (Nat.two_pow_pos 31)
  have hins : (PassVars.start null m insize f).insize = insize := rfl
  have hnm : (PassVars.start null m insize f).nmerges = 0 := rfl
  rw [hins,hnm,Nat.zero_add] at hpass
  rcases hpass with ⟨hmany,t,ht,hstop⟩ | ⟨-,t,ht,hp,hin,hcount⟩
  · exact Or.inl ⟨hmany,ht.run (run_stop hstop 0)⟩
  · have hperm := mergePass_perm cmp insize (f::ys).length (f::ys)
    have hne : (mergePass cmp insize (f::ys).length (f::ys)).1.reverse ++ [] ≠ [] := by
      rw [List.append_nil,ne_eq,List.reverse_eq_nil_iff]
      intro he
      rw [he] at hperm
      cases hperm.symm.eq_nil
    obtain ⟨m',ys',hrev,hring,hturn⟩ := hp.turn_close cmp hne
    rw [List.append_nil,List.reverse_reverse] at hrev
    rw [hin,hcount] at hturn
    exact Or.inr ⟨t,m',t.list,ys',ht,hrev,hring,hturn⟩

/-- A circle of up to `2^31` nodes is sorted. -/
theorem circle_sorts (cmp : A → A → ℤ) (k : ℕ) (L : List A) {f : A} {ys : List A} (hr : Ring m f ys)
    (hL : L = f::ys) (hnull : null ∉ L) (hlen : L.length ≤ 2^31) :
    ∃ fuel m' f' ys', run (PassVars.turn null cmp) fuel (.start null m (2^k) f) = some (.ok (m',f')) ∧
      Ring m' f' ys' ∧ listSortFrom cmp k L = f'::ys' := by
  -- the merges of one pass can be counted
  have hpass {k : ℕ} {L : List A} {m : Links A} {f : A} {ys : List A} (hr : Ring m f ys)
      (hL : L = f::ys) (hnull : null ∉ L) (hlen : L.length ≤ 2^31) :=
    (circle_pass cmp hr hL hnull (Nat.two_pow_pos k)).resolve_left fun h => by
      have := mergePass_count_le cmp (Nat.two_pow_pos k) L.length L
      omega
  induction k, L using listSortFrom.induct cmp generalizing m f ys with
  | case1 k L hone =>
    obtain ⟨t,m',f',ys',ht,hout,hring,hturn⟩ := hpass (k:=k) hr hL hnull hlen
    rw [if_pos hone] at hturn
    obtain ⟨fuel,hrun⟩ := ht.run (run_stop hturn 0)
    exact ⟨fuel,m',f',ys',hrun,hring,by rw [listSortFrom,if_pos hone,hout]⟩
  | case2 k L hmany ih =>
    obtain ⟨t,m',f',ys',ht,hout,hring,hturn⟩ := hpass (k:=k) hr hL hnull hlen
    have hlong := mergePass_merges cmp (not_le.mp hmany)
    have hsize : 2^k*2 < 2^31 := by omega
    have hperm := mergePass_perm cmp (2^k) L.length L
    rw [if_neg hmany,if_pos hsize,← pow_succ] at hturn
    obtain ⟨fuel,m2,f2,ys2,hrun,hring2,hsort⟩ := ih hring hout (fun h => hnull (hperm.mem_iff.mp h))
      (by rwa [hperm.length_eq])
    obtain ⟨fuel',hrun'⟩ := ht.run (run_again hturn fuel ▸ hrun)
    exact ⟨fuel',m2,f2,ys2,hrun',hring2,by rw [listSortFrom,if_neg hmany,hsort]⟩

/-- A pass over a longer circle is not the last. -/
theorem circle_pass_long (cmp : A → A → ℤ) {k : ℕ} {L : List A} {f : A} {ys : List A} (hr : Ring m f ys)
    (hL : L = f::ys) (hnull : null ∉ L) (hlen : 2^31 < L.length) (hk : k ≤ 30) :
    (∃ fuel, run (PassVars.turn null cmp) fuel (.start null m (2^k) f) = some (.error .fault)) ∨
    ∃ t m' f' ys', Visits (PassVars.turn null cmp) (.start null m (2^k) f) t ∧
      (mergePass cmp (2^k) L.length L).1 = f'::ys' ∧ Ring m' f' ys' ∧
      PassVars.turn null cmp t = if 2^k*2 < 2^31 then .again (.start null m' (2^k*2) f')
        else .stop (.error .fault) := by
  have hpow : 2^k ≤ 2^30 := Nat.pow_le_pow_right (by decide) hk
  have hruns : 2^k+2^k < L.length := by omega
  have hmany := one_lt_mergePass_count cmp hruns le_rfl (Nat.two_pow_pos k)
  rcases circle_pass cmp hr hL hnull (Nat.two_pow_pos k) with ⟨-,hstop⟩ | ⟨t,m',f',ys',ht,hout,hring,hturn⟩
  · exact Or.inl hstop
  · rw [if_neg (not_le.mpr hmany)] at hturn
    exact Or.inr ⟨t,m',f',ys',ht,hout,hring,hturn⟩

/-- A longer circle is not sorted: the length of the runs overflows, if not the number of merges. -/
theorem circle_fails (cmp : A → A → ℤ) (j k : ℕ) (L : List A) {f : A} {ys : List A} (hr : Ring m f ys)
    (hL : L = f::ys) (hnull : null ∉ L) (hlen : 2^31 < L.length) (hk : k+j = 30) :
    ∃ fuel, run (PassVars.turn null cmp) fuel (.start null m (2^k) f) = some (.error .fault) := by
  induction j generalizing k L m f ys with
  | zero =>
    rcases circle_pass_long (k:=k) cmp hr hL hnull hlen (by omega) with hstop | ⟨t,m',f',ys',ht,-,-,hturn⟩
    · exact hstop
    · obtain rfl : k = 30 := by omega
      rw [if_neg (by decide)] at hturn
      exact ht.run (run_stop hturn 0)
  | succ j ih =>
    rcases circle_pass_long (k:=k) cmp hr hL hnull hlen (by omega) with
      hstop | ⟨t,m',f',ys',ht,hout,hring,hturn⟩
    · exact hstop
    · have hpow : 2^k ≤ 2^29 := Nat.pow_le_pow_right (by decide) (by omega)
      have hperm := mergePass_perm cmp (2^k) L.length L
      rw [if_pos (by omega),← pow_succ] at hturn
      obtain ⟨fuel,hrun⟩ := ih (k+1) _ hring hout (fun h => hnull (hperm.mem_iff.mp h))
        (by rwa [hperm.length_eq]) (by omega)
      exact ht.run (run_again hturn fuel ▸ hrun)

/-- The members of a list that is not empty are a circle when the head is taken out. -/
theorem circle_of_ring {head x : A} {xs : List A} (hr : Ring m head (x::xs)) :
    m.next head = x ∧ Ring (m.del head) x xs := by
  have hrot : Ring m x (xs ++ head::[]) := Ring.rotate (hr : Ring m head ([] ++ x::xs))
  have hdel := hrot.del
  rw [List.append_nil] at hdel
  exact ⟨hr.linked.1,hdel⟩

/-- Lists of up to `2^31` members are sorted. -/
theorem listSorts_ring (cmp : A → A → ℤ) {head : A} {xs : List A} (hr : Ring m head xs)
    (hnull : null ∉ head::xs) (hlen : xs.length ≤ 2^31) :
    ∃ m', ListSorts null cmp m head m' ∧ Ring m' head (listSort cmp xs) := by
  cases xs with
  | nil =>
    obtain ⟨hnext,hprev⟩ := hr.linked
    have hdel : Ring (m.del head) head [] :=
      ⟨hr.nodup,by simp [Linked,Links.del,Links.setNext_next,Links.setPrev_prev,hnext,hprev]⟩
    -- the head is the only node of its circle
    obtain ⟨fuel,m1,f,ys,hrun,hring,hsort⟩ := circle_sorts cmp 0 [head] hdel rfl hnull (by simp)
    have hone := List.perm_singleton.mp (hsort ▸ listSortFrom_perm cmp 0 [head])
    obtain ⟨rfl,rfl⟩ := List.cons.inj hone
    obtain ⟨hn1,hp1⟩ := hring.linked
    refine ⟨m1.addTail f f,⟨fuel,m1,f,by rw [hnext]; exact hrun,rfl⟩,?_⟩
    rw [List.perm_nil.mp (listSort_perm cmp [])]
    exact ⟨hr.nodup,by simp [Linked,Links.addTail,Links.setNext_next,Links.setPrev_prev,hp1]⟩
  | cons x xs =>
    obtain ⟨hnext,hdel⟩ := circle_of_ring hr
    have hnull' : null ∉ x::xs := fun hm => hnull (List.mem_cons_of_mem _ hm)
    obtain ⟨fuel,m1,f,ys,hrun,hring,hsort⟩ := circle_sorts cmp 0 (x::xs) hdel rfl hnull' hlen
    have hperm := listSort_perm cmp (x::xs)
    have hhead : head ∉ f::ys := by
      rw [← hsort]
      exact fun hm => hr.head_notMem (hperm.mem_iff.mp hm)
    refine ⟨m1.addTail head f,⟨fuel,m1,f,by rw [hnext]; exact hrun,rfl⟩,?_⟩
    rw [listSort,hsort]
    exact (hring.addTail hhead).rotate

theorem not_listSorts (cmp : A → A → ℤ) {head : A} {xs : List A} (hr : Ring m head xs)
    (hnull : null ∉ head::xs) (hlen : 2^31 < xs.length) : ¬ ListSorts null cmp m head m' := by
  rintro ⟨fuel,m1,list,hrun,-⟩
  cases xs with
  | nil => exact absurd hlen (Nat.not_lt_zero _)
  | cons x xs =>
    obtain ⟨hnext,hdel⟩ := circle_of_ring hr
    have hnull' : null ∉ x::xs := fun hm => hnull (List.mem_cons_of_mem _ hm)
    obtain ⟨fuel',hrun'⟩ := circle_fails cmp 30 0 (x::xs) hdel rfl hnull' hlen rfl
    rw [hnext] at hrun
    cases run_unique hrun hrun'

end Proofs

section Sorting
variable {A : Type} [DecidableEq A]

/-- The call returns and leaves the list with its head and its members, in order, equal ones as they
stood. -/
def SortsStably (null : A) (cmp : A → A → ℤ) (m : Links A) (head : A) (xs : List A) : Prop :=
  ∃ m' ys, ListSorts null cmp m head m' ∧ Ring m' head ys ∧ ys.Perm xs ∧ ys.Pairwise (cmp · · ≤ 0) ∧
    ∀ a b, [a,b].Sublist xs → cmp a b ≤ 0 → cmp b a ≤ 0 → [a,b].Sublist ys

/-- A list is sorted exactly when it has no more than `2^31` members. -/
theorem sortsStably_iff {null : A} {cmp : A → A → ℤ} {m : Links A} {head : A} {xs : List A}
    (hr : Ring m head xs) (hnull : null ∉ head::xs) (htotal : ∀ a b, cmp a b ≤ 0 ∨ cmp b a ≤ 0)
    (htrans : ∀ a b c, cmp a b ≤ 0 → cmp b c ≤ 0 → cmp a c ≤ 0) :
    SortsStably null cmp m head xs ↔ xs.length ≤ 2^31 := by
  constructor
  · rintro ⟨m',ys,hsorts,-⟩
    by_contra hlen
    exact not_listSorts cmp hr hnull (not_le.mp hlen) hsorts
  · intro hlen
    obtain ⟨m',hsorts,hring⟩ := listSorts_ring cmp hr hnull hlen
    obtain ⟨hsorted,hkeeps⟩ := listSort_sorted htotal htrans xs
    exact ⟨m',_,hsorts,hring,listSort_perm cmp xs,hsorted,fun a b hab hle _ => hkeeps a b hab hle⟩

/-- For any nodes there are links that make them a list. -/
theorem exists_ring {head : A} {xs : List A} (hnd : (head::xs).Nodup) : ∃ m, Ring m head xs := by
  induction xs with
  | nil => exact ⟨_,ring_init ⟨id,id⟩ head⟩
  | cons x xs ih =>
    have hswap := (List.Perm.swap x head xs).nodup_iff.mp hnd
    obtain ⟨hx,hnd'⟩ := List.nodup_cons.mp hswap
    obtain ⟨m,hr⟩ := ih hnd'
    exact ⟨_,hr.add hx⟩

end Sorting

/-- Two members that stand in the wrong order. -/
theorem sortsStably_iff_two :
    SortsStably 0 (fun a b : ℕ => (a : ℤ)-b) ((((⟨id,id⟩ : Links ℕ).init 1).add 2 1).add 3 1) 1 [3,2] ↔
      [3,2].length ≤ 2^31 :=
  sortsStably_iff (((ring_init _ 1).add (by decide)).add (by decide)) (by decide) (fun a b => by omega)
    fun a b c hab hbc => by omega

/-- One member more than `2^31`. -/
theorem not_sortsStably_long : ∃ m : Links ℕ, Ring m 1 (List.range' 2 (2^31+1)) ∧
    ¬ SortsStably 0 (fun a b : ℕ => (a : ℤ)-b) m 1 (List.range' 2 (2^31+1)) := by
  have hnd : (1::List.range' 2 (2^31+1)).Nodup :=
    List.nodup_cons.mpr ⟨fun hm => by have := List.mem_range'_1.mp hm; omega,List.nodup_range'⟩
  have hnull : 0 ∉ 1::List.range' 2 (2^31+1) := by
    rintro hm
    rcases List.mem_cons.mp hm with h | h
    · cases h
    · have := List.mem_range'_1.mp h
      omega
  obtain ⟨m,hr⟩ := exists_ring hnd
  refine ⟨m,hr,?_⟩
  rintro ⟨m',ys,hsorts,-⟩
  exact not_listSorts _ hr hnull (by rw [List.length_range']; omega) hsorts

end Http2d
