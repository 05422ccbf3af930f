import Http2d.Access
import Http2d.ConfigPaths

/-! What is done with the tree after its text is read: the lists of numbers are sorted, and the
children of the root are compared without their case. -/
namespace Http2d

section ListSort
variable {α : Type} (cmp : α → α → ℤ)

/-- One pass of `http2d_list_sort`: neighbouring runs of `insize` entries are merged, and the merges
are counted. -/
def mergePass (insize : ℕ) : ℕ → List α → List α × ℕ
  | _, [] => ([],0)
  | 0, l => (l,0)
  | fuel+1, l =>
    let p := l.take insize
    let q := (l.drop insize).take insize
    let r := mergePass insize fuel (l.drop (insize+insize))
    (p.merge q (fun a b => cmp a b ≤ 0) ++ r.1,r.2+1)

theorem mergePass_perm (insize fuel : ℕ) (l : List α) : (mergePass cmp insize fuel l).1.Perm l := by
  induction fuel generalizing l with
  | zero => cases l <;> rfl
  | succ fuel ih =>
    cases l with
    | nil => rfl
    | cons x xs =>
      rw [mergePass]
      · have hsplit : (x::xs).take insize ++ (((x::xs).drop insize).take insize ++
            (x::xs).drop (insize+insize)) = x::xs := by
          rw [← List.drop_drop,List.take_append_drop,List.take_append_drop]
        refine ((List.merge_perm_append ..).append (ih _)).trans ?_
        rw [List.append_assoc,hsplit]
      · simp

theorem mergePass_merges {insize fuel : ℕ} {l : List α} (h : 1 < (mergePass cmp insize fuel l).2) :
    insize+insize < l.length := by
  by_contra hle
  have hdrop : l.drop (insize+insize) = [] := List.drop_eq_nil_of_le (not_lt.mp hle)
  cases fuel with
  | zero => cases l <;> simp [mergePass] at h
  | succ fuel =>
    cases l with
    | nil => simp [mergePass] at h
    | cons x xs => simp [mergePass,hdrop] at h

/-- The passes with runs of `2^k` entries and more. -/
def listSortFrom (k : ℕ) (l : List α) : List α :=
  if (mergePass cmp (2^k) l.length l).2 ≤ 1 then (mergePass cmp (2^k) l.length l).1
  else listSortFrom (k+1) (mergePass cmp (2^k) l.length l).1
termination_by l.length-2^k
decreasing_by
  have := mergePass_merges cmp (not_le.mp ‹_›)
  have := Nat.two_pow_pos k
  rw [(mergePass_perm ..).length_eq,pow_succ]
  omega

/-- `http2d_list_sort`. -/
def listSort (l : List α) : List α := listSortFrom cmp 0 l

theorem listSortFrom_perm (k : ℕ) (l : List α) : (listSortFrom cmp k l).Perm l := by
  induction k, l using listSortFrom.induct cmp with
  | case1 k l h =>
    rw [listSortFrom,if_pos h]
    exact mergePass_perm ..
  | case2 k l h ih =>
    rw [listSortFrom,if_neg h]
    exact ih.trans (mergePass_perm ..)

/-- Whatever the comparison says, the sorted list has the same entries. -/
theorem listSort_perm (l : List α) : (listSort cmp l).Perm l := listSortFrom_perm cmp 0 l

end ListSort

namespace ConfigNode

/-- The key as an `int`. -/
def keyInt (n : ConfigNode) : ℤ :=
  cint (cuint (strtol (n.key.bytes.map fun b => Char.ofNat b.toNat)).1)

/-- `cmp_num`; the differences wrap around. -/
def cmpNum (a b : ConfigNode) : ℤ :=
  let an := a.keyInt
  let bn := b.keyInt
  if an = bn then 0
  else if an < bn then cint (cuint (bn-an))
  else cint (cuint (-(an-bn)))

/-- The first loop of `sort_lists`; `errno = EINVAL` is an assignment and always true. -/
def allNum : List ConfigNode → Exec Bool
  | [] => .ok true
  | i::rest => do
    let _ ← i.key.cstr
    if i.keyInt = 0 then .ok false else allNum rest

mutual

/-- `sort_lists`. The children are visited before they are put in order: the comparison looks at
nothing but their keys. -/
def sortLists : ConfigNode → Exec ConfigNode
  | ⟨key,val,child⟩ => do
    let num ← allNum child
    let child ← sortAll child
    .ok ⟨key,val,if num then listSort cmpNum child else child⟩

def sortAll : List ConfigNode → Exec (List ConfigNode)
  | [] => .ok []
  | i::rest => do
    let i ← sortLists i
    let rest ← sortAll rest
    .ok (i::rest)

end

/-- `check_config_node_sanity`. -/
def checkSanity (conf : ConfigNode) : Ret :=
  let keys := conf.child.map fun c => c.key.bytes
  let n := keys.length
  if (List.range n).any fun i => (List.range n).any fun j =>
      i != j && decide (bufferCaseCmpBuf (keys.getD i []) (keys.getD j []) = 0) then .error else .ok

/-- A node that reads like another. -/
structure ReadsLike (c c' : ConfigNode) : Prop where
  key_eq : c'.key = c.key
  good : c'.Good
  values : ∀ q, c'.valueAt q = c.valueAt q

theorem allNum_ok {l : List ConfigNode} (h : ∀ c ∈ l, HasKey c) : ∃ b, allNum l = .ok b := by
  induction l with
  | nil => exact ⟨true,rfl⟩
  | cons i rest ih =>
    obtain ⟨k,hk,-,hnul⟩ := h i (List.mem_cons_self ..)
    obtain ⟨b,hb⟩ := ih fun c hc => h c (List.mem_cons_of_mem _ hc)
    simp only [allNum,hk,BufText.cstr_some hnul,ok_bind]
    split_ifs
    · exact ⟨false,rfl⟩
    · exact ⟨b,hb⟩

theorem sortLists_ok {n : ConfigNode} (hn : n.Good) : ∃ n', sortLists n = .ok n' := by
  induction hn with
  | @mk n hkeys _ _ ih =>
    have hall : ∃ l, sortAll n.child = .ok l := by
      generalize n.child = l at ih
      induction l with
      | nil => exact ⟨[],rfl⟩
      | cons c rest ihl =>
        obtain ⟨⟨c',hc⟩,hrest⟩ := List.forall_mem_cons.mp ih
        obtain ⟨l,hl⟩ := ihl hrest
        exact ⟨c'::l,by simp only [sortAll,hc,hl,ok_bind]⟩
    obtain ⟨l,hl⟩ := hall
    obtain ⟨num,hnum⟩ := allNum_ok hkeys
    obtain ⟨key,val,child⟩ := n
    exact ⟨_,by simp only [sortLists,hnum,hl,ok_bind]; rfl⟩

section Children
variable {R : ConfigNode → ConfigNode → Prop} {l l' : List ConfigNode}

theorem keys_of_forall₂ (hR : ∀ c c', R c c' → c'.key = c.key) (h : List.Forall₂ R l l') :
    l'.map key = l.map key := by
  induction h with
  | nil => rfl
  | cons hc _ ih => rw [List.map_cons,List.map_cons,hR _ _ hc,ih]

theorem mem_of_forall₂ (h : List.Forall₂ R l l') :
    (∀ c' ∈ l', ∃ c ∈ l, R c c') ∧ ∀ c ∈ l, ∃ c' ∈ l', R c c' := by
  induction h with
  | nil => simp
  | cons hc _ ih =>
    constructor
    · intro x hx
      rcases List.mem_cons.mp hx with rfl | hx
      · exact ⟨_,List.mem_cons_self ..,hc⟩
      · obtain ⟨c,hmem,hlike⟩ := ih.1 x hx
        exact ⟨c,List.mem_cons_of_mem _ hmem,hlike⟩
    · intro x hx
      rcases List.mem_cons.mp hx with rfl | hx
      · exact ⟨_,List.mem_cons_self ..,hc⟩
      · obtain ⟨c,hmem,hlike⟩ := ih.2 x hx
        exact ⟨c,List.mem_cons_of_mem _ hmem,hlike⟩

/-- The children, visited one after the other. -/
theorem sortAll_inv (hR : ∀ c ∈ l, ∀ c', sortLists c = .ok c' → R c c') (h : sortAll l = .ok l') :
    List.Forall₂ R l l' := by
  induction l generalizing l' with
  | nil =>
    cases Except.ok.inj h
    exact .nil
  | cons c rest ih =>
    obtain ⟨hc,hrest⟩ := List.forall_mem_cons.mp hR
    rw [sortAll] at h
    obtain ⟨c',hc',h⟩ := bind_ok_inv h
    obtain ⟨rest',hrest',h⟩ := bind_ok_inv h
    cases Except.ok.inj h
    exact .cons (hc c' hc') (ih hrest hrest')

/-- What is done at a node. -/
theorem sortLists_inv {n n' : ConfigNode} (h : sortLists n = .ok n') : ∃ num l,
    allNum n.child = .ok num ∧ sortAll n.child = .ok l ∧
    n' = ⟨n.key,n.val,if num then listSort cmpNum l else l⟩ := by
  obtain ⟨key,val,child⟩ := n
  rw [sortLists] at h
  obtain ⟨num,hnum,h⟩ := bind_ok_inv h
  obtain ⟨l,hl,h⟩ := bind_ok_inv h
  exact ⟨num,l,hnum,hl,(Except.ok.inj h).symm⟩

end Children

section Tidiness
variable {n n' : ConfigNode} {l l' : List ConfigNode}

/-- Every key has a block when all are numbers. -/
theorem TidyKeys.hasKey (h : TidyKeys l) (hnum : allNum l = .ok true) : ∀ c ∈ l, HasKey c := by
  induction h with
  | nil => exact fun c hc => absurd hc List.not_mem_nil
  | last hnone =>
    rw [allNum,hnone] at hnum
    cases hnum
  | cons hhas _ ih =>
    rw [allNum] at hnum
    obtain ⟨s,-,hnum⟩ := bind_ok_inv hnum
    split_ifs at hnum
    · cases hnum
    · exact List.forall_mem_cons.mpr ⟨hhas,ih hnum⟩

/-- The check answers for the pairs of names at the root. -/
theorem sane_iff (hn : n.Tidy) : n.checkSanity = .ok ↔ ∀ a b, a ≠ b → n.mapAt [a] ≠ none →
    n.mapAt [b] ≠ none → bufferCaseCmpBuf a b ≠ 0 := by
  have hself := hn
  obtain ⟨hkeys,hnodup,-⟩ := hn
  have hmem (a : List UInt8) : n.mapAt [a] ≠ none ↔
      ∃ i < n.child.length, (n.child.map fun c => c.key.bytes).getD i [] = a := by
    simp only [hself.mapAt_cons_ne,mapAt_nil,ne_eq,reduceCtorEq,not_false_eq_true,and_true]
    rw [← List.mem_map (f:=fun c : ConfigNode => c.key.bytes),List.mem_iff_getElem]
    simp only [List.length_map,List.getD_eq_getElem?_getD]
    constructor
    · rintro ⟨i,hi,h⟩
      exact ⟨i,hi,by rw [List.getElem?_eq_getElem (by simpa using hi),Option.getD_some,h]⟩
    · rintro ⟨i,hi,h⟩
      refine ⟨i,hi,?_⟩
      rwa [List.getElem?_eq_getElem (by simpa using hi),Option.getD_some] at h
  constructor
  · intro h a b hab ha hb hcmp
    obtain ⟨i,hi,rfl⟩ := (hmem a).mp ha
    obtain ⟨j,hj,rfl⟩ := (hmem b).mp hb
    rw [checkSanity,if_pos] at h
    · cases h
    · simp only [List.any_eq_true,List.mem_range,List.length_map,Bool.and_eq_true,bne_iff_ne,
        decide_eq_true_eq]
      exact ⟨i,hi,j,hj,fun hij => hab (by rw [hij]),hcmp⟩
  · refine fun h => if_neg fun hany => ?_
    simp only [List.any_eq_true,List.mem_range,List.length_map,Bool.and_eq_true,bne_iff_ne,
      decide_eq_true_eq] at hany
    obtain ⟨i,hi,j,hj,hij,hcmp⟩ := hany
    refine h _ _ (fun heq => hij ?_) ((hmem _).mpr ⟨i,hi,rfl⟩) ((hmem _).mpr ⟨j,hj,rfl⟩) hcmp
    simp only [List.getD_eq_getElem?_getD,List.getElem?_map,List.getElem?_eq_getElem hi,
      List.getElem?_eq_getElem hj,Option.map_some,Option.getD_some] at heq
    have hi' : i < (n.child.map key).length := by simpa using hi
    have hj' : j < (n.child.map key).length := by simpa using hj
    have hkey : (n.child.map key)[i] = (n.child.map key)[j] := by
      rw [List.getElem_map,List.getElem_map,
        hself.bytes_inj (List.getElem_mem hi) (List.getElem_mem hj) heq]
    exact (List.Nodup.getElem_inj_iff hnodup).mp hkey

/-- A tree that goes on from one with twins at its root has them too. -/
theorem sane_mono (hn : n.Tidy) (hn' : n'.Tidy) (h : ∀ q, n.mapAt q ≠ none → n'.mapAt q ≠ none)
    (hsane : n'.checkSanity = .ok) : n.checkSanity = .ok :=
  (sane_iff hn).mpr fun a b hab ha hb => (sane_iff hn').mp hsane a b hab (h _ ha) (h _ hb)

/-- A node that reads like another, with keys of any parts. -/
structure SamePaths (n n' : ConfigNode) : Prop where
  key_eq : n'.key = n.key
  tidy : n'.Tidy
  mapAt_eq : ∀ q, n'.mapAt q = n.mapAt q

theorem samePaths_of_children (hn : n.Tidy) (hl : List.Forall₂ SamePaths n.child l)
    (hperm : l'.Perm l) (hkeys : TidyKeys l') : SamePaths n ⟨n.key,n.val,l'⟩ := by
  obtain ⟨hback,hforth⟩ := mem_of_forall₂ hl
  obtain ⟨-,hnodup,-⟩ := hn
  have hnodup' : (l'.map key).Nodup :=
    (hperm.map key).nodup_iff.mpr (keys_of_forall₂ (fun _ _ h => h.key_eq) hl ▸ hnodup)
  have htidy : Tidy ⟨n.key,n.val,l'⟩ := by
    refine ⟨hkeys,hnodup',fun c' hc' => ?_⟩
    obtain ⟨c,-,hsame⟩ := hback c' (hperm.mem_iff.mp hc')
    exact hsame.tidy
  refine ⟨rfl,htidy,fun q => ?_⟩
  cases q with
  | nil => rfl
  | cons k ks =>
    refine Option.ext fun v => ?_
    rw [mapAt_cons_iff hnodup',mapAt_cons_iff hnodup]
    constructor
    · rintro ⟨c',hc',hkey,hv⟩
      obtain ⟨c,hc,hsame⟩ := hback c' (hperm.mem_iff.mp hc')
      exact ⟨c,hc,hsame.key_eq ▸ hkey,hsame.mapAt_eq ks ▸ hv⟩
    · rintro ⟨c,hc,hkey,hv⟩
      obtain ⟨c',hc',hsame⟩ := hforth c hc
      exact ⟨c',hperm.mem_iff.mpr hc',hsame.key_eq ▸ hkey,hsame.mapAt_eq ks ▸ hv⟩

/-- What is sorted has the same paths. -/
theorem sortLists_samePaths (hn : n.Tidy) (h : sortLists n = .ok n') : SamePaths n n' := by
  induction hn generalizing n' with
  | @mk n hkeys hnodup htidy ih =>
    obtain ⟨num,l,hnum,hl,rfl⟩ := sortLists_inv h
    have hlist : List.Forall₂ SamePaths n.child l := sortAll_inv (fun c hc c' hc' => ih c hc hc') hl
    have hsame : l.map key = n.child.map key := keys_of_forall₂ (fun _ _ h => h.key_eq) hlist
    cases num with
    | false => exact samePaths_of_children ⟨hkeys,hnodup,htidy⟩ hlist (.refl l) (hkeys.of_keys hsame)
    | true =>
      refine samePaths_of_children ⟨hkeys,hnodup,htidy⟩ hlist (listSort_perm ..) (.of_hasKey ?_)
      have hhas (c : ConfigNode) (hc : c ∈ listSort cmpNum l) : HasKey c := by
        have hmem : c.key ∈ n.child.map key :=
          hsame ▸ List.mem_map_of_mem ((listSort_perm ..).mem_iff.mp hc)
        obtain ⟨d,hd,hdkey⟩ := List.mem_map.mp hmem
        simpa [HasKey,hdkey] using hkeys.hasKey hnum d hd
      exact hhas

/-- What is sorted reads the same. -/
theorem sortLists_spec (hn : n.Good) : ∃ n', sortLists n = .ok n' ∧ ReadsLike n n' := by
  obtain ⟨n',hsort⟩ := sortLists_ok hn
  have hsame := sortLists_samePaths hn.tidy hsort
  have hgood : n'.Good := hsame.tidy.good fun p hp => hn.ne_nil_of_mapAt (by rwa [← hsame.mapAt_eq])
  exact ⟨n',hsort,hsame.key_eq,hgood,fun q => by rw [hgood.valueAt_eq,hn.valueAt_eq,hsame.mapAt_eq]⟩

/-- Keys that differ in more than their case pass the check. -/
theorem checkSanity_ok (hn : n.Good) (hlen : ∀ c ∈ n.child, c.key.bytes.length < 2^32)
    (hfold : ∀ c ∈ n.child, ∀ d ∈ n.child,
      c.key.bytes.map tolower = d.key.bytes.map tolower → c.key = d.key) : checkSanity n = .ok := by
  have hname {a : List UInt8} (h : n.mapAt [a] ≠ none) : ∃ c ∈ n.child, c.key.bytes = a := by
    obtain ⟨c,hc,hca,-⟩ := hn.tidy.mapAt_cons_ne.mp h
    exact ⟨c,hc,hca⟩
  refine (sane_iff hn.tidy).mpr fun a b hab ha hb hcmp => hab ?_
  obtain ⟨c,hc,rfl⟩ := hname ha
  obtain ⟨d,hd,rfl⟩ := hname hb
  obtain ⟨hlens,hzero⟩ := (cmpBufWith_eq_zero (hlen c hc) (hlen d hd)).mp hcmp
  obtain ⟨hkeys,-,-⟩ := hn.tidy
  rw [hfold c hc d hd (strncasecmp_eq_zero hlens (hkeys.nul hc) hzero)]

end Tidiness

end ConfigNode

end Http2d
