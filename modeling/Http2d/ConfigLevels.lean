import Http2d.AccessSpecs
import Http2d.BufferOps
import Http2d.ConfigAdds
import Http2d.ConfigNumbers
import Http2d.ConfigSanity
import Http2d.SortDecisions

/-! The order of the children after a text is parsed.
At every node `sort_lists` decides by the keys of the children whether it puts them in order. It takes
a key for a number unless its value is 0, and the comparison subtracts. -/
namespace Http2d

/-- The characters of a key. -/
def keyText (k : BufText) : List Char := k.bytes.map fun b => Char.ofNat b.toNat

/-- The value of a decimal numeral, digits with a minus sign or none; nothing of other keys. -/
def keyNumeral (k : BufText) : Option ℤ :=
  match keyText k with
  | '-'::digits => if digits ≠ [] ∧ digits.all Char.isDigit then some (-(decimal digits : ℤ)) else none
  | digits => if digits ≠ [] ∧ digits.all Char.isDigit then some (decimal digits : ℤ) else none

/-- The number that a numeral stands for. -/
def keyNumber (k : BufText) : ℤ := (keyNumeral k).getD 0

/-- All keys are numerals in the range of `int`, and no two have the same value. -/
structure Numbered (keys : List BufText) : Prop where
  numeral : ∀ k ∈ keys, ∃ v, keyNumeral k = some v ∧ IsInt v
  distinct : keys.Pairwise fun a b => keyNumber a ≠ keyNumber b

/-- Some key is not a numeral. -/
def HasWord (keys : List BufText) : Prop := ∃ k ∈ keys, keyNumeral k = none

/-- The largest number is first. -/
def Descending (keys : List BufText) : Prop := keys.Pairwise fun a b => keyNumber b < keyNumber a

/-- The keys of the children of a node, before and after: numbers are in descending order, and among
others nothing is moved. -/
structure LevelOrdered (before after : List BufText) : Prop where
  numbers : Numbered after → Descending after
  words : HasWord after → after = before

/-- The number of a key for `sort_lists`. -/
def keyValue (k : BufText) : ℤ := ConfigNode.keyInt ⟨k,none,[]⟩

/-- `cmp_num`, of the keys. -/
def cmpKeys (a b : BufText) : ℤ := ConfigNode.cmpNum ⟨a,none,[]⟩ ⟨b,none,[]⟩

/-- The comparison that `cmp_num` stands for. -/
def byNumber (a b : BufText) : ℤ := keyNumber b-keyNumber a

/-- The difference of the numbers is an `int`. -/
def NearNumbers (a b : BufText) : Prop := keyNumber b-keyNumber a < 2^31 ∧ keyNumber a-keyNumber b ≤ 2^31

/-- Where numbers are, a 0 is among them only if they are in order already, and those that are compared
are near each other; where words are, one has the value 0, or the first of two that are compared is
never the smaller one. -/
structure LevelClear (keys : List BufText) : Prop where
  zero : Numbered keys → (∃ k ∈ keys, keyNumber k = 0) → Descending keys
  near : Numbered keys → (∀ k ∈ keys, keyNumber k ≠ 0) → ∀ p ∈ listCompares byNumber keys, NearNumbers p.1 p.2
  words : HasWord keys → (∀ k ∈ keys, keyValue k ≠ 0) →
    ∀ p ∈ listCompares (fun _ _ => 0) keys, cmpKeys p.1 p.2 ≤ 0

/-- What `sort_lists` makes of the keys of the children. -/
def sortKeys (keys : List BufText) : List BufText :=
  if ∀ k ∈ keys, keyValue k ≠ 0 then listSort cmpKeys keys else keys

section Levels
variable {keys : List BufText} {a b k : BufText} {v : ℤ}

theorem cint_cuint_of_isInt (h : IsInt v) : cint (cuint v) = v := by
  obtain ⟨hlo,hhi⟩ := h
  unfold cint cuint
  split_ifs <;> omega

/-- `strtol` reads a numeral. -/
theorem keyValue_of_numeral (h : keyNumeral k = some v) (hv : IsInt v) : keyValue k = v := by
  have hstrtol : (strtol (keyText k)).1 = v := by
    obtain ⟨hlo,hhi⟩ := hv
    unfold keyNumeral at h
    split at h
    · rename_i digits htext
      split_ifs at h with hdigits
      cases h
      have hread : strtol ('-'::digits) = (-(decimal digits : ℤ),false) :=
        strtol_signed hdigits.1 (List.all_eq_true.mp hdigits.2) rfl (by omega) (by omega)
      rw [htext,hread]
    · split_ifs at h with hdigits
      cases h
      rw [strtol_digits (List.all_eq_true.mp hdigits.2) (by omega)]
  have hkey : keyValue k = cint (cuint (strtol (keyText k)).1) := rfl
  rw [hkey,hstrtol,cint_cuint_of_isInt hv]

theorem Numbered.value (h : Numbered keys) (hk : k ∈ keys) :
    keyValue k = keyNumber k ∧ IsInt (keyNumber k) := by
  obtain ⟨v,hv,hint⟩ := h.numeral k hk
  rw [keyNumber,hv,keyValue_of_numeral hv hint]
  exact ⟨rfl,hint⟩

theorem Numbered.perm {keys' : List BufText} (h : Numbered keys) (hp : keys'.Perm keys) :
    Numbered keys' :=
  ⟨fun k hk => h.numeral k (hp.mem_iff.mp hk),h.distinct.perm hp.symm fun hne => hne.symm⟩

/-- The subtraction answers as it should exactly for near numbers. -/
theorem cmpKeys_iff (h : Numbered keys) (ha : a ∈ keys) (hb : b ∈ keys) :
    cmpLe cmpKeys a b = cmpLe byNumber a b ↔ NearNumbers a b := by
  obtain ⟨hav,halo,hahi⟩ := h.value ha
  obtain ⟨hbv,hblo,hbhi⟩ := h.value hb
  have hcmp : cmpKeys a b = if keyValue a = keyValue b then 0
      else if keyValue a < keyValue b then cint (cuint (keyValue b-keyValue a))
      else cint (cuint (-(keyValue a-keyValue b))) := rfl
  rw [cmpLe,cmpLe,decide_eq_decide,hcmp,hav,hbv,byNumber,NearNumbers]
  unfold cint cuint
  split_ifs <;> omega

theorem byNumber_sorted (keys : List BufText) :
    (listSort byNumber keys).Pairwise fun a b => keyNumber b ≤ keyNumber a := by
  have htotal (a b : BufText) : byNumber a b ≤ 0 ∨ byNumber b a ≤ 0 := by
    simp only [byNumber]
    omega
  have htrans (a b c : BufText) (hab : byNumber a b ≤ 0) (hbc : byNumber b c ≤ 0) : byNumber a c ≤ 0 := by
    simp only [byNumber] at hab hbc ⊢
    omega
  exact (listSort_sorted htotal htrans keys).1.imp fun h => by simpa [byNumber] using h

/-- Numbers are in order exactly when they are sorted. -/
theorem descending_iff {keys' : List BufText} (h : Numbered keys) (hp : keys'.Perm keys) :
    Descending keys' ↔ keys' = listSort byNumber keys := by
  have hsort := listSort_perm byNumber keys
  have hsorted : Descending (listSort byNumber keys) :=
    ((byNumber_sorted keys).and (h.perm hsort).distinct).imp fun hab => by omega
  constructor
  · intro hd
    refine List.Perm.eq_of_pairwise (fun a b _ _ hab hba => ?_) hd hsorted (hp.trans hsort.symm)
    omega
  · rintro rfl
    exact hsorted

theorem sortKeys_perm (keys : List BufText) : (sortKeys keys).Perm keys := by
  unfold sortKeys
  split_ifs
  · exact listSort_perm ..
  · rfl

/-- Numbers come out in order exactly under the condition. -/
theorem descending_sortKeys_iff (hnodup : keys.Nodup) (h : Numbered keys) : Descending (sortKeys keys) ↔
    ((∃ k ∈ keys, keyNumber k = 0) → Descending keys) ∧
    ((∀ k ∈ keys, keyNumber k ≠ 0) → ∀ p ∈ listCompares byNumber keys, NearNumbers p.1 p.2) := by
  have hiff : (∀ k ∈ keys, keyValue k ≠ 0) ↔ ∀ k ∈ keys, keyNumber k ≠ 0 :=
    forall₂_congr fun k hk => by rw [(h.value hk).1]
  by_cases hall : ∀ k ∈ keys, keyNumber k ≠ 0
  · have hno : ¬ ∃ k ∈ keys, keyNumber k = 0 := fun ⟨k,hk,h0⟩ => hall k hk h0
    rw [sortKeys,if_pos (hiff.mpr hall),descending_iff h (listSort_perm ..),listSort_eq_iff hnodup]
    have hpairs : (∀ p ∈ listCompares byNumber keys, cmpLe cmpKeys p.1 p.2 = cmpLe byNumber p.1 p.2) ↔
        ∀ p ∈ listCompares byNumber keys, NearNumbers p.1 p.2 :=
      forall₂_congr fun p hp => cmpKeys_iff h (mem_listCompares hp).1 (mem_listCompares hp).2
    rw [hpairs]
    exact ⟨fun hnear => ⟨fun hz => absurd hz hno,fun _ => hnear⟩,fun hboth => hboth.2 hall⟩
  · rw [sortKeys,if_neg (hiff.not.mpr hall)]
    refine ⟨fun hd => ⟨fun _ => hd,fun h' => absurd h' hall⟩,fun hboth => hboth.1 ?_⟩
    simpa using hall

/-- Nothing is moved exactly under the condition. -/
theorem sortKeys_eq_iff (hnodup : keys.Nodup) : sortKeys keys = keys ↔ ((∀ k ∈ keys, keyValue k ≠ 0) →
    ∀ p ∈ listCompares (fun _ _ => 0) keys, cmpKeys p.1 p.2 ≤ 0) := by
  by_cases hall : ∀ k ∈ keys, keyValue k ≠ 0
  · have hkeep : listSort cmpKeys keys = listSort (fun _ _ => 0) keys ↔
        ∀ p ∈ listCompares (fun _ _ => 0) keys, cmpLe cmpKeys p.1 p.2 = cmpLe (fun _ _ => 0) p.1 p.2 :=
      listSort_eq_iff hnodup
    rw [listSort_keep] at hkeep
    rw [sortKeys,if_pos hall,hkeep,forall_prop_of_true hall]
    simp only [cmpLe,le_refl,decide_true,decide_eq_true_eq]
  · rw [sortKeys,if_neg hall]
    exact iff_of_true rfl fun h => absurd h hall

/-- What is made of a level is right exactly under the condition. -/
theorem levelOrdered_iff (hnodup : keys.Nodup) : LevelOrdered keys (sortKeys keys) ↔ LevelClear keys := by
  have hperm := sortKeys_perm keys
  have hnum : Numbered (sortKeys keys) ↔ Numbered keys := ⟨fun h => h.perm hperm.symm,fun h => h.perm hperm⟩
  have hword : HasWord (sortKeys keys) ↔ HasWord keys := by
    simp only [HasWord,hperm.mem_iff]
  constructor
  · rintro ⟨hnumbers,hwords⟩
    rw [hnum] at hnumbers
    rw [hword,sortKeys_eq_iff hnodup] at hwords
    exact ⟨fun h => ((descending_sortKeys_iff hnodup h).mp (hnumbers h)).1,
      fun h => ((descending_sortKeys_iff hnodup h).mp (hnumbers h)).2,hwords⟩
  · rintro ⟨hzero,hnear,hwords⟩
    refine ⟨fun h => ?_,fun h => ?_⟩
    · have h' := hnum.mp h
      exact (descending_sortKeys_iff hnodup h').mpr ⟨hzero h',hnear h'⟩
    · exact (sortKeys_eq_iff hnodup).mpr (hwords (hword.mp h))

end Levels

namespace ConfigNode

theorem allNum_iff {l : List ConfigNode} {num : Bool} (h : allNum l = .ok num) :
    num = true ↔ ∀ k ∈ l.map key, keyValue k ≠ 0 := by
  induction l with
  | nil =>
    cases Except.ok.inj h
    simp
  | cons i rest ih =>
    obtain ⟨s,-,h⟩ := bind_ok_inv h
    have hvalue : keyValue i.key = i.keyInt := rfl
    rw [List.map_cons,List.forall_mem_cons,hvalue]
    split_ifs at h with hzero
    · cases Except.ok.inj h
      simp [hzero]
    · rw [ih h,and_iff_right hzero]

/-- What `sort_lists` does at a node. -/
theorem sortLists_keys {n n' : ConfigNode} (h : sortLists n = .ok n') :
    n'.child.map key = sortKeys (n.child.map key) := by
  obtain ⟨num,l,hnum,hl,rfl⟩ := sortLists_inv h
  have hkeys : l.map key = n.child.map key := by
    refine keys_of_forall₂ (fun _ _ h => h) (sortAll_inv (fun c _ c' hc' => ?_) hl)
    obtain ⟨_,_,_,_,rfl⟩ := sortLists_inv hc'
    rfl
  have hall := allNum_iff hnum
  cases num with
  | false =>
    have hnot : ¬ ∀ k ∈ n.child.map key, keyValue k ≠ 0 := fun h => by cases hall.mpr h
    rw [sortKeys,if_neg hnot,← hkeys]
    rfl
  | true =>
    have hsort : (listSort cmpNum l).map key = listSort cmpKeys (l.map key) :=
      listSort_map (by exact fun _ _ => rfl) l
    rw [sortKeys,if_pos (hall.mp rfl),← hkeys]
    exact hsort

/-- The nodes at a path, before and after. -/
theorem follow_sortLists {n n' : ConfigNode} (hn : n.Tidy) (h : sortLists n = .ok n')
    (path : List (List UInt8)) :
    Option.Rel (fun c c' => c.Tidy ∧ sortLists c = .ok c') (n.follow path) (n'.follow path) := by
  induction path generalizing n n' with
  | nil => exact .some ⟨hn,h⟩
  | cons k ks ih =>
    have hsame := sortLists_samePaths hn h
    obtain ⟨num,l,-,hl,rfl⟩ := sortLists_inv h
    obtain ⟨-,hnodup',-⟩ := hsame.tidy
    obtain ⟨-,hnodup,htidy⟩ := hn
    have hlist : List.Forall₂ (fun c c' => sortLists c = .ok c') n.child l :=
      sortAll_inv (fun _ _ _ h => h) hl
    have hmem (c : ConfigNode) : (c ∈ if num then listSort cmpNum l else l) ↔ c ∈ l := by
      split_ifs
      · exact (listSort_perm ..).mem_iff
      · rfl
    rw [follow,follow]
    cases hfind : n.child.find? fun c => c.key = keyOf k with
    | none =>
      have hnone (c' : ConfigNode) (hc' : c' ∈ if num then listSort cmpNum l else l) : c'.key ≠ keyOf k := by
        obtain ⟨c,hc,hsort⟩ := (mem_of_forall₂ hlist).1 c' ((hmem c').mp hc')
        rw [(sortLists_samePaths (htidy c hc) hsort).key_eq]
        simpa using List.find?_eq_none.mp hfind c hc
      rw [find?_none hnone]
      exact .none
    | some c =>
      obtain ⟨hc,hck⟩ := (find?_key_iff hnodup).mp hfind
      obtain ⟨c',hc',hsort⟩ := (mem_of_forall₂ hlist).2 c hc
      have hkey' : c'.key = keyOf k := (sortLists_samePaths (htidy c hc) hsort).key_eq.trans hck
      have hfind' := (find?_key_iff hnodup').mpr ⟨(hmem c').mpr hc',hkey'⟩
      rw [hfind']
      exact ih (htidy c hc) hsort

theorem node_after {n n' c : ConfigNode} (hn : n.Tidy) (h : sortLists n = .ok n') {path : List (List UInt8)}
    (hc : n.follow path = some c) : ∃ c', n'.follow path = some c' ∧ c.Tidy ∧ sortLists c = .ok c' := by
  have hrel := follow_sortLists hn h path
  rw [hc] at hrel
  cases hfollow : n'.follow path <;> rw [hfollow] at hrel <;> cases hrel
  exact ⟨_,rfl,by assumption⟩

theorem node_before {n n' c' : ConfigNode} (hn : n.Tidy) (h : sortLists n = .ok n') {path : List (List UInt8)}
    (hc' : n'.follow path = some c') : ∃ c, n.follow path = some c ∧ c.Tidy ∧ sortLists c = .ok c' := by
  have hrel := follow_sortLists hn h path
  rw [hc'] at hrel
  cases hfollow : n.follow path <;> rw [hfollow] at hrel <;> cases hrel
  exact ⟨_,rfl,by assumption⟩

/-- The trees that calls make from an empty root, one after another. -/
inductive Built : ConfigNode → Prop
  | init : Built init
  | addBuf {conf : ConfigNode} (fs : ConfigFs) (depth : ℕ) {key val : BufText} {r : Ret × ConfigNode} :
      Built conf → conf.addBuf (fs.parseWithin (fun _ _ => .error .fault) depth) key val = .ok r → Built r.2
  | parse {conf : ConfigNode} (fs : ConfigFs) (depth : ℕ) {path : BufText} {r : Ret × ConfigNode} :
      Built conf → fs.parseWithin (fun _ _ => .error .fault) depth conf path = .ok r → Built r.2
  | parseString {conf : ConfigNode} (fs : ConfigFs) (depth : ℕ) {buf : Buffer} {r : Ret × ConfigNode} :
      Built conf → parseString (fs.parseWithin (fun _ _ => .error .fault) depth) conf buf = .ok r →
      Built r.2

theorem Built.tidy {conf : ConfigNode} (h : Built conf) : conf.Tidy := by
  induction h with
  | init => exact init_tidy
  | addBuf fs depth _ hadd ih => exact (addBuf_follows (parseWithin_putsPaths fs depth) ih hadd).tidy
  | parse fs depth _ hparse ih => exact (parseWithin_putsPaths fs depth _ _ _ ih hparse).tidy
  | parseString fs depth _ hparse ih =>
    rw [parseString_eq] at hparse
    exact (addLines_follows (parseWithin_putsPaths fs depth) ih hparse).tidy

end ConfigNode

open ConfigNode

section Texts
variable {parse : ConfigNode → BufText → Exec (Ret × ConfigNode)} {inc : BufText → SpelledPaths}
  {conf T conf' : ConfigNode} {pairs : List (BufText × BufText)}

theorem addAll_tidy (hparse : PutsPaths parse inc) (hconf : conf.Tidy)
    (h : conf.addAll parse pairs = .ok T) : T.Tidy := by
  induction pairs generalizing conf with
  | nil =>
    cases Except.ok.inj h
    exact hconf
  | cons pair pairs ih =>
    obtain ⟨r,hadd,h⟩ := bind_ok_inv h
    exact ih (addBuf_follows hparse hconf hadd).tidy h

/-- With success all lines are added, and then comes what follows the loop. -/
theorem addLines_inv {e : ScanEnd} {r : Ret × ConfigNode} (h : addLines parse conf pairs e = .ok r)
    (hr : r.1 = .ok) : ∃ T, conf.addAll parse pairs = .ok T ∧ sortLists T = .ok r.2 := by
  induction pairs generalizing conf with
  | nil =>
    cases e with
    | done =>
      obtain ⟨conf',hsort,h⟩ := bind_ok_inv h
      cases Except.ok.inj h
      exact ⟨conf,rfl,hsort⟩
    | bad =>
      cases Except.ok.inj h
      cases hr
    | halt e => cases h
  | cons pair pairs ih =>
    obtain ⟨q,hadd,h⟩ := bind_ok_inv h
    split_ifs at h
    · obtain ⟨T,hT,hsort⟩ := ih h
      exact ⟨T,by rw [addAll,hadd]; exact hT,hsort⟩
    · cases Except.ok.inj h
      cases hr

/-- At every node the children are in order, compared with the tree that the lines made. -/
def OrdersLevels (T conf' : ConfigNode) : Prop := ∀ path n', conf'.follow path = some n' →
  ∃ n, T.follow path = some n ∧ LevelOrdered (n.child.map key) (n'.child.map key)

/-- The nodes of an accepted tree are in order exactly when those that the lines made are clear. -/
theorem ordersLevels_iff (fs : ConfigFs) (depth : ℕ) {buf : Buffer} (hconf : Built conf)
    (h : parseString (fs.parseWithin (fun _ _ => .error .fault) depth) conf buf = .ok (.ok,conf')) :
    ∃ T, conf.addAll (fs.parseWithin (fun _ _ => .error .fault) depth) (configPairs buf).1 = .ok T ∧
      (OrdersLevels T conf' ↔ ∀ path n, T.follow path = some n → LevelClear (n.child.map key)) := by
  rw [parseString_eq] at h
  obtain ⟨T,hT,hsort⟩ := addLines_inv h rfl
  have htidy : T.Tidy := addAll_tidy (parseWithin_putsPaths fs depth) hconf.tidy hT
  have hlevel {n n' : ConfigNode} (hn : n.Tidy) (hs : sortLists n = .ok n') :
      LevelOrdered (n.child.map key) (n'.child.map key) ↔ LevelClear (n.child.map key) := by
    obtain ⟨-,hnodup,-⟩ := hn
    rw [sortLists_keys hs,levelOrdered_iff hnodup]
  refine ⟨T,hT,fun hall path n hn => ?_,fun hall path n' hn' => ?_⟩
  · obtain ⟨n',hn',htn,hs⟩ := node_after htidy hsort hn
    obtain ⟨m,hm,hord⟩ := hall path n' hn'
    rw [hn] at hm
    cases hm
    exact (hlevel htn hs).mp hord
  · obtain ⟨n,hn,htn,hs⟩ := node_before htidy hsort hn'
    exact ⟨n,hn,(hlevel htn hs).mpr (hall path n hn)⟩

end Texts

/-- The lines "0 = a" and "1 = b". -/
def zeroLines : Buffer := ⟨[48,32,61,32,97,10,49,32,61,32,98,10,0],13,12⟩

/-- What they make. -/
def zeroTree : ConfigNode := ⟨none,none,[⟨some [48],some [97],[]⟩,⟨some [49],some [98],[]⟩]⟩

theorem addAll_zeroLines (parse : ConfigNode → BufText → Exec (Ret × ConfigNode)) :
    init.addAll parse (configPairs zeroLines).1 = .ok zeroTree ∧
    parseString parse init zeroLines = .ok (.ok,zeroTree) := by
  have hpairs : configPairs zeroLines = ([(some [48],some [97]),(some [49],some [98])],.done) := by rfl
  have hadd : init.addBuf parse (some [48]) (some [97]) =
      .ok (.ok,⟨none,none,[⟨some [48],some [97],[]⟩]⟩) ∧
    (⟨none,none,[⟨some [48],some [97],[]⟩]⟩ : ConfigNode).addBuf parse (some [49]) (some [98]) =
      .ok (.ok,zeroTree) := ⟨rfl,rfl⟩
  have hnum : allNum [⟨some [48],some [97],[]⟩,⟨some [49],some [98],[]⟩] = .ok false := rfl
  have hsort : sortLists zeroTree = .ok zeroTree := by
    rw [zeroTree,sortLists,hnum]
    simp only [sortAll,sortLists_leaf,ok_bind]
    rfl
  rw [parseString_eq,hpairs]
  simp only [addAll,addLines,hadd.1,hadd.2,ok_bind,if_true,finishConfig,hsort,true_and]
  rfl

/-- The key 0 is taken for no number, and the children stay as they were. -/
theorem not_ordersLevels_zero : ∃ T conf',
    init.addAll (noFiles.parseWithin (fun _ _ => .error .fault) 0) (configPairs zeroLines).1 = .ok T ∧
    parseString (noFiles.parseWithin (fun _ _ => .error .fault) 0) init zeroLines = .ok (.ok,conf') ∧
    ¬ OrdersLevels T conf' := by
  obtain ⟨hadd,hparse⟩ := addAll_zeroLines (noFiles.parseWithin (fun _ _ => .error .fault) 0)
  refine ⟨zeroTree,zeroTree,hadd,hparse,fun h => ?_⟩
  obtain ⟨n,-,hnumbers,-⟩ := h [] zeroTree rfl
  have hzero : keyNumeral (some [48]) = some 0 := by decide
  have hone : keyNumeral (some [49]) = some 1 := by decide
  have hnumbered : Numbered (zeroTree.child.map key) := by
    refine ⟨fun k hk => ?_,by simp [zeroTree,keyNumber,hzero,hone]⟩
    rcases List.mem_pair.mp hk with rfl | rfl
    · exact ⟨0,hzero,by decide,by decide⟩
    · exact ⟨1,hone,by decide,by decide⟩
  have hdesc := (List.pairwise_cons.mp (hnumbers hnumbered)).1 (some [49]) (by simp)
  simp [keyNumber,hzero,hone] at hdesc

theorem ordersLevels_iff_zero : ∃ T,
    init.addAll (noFiles.parseWithin (fun _ _ => .error .fault) 0) (configPairs zeroLines).1 = .ok T ∧
    (OrdersLevels T zeroTree ↔ ∀ path n, T.follow path = some n → LevelClear (n.child.map key)) :=
  ordersLevels_iff noFiles 0 .init (addAll_zeroLines _).2

end Http2d
