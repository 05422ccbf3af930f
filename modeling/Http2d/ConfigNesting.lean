import Http2d.ConfigInclude
import Http2d.Library.NestedCalls
import Mathlib.Data.Set.Finite.List

/-! Which configurations are parsed to their end.
A nested parse begins with the tree as it is at its line. The trees that can be come to are finitely many:
lines only add keys that stand in the files. So a parse ends unless a path is begun again, inside its own
parse, with the tree that it began with before. -/
namespace Http2d

namespace ConfigFs

open ConfigNode NestedCalls

instance : Nontrivial Halt := ⟨.fault,.exit 0,by decide⟩

/-- A parse whose nested parses are calls; they are known by their tree and their path. -/
abbrev Parsing (α : Type) := Calls (ConfigNode × BufText) (Ret × ConfigNode) Halt α

/-- `http2d_config_node_add_buf`. -/
def addBufCalls (conf : ConfigNode) (key val : BufText) : Parsing (Ret × ConfigNode) :=
  if bufferCmpBuf key.bytes includeKey = 0 then .ask (conf,val)
  else
    let included : Parsing ConfigNode :=
      if bufferCmpBuf key.bytes tryIncludeKey = 0 then (Calls.ask (conf,val)).bind fun r => .done (.ok r.2)
      else .done (.ok conf)
    included.bind fun conf => .done (do
      let start ← key.cstr
      let conf ← addParts val (keyParts start) none conf
      .ok (.ok,conf))

/-- The lines of a text, one after another. -/
def linesCalls : ConfigNode → List (BufText × BufText) → ScanEnd → Parsing (Ret × ConfigNode)
  | conf, [], .done => .done (finishConfig conf)
  | conf, [], .bad => .done (.ok (.error,conf))
  | _, [], .halt e => .done (.error e)
  | conf, (key,val)::pairs, e => (addBufCalls conf key val).bind fun r =>
    if r.1 = .ok then linesCalls r.2 pairs e else .done (.ok (.error,r.2))

/-- `do_parse_file`. -/
def textCalls (conf : ConfigNode) : Option Buffer → Parsing (Ret × ConfigNode)
  | none => .done (.ok (.error,conf))
  | some buf => (linesCalls conf (configPairs buf).1 (configPairs buf).2).bind fun r =>
    .done (if r.1 = .ok then .ok (.ok,r.2) else .ok (.error,r.2))

/-- The texts of an include, until one of them fails. -/
def textsCalls : ConfigNode → List (Option Buffer) → Parsing (Ret × ConfigNode)
  | conf, [] => .done (.ok (.ok,conf))
  | conf, text::texts => (textCalls conf text).bind fun r =>
    if r.1 = .ok then textsCalls r.2 texts else .done (.ok r)

/-- `do_include`. -/
def parseCalls (fs : ConfigFs) (q : ConfigNode × BufText) : Parsing (Ret × ConfigNode) :=
  ((fs.texts q.2).map (textsCalls q.1)).getD (.done (.ok (.error,q.1)))

/-- Inside the parse of a path into a tree that of another one into another tree is begun. -/
def BeginsParse (fs : ConfigFs) : ConfigNode × BufText → ConfigNode × BufText → Prop :=
  Begins fs.parseCalls

section Answers
variable {fs : ConfigFs} {conf : ConfigNode} {path : BufText}
  (answer : ConfigNode × BufText → Exec (Ret × ConfigNode))

theorem run_addBufCalls (conf : ConfigNode) (key val : BufText) : (addBufCalls conf key val).run answer =
    conf.addBuf (fun conf path => answer (conf,path)) key val := by
  unfold addBufCalls addBuf
  split_ifs
  · exact Calls.run_ask _
  · rw [Calls.run_bind,Calls.run_bind,Calls.run_ask]
    dsimp only
    cases answer (conf,val) <;> rfl
  · rfl

theorem run_linesCalls (conf : ConfigNode) (pairs : List (BufText × BufText)) (e : ScanEnd) :
    (linesCalls conf pairs e).run answer = addLines (fun conf path => answer (conf,path)) conf pairs e := by
  induction pairs generalizing conf with
  | nil => cases e <;> rfl
  | cons pair pairs ih =>
    rw [linesCalls,Calls.run_bind,run_addBufCalls]
    refine congrArg _ (funext fun r => ?_)
    split_ifs
    · exact ih r.2
    · rfl

theorem run_textCalls (conf : ConfigNode) (text : Option Buffer) : (textCalls conf text).run answer =
    parseText (fun conf path => answer (conf,path)) conf text := by
  cases text with
  | none => rfl
  | some buf =>
    rw [textCalls,Calls.run_bind,run_linesCalls,parseText,parseString_eq]
    rfl

theorem run_textsCalls (conf : ConfigNode) (texts : List (Option Buffer)) :
    (textsCalls conf texts).run answer = parseAll (fun conf path => answer (conf,path)) conf texts := by
  induction texts generalizing conf with
  | nil => rfl
  | cons text texts ih =>
    rw [textsCalls,Calls.run_bind,run_textCalls,parseAll]
    refine congrArg _ (funext fun r => ?_)
    split_ifs
    · exact ih r.2
    · rfl

/-- The calls are the nested parses. -/
theorem within_parseCalls (depth : ℕ) (conf : ConfigNode) (path : BufText) :
    within fs.parseCalls answer depth (conf,path) =
      fs.parseWithin (fun conf path => answer (conf,path)) depth conf path := by
  induction depth generalizing conf path with
  | zero => rfl
  | succ depth ih =>
    have hcalls : within fs.parseCalls answer (depth+1) (conf,path) = (((fs.texts path).map
        (textsCalls conf)).getD (.done (.ok (.error,conf)))).run (within fs.parseCalls answer depth) := rfl
    rw [parseWithin,doInclude_eq,hcalls]
    cases fs.texts path with
    | none => rfl
    | some texts =>
      simp only [Option.map_some,Option.getD_some,run_textsCalls,ih]

theorem ends_parseCalls : fs.Ends conf path ↔ NestedCalls.Ends fs.parseCalls (conf,path) := by
  refine exists_congr fun depth => ⟨fun h deeper deeper' => ?_,fun h deeper deeper' => ?_⟩
  · rw [within_parseCalls,within_parseCalls]
    exact h _ _
  · exact (within_parseCalls (fun q => deeper q.1 q.2) depth conf path).symm.trans
      ((h _ _).trans (within_parseCalls (fun q => deeper' q.1 q.2) depth conf path))

end Answers

end ConfigFs

namespace ConfigNode

/-- A tree of at most the given depth, with keys and values out of two sets. The children of a node are
`extra` more than their different keys at most. -/
def Within (keys vals : Set BufText) (extra : ℕ) : ℕ → ConfigNode → Prop
  | 0, n => n.key ∈ keys ∧ n.val ∈ vals ∧ n.child = []
  | depth+1, n => n.key ∈ keys ∧ n.val ∈ vals ∧
    n.child.length ≤ extra+(n.child.map key).toFinset.card ∧ ∀ c ∈ n.child, Within keys vals extra depth c

section Bounds
variable {keys vals keys' vals' : Set BufText} {extra extra' depth depth' : ℕ} {n n' : ConfigNode}

theorem Within.key_mem (h : n.Within keys vals extra depth) : n.key ∈ keys := by
  cases depth <;> exact h.1

theorem Within.mono (h : n.Within keys vals extra depth) (hk : keys ⊆ keys') (hv : vals ⊆ vals')
    (he : extra ≤ extra') (hd : depth ≤ depth') : n.Within keys' vals' extra' depth' := by
  induction depth generalizing n depth' with
  | zero =>
    obtain ⟨hkey,hval,hchild⟩ := h
    cases depth' with
    | zero => exact ⟨hk hkey,hv hval,hchild⟩
    | succ depth' => exact ⟨hk hkey,hv hval,by rw [hchild]; simp,by rw [hchild]; simp⟩
  | succ depth ih =>
    obtain ⟨hkey,hval,hlen,hchild⟩ := h
    obtain ⟨d,rfl⟩ := Nat.exists_eq_succ_of_ne_zero (by omega : depth' ≠ 0)
    exact ⟨hk hkey,hv hval,by omega,fun c hc => ih (hchild c hc) (by omega)⟩

/-- Lists of bounded length over a finite set. -/
theorem lists_finite {α : Type*} {S : Set α} (hS : S.Finite) (len : ℕ) :
    {l : List α | l.length ≤ len ∧ ∀ x ∈ l, x ∈ S}.Finite := by
  have := hS.to_subtype
  refine ((List.finite_length_le S len).image (List.map Subtype.val)).subset ?_
  rintro l ⟨hlen,hmem⟩
  exact ⟨l.attachWith _ hmem,by simpa using hlen,List.attachWith_map_subtype_val ..⟩

/-- Such trees are finitely many. -/
theorem within_finite (hk : keys.Finite) (hv : vals.Finite) (extra depth : ℕ) :
    {n : ConfigNode | n.Within keys vals extra depth}.Finite := by
  have hnodes {S : Set (List ConfigNode)} (hS : S.Finite) :
      {n : ConfigNode | n.key ∈ keys ∧ n.val ∈ vals ∧ n.child ∈ S}.Finite := by
    refine ((hk.prod (hv.prod hS)).image fun t => (⟨t.1,t.2.1,t.2.2⟩ : ConfigNode)).subset ?_
    rintro ⟨key,val,child⟩ ⟨hkey,hval,hchild⟩
    exact ⟨(key,val,child),⟨hkey,hval,hchild⟩,rfl⟩
  induction depth with
  | zero => exact hnodes (Set.finite_singleton [])
  | succ depth ih =>
    refine (hnodes (lists_finite ih (extra+hk.toFinset.card))).subset ?_
    rintro n ⟨hkey,hval,hlen,hchild⟩
    refine ⟨hkey,hval,hlen.trans (Nat.add_le_add_left (Finset.card_le_card fun k hkmem => ?_) _),hchild⟩
    obtain ⟨c,hc,rfl⟩ := List.mem_map.mp (List.mem_toFinset.mp hkmem)
    exact hk.mem_toFinset.mpr (hchild c hc).key_mem

/-- Every tree has such bounds. -/
theorem exists_within (n : ConfigNode) : ∃ keys vals extra depth, Set.Finite keys ∧ Set.Finite vals ∧
    n.Within keys vals extra depth := by
  obtain ⟨key,val,child⟩ := n
  have hlist (l : List ConfigNode) (hl : ∀ c ∈ l, ∃ keys vals extra depth, Set.Finite keys ∧
      Set.Finite vals ∧ c.Within keys vals extra depth) : ∃ keys vals extra depth, Set.Finite keys ∧
      Set.Finite vals ∧ ∀ c ∈ l, c.Within keys vals extra depth := by
    induction l with
    | nil => exact ⟨∅,∅,0,0,Set.finite_empty,Set.finite_empty,by simp⟩
    | cons c l ih =>
      obtain ⟨hc,hrest⟩ := List.forall_mem_cons.mp hl
      obtain ⟨K,V,e,d,hK,hV,hcw⟩ := hc
      obtain ⟨K',V',e',d',hK',hV',hlw⟩ := ih hrest
      refine ⟨K ∪ K',V ∪ V',max e e',max d d',hK.union hK',hV.union hV',List.forall_mem_cons.mpr ⟨?_,?_⟩⟩
      · exact hcw.mono Set.subset_union_left Set.subset_union_left (le_max_left ..) (le_max_left ..)
      · exact fun x hx => (hlw x hx).mono Set.subset_union_right Set.subset_union_right (le_max_right ..)
          (le_max_right ..)
  obtain ⟨K,V,e,d,hK,hV,hw⟩ := hlist child fun c _ => exists_within c
  refine ⟨insert key K,insert val V,max e child.length,d+1,hK.insert key,hV.insert val,Set.mem_insert ..,
    Set.mem_insert ..,(le_max_right e _).trans (Nat.le_add_right ..),fun c hc => ?_⟩
  exact (hw c hc).mono (Set.subset_insert ..) (Set.subset_insert ..) (le_max_left ..) le_rfl
termination_by sizeOf n
decreasing_by
  rename_i hc
  have := List.sizeOf_lt_of_mem hc
  simp only [ConfigNode.mk.sizeOf_spec]
  omega

end Bounds

section Changes
variable {keys vals : Set BufText} {extra depth : ℕ} {n n' c c' : ConfigNode}
  {front back l l' : List ConfigNode} {tmp val : BufText}

theorem searchChild_place {place : Option (List ConfigNode × ConfigNode × List ConfigNode)}
    (h : searchChild tmp l = .ok place) : match place with
      | some (front,c,back) => l = front ++ c::back
      | none => ∀ c ∈ l, c.key ≠ (newChild tmp).key := by
  induction l generalizing place with
  | nil =>
    cases Except.ok.inj h
    simp
  | cons entry rest ih =>
    rw [searchChild] at h
    obtain ⟨a,ha,h⟩ := bind_ok_inv h
    obtain ⟨b,hb,h⟩ := bind_ok_inv h
    split_ifs at h with hab
    · cases Except.ok.inj h
      rfl
    obtain ⟨found,hfound,h⟩ := bind_ok_inv h
    cases Except.ok.inj h
    have hrest := ih hfound
    cases found with
    | some place => simpa using hrest
    | none =>
      refine List.forall_mem_cons.mpr ⟨fun hkey => hab ?_,hrest⟩
      -- A new key that is there already would have been found.
      cases tmp with
      | none => cases hb
      | some t =>
        rw [hkey,newChild,BufText.add] at ha
        split_ifs at ha
        · cases ha
        · exact Except.ok.inj (ha.symm.trans hb)

theorem Within.setVal (h : n.Within keys vals extra depth) {v : BufText} (hv : v ∈ vals) :
    Within keys vals extra depth {n with val := v} := by
  cases depth with
  | zero => exact ⟨h.1,hv,h.2.2⟩
  | succ depth => exact ⟨h.1,hv,h.2.2⟩

theorem newChild_within (hkey : BufText.add none tmp.bytes ∈ keys) (hnone : none ∈ vals) :
    (newChild tmp).Within keys vals extra depth := by
  cases depth with
  | zero => exact ⟨hkey,hnone,rfl⟩
  | succ depth => exact ⟨hkey,hnone,Nat.zero_le _,by simp [newChild,init]⟩

theorem Within.replace (h : n.Within keys vals extra (depth+1)) (hn : n.child = front ++ c::back)
    (hkey : c'.key = c.key) (hc : c'.Within keys vals extra depth) :
    Within keys vals extra (depth+1) {n with child := front ++ c'::back} := by
  obtain ⟨hk,hv,hlen,hchild⟩ := h
  rw [hn] at hlen hchild
  refine ⟨hk,hv,by simpa [hkey] using hlen,fun x hx => ?_⟩
  rcases List.mem_append.mp hx with hx | hx
  · exact hchild x (List.mem_append_left _ hx)
  · rcases List.mem_cons.mp hx with rfl | hx
    · exact hc
    · exact hchild x (List.mem_append_right _ (List.mem_cons_of_mem _ hx))

theorem Within.concat (h : n.Within keys vals extra (depth+1)) (hnew : ∀ x ∈ n.child, x.key ≠ c'.key)
    (hc : c'.Within keys vals extra depth) :
    Within keys vals extra (depth+1) {n with child := n.child ++ [c']} := by
  obtain ⟨hk,hv,hlen,hchild⟩ := h
  have hnot : c'.key ∉ (n.child.map key).toFinset := by
    rw [List.mem_toFinset]
    intro hmem
    obtain ⟨x,hx,hxkey⟩ := List.mem_map.mp hmem
    exact hnew x hx hxkey
  refine ⟨hk,hv,?_,fun x hx => ?_⟩
  · have hcard : ((n.child ++ [c']).map key).toFinset.card = (n.child.map key).toFinset.card+1 := by
      rw [List.map_append,List.map_singleton,List.toFinset_append,List.toFinset_cons,List.toFinset_nil,
        insert_empty_eq,Finset.union_comm,← Finset.insert_eq,Finset.card_insert_of_notMem hnot]
    rw [List.length_append,List.length_singleton]
    dsimp only
    omega
  · rcases List.mem_append.mp hx with hx | hx
    · exact hchild x hx
    · exact List.mem_singleton.mp hx ▸ hc

theorem addParts_key {parts : List (List UInt8)} (h : addParts val parts tmp n = .ok n') : n'.key = n.key := by
  cases parts with
  | nil => rw [← Except.ok.inj h]
  | cons part parts =>
    rw [addParts] at h
    obtain ⟨found,-,h⟩ := bind_ok_inv h
    obtain ⟨child,-,h⟩ := bind_ok_inv h
    rw [← Except.ok.inj h]

/-- A line whose parts and whose value the sets have. -/
theorem addParts_within (hnone : none ∈ vals) (hval : ∀ v, BufText.add (BufText.clean v) val.bytes ∈ vals)
    {parts : List (List UInt8)} (hkeys : ∀ part ∈ parts, BufText.add none part ∈ keys)
    (htmp : tmp.bytes = []) (hdepth : parts.length ≤ depth) (hn : n.Within keys vals extra depth)
    (h : addParts val parts tmp n = .ok n') : n'.Within keys vals extra depth := by
  induction parts generalizing n n' tmp depth with
  | nil => exact Except.ok.inj h ▸ hn
  | cons part parts ih =>
    obtain ⟨hpart,hrest⟩ := List.forall_mem_cons.mp hkeys
    obtain ⟨d,rfl⟩ := Nat.exists_eq_succ_of_ne_zero (by simp at hdepth; omega : depth ≠ 0)
    rw [addParts] at h
    obtain ⟨found,hfound,h⟩ := bind_ok_inv h
    obtain ⟨child,hchild,h⟩ := bind_ok_inv h
    cases Except.ok.inj h
    have hplace := searchChild_place hfound
    have hbytes : (tmp.add part).bytes = part := by rw [BufText.bytes_add,htmp,List.nil_append]
    have hnext (c : ConfigNode) (hc : c.Within keys vals extra d)
        (h : addParts val parts (tmp.add part).clean (if parts = [] then
          {c with val := c.val.clean.add val.bytes} else c) = .ok child) :
        child.Within keys vals extra d ∧ child.key = c.key := by
      refine ⟨ih hrest (by simp) (by simpa using hdepth) ?_ h,(addParts_key h).trans ?_⟩
      · split_ifs
        · exact hc.setVal (hval _)
        · exact hc
      · split_ifs <;> rfl
    cases found with
    | none =>
      obtain ⟨hc,hkey⟩ := hnext _ (newChild_within (by rwa [hbytes]) hnone) hchild
      exact hn.concat (fun x hx => hkey ▸ hplace x hx) hc
    | some place =>
      obtain ⟨front,c,back⟩ := place
      obtain ⟨hc,hkey⟩ := hnext c (hn.2.2.2 c (by rw [hplace]; simp)) hchild
      exact hn.replace hplace hkey hc

/-- Sorting changes the order of children only. -/
theorem sortLists_within (h : sortLists n = .ok n') (hn : n.Within keys vals extra depth) :
    n'.Within keys vals extra depth := by
  induction depth generalizing n n' with
  | zero =>
    obtain ⟨num,l,-,hl,rfl⟩ := sortLists_inv h
    obtain ⟨hk,hv,hchild⟩ := hn
    rw [hchild] at hl
    cases Except.ok.inj hl
    refine ⟨hk,hv,?_⟩
    split_ifs
    · exact (listSort_perm ..).eq_nil
    · rfl
  | succ depth ih =>
    obtain ⟨num,l,-,hl,rfl⟩ := sortLists_inv h
    obtain ⟨hk,hv,hlen,hchild⟩ := hn
    have hlist : List.Forall₂ (fun c c' => c'.key = c.key ∧ c'.Within keys vals extra depth) n.child l := by
      refine sortAll_inv (fun c hc c' hc' => ⟨?_,ih hc' (hchild c hc)⟩) hl
      obtain ⟨_,_,-,-,rfl⟩ := sortLists_inv hc'
      rfl
    have hperm : (if num then listSort cmpNum l else l).Perm l := by
      split_ifs
      · exact listSort_perm ..
      · exact .refl l
    have hkeys : l.map key = n.child.map key := keys_of_forall₂ (fun _ _ h => h.1) hlist
    refine ⟨hk,hv,?_,fun c hc => ?_⟩
    · rw [List.toFinset_eq_of_perm _ _ (hperm.map key),hperm.length_eq,hkeys,← hlist.length_eq]
      exact hlen
    · obtain ⟨_,_,hsame⟩ := (mem_of_forall₂ hlist).1 c (hperm.mem_iff.mp hc)
      exact hsame.2

end Changes

end ConfigNode

namespace ConfigFs

open ConfigNode NestedCalls

variable {fs : ConfigFs}

/-- The lines of all files. -/
def lines (fs : ConfigFs) : List (BufText × BufText) :=
  fs.files.flatMap fun content => (configPairs ⟨content ++ [0],content.length+1,content.length⟩).1

/-- The sets and the depth suffice for the lines of the files. -/
structure Covers (fs : ConfigFs) (keys vals : Set BufText) (depth : ℕ) : Prop where
  none_mem : none ∈ vals
  nil_mem : some [] ∈ vals
  val_mem : ∀ line ∈ fs.lines, some line.2.bytes ∈ vals
  key_mem : ∀ line ∈ fs.lines, ∀ part ∈ keyParts (cString line.1.bytes), BufText.add none part ∈ keys
  depth_le : ∀ line ∈ fs.lines, (keyParts (cString line.1.bytes)).length ≤ depth

section Trees
variable {keys vals paths : Set BufText} {extra depth : ℕ} {conf : ConfigNode}

/-- What is known of the parses that are begun. -/
def Known (keys vals paths : Set BufText) (extra depth : ℕ) (q : ConfigNode × BufText) : Prop :=
  q.1.Within keys vals extra depth ∧ q.2 ∈ paths

/-- What is known of their results. -/
def Left (keys vals : Set BufText) (extra depth : ℕ) (r : Ret × ConfigNode) : Prop :=
  r.2.Within keys vals extra depth

variable (hcov : fs.Covers keys vals depth) (hpaths : ∀ line ∈ fs.lines, line.2 ∈ paths)
include hcov hpaths

theorem addBufCalls_keeps {line : BufText × BufText} (hline : line ∈ fs.lines)
    (hconf : conf.Within keys vals extra depth) : (addBufCalls conf line.1 line.2).Keeps
      (Known keys vals paths extra depth) (Left keys vals extra depth) (Left keys vals extra depth) := by
  unfold addBufCalls
  by_cases hinc : bufferCmpBuf line.1.bytes includeKey = 0
  · rw [if_pos hinc]
    exact Calls.keeps_ask ⟨hconf,hpaths line hline⟩
  rw [if_neg hinc]
  refine Calls.Keeps.bind (P:=fun c => c.Within keys vals extra depth) ?_ fun c hc => ?_
  · split_ifs
    · refine (Calls.keeps_ask ⟨hconf,hpaths line hline⟩).bind fun r hr => ?_
      intro c hc
      exact Except.ok.inj hc ▸ hr
    · intro c hc
      exact Except.ok.inj hc ▸ hconf
  · intro r hr
    obtain ⟨start,hstart,hr⟩ := bind_ok_inv hr
    obtain ⟨conf',hadd,hr⟩ := bind_ok_inv hr
    cases Except.ok.inj hr
    have hkey : start = cString line.1.bytes := by
      cases hk : line.1 with
      | none =>
        rw [hk] at hstart
        cases hstart
      | some k =>
        rw [hk] at hstart
        exact (Except.ok.inj hstart).symm
    subst hkey
    refine addParts_within hcov.none_mem (fun v => ?_) (hcov.key_mem line hline) rfl
      (hcov.depth_le line hline) hc hadd
    have hclean : v.clean ∈ vals ∧ v.clean.bytes = [] := by
      refine ⟨?_,BufText.bytes_clean v⟩
      cases v
      · exact hcov.none_mem
      · exact hcov.nil_mem
    rw [BufText.add]
    split_ifs
    · exact hclean.1
    · rw [hclean.2,List.nil_append]
      exact hcov.val_mem line hline

theorem linesCalls_keeps {pairs : List (BufText × BufText)} (hpairs : ∀ line ∈ pairs, line ∈ fs.lines)
    (e : ScanEnd) (hconf : conf.Within keys vals extra depth) : (linesCalls conf pairs e).Keeps
      (Known keys vals paths extra depth) (Left keys vals extra depth) (Left keys vals extra depth) := by
  induction pairs generalizing conf with
  | nil =>
    cases e with
    | done =>
      intro r hr
      obtain ⟨conf',hsort,hr⟩ := bind_ok_inv hr
      cases Except.ok.inj hr
      exact sortLists_within hsort hconf
    | bad =>
      intro r hr
      cases Except.ok.inj hr
      exact hconf
    | halt e =>
      intro r hr
      cases hr
  | cons line pairs ih =>
    obtain ⟨hline,hrest⟩ := List.forall_mem_cons.mp hpairs
    rw [linesCalls]
    refine (addBufCalls_keeps hcov hpaths hline hconf).bind fun r hr => ?_
    split_ifs
    · exact ih hrest hr
    · intro r' hr'
      cases Except.ok.inj hr'
      exact hr

theorem textsCalls_keeps {texts : List (Option Buffer)} (htexts : ∀ buf, some buf ∈ texts →
      ∃ content ∈ fs.files, buf = ⟨content ++ [0],content.length+1,content.length⟩)
    (hconf : conf.Within keys vals extra depth) : (textsCalls conf texts).Keeps
      (Known keys vals paths extra depth) (Left keys vals extra depth) (Left keys vals extra depth) := by
  induction texts generalizing conf with
  | nil =>
    intro r hr
    cases Except.ok.inj hr
    exact hconf
  | cons text texts ih =>
    rw [textsCalls]
    refine Calls.Keeps.bind (P:=Left keys vals extra depth) ?_ fun r hr => ?_
    · cases text with
      | none =>
        intro r hr
        cases Except.ok.inj hr
        exact hconf
      | some buf =>
        obtain ⟨content,hcontent,rfl⟩ := htexts buf List.mem_cons_self
        refine (linesCalls_keeps hcov hpaths (fun line hline => ?_) _ hconf).bind fun r hr => ?_
        · exact List.mem_flatMap.mpr ⟨content,hcontent,hline⟩
        · intro r' hr'
          split_ifs at hr' <;> cases Except.ok.inj hr' <;> exact hr
    · split_ifs
      · exact ih (fun buf hbuf => htexts buf (List.mem_cons_of_mem _ hbuf)) hr
      · intro r' hr'
        cases Except.ok.inj hr'
        exact hr

theorem parseCalls_keeps (q : ConfigNode × BufText) (hq : Known keys vals paths extra depth q) :
    (fs.parseCalls q).Keeps (Known keys vals paths extra depth) (Left keys vals extra depth)
      (Left keys vals extra depth) := by
  unfold parseCalls
  cases htexts : fs.texts q.2 with
  | none =>
    intro r hr
    cases Except.ok.inj hr
    exact hq.1
  | some texts => exact textsCalls_keeps hcov hpaths (fun _ => texts_mem htexts) hq.1

end Trees

/-- The files have such sets and such a depth, also above others. -/
theorem exists_covers (fs : ConfigFs) {keys vals : Set BufText} (hk : keys.Finite) (hv : vals.Finite) (depth : ℕ) :
    ∃ keys' vals' depth', Set.Finite keys' ∧ Set.Finite vals' ∧ keys ⊆ keys' ∧ vals ⊆ vals' ∧ depth ≤ depth' ∧
      fs.Covers keys' vals' depth' := by
  have hkeys : {k | k ∈ fs.lines.flatMap fun line =>
      (keyParts (cString line.1.bytes)).map (BufText.add none)}.Finite := List.finite_toSet _
  have hvals : {v | v ∈ none::some []::fs.lines.map fun line => some line.2.bytes}.Finite :=
    List.finite_toSet _
  refine ⟨_,_,max depth (fs.lines.map fun line => (keyParts (cString line.1.bytes)).length).sum,
    hk.union hkeys,hv.union hvals,Set.subset_union_left,Set.subset_union_left,le_max_left ..,?_⟩
  refine ⟨Or.inr (by simp),Or.inr (by simp),fun line hline => Or.inr ?_,fun line hline part hpart => Or.inr ?_,
    fun line hline => ?_⟩
  · exact List.mem_cons_of_mem _ (List.mem_cons_of_mem _ (List.mem_map_of_mem hline))
  · exact List.mem_flatMap.mpr ⟨line,hline,List.mem_map_of_mem hpart⟩
  · have hmem : (keyParts (cString line.1.bytes)).length ∈ fs.lines.map fun line =>
        (keyParts (cString line.1.bytes)).length := List.mem_map_of_mem hline
    exact (List.single_le_sum (fun _ _ => Nat.zero_le _) _ hmem).trans (le_max_right ..)

/-- The parses that can be begun are finitely many. -/
theorem parses_finite (fs : ConfigFs) (q : ConfigNode × BufText) :
    {q' | Relation.ReflTransGen fs.BeginsParse q q'}.Finite := by
  obtain ⟨keys,vals,extra,depth,hk,hv,hconf⟩ := exists_within q.1
  obtain ⟨keys',vals',depth',hk',hv',hkk,hvv,hdd,hcov⟩ := fs.exists_covers hk hv depth
  have hpaths : {p | p ∈ q.2::fs.lines.map Prod.snd}.Finite := List.finite_toSet _
  refine ((within_finite hk' hv' extra depth').prod hpaths).subset fun q' hq' => ?_
  have hknown : Known keys' vals' {p | p ∈ q.2::fs.lines.map Prod.snd} extra depth' q :=
    ⟨hconf.mono hkk hvv le_rfl hdd,List.mem_cons_self⟩
  exact reach_keeps (parseCalls_keeps hcov fun line hline =>
    List.mem_cons_of_mem _ (List.mem_map_of_mem hline)) hknown hq'

/-- A parse ends exactly when no path is begun again, inside its own parse, with the tree that it began
with before. -/
theorem parse_ends_iff (fs : ConfigFs) (conf : ConfigNode) (path : BufText) :
    fs.Ends conf path ↔ ¬ CallGraph.ReachesCycle fs.BeginsParse (conf,path) :=
  ends_parseCalls.trans (ends_iff (parses_finite fs (conf,path)))

/-- The file `f` has `aa = 1`, includes `g` and then itself; `g` has `AA = 2`. -/
def twinIncluded : ConfigFs :=
  ⟨fun path => if path = [102] then some (.file 0) else if path = [103] then some (.file 1) else none,
    [[97,97,32,61,32,49,10,105,110,99,108,117,100,101,32,61,32,103,10,105,110,99,108,117,100,101,32,61,32,102,10],
      [65,65,32,61,32,50,10]],[]⟩

/-- `aa` and `AA` at the root of a tree. -/
def twins : ConfigNode := ⟨none,none,[⟨some [97,97],some [49],[]⟩,⟨some [65,65],some [50],[]⟩]⟩

theorem finishConfig_twins : finishConfig twins = .ok (.error,twins) := by
  have hnum : allNum twins.child = .ok false := by decide +kernel
  have hnil : allNum [] = .ok true := rfl
  have hempty : listSort cmpNum [] = [] := (listSort_perm ..).eq_nil
  have hsort : sortLists twins = .ok twins := by
    rw [twins] at hnum ⊢
    simp [sortLists,sortAll,hnum,hnil,hempty]
  rw [finishConfig,hsort]
  rfl

/-- The keys that differ in their case stop the parse of `f` before it includes itself. -/
theorem parse_ends_iff_twins :
    ¬ CallGraph.ReachesCycle twinIncluded.BeginsParse (.init,some [102]) := by
  have hf : twinIncluded.texts (some [102]) = some [twinIncluded.readFile [102]] := by decide +kernel
  have hg : twinIncluded.texts (some [103]) = some [twinIncluded.readFile [103]] := by decide +kernel
  obtain ⟨bf,hbf,hpf⟩ : ∃ buf, twinIncluded.readFile [102] = some buf ∧ configPairs buf =
    ([(some [97,97],some [49]),(some includeKey,some [103]),(some includeKey,some [102])],.done) := ⟨_,rfl,rfl⟩
  obtain ⟨bg,hbg,hpg⟩ : ∃ buf, twinIncluded.readFile [103] = some buf ∧
    configPairs buf = ([(some [65,65],some [50])],.done) := ⟨_,rfl,rfl⟩
  have haa (parse) : ConfigNode.init.addBuf parse (some [97,97]) (some [49]) =
      .ok (.ok,⟨none,none,[⟨some [97,97],some [49],[]⟩]⟩) := rfl
  have hAA (parse) : ConfigNode.addBuf parse ⟨none,none,[⟨some [97,97],some [49],[]⟩]⟩ (some [65,65])
      (some [50]) = .ok (.ok,twins) := rfl
  have hinner (deeper) : twinIncluded.parseWithin deeper 1 ⟨none,none,[⟨some [97,97],some [49],[]⟩]⟩
      (some [103]) = .ok (.error,twins) := by
    rw [parseWithin,doInclude_eq,hg,hbg]
    simp only [Option.map_some,Option.getD_some,parseAll,parseText,parseString_eq,hpg,addLines,hAA,ok_bind,
      if_true,finishConfig_twins]
    rfl
  have houter (deeper) : twinIncluded.parseWithin deeper 2 .init (some [102]) = .ok (.error,twins) := by
    have hinc : bufferCmpBuf (BufText.bytes (some includeKey)) includeKey = 0 := by decide
    rw [parseWithin,doInclude_eq,hf,hbf]
    simp only [Option.map_some,Option.getD_some,parseAll,parseText,parseString_eq,hpf,addLines,haa,ok_bind,
      if_true]
    rw [addBuf,if_pos hinc,hinner]
    rfl
  exact (parse_ends_iff twinIncluded .init (some [102])).mp
    ⟨2,fun deeper deeper' => by rw [houter,houter]⟩

section Endless
variable {fs : ConfigFs}

/-- The first line of the first text that the include of `a` parses includes `b`. -/
def FirstIncludes (fs : ConfigFs) (a b : BufText) : Prop := ∃ buf texts key pairs,
  fs.texts a = some (some buf::texts) ∧ (configPairs buf).1 = (key,b)::pairs ∧
    (bufferCmpBuf key.bytes includeKey = 0 ∨ bufferCmpBuf key.bytes tryIncludeKey = 0)

/-- What stops a nested parse at the first line stops the parse. -/
theorem doInclude_first {parse : ConfigNode → BufText → Exec (Ret × ConfigNode)} {a b : BufText}
    (h : fs.FirstIncludes a b) {e : Halt} {conf : ConfigNode} (hb : parse conf b = .error e) :
    fs.doInclude parse conf a = .error e := by
  obtain ⟨buf,texts,key,pairs,htexts,hpairs,hkey⟩ := h
  have hadd : conf.addBuf parse key b = .error e := by
    rw [ConfigNode.addBuf,hb]
    by_cases hinc : bufferCmpBuf key.bytes includeKey = 0
    · rw [if_pos hinc]
    · rw [if_neg hinc,if_pos (hkey.resolve_left hinc)]
      rfl
  have htext : parseText parse conf (some buf) = .error e := by
    rw [parseText,parseString_eq,hpairs,addLines,hadd]
    rfl
  rw [doInclude_eq,htexts]
  show parseAll parse conf (some buf::texts) = .error e
  rw [parseAll,htext]
  rfl

/-- Paths that include each other at their first lines are parsed without end. -/
theorem not_ends_of_first {S : Set BufText} (hS : ∀ a ∈ S, ∃ b ∈ S, fs.FirstIncludes a b)
    {path : BufText} (hpath : path ∈ S) (conf : ConfigNode) : ¬ fs.Ends conf path := by
  have hstop (e : Halt) (depth : ℕ) : ∀ a ∈ S, ∀ conf,
      fs.parseWithin (fun _ _ => .error e) depth conf a = .error e := by
    induction depth with
    | zero => exact fun _ _ _ => rfl
    | succ depth ih =>
      intro a ha conf
      obtain ⟨b,hb,hfirst⟩ := hS a ha
      exact doInclude_first hfirst (ih b hb conf)
  rintro ⟨depth,h⟩
  have hsame := h (fun _ _ => .error .fault) fun _ _ => .error (.exit 0)
  rw [hstop .fault depth path hpath conf,hstop (.exit 0) depth path hpath conf] at hsame
  cases hsame

/-- The file `f` includes itself. -/
def selfInclude : ConfigFs :=
  ⟨fun path => if path = [102] then some (.file 0) else none,
    [[105,110,99,108,117,100,101,32,61,32,102,10]],[]⟩

theorem not_ends_selfInclude : ¬ selfInclude.Ends .init (some [102]) := by
  refine not_ends_of_first (S:={some [102]}) ?_ rfl .init
  rintro a rfl
  exact ⟨_,rfl,_,_,_,_,rfl,rfl,Or.inl rfl⟩

end Endless

end ConfigFs

end Http2d
