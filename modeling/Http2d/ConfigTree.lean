import Http2d.ConfigText

/-! Configuration text means its tree: however the settings of a tree are written, parsing them gives
the nodes of the tree with their values. -/
namespace Http2d

/-- A tree of settings: a node has a key, a value or none, and the nodes below it. -/
inductive SettingTree
  | node (key : List UInt8) (val : Option (List UInt8)) (child : List SettingTree)

namespace SettingTree

def key : SettingTree → List UInt8
  | node key _ _ => key

def val : SettingTree → Option (List UInt8)
  | node _ val _ => val

def child : SettingTree → List SettingTree
  | node _ _ child => child

/-- The node at the end of a path from the root, which is above the nodes of the list. -/
def find : List SettingTree → List (List UInt8) → Option SettingTree
  | _, [] => none
  | l, k::ks => (l.find? fun t => t.key = k).bind fun t => if ks = [] then some t else find t.child ks

mutual

/-- The paths to the nodes with a value, and their values. -/
def settings : SettingTree → List (List (List UInt8) × List UInt8)
  | node key val child =>
    (val.map fun v => ([key],v)).toList ++ (settingsAll child).map fun s => (key::s.1,s.2)

def settingsAll : List SettingTree → List (List (List UInt8) × List UInt8)
  | [] => []
  | t::rest => settings t ++ settingsAll rest

end

/-- A key is not empty, and has no separator, no space and no control character. -/
def KeyOk (k : List UInt8) : Prop := k ≠ [] ∧ ∀ b ∈ k, 32 < b ∧ b ≠ 33

/-- A value can stand at the end of a line. -/
structure ValueOk (v : List UInt8) : Prop where
  ne_nil : v ≠ []
  plain : ∀ b ∈ v, b ≠ 0 ∧ b ≠ 10 ∧ b ≠ 13
  first : v.head? ≠ some 32
  last : v.getLast? ≠ some 32

/-- What a tree has to be to have a text: leaves have a value, and no two siblings have the same key
in another case. -/
inductive WellFormed : List SettingTree → Prop
  | mk {l : List SettingTree} : (∀ t ∈ l, KeyOk t.key) → (∀ t ∈ l, ∀ v ∈ t.val, ValueOk v) →
      (∀ t ∈ l, t.child = [] → t.val ≠ none) → (l.map fun t => t.key.map tolower).Nodup →
      (∀ t ∈ l, WellFormed t.child) → WellFormed l

/-- A line that begins with the key is not a comment and includes no file. -/
structure TopKey (k : List UInt8) : Prop where
  not_comment : k.head? ≠ some 35
  not_include : k ≠ ConfigNode.includeKey
  not_try_include : k ≠ ConfigNode.tryIncludeKey

/-- What is found at a path when the settings are made, in whatever order: a node on the way to a
setting has no value unless it has one of its own. -/
def Reads (S : List (List (List UInt8) × List UInt8)) (q : List (List UInt8)) (v : List UInt8) : Prop :=
  (q,v) ∈ S ∨ v = [] ∧ (∀ w, (q,w) ∉ S) ∧ ∃ s ∈ S, q <+: s.1

section Trees
variable {l : List SettingTree} {t : SettingTree} {k : List UInt8} {ks q : List (List UInt8)}
variable {v w : List UInt8}

theorem mem_settingsAll {s : List (List UInt8) × List UInt8} :
    s ∈ settingsAll l ↔ ∃ t ∈ l, s ∈ t.settings := by
  induction l with
  | nil => simp [settingsAll]
  | cons t rest ih => simp [settingsAll,ih]

theorem mem_settings {s : List (List UInt8) × List UInt8} : s ∈ t.settings ↔
    (∃ v ∈ t.val, s = ([t.key],v)) ∨ ∃ s' ∈ settingsAll t.child, s = (t.key::s'.1,s'.2) := by
  obtain ⟨key,val,child⟩ := t
  cases val <;> simp [settings,SettingTree.key,SettingTree.val,SettingTree.child,eq_comm]

theorem not_mem_settingsAll_nil : ([],v) ∉ settingsAll l := by
  intro h
  obtain ⟨t,-,ht⟩ := mem_settingsAll.mp h
  rcases mem_settings.mp ht with ⟨v,-,h⟩ | ⟨s,-,h⟩ <;> cases h

/-- A setting is that of a node or one from below it. -/
theorem mem_settingsAll_cons : (k::ks,v) ∈ settingsAll l ↔
    ∃ t ∈ l, t.key = k ∧ (ks = [] ∧ t.val = some v ∨ (ks,v) ∈ settingsAll t.child) := by
  rw [mem_settingsAll]
  refine exists_congr fun t => and_congr_right fun _ => ?_
  rw [mem_settings]
  constructor
  · rintro (⟨v',hv,h⟩ | ⟨s,hs,h⟩)
    · cases h
      exact ⟨rfl,.inl ⟨rfl,hv⟩⟩
    · cases h
      exact ⟨rfl,.inr hs⟩
  · rintro ⟨rfl,⟨rfl,hv⟩ | hs⟩
    · exact .inl ⟨v,hv,rfl⟩
    · exact .inr ⟨_,hs,rfl⟩

theorem WellFormed.key_inj (h : WellFormed l) {t t' : SettingTree} (ht : t ∈ l) (ht' : t' ∈ l)
    (hkey : t.key.map tolower = t'.key.map tolower) : t = t' := by
  obtain ⟨-,-,-,hnodup,-⟩ := h
  exact List.inj_on_of_nodup_map hnodup ht ht' hkey

theorem WellFormed.descend (h : WellFormed l) (ht : t ∈ l) : WellFormed t.child := by
  obtain ⟨-,-,-,-,hchild⟩ := h
  exact hchild t ht

theorem WellFormed.key_ok (h : WellFormed l) (ht : t ∈ l) : KeyOk t.key := by
  obtain ⟨hkeys,-,-,-,-⟩ := h
  exact hkeys t ht

theorem WellFormed.value_ok (h : WellFormed l) (ht : t ∈ l) (hv : t.val = some v) : ValueOk v := by
  obtain ⟨-,hvals,-,-,-⟩ := h
  exact hvals t ht v hv

theorem WellFormed.find_cons (h : WellFormed l) (ht : t ∈ l) (ks : List (List UInt8)) :
    find l (t.key::ks) = if ks = [] then some t else find t.child ks := by
  rw [find]
  cases hfind : l.find? (fun x => x.key = t.key) with
  | none => exact absurd (by simp) (List.find?_eq_none.mp hfind t ht)
  | some x =>
    have hx : x.key = t.key := by simpa using List.find?_some hfind
    rw [h.key_inj (List.mem_of_find?_eq_some hfind) ht (by rw [hx]),Option.bind_some]

theorem WellFormed.mem_cons (h : WellFormed l) (ht : t ∈ l) : (t.key::ks,v) ∈ settingsAll l ↔
    ks = [] ∧ t.val = some v ∨ (ks,v) ∈ settingsAll t.child := by
  rw [mem_settingsAll_cons]
  constructor
  · rintro ⟨t',ht',hkey,hs⟩
    rwa [h.key_inj ht ht' (by rw [hkey])]
  · exact fun hs => ⟨t,ht,rfl,hs⟩

/-- A path has one value. -/
theorem WellFormed.unique (h : WellFormed l) (hv : (q,v) ∈ settingsAll l) (hw : (q,w) ∈ settingsAll l) :
    v = w := by
  induction q generalizing l with
  | nil => exact absurd hv not_mem_settingsAll_nil
  | cons k ks ih =>
    obtain ⟨t,ht,rfl,-⟩ := mem_settingsAll_cons.mp hv
    rcases (h.mem_cons ht).mp hv with ⟨rfl,hval⟩ | hbelow
    · rcases (h.mem_cons ht).mp hw with ⟨-,hval'⟩ | hbelow
      · exact Option.some.inj (hval.symm.trans hval')
      · exact absurd hbelow not_mem_settingsAll_nil
    · rcases (h.mem_cons ht).mp hw with ⟨rfl,-⟩ | hbelow'
      · exact absurd hbelow not_mem_settingsAll_nil
      · exact ih (h.descend ht) hbelow hbelow'

/-- There is a setting at every node or below it. -/
theorem WellFormed.exists_setting (h : WellFormed l) (ht : t ∈ l) :
    ∃ s ∈ settingsAll l, [t.key] <+: s.1 := by
  induction h generalizing t with
  | @mk l hkeys hvals hleaf hnodup hchild ih =>
    cases hval : t.val with
    | some v => exact ⟨([t.key],v),mem_settingsAll_cons.mpr ⟨t,ht,rfl,.inl ⟨rfl,hval⟩⟩,List.prefix_rfl⟩
    | none =>
      obtain ⟨c,cs,hcs⟩ := List.exists_cons_of_ne_nil fun hnil => hleaf t ht hnil hval
      have hc : c ∈ t.child := hcs ▸ List.mem_cons_self ..
      obtain ⟨s,hs,-⟩ := ih t ht hc
      exact ⟨(t.key::s.1,s.2),mem_settingsAll_cons.mpr ⟨t,ht,rfl,.inr hs⟩,
        List.cons_prefix_cons.mpr ⟨rfl,List.nil_prefix⟩⟩

/-- What is found in the tree is what its settings say. -/
theorem WellFormed.reads_iff (h : WellFormed l) (hq : q ≠ []) :
    (∃ t, find l q = some t ∧ t.val.getD [] = v) ↔ Reads (settingsAll l) q v := by
  induction q generalizing l with
  | nil => exact absurd rfl hq
  | cons k ks ih =>
    by_cases hk : ∃ t ∈ l, t.key = k
    · obtain ⟨t,ht,rfl⟩ := hk
      rw [h.find_cons ht]
      by_cases hks : ks = []
      · subst hks
        simp only [if_true,Reads,h.mem_cons ht,true_and,not_mem_settingsAll_nil,or_false,
          Option.some.injEq,exists_eq_left']
        cases t.val with
        | none => simp [h.exists_setting ht]
        | some w => simp [eq_comm]
      · rw [if_neg hks,ih (h.descend ht) hks]
        have hbelow : (∃ s ∈ settingsAll l, t.key::ks <+: s.1) ↔
            ∃ s ∈ settingsAll t.child, ks <+: s.1 := by
          constructor
          · rintro ⟨⟨p,w⟩,hs,hp⟩
            obtain ⟨p',rfl,hp'⟩ : ∃ p', p = t.key::p' ∧ ks <+: p' := by
              obtain ⟨r,rfl⟩ := hp
              exact ⟨ks ++ r,rfl,List.prefix_append ..⟩
            rcases (h.mem_cons ht).mp hs with ⟨rfl,-⟩ | hs
            · exact absurd (List.prefix_nil.mp hp') hks
            · exact ⟨_,hs,hp'⟩
          · rintro ⟨s,hs,hp⟩
            exact ⟨_,(h.mem_cons ht).mpr (.inr hs),List.cons_prefix_cons.mpr ⟨rfl,hp⟩⟩
        simp only [Reads,h.mem_cons ht,hks,false_and,false_or,hbelow]
    · refine iff_of_false ?_ ?_
      · have hnone : l.find? (fun t => t.key = k) = none :=
          List.find?_eq_none.mpr fun t ht => by simpa using fun h => hk ⟨t,ht,h⟩
        simp [find,hnone]
      · rintro (hs | ⟨-,-,⟨p,w⟩,hs,r,rfl⟩)
        · obtain ⟨t,ht,hkey,-⟩ := mem_settingsAll_cons.mp hs
          exact hk ⟨t,ht,hkey⟩
        · obtain ⟨t,ht,hkey,-⟩ := mem_settingsAll_cons.mp hs
          exact hk ⟨t,ht,hkey⟩

/-- What is known of the settings of a tree: its nodes are on their paths. -/
theorem WellFormed.setting_ok (h : WellFormed l) {s : List (List UInt8) × List UInt8}
    (hs : s ∈ settingsAll l) : (∀ k ∈ s.1, KeyOk k) ∧ ValueOk s.2 ∧ ∃ t ∈ l, s.1.head? = some t.key := by
  obtain ⟨q,v⟩ := s
  induction q generalizing l with
  | nil => exact absurd hs not_mem_settingsAll_nil
  | cons k ks ih =>
    obtain ⟨t,ht,rfl,hrest⟩ := mem_settingsAll_cons.mp hs
    rcases hrest with ⟨rfl,hval⟩ | hrest
    · exact ⟨List.forall_mem_singleton.mpr (h.key_ok ht),h.value_ok ht hval,t,ht,rfl⟩
    · obtain ⟨hks,hv,-⟩ := ih (h.descend ht) hrest
      exact ⟨List.forall_mem_cons.mpr ⟨h.key_ok ht,hks⟩,hv,t,ht,rfl⟩

end Trees

end SettingTree

open SettingTree

section Paths
variable {k : List UInt8} {ks p : List (List UInt8)}

theorem joinedPath_single (k : List UInt8) : joinedPath [k] = k := List.intercalate_singleton

theorem joinedPath_cons (hks : ks ≠ []) : joinedPath (k::ks) = k ++ 33::joinedPath ks := by
  rw [joinedPath,List.intercalate_cons_of_ne_nil hks,List.append_assoc]
  rfl

theorem mem_joinedPath {b : UInt8} (h : b ∈ joinedPath p) : b = 33 ∨ ∃ k ∈ p, b ∈ k := by
  induction p with
  | nil => cases h
  | cons k ks ih =>
    by_cases hks : ks = []
    · subst hks
      rw [joinedPath_single] at h
      exact .inr ⟨k,List.mem_cons_self ..,h⟩
    · rw [joinedPath_cons hks,List.mem_append,List.mem_cons] at h
      rcases h with h | h | h
      · exact .inr ⟨k,List.mem_cons_self ..,h⟩
      · exact .inl h
      · exact (ih h).imp id fun ⟨k',hk',hb⟩ => ⟨k',List.mem_cons_of_mem _ hk',hb⟩

/-- The path begins with its first key. -/
theorem joinedPath_front (k : List UInt8) (ks : List (List UInt8)) : k <+: joinedPath (k::ks) := by
  by_cases hks : ks = []
  · subst hks
    rw [joinedPath_single]
  · rw [joinedPath_cons hks]
    exact List.prefix_append ..

/-- Keys make a path that can be written. -/
theorem joinedPath_bytes (h : ∀ k ∈ p, KeyOk k) : ∀ b ∈ joinedPath p, 32 < b := by
  intro b hb
  rcases mem_joinedPath hb with rfl | ⟨k,hk,hb⟩
  · decide
  · exact ((h k hk).2 b hb).1

theorem splitOn_joinedPath (h : ∀ k ∈ p, KeyOk k) (hp : p ≠ []) : (joinedPath p).splitOn 33 = p :=
  List.splitOn_intercalate 33 (fun k hk hb => ((h k hk).2 33 hb).2 rfl) hp

end Paths

/-- A setting that a line of a text can make. -/
structure Settable (s : List (List UInt8) × List UInt8) : Prop where
  keys : ∀ k ∈ s.1, KeyOk k
  value : ValueOk s.2
  top : ∃ k, s.1.head? = some k ∧ TopKey k

namespace Settable

variable {s : List (List UInt8) × List UInt8} (h : Settable s)
include h

theorem path_ne_nil : s.1 ≠ [] := by
  obtain ⟨k,hk,-⟩ := h.top
  rintro hnil
  rw [hnil] at hk
  cases hk

theorem exists_front : ∃ b bs, joinedPath s.1 = b::bs ∧ b ≠ 35 := by
  obtain ⟨p,v⟩ := s
  obtain ⟨k,hk,htop⟩ := h.top
  cases p with
  | nil => cases hk
  | cons k' ks =>
    obtain rfl : k' = k := Option.some.inj hk
    obtain ⟨b,bs,rfl⟩ := List.exists_cons_of_ne_nil (h.keys k' (List.mem_cons_self ..)).1
    obtain ⟨rest,hrest⟩ := joinedPath_front (b::bs) ks
    exact ⟨b,bs ++ rest,hrest.symm,fun hb => htop.not_comment (by rw [hb]; rfl)⟩

/-- The line that makes the setting can be read. -/
theorem readable : (LineBody.pair s.1 s.2).Readable := by
  obtain ⟨b,bs,hfront,hb⟩ := h.exists_front
  refine ⟨⟨?_,joinedPath_bytes h.keys,h.value.ne_nil,h.value.plain,h.value.first,h.value.last⟩,?_⟩
  · rw [hfront]
    exact List.cons_ne_nil b bs
  · rw [hfront]
    exact fun h35 => hb (Option.some.inj h35)

/-- No setting is an include. -/
theorem ne_of_top {name : List UInt8} (hname : 33 ∉ name) (htop : ∀ k, TopKey k → k ≠ name) :
    joinedPath s.1 ≠ name := by
  intro heq
  have hsplit := splitOn_joinedPath h.keys h.path_ne_nil
  rw [heq,List.splitOn_eq_singleton hname] at hsplit
  obtain ⟨k,hk,hk'⟩ := h.top
  rw [← hsplit] at hk
  exact htop k hk' (Option.some.inj hk).symm

end Settable

namespace ConfigNode

/-- A value is put where the settings say, the nodes on the way are there then. -/
theorem putAt_reads {values : List (List UInt8) → Option (List UInt8)}
    {S : List (List (List UInt8) × List UInt8)} {p q : List (List UInt8)} {v : List UInt8}
    (hvalues : ∀ w, values q = some w ↔ Reads S q w) (hunique : ∀ w, (p,w) ∈ S → w = v)
    (w : List UInt8) : putAt values p v q = some w ↔ Reads (S ++ [(p,v)]) q w := by
  rw [putAt]
  by_cases hqp : q = p
  · subst hqp
    rw [if_pos rfl,Option.some_inj]
    constructor
    · rintro rfl
      exact .inl (by simp)
    · rintro (hw | ⟨-,hno,-⟩)
      · rcases List.mem_append.mp hw with hw | hw
        · exact (hunique w hw).symm
        · exact (Prod.mk.inj (List.mem_singleton.mp hw)).2.symm
      · exact absurd (by simp) (hno v)
  have hmem (w : List UInt8) : (q,w) ∈ S ++ [(p,v)] ↔ (q,w) ∈ S := by simp [hqp]
  by_cases hup : q <+: p
  · have hreads : Reads (S ++ [(p,v)]) q w ↔ (q,w) ∈ S ∨ w = [] ∧ ∀ w, (q,w) ∉ S := by
      simp only [Reads,hmem]
      have hp : ∃ s ∈ S ++ [(p,v)], q <+: s.1 := ⟨(p,v),by simp,hup⟩
      simp only [hp,and_true]
    rw [if_neg hqp,if_pos hup,Option.some_inj,hreads]
    have hset (w : List UInt8) (hw : (q,w) ∈ S) : values q = some w := (hvalues w).mpr (.inl hw)
    cases hq : values q with
    | none =>
      have hno (w : List UInt8) : (q,w) ∉ S := fun hw => by simp [hset w hw] at hq
      simp [hno,eq_comm]
    | some x =>
      rw [Option.getD_some]
      constructor
      · rintro rfl
        exact ((hvalues x).mp hq).imp id fun h => ⟨h.1,h.2.1⟩
      · rintro (hw | ⟨rfl,hno⟩)
        · exact Option.some.inj (hq.symm.trans (hset w hw))
        · rcases (hvalues x).mp hq with hx | ⟨hx,-⟩
          · exact absurd hx (hno x)
          · exact hx
  · rw [if_neg hqp,if_neg hup,hvalues]
    simp only [Reads,hmem]
    simp [or_and_right,exists_or,hup]

/-- The tree has the nodes and the values that the settings say. -/
structure Holds (conf : ConfigNode) (S : List (List (List UInt8) × List UInt8)) : Prop where
  good : conf.Good
  values : ∀ q ≠ [], ∀ v, conf.valueAt q = some v ↔ Reads S q v

theorem init_holds : Holds init [] :=
  ⟨init_good,fun q hq v => by
    obtain ⟨k,ks,rfl⟩ := List.exists_cons_of_ne_nil hq
    simp [valueAt,find,init,Reads]⟩

section Settings
variable {conf : ConfigNode} {S : List (List (List UInt8) × List UInt8)}
variable (parse : ConfigNode → BufText → Exec (Ret × ConfigNode))

/-- A line makes its setting. -/
theorem Holds.add (h : Holds conf S) {s : List (List UInt8) × List UInt8} (hs : Settable s)
    (hlen : (joinedPath s.1).length < 2^32) (hunique : ∀ w, (s.1,w) ∈ S → w = s.2) :
    ∃ conf', conf.addBuf parse (scannedPair s).1 (scannedPair s).2 = .ok (.ok,conf') ∧
      Holds conf' (S ++ [s]) := by
  have hpath : PathOk s.1 := fun k hk =>
    ⟨(hs.keys k hk).1,fun h0 => absurd ((hs.keys k hk).2 0 h0).1 (by decide)⟩
  have hsep : ∀ k ∈ s.1, 33 ∉ k := fun k hk h33 => ((hs.keys k hk).2 33 h33).2 rfl
  have hnul : 0 ∉ joinedPath s.1 := fun h0 => absurd (joinedPath_bytes hs.keys 0 h0) (by decide)
  obtain ⟨conf',hadd,hgood,hvalues⟩ := addBuf_spec parse h.good hpath hs.path_ne_nil hsep rfl hlen hnul
    (hs.ne_of_top (by decide) fun k hk => hk.not_include)
    (hs.ne_of_top (by decide) fun k hk => hk.not_try_include) (some s.2)
  refine ⟨conf',hadd,hgood,fun q hq v => ?_⟩
  rw [hvalues q hq]
  exact putAt_reads (h.values q hq) hunique v

/-- The lines make their settings, one after another. -/
theorem addLines_holds {todo : List (List (List UInt8) × List UInt8)} (h : Holds conf S)
    (hok : ∀ s ∈ todo, Settable s ∧ (joinedPath s.1).length < 2^32)
    (hunique : ∀ q v w, (q,v) ∈ S ++ todo → (q,w) ∈ S ++ todo → v = w) :
    ∃ conf', addLines parse conf (todo.map scannedPair) .done = finishConfig conf' ∧
      Holds conf' (S ++ todo) := by
  induction todo generalizing conf S with
  | nil => exact ⟨conf,rfl,by rwa [List.append_nil]⟩
  | cons s todo ih =>
    obtain ⟨⟨hs,hlen⟩,htodo⟩ := List.forall_mem_cons.mp hok
    obtain ⟨conf',hadd,hconf'⟩ := h.add parse hs hlen fun w hw =>
      hunique s.1 w s.2 (List.mem_append_left _ hw) (by simp)
    have happend : S ++ s::todo = (S ++ [s]) ++ todo := List.append_cons ..
    rw [happend] at hunique ⊢
    obtain ⟨conf'',hlines,hconf''⟩ := ih hconf' htodo hunique
    refine ⟨conf'',?_,hconf''⟩
    rw [List.map_cons,addLines,hadd,ok_bind,if_pos rfl,hlines]

/-- Sorting changes nothing of what is read. -/
theorem Holds.readsLike {conf' : ConfigNode} (h : Holds conf S) (hlike : ReadsLike conf conf') :
    Holds conf' S :=
  ⟨hlike.good,fun q hq v => by rw [hlike.values q]; exact h.values q hq v⟩

/-- A node below the root is on the path of a setting. -/
theorem Holds.child_key (h : Holds conf S) {c : ConfigNode} (hc : c ∈ conf.child) :
    ∃ k, c.key = some k ∧ ∃ s ∈ S, [k] <+: s.1 := by
  obtain ⟨hkeys,hnodup,-⟩ := h.good
  obtain ⟨k,hk,-⟩ := hkeys c hc
  refine ⟨k,hk,?_⟩
  have hvalue : conf.valueAt [k] = some c.val.bytes := by
    rw [valueAt,find,(find?_key_iff hnodup).mpr ⟨hc,hk⟩]
    rfl
  rcases (h.values [k] (List.cons_ne_nil k []) _).mp hvalue with hs | ⟨-,-,hs⟩
  · exact ⟨_,hs,List.prefix_rfl⟩
  · exact hs

/-- What is found in the tree with a key. -/
theorem Holds.get_iff (h : Holds conf S) {key : List UInt8} (hkey : 0 ∉ key) (v : List UInt8) :
    (∃ e, conf.get key = .ok (.ok,some e) ∧ e.val.bytes = v) ↔ Reads S (key.splitOn 33) v := by
  rw [← h.values _ (List.splitOn_ne_nil 33 key) v,valueAt,Option.map_eq_some_iff]
  exact exists_congr fun e => and_congr_left' (ConfigNode.get_iff h.good hkey e)

/-- Sorting and the check leave the settings as they are. -/
theorem Holds.finish (h : Holds conf S) (hlen : ∀ s ∈ S, (joinedPath s.1).length < 2^32)
    (hfold : ∀ s ∈ S, ∀ s' ∈ S, ∀ k k', [k] <+: s.1 → [k'] <+: s'.1 →
      k.map tolower = k'.map tolower → k = k') :
    ∃ conf', finishConfig conf = .ok (.ok,conf') ∧ Holds conf' S := by
  obtain ⟨conf',hsort,hlike⟩ := sortLists_spec h.good
  have hconf' := h.readsLike hlike
  refine ⟨conf',?_,hconf'⟩
  have hsane : conf'.checkSanity = .ok := by
    refine checkSanity_ok hconf'.good (fun c hc => ?_) fun c hc d hd hcase => ?_
    · obtain ⟨k,hk,⟨p,v⟩,hs,ks,rfl⟩ := hconf'.child_key hc
      rw [hk]
      exact (joinedPath_front k ks).length_le.trans_lt (hlen _ hs)
    · obtain ⟨k,hk,s,hs,hp⟩ := hconf'.child_key hc
      obtain ⟨k',hk',s',hs',hp'⟩ := hconf'.child_key hd
      rw [hk,hk'] at hcase ⊢
      rw [hfold s hs s' hs' k k' hp hp' hcase]
  rw [finishConfig,hsort,ok_bind,hsane]

end Settings

end ConfigNode

namespace ConfigText

section Text
variable {t : ConfigText} {s : List (List UInt8) × List UInt8}

theorem mem_settings : s ∈ t.settings ↔ ∃ l ∈ t.all, l.body = .pair s.1 s.2 := by
  simp only [settings,List.mem_filterMap]
  refine exists_congr fun l => and_congr_right fun _ => ?_
  cases l.body <;> simp [LineBody.setting,Prod.ext_iff]

theorem Plain.readable (h : t.Plain) (hs : ∀ s ∈ t.settings, Settable s) : t.Readable := by
  intro l hl
  obtain ⟨hindent,hplain⟩ := h l hl
  refine ⟨hindent,?_⟩
  cases hbody : l.body with
  | blank => trivial
  | comment txt =>
    rw [hbody] at hplain
    exact hplain
  | pair path v => exact (hs (path,v) (mem_settings.mpr ⟨l,hl,hbody⟩)).readable

/-- A path is no longer than the text. -/
theorem length_le (hs : s ∈ t.settings) : (joinedPath s.1).length ≤ t.bytes.length := by
  obtain ⟨l,hl,hbody⟩ := mem_settings.mp hs
  have hline : (joinedPath s.1).length ≤ l.bytes.length := by
    simp only [ConfigLine.bytes,hbody,LineBody.bytes,List.length_append]
    omega
  refine hline.trans ?_
  rw [bytes,List.length_append]
  rcases List.mem_append.mp hl with hl | hl
  · obtain ⟨l',hl',rfl⟩ := List.mem_map.mp hl
    obtain ⟨front,back,hlines⟩ := List.append_of_mem hl'
    rw [hlines,List.flatMap_append,List.flatMap_cons]
    simp only [List.length_append]
    omega
  · rw [List.mem_singleton.mp hl]
    omega

end Text

end ConfigText

/-- However the settings of a tree are written, in any order and with any comments, blank lines,
indentation and line endings between them, `http2d_config_reader_parse_string` makes the tree: what
`http2d_config_node_get` finds are its nodes with their values. -/
theorem parseString_reads_tree {l : List SettingTree} (hl : WellFormed l)
    (htop : ∀ t ∈ l, TopKey t.key) {text : ConfigText} (hplain : text.Plain)
    (hsettings : text.settings.Perm (settingsAll l)) {buf : Buffer} {rest : List UInt8}
    (hbuf : buf.buf = text.bytes ++ 0::rest) (hlen : buf.len = text.bytes.length)
    (hsize : buf.buf.length < 2^32) (parse : ConfigNode → BufText → Exec (Ret × ConfigNode)) :
    ∃ conf, parseString parse ConfigNode.init buf = .ok (.ok,conf) ∧
      ∀ key, 0 ∉ key → ∀ v, (∃ e, conf.get key = .ok (.ok,some e) ∧ e.val.bytes = v) ↔
        ∃ t, find l (key.splitOn 33) = some t ∧ t.val.getD [] = v := by
  have hset : ∀ s ∈ text.settings, Settable s := fun s hs => by
    obtain ⟨hkeys,hvalue,t,ht,hhead⟩ := hl.setting_ok (hsettings.mem_iff.mp hs)
    exact ⟨hkeys,hvalue,t.key,hhead,htop t ht⟩
  have hfit : ∀ s ∈ text.settings, (joinedPath s.1).length < 2^32 := fun s hs => by
    have hle := ConfigText.length_le hs
    rw [hbuf,List.length_append] at hsize
    omega
  have hunique : ∀ q v w, (q,v) ∈ [] ++ text.settings → (q,w) ∈ [] ++ text.settings → v = w := by
    intro q v w hv hw
    exact hl.unique (hsettings.mem_iff.mp hv) (hsettings.mem_iff.mp hw)
  obtain ⟨conf,hlines,hconf⟩ := ConfigNode.addLines_holds parse ConfigNode.init_holds
    (fun s hs => ⟨hset s hs,hfit s hs⟩) hunique
  rw [List.nil_append] at hconf
  have hnode {s : List (List UInt8) × List UInt8} (hs : s ∈ text.settings) {k : List UInt8}
      (hk : [k] <+: s.1) : ∃ t ∈ l, t.key = k := by
    obtain ⟨-,-,t,ht,hhead⟩ := hl.setting_ok (hsettings.mem_iff.mp hs)
    obtain ⟨ks,hks⟩ := hk
    rw [← hks] at hhead
    exact ⟨t,ht,(Option.some.inj hhead).symm⟩
  obtain ⟨conf',hfinish,hconf'⟩ := hconf.finish hfit fun s hs s' hs' k k' hk hk' hcase => by
    obtain ⟨t,ht,rfl⟩ := hnode hs hk
    obtain ⟨t',ht',rfl⟩ := hnode hs' hk'
    rw [hl.key_inj ht ht' hcase]
  refine ⟨conf',?_,fun key hkey v => ?_⟩
  · rw [parseString_eq,ConfigText.configPairs_eq (hplain.readable hset) hbuf hlen hsize,hlines,hfinish]
  · rw [hconf'.get_iff hkey,hl.reads_iff (List.splitOn_ne_nil 33 key)]
    simp only [Reads,hsettings.mem_iff]

/-- `a` is `x`, and `a!b` is `y`. -/
def treeAb : List SettingTree := [.node [97] (some [120]) [.node [98] (some [121]) []]]

/-- A comment, a blank line, `a!b = y`, and `a = x` without an ending. -/
def textAb : ConfigText where
  lines := [(⟨[],.comment [32,99]⟩,.lf),(⟨[32],.blank⟩,.crlf),(⟨[],.pair [[97],[98]] [121]⟩,.crlf)]
  last := ⟨[9],.pair [[97]] [120]⟩

theorem treeAb_wellFormed : WellFormed treeAb := by
  have hleaf : WellFormed [.node [98] (some [121]) []] := by
    refine ⟨?_,?_,?_,by decide,?_⟩
    all_goals simp only [List.forall_mem_singleton]
    · exact ⟨by simp [SettingTree.key],by simp [SettingTree.key]⟩
    · rintro v ⟨⟩
      exact ⟨by simp,by simp,by simp,by simp⟩
    · exact fun _ => by simp [SettingTree.val]
    · exact ⟨by simp [SettingTree.child],by simp [SettingTree.child],by simp [SettingTree.child],
        by simp [SettingTree.child],by simp [SettingTree.child]⟩
  refine ⟨?_,?_,?_,by decide,?_⟩
  all_goals simp only [treeAb,List.forall_mem_singleton]
  · exact ⟨by simp [SettingTree.key],by simp [SettingTree.key]⟩
  · rintro v ⟨⟩
    exact ⟨by simp,by simp,by simp,by simp⟩
  · exact fun _ => by simp [SettingTree.val]
  · exact hleaf

theorem parseString_reads_treeAb : ∃ conf, parseString (fun conf _ => .ok (.error,conf))
      ConfigNode.init (.holding textAb.bytes) = .ok (.ok,conf) ∧
    ∀ key, 0 ∉ key → ∀ v, (∃ e, conf.get key = .ok (.ok,some e) ∧ e.val.bytes = v) ↔
      ∃ t, find treeAb (key.splitOn 33) = some t ∧ t.val.getD [] = v := by
  have htop : ∀ t ∈ treeAb, TopKey t.key := by
    simp only [treeAb,List.forall_mem_singleton]
    exact ⟨by decide,by decide,by decide⟩
  have hplain : textAb.Plain := by decide
  exact parseString_reads_tree treeAb_wellFormed htop hplain (by decide) rfl rfl (by decide) _

end Http2d
