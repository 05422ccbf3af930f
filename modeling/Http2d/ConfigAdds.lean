import Http2d.ConfigPaths

/-! Adding keys to an empty tree, and looking one up: what the tree says of a path, and which paths it
can be asked for. -/
namespace Http2d

namespace ConfigNode

/-- The calls of `http2d_config_node_add_buf`, one after the other. -/
def addAll (parse : ConfigNode → BufText → Exec (Ret × ConfigNode)) :
    ConfigNode → List (BufText × BufText) → Exec ConfigNode
  | conf, [] => .ok conf
  | conf, (key,val)::adds => do
    let r ← conf.addBuf parse key val
    addAll parse r.2 adds

end ConfigNode

open ConfigNode

/-- A NUL-free key that does not include a file. -/
structure PlainKey (key : BufText) : Prop where
  nul : 0 ∉ key.bytes
  length_lt : key.bytes.length < 2^32
  not_include : key.bytes ≠ includeKey
  not_tryInclude : key.bytes ≠ tryIncludeKey

/-- The parts of the key of a call. -/
def pathOf (a : BufText × BufText) : List (List UInt8) := a.1.bytes.splitOn 33

/-- Some key is the path or goes on behind it. -/
def NamesPath (adds : List (BufText × BufText)) (key : List UInt8) : Prop :=
  ∃ a ∈ adds, a.1.bytes = key ∨ key ++ [33] <+: a.1.bytes

instance (adds : List (BufText × BufText)) (key : List UInt8) : Decidable (NamesPath adds key) :=
  inferInstanceAs (Decidable (∃ a ∈ adds, a.1.bytes = key ∨ key ++ [33] <+: a.1.bytes))

/-- The value that was added last under the key. -/
def lastAdded (adds : List (BufText × BufText)) (key : List UInt8) : List UInt8 :=
  ((adds.filter fun a => a.1.bytes = key).getLast?.map fun a => a.2.bytes).getD []

/-- `http2d_config_node_get` answers as a map from paths. -/
def AnswersPath (conf : ConfigNode) (adds : List (BufText × BufText)) (key : List UInt8) : Prop :=
  (NamesPath adds key → ∃ e, conf.get key = .ok (.ok,some e) ∧ e.val.bytes = lastAdded adds key) ∧
  (¬ NamesPath adds key → conf.get key = .ok (.notFound,none))

/-- The calls return, and the path is answered. -/
def MapsPath (parse : ConfigNode → BufText → Exec (Ret × ConfigNode)) (adds : List (BufText × BufText))
    (key : List UInt8) : Prop := ∃ conf, addAll parse init adds = .ok conf ∧ AnswersPath conf adds key

/-- The path can be walked behind these calls: it begins with an empty part only if there were none,
and behind a part that a key follows with an empty one it goes on with a part that is there. -/
def PathOpen (adds : List (BufText × BufText)) (p : List (List UInt8)) : Prop :=
  (p.head? = some [] → adds = []) ∧
  ∀ i < p.length, (∃ a ∈ adds, p.take i ++ [[]] <+: pathOf a) →
    p[i]? ≠ some [] ∧ ∃ a ∈ adds, p.take (i+1) <+: pathOf a

/-- Every key can be walked where it is added. -/
def AllOpen : (done adds : List (BufText × BufText)) → Prop
  | _, [] => True
  | done, a::adds => a.1 ≠ none ∧ PathOpen done (pathOf a) ∧ AllOpen (done ++ [a]) adds

section Adding
variable {parse : ConfigNode → BufText → Exec (Ret × ConfigNode)} {conf : ConfigNode}
  {done adds : List (BufText × BufText)} {a : BufText × BufText} {key : List UInt8}

/-- The map that the calls make. -/
def pathValue (done : List (BufText × BufText)) (q : List (List UInt8)) : List UInt8 :=
  ((done.filter fun a => pathOf a = q).getLast?.map fun a => a.2.bytes).getD []

/-- The tree after the calls. -/
structure AfterAdds (conf : ConfigNode) (done : List (BufText × BufText)) : Prop where
  tidy : conf.Tidy
  child : conf.child = [] ↔ done = []
  absent : ∀ q ≠ [], (∀ a ∈ done, ¬ q <+: pathOf a) → conf.mapAt q = none
  there : ∀ q ≠ [], (∃ a ∈ done, q <+: pathOf a) → conf.mapAt q = some (pathValue done q)

theorem init_afterAdds : AfterAdds init [] :=
  ⟨init_tidy,iff_of_true rfl rfl,fun q hq _ => by
    obtain ⟨k,ks,rfl⟩ := List.exists_cons_of_ne_nil hq
    exact mapAt_absent (fun c hc => absurd hc List.not_mem_nil) ks,fun _ _ h => by simp at h⟩

theorem AfterAdds.ne_none_iff (h : AfterAdds conf done) {q : List (List UInt8)} (hq : q ≠ []) :
    conf.mapAt q ≠ none ↔ ∃ a ∈ done, q <+: pathOf a := by
  constructor
  · intro hne
    by_contra hno
    exact hne (h.absent q hq fun a ha hp => hno ⟨a,ha,hp⟩)
  · intro hex
    rw [h.there q hq hex]
    exact fun hn => by cases hn

theorem AfterAdds.ready_iff (h : AfterAdds conf done) (p : List (List UInt8)) :
    Ready none conf p ↔ PathOpen done p := by
  have hstep (i : ℕ) (hi : i < p.length) : p.take (i+1) ≠ [] := by
    rw [ne_eq,List.take_eq_nil_iff,not_or]
    exact ⟨Nat.succ_ne_zero i,List.ne_nil_of_length_pos (by omega)⟩
  constructor
  · rintro ⟨hfirst,hsteps⟩
    refine ⟨fun hp => h.child.mp (hfirst rfl hp),fun i hi hex => ?_⟩
    obtain ⟨hne,hthere⟩ := hsteps i hi ((h.ne_none_iff (by simp)).mpr hex)
    exact ⟨hne,(h.ne_none_iff (hstep i hi)).mp hthere⟩
  · rintro ⟨hfirst,hsteps⟩
    refine ⟨fun _ hp => h.child.mpr (hfirst hp),fun i hi hex => ?_⟩
    obtain ⟨hne,hthere⟩ := hsteps i hi ((h.ne_none_iff (by simp)).mp hex)
    exact ⟨hne,(h.ne_none_iff (hstep i hi)).mpr hthere⟩

theorem pathValue_concat (q : List (List UInt8)) : pathValue (done ++ [a]) q =
    if pathOf a = q then a.2.bytes else pathValue done q := by
  rw [pathValue,List.filter_append,List.filter_singleton]
  by_cases ha : pathOf a = q
  · simp [ha]
  · simp [ha,pathValue]

theorem pathValue_none {q : List (List UInt8)} (h : ∀ a ∈ done, ¬ q <+: pathOf a) :
    pathValue done q = [] := by
  have hnil : (done.filter fun a => pathOf a = q) = [] := by
    refine List.filter_eq_nil_iff.mpr fun a ha => ?_
    simpa using fun heq : pathOf a = q => h a ha (heq ▸ List.prefix_refl _)
  rw [pathValue,hnil]
  rfl

/-- A value is put at its path. -/
theorem AfterAdds.put {conf' : ConfigNode} (h : AfterAdds conf done)
    (hput : Added conf conf' (pathOf a) a.2.bytes) : AfterAdds conf' (done ++ [a]) := by
  have hmap := hput.mapAt_eq
  have hchild : conf'.child ≠ [] := by
    obtain ⟨k,ks,hp⟩ := List.exists_cons_of_ne_nil (List.splitOn_ne_nil 33 a.1.bytes)
    have hthere : conf'.mapAt [k] ≠ none := by
      rw [hmap,putAt_ne_none,pathOf,hp]
      exact Or.inr (by simp)
    obtain ⟨c,hc,-⟩ := hput.tidy.mapAt_cons_ne.mp hthere
    exact List.ne_nil_of_mem hc
  refine ⟨hput.tidy,iff_of_false hchild (by simp),fun q hq hno => ?_,fun q hq hex => ?_⟩
  · have hdone (b : BufText × BufText) (hb : b ∈ done) := hno b (List.mem_append_left _ hb)
    have ha := hno a (by simp)
    have hne : q ≠ pathOf a := fun heq => ha (heq ▸ List.prefix_refl _)
    rw [hmap,putAt,if_neg hne,if_neg ha,h.absent q hq hdone]
  · rw [hmap,putAt,pathValue_concat]
    by_cases heq : q = pathOf a
    · rw [if_pos heq,if_pos heq.symm]
    rw [if_neg heq,if_neg (Ne.symm heq)]
    by_cases hin : ∃ b ∈ done, q <+: pathOf b
    · rw [h.there q hq hin]
      split_ifs <;> rfl
    · have hnone : ∀ b ∈ done, ¬ q <+: pathOf b := fun b hb hp => hin ⟨b,hb,hp⟩
      have hpre : q <+: pathOf a := by
        obtain ⟨b,hb,hp⟩ := hex
        rcases List.mem_append.mp hb with hb | hb
        · exact absurd hp (hnone b hb)
        · exact List.mem_singleton.mp hb ▸ hp
      rw [if_pos hpre,h.absent q hq hnone,pathValue_none hnone]
      rfl

/-- One call. -/
theorem AfterAdds.add (parse : ConfigNode → BufText → Exec (Ret × ConfigNode)) (h : AfterAdds conf done)
    (hkey : PlainKey a.1) :
    (a.1 ≠ none ∧ PathOpen done (pathOf a) ∧ ∃ conf', conf.addBuf parse a.1 a.2 = .ok (.ok,conf') ∧
      AfterAdds conf' (done ++ [a])) ∨
    (¬ (a.1 ≠ none ∧ PathOpen done (pathOf a)) ∧ conf.addBuf parse a.1 a.2 = .error .fault) := by
  have hcmp : bufferCmpBuf a.1.bytes includeKey ≠ 0 := fun h0 =>
    hkey.not_include ((bufferCmpBuf_eq_zero hkey.length_lt (by decide) hkey.nul).mp h0)
  have hcmp' : bufferCmpBuf a.1.bytes tryIncludeKey ≠ 0 := fun h0 =>
    hkey.not_tryInclude ((bufferCmpBuf_eq_zero hkey.length_lt (by decide) hkey.nul).mp h0)
  rw [addBuf,if_neg hcmp,if_neg hcmp',ok_bind]
  obtain ⟨key,val⟩ := a
  cases key with
  | none => exact Or.inr ⟨fun hn => hn.1 rfl,rfl⟩
  | some k =>
    have hnul : 0 ∉ k := hkey.nul
    have hparts : keyParts k = pathOf (some k,val) := by rw [keyParts,cString_eq hnul]; rfl
    have hpath : ∀ x ∈ pathOf (some k,val), 0 ∉ x :=
      fun x hx h0 => hnul ((Lines.infix_of_mem_splitOn hx).mem h0)
    rw [BufText.cstr_some hnul,ok_bind,hparts,← h.ready_iff]
    rcases addParts_ready val hpath (List.splitOn_ne_nil 33 _) h.tidy (rfl : BufText.bytes none = []) with
      ⟨hr,conf',hadd,hput⟩ | ⟨hr,hfail⟩
    · exact Or.inl ⟨by simp,hr,conf',by rw [hadd]; rfl,h.put hput⟩
    · exact Or.inr ⟨fun hn => hr hn.2,by rw [hfail]; rfl⟩

/-- All calls. -/
theorem AfterAdds.addAll (parse : ConfigNode → BufText → Exec (Ret × ConfigNode))
    (h : AfterAdds conf done) (hadds : ∀ a ∈ adds, PlainKey a.1) :
    (AllOpen done adds ∧ ∃ conf', conf.addAll parse adds = .ok conf' ∧ AfterAdds conf' (done ++ adds)) ∨
    (¬ AllOpen done adds ∧ conf.addAll parse adds = .error .fault) := by
  induction adds generalizing conf done with
  | nil => exact Or.inl ⟨trivial,conf,rfl,by rwa [List.append_nil]⟩
  | cons a adds ih =>
    obtain ⟨ha,hadds⟩ := List.forall_mem_cons.mp hadds
    rcases h.add parse ha with ⟨hblk,hpass,conf1,hadd,h1⟩ | ⟨hfail,hadd⟩
    · rcases ih h1 hadds with ⟨hall,conf',hrest,h'⟩ | ⟨hnot,hrest⟩
      · refine Or.inl ⟨⟨hblk,hpass,hall⟩,conf',by rw [ConfigNode.addAll,hadd,ok_bind,hrest],?_⟩
        rwa [List.append_assoc] at h'
      · exact Or.inr ⟨fun hn => hnot hn.2.2,by rw [ConfigNode.addAll,hadd,ok_bind,hrest]⟩
    · exact Or.inr ⟨fun hn => hfail ⟨hn.1,hn.2.1⟩,by rw [ConfigNode.addAll,hadd]; rfl⟩

/-- The lookup behind the calls. -/
theorem AfterAdds.answers_iff (h : AfterAdds conf adds) (hkey : 0 ∉ key) :
    AnswersPath conf adds key ↔ PathOpen adds (key.splitOn 33) := by
  have hparts : keyParts key = key.splitOn 33 := by rw [keyParts,cString_eq hkey]
  have hpath : ∀ x ∈ key.splitOn 33, 0 ∉ x := fun x hx h0 => hkey ((Lines.infix_of_mem_splitOn hx).mem h0)
  have hne := List.splitOn_ne_nil 33 key
  have hnamed : NamesPath adds key ↔ ∃ a ∈ adds, key.splitOn 33 <+: pathOf a := by
    simp only [NamesPath,pathOf,Lines.splitOn_prefix_iff]
  have hvalue : lastAdded adds key = pathValue adds (key.splitOn 33) := by
    have hiff (a : BufText × BufText) : a.1.bytes = key ↔ pathOf a = key.splitOn 33 :=
      ⟨fun h => by rw [pathOf,h],Lines.splitOn_injective⟩
    simp only [lastAdded,pathValue,hiff]
  rw [AnswersPath,hnamed,hvalue,ConfigNode.get,hparts,← h.ready_iff]
  rcases getParts_ready hpath h.tidy (rfl : BufText.bytes none = []) with ⟨hr,hget⟩ | ⟨hr,hget⟩
  · rw [hget]
    refine iff_of_true ⟨fun hex => ?_,fun hno => ?_⟩ hr
    · have hthere := h.there _ hne hex
      obtain ⟨e,he,hval⟩ := Option.map_eq_some_iff.mp hthere
      exact ⟨e,by rw [he],hval⟩
    · have habsent := h.absent _ hne fun a ha hp => hno ⟨a,ha,hp⟩
      rw [Option.map_eq_none_iff.mp habsent]
  · rw [hget]
    refine iff_of_false (fun hans => ?_) hr
    by_cases hex : ∃ a ∈ adds, key.splitOn 33 <+: pathOf a
    · obtain ⟨e,he,-⟩ := hans.1 hex
      cases he
    · cases hans.2 hex

end Adding

/-- A path is answered as by a map exactly when every key can be walked where it is added, and the
path can be walked at the end. -/
theorem mapsPath_iff (parse : ConfigNode → BufText → Exec (Ret × ConfigNode))
    {adds : List (BufText × BufText)} (hadds : ∀ a ∈ adds, PlainKey a.1) {key : List UInt8}
    (hkey : 0 ∉ key) : MapsPath parse adds key ↔ AllOpen [] adds ∧ PathOpen adds (key.splitOn 33) := by
  rcases init_afterAdds.addAll parse hadds with ⟨hall,conf,hadd,h⟩ | ⟨hnot,hfail⟩
  · rw [List.nil_append] at h
    rw [and_iff_right hall,← h.answers_iff hkey,MapsPath,hadd]
    constructor
    · rintro ⟨conf',hconf,hans⟩
      cases hconf
      exact hans
    · exact fun hans => ⟨conf,rfl,hans⟩
  · refine iff_of_false ?_ fun h => hnot h.1
    rintro ⟨conf,hconf,-⟩
    rw [hfail] at hconf
    cases hconf

/-- The keys "a!b" and "a", and the path "a". -/
theorem mapsPath_iff_two : MapsPath (fun conf _ => .ok (.error,conf))
    [(some [97,33,98],some [49]),(some [97],some [50])] [97] ↔
      AllOpen [] [(some [97,33,98],some [49]),(some [97],some [50])] ∧
      PathOpen [(some [97,33,98],some [49]),(some [97],some [50])] ([97].splitOn 33) :=
  mapsPath_iff _ (by
    simp only [List.forall_mem_cons]
    exact ⟨⟨by decide,by decide,by decide,by decide⟩,⟨by decide,by decide,by decide,by decide⟩,by simp⟩)
    (by decide)

/-- The empty path, behind the key "a", is compared without a string. -/
theorem not_mapsPath_empty :
    ¬ MapsPath (fun conf _ => .ok (.error,conf)) [(some [97],some [49])] [] := by
  rintro ⟨conf,hconf,hans⟩
  have hadd : addAll (fun conf _ => .ok (.error,conf)) init [(some [97],some [49])] =
      .ok ⟨none,none,[⟨some [97],some [49],[]⟩]⟩ := by rfl
  rw [hadd] at hconf
  cases hconf
  have hnot : ¬ NamesPath [(some [97],some [49])] [] := by decide
  cases hans.2 hnot

end Http2d
