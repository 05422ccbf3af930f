import Http2d.ConfigInclude

/-! What the check of the keys leaves.
It compares the children of the root. The lines of a text, and those of the texts that it includes,
spell the paths of the tree, and two of them may part below the root in nothing but their case. -/
namespace Http2d

/-- Equal but for the case of the letters. -/
def CaseEqual (a b : List UInt8) : Prop := a.map tolower = b.map tolower

instance (a b : List UInt8) : Decidable (CaseEqual a b) :=
  inferInstanceAs (Decidable (a.map tolower = b.map tolower))

/-- The paths part at names that are equal but for their case. -/
def CaseTwins : List (List UInt8) → List (List UInt8) → Prop
  | a::p, b::q => if a = b then CaseTwins p q else CaseEqual a b
  | _, _ => False

/-- No two paths that begin with the same name are twins. -/
def ClashFree (paths : List (List (List UInt8))) : Prop :=
  ∀ p ∈ paths, ∀ q ∈ paths, p.head? = q.head? → ¬ CaseTwins p q

/-- Paths that go on behind twins are twins. -/
theorem CaseTwins.mono {p q p' q' : List (List UInt8)} (h : CaseTwins p q) (hp : p <+: p')
    (hq : q <+: q') : CaseTwins p' q' := by
  induction p generalizing q p' q' with
  | nil => cases h
  | cons a p ih =>
    cases q with
    | nil => cases h
    | cons b q =>
      obtain ⟨ps,rfl⟩ := hp
      obtain ⟨qs,rfl⟩ := hq
      rw [List.cons_append,List.cons_append,CaseTwins]
      rw [CaseTwins] at h
      split_ifs at h ⊢ with hab
      · exact ih h (List.prefix_append ..) (List.prefix_append ..)
      · exact h

namespace ConfigNode

/-- No node has two children whose keys are equal but for their case. -/
inductive NoTwins : ConfigNode → Prop
  | mk {n : ConfigNode} : (n.child.Pairwise fun c d => ¬ CaseEqual c.key.bytes d.key.bytes) →
      (∀ c ∈ n.child, NoTwins c) → NoTwins n

section Trees
variable {n n' c : ConfigNode} {l l' : List ConfigNode} {k : List UInt8} {ks : List (List UInt8)}

/-- Twins are seen at the paths of the tree. -/
theorem noTwins_iff (hn : n.Tidy) : n.NoTwins ↔
    ∀ p q, n.mapAt p ≠ none → n.mapAt q ≠ none → ¬ CaseTwins p q := by
  have hself := hn
  induction hn with
  | @mk n hkeys hnodup htidy ih =>
  constructor
  · rintro ⟨hpair,hchild⟩ p q hp hq htwins
    cases p with
    | nil => cases htwins
    | cons a p =>
      cases q with
      | nil => cases htwins
      | cons b q =>
        obtain ⟨c,hc,rfl,hcp⟩ := hself.mapAt_cons_ne.mp hp
        obtain ⟨d,hd,rfl,hdq⟩ := hself.mapAt_cons_ne.mp hq
        rw [CaseTwins] at htwins
        split_ifs at htwins with hab
        · rw [← hself.bytes_inj hc hd hab] at hdq
          exact (ih c hc (htidy c hc)).mp (hchild c hc) p q hcp hdq htwins
        · have hsymm : Std.Symm fun c d : ConfigNode => ¬ CaseEqual c.key.bytes d.key.bytes :=
            ⟨fun _ _ h h' => h h'.symm⟩
          exact hpair.forall hc hd (fun h => hab (h ▸ rfl)) htwins
  · intro h
    refine ⟨(List.pairwise_map.mp hnodup).imp_of_mem fun {c d} hc hd hne hcase => ?_,fun c hc => ?_⟩
    · have hbytes : c.key.bytes ≠ d.key.bytes := fun hb => hne (by rw [hself.bytes_inj hc hd hb])
      refine h [c.key.bytes] [d.key.bytes] (hself.mapAt_cons_ne.mpr ⟨c,hc,rfl,by simp⟩)
        (hself.mapAt_cons_ne.mpr ⟨d,hd,rfl,by simp⟩) ?_
      rw [CaseTwins,if_neg hbytes]
      exact hcase
    · refine (ih c hc (htidy c hc)).mpr fun p q hp hq htwins => ?_
      refine h (c.key.bytes::p) (c.key.bytes::q) (hself.mapAt_cons_ne.mpr ⟨c,hc,rfl,hp⟩)
        (hself.mapAt_cons_ne.mpr ⟨c,hc,rfl,hq⟩) ?_
      rwa [CaseTwins,if_pos rfl]

/-- Names that are equal but for their case are equal for the check. -/
theorem bufferCaseCmpBuf_of_caseEqual {a b : List UInt8} (h : CaseEqual a b) :
    bufferCaseCmpBuf a b = 0 := by
  have hlen : a.length = b.length := by simpa using congrArg List.length h
  rw [bufferCaseCmpBuf,cmpBufWith,if_neg (by omega),if_neg (by omega)]
  induction a generalizing b with
  | nil =>
    rw [List.length_eq_zero_iff.mp hlen.symm]
    rfl
  | cons x a ih =>
    cases b with
    | nil => cases hlen
    | cons y b =>
      obtain ⟨hxy,hab⟩ := List.cons.inj h
      rw [List.length_cons,strncasecmp,strnCompare]
      simp only [List.headD_cons,List.tail_cons,hxy,ne_eq,not_true_eq_false,if_false]
      by_cases hx : x = 0
      · exact if_pos hx
      · exact (if_neg hx).trans (ih hab (Nat.succ.inj hlen))

end Trees

end ConfigNode

open ConfigNode

/-- Paths, and whether all of what spells them can be read. -/
abbrev SpelledPaths := List (List (List UInt8)) × Bool

/-- The second is read only behind all of the first. -/
def SpelledPaths.andThen (a b : SpelledPaths) : SpelledPaths := if a.2 then (a.1 ++ b.1,b.2) else a

/-- The paths that a line puts into the tree; `inc` tells those of an include. -/
def keyPaths (inc : BufText → SpelledPaths) (key val : BufText) : SpelledPaths :=
  if bufferCmpBuf key.bytes includeKey = 0 then inc val
  else ((if bufferCmpBuf key.bytes tryIncludeKey = 0 then (inc val).1 else []) ++ [keyParts key.bytes],true)

/-- The paths that lines put into the tree. -/
def linePaths (inc : BufText → SpelledPaths) : List (BufText × BufText) → ScanEnd → SpelledPaths
  | [], .done => ([],true)
  | [], _ => ([],false)
  | (key,val)::pairs, e => (keyPaths inc key val).andThen (linePaths inc pairs e)

/-- The paths that a text puts into the tree. -/
def textPaths (inc : BufText → SpelledPaths) : Option Buffer → SpelledPaths
  | none => ([],false)
  | some buf => linePaths inc (configPairs buf).1 (configPairs buf).2

/-- The paths that texts put into the tree, up to one that cannot be read. -/
def textsPaths (inc : BufText → SpelledPaths) : List (Option Buffer) → SpelledPaths
  | [] => ([],true)
  | text::texts => (textPaths inc text).andThen (textsPaths inc texts)

/-- The paths that an include puts into the tree, with those of the includes in it to a depth. -/
def ConfigFs.pathsWithin (fs : ConfigFs) : ℕ → BufText → SpelledPaths
  | 0, _ => ([],false)
  | depth+1, path => ((fs.texts path).map (textsPaths (fs.pathsWithin depth))).getD ([],false)

/-- What parsing does to a tidy tree: it keeps what is there, and when no twins are at the root it
has put the paths there and says whether all could be read. -/
structure Follows (conf : ConfigNode) (k : SpelledPaths) (r : Ret × ConfigNode) : Prop where
  tidy : r.2.Tidy
  grows : ∀ q, conf.mapAt q ≠ none → r.2.mapAt q ≠ none
  paths : r.2.checkSanity = .ok → ∀ q ≠ [], r.2.mapAt q ≠ none ↔
    conf.mapAt q ≠ none ∨ ∃ p ∈ k.1, q <+: p
  ret : r.2.checkSanity = .ok → (r.1 = .ok ↔ k.2 = true)

section Following
variable {conf conf' : ConfigNode} {k k' : SpelledPaths} {r r' : Ret × ConfigNode}

theorem Follows.refl (h : conf.Tidy) {ret : Ret} {b : Bool} (hret : ret = .ok ↔ b = true) :
    Follows conf ([],b) (ret,conf) :=
  ⟨h,fun _ hq => hq,fun _ q _ => by simp,fun _ => hret⟩

/-- Nothing is said when there are twins at the root. -/
theorem Follows.of_insane (h : Follows conf k r) (hr : r.2.checkSanity ≠ .ok) (k' : SpelledPaths) :
    Follows conf k' r :=
  ⟨h.tidy,h.grows,fun hs => absurd hs hr,fun hs => absurd hs hr⟩

theorem Follows.trans (h : Follows conf k r) (h' : Follows r.2 k' r') :
    Follows conf (k.1 ++ k'.1,k'.2) r' := by
  refine ⟨h'.tidy,fun q hq => h'.grows q (h.grows q hq),fun hs q hq => ?_,h'.ret⟩
  have hsane := sane_mono h.tidy h'.tidy h'.grows hs
  rw [h'.paths hs q hq,h.paths hsane q hq]
  simp only [List.mem_append,or_and_right,exists_or,or_assoc]

/-- A second part that is parsed only when the first was with success. -/
theorem Follows.andThen (h : Follows conf k r) (hnext : r.1 = .ok → Follows r.2 k' r')
    (hstop : r.1 ≠ .ok → r'.2 = r.2 ∧ r'.1 ≠ .ok) : Follows conf (k.andThen k') r' := by
  by_cases hr : r.1 = .ok
  · have h' := h.trans (hnext hr)
    by_cases hs : r'.2.checkSanity = .ok
    · have hk := (h.ret (sane_mono h.tidy h'.tidy (hnext hr).grows hs)).mp hr
      rwa [SpelledPaths.andThen,if_pos hk]
    · exact h'.of_insane hs _
  · obtain ⟨hconf,hret⟩ := hstop hr
    have hkeep : r'.2.checkSanity = .ok → k.andThen k' = k := fun hs => by
      have hk : ¬ k.2 = true := fun hk => hr ((h.ret (hconf ▸ hs)).mpr hk)
      rw [SpelledPaths.andThen,if_neg hk]
    refine ⟨hconf ▸ h.tidy,fun q hq => hconf ▸ h.grows q hq,fun hs => ?_,fun hs => ?_⟩
    · rw [hkeep hs,hconf]
      exact h.paths (hconf ▸ hs)
    · rw [hkeep hs,← h.ret (hconf ▸ hs)]
      exact iff_of_false hret hr

/-- A line that puts a value at its path. -/
theorem addParts_follows (hconf : conf.Tidy) {key s : List UInt8} (hs : s = cString key) {val : BufText}
    (h : addParts val (keyParts s) none conf = .ok conf') :
    Follows conf ([keyParts key],true) (.ok,conf') := by
  have hself : keyParts s = keyParts key := by
    rw [keyParts,keyParts,hs,cString_eq (cString_nul key)]
  have hparts : ∀ k ∈ keyParts key, 0 ∉ k :=
    fun k hk h0 => cString_nul key ((Lines.infix_of_mem_splitOn hk).mem h0)
  rw [hself] at h
  rcases addParts_ready val hparts (List.splitOn_ne_nil 33 _) hconf (rfl : BufText.bytes none = []) with
    ⟨-,c,hadd,hput⟩ | ⟨-,hfail⟩
  · rw [hadd] at h
    cases h
    refine ⟨hput.tidy,fun q hq => ?_,fun _ q _ => ?_,fun _ => by simp⟩
    · rw [hput.mapAt_eq,putAt_ne_none]
      exact Or.inl hq
    · rw [hput.mapAt_eq,putAt_ne_none]
      simp
  · rw [hfail] at h
    cases h

/-- What follows the lines. -/
theorem finishConfig_follows (hconf : conf.Tidy) (h : finishConfig conf = .ok r) :
    Follows conf ([],true) r := by
  obtain ⟨conf',hsort,h⟩ := bind_ok_inv h
  cases Except.ok.inj h
  have hsame := sortLists_samePaths hconf hsort
  refine ⟨hsame.tidy,fun q hq => ?_,fun _ q _ => ?_,fun hs => by simpa using hs⟩
  · rwa [hsame.mapAt_eq]
  · rw [hsame.mapAt_eq]
    simp

variable {parse : ConfigNode → BufText → Exec (Ret × ConfigNode)} {inc : BufText → SpelledPaths}

/-- Nested parses put the paths of the includes into the tree. -/
def PutsPaths (parse : ConfigNode → BufText → Exec (Ret × ConfigNode))
    (inc : BufText → SpelledPaths) : Prop :=
  ∀ conf path r, conf.Tidy → parse conf path = .ok r → Follows conf (inc path) r

/-- One line. -/
theorem addBuf_follows (hparse : PutsPaths parse inc) {key val : BufText} (hconf : conf.Tidy)
    (h : conf.addBuf parse key val = .ok r) : Follows conf (keyPaths inc key val) r := by
  rw [addBuf] at h
  rw [keyPaths]
  by_cases hinc : bufferCmpBuf key.bytes includeKey = 0
  · rw [if_pos hinc] at h ⊢
    exact hparse conf val r hconf h
  rw [if_neg hinc] at h ⊢
  obtain ⟨conf1,htry,h⟩ := bind_ok_inv h
  obtain ⟨s,hs,h⟩ := bind_ok_inv h
  obtain ⟨conf2,hparts,h⟩ := bind_ok_inv h
  cases Except.ok.inj h
  have hkey : s = cString key.bytes := by
    cases key with
    | none => cases hs
    | some k => exact (Except.ok.inj hs).symm
  by_cases htry0 : bufferCmpBuf key.bytes tryIncludeKey = 0
  · rw [if_pos htry0] at htry ⊢
    cases hr0 : parse conf val with
    | error e =>
      rw [hr0] at htry
      cases htry
    | ok r0 =>
      rw [hr0] at htry
      cases Except.ok.inj htry
      have hfirst := hparse conf val r0 hconf hr0
      exact hfirst.trans (addParts_follows hfirst.tidy hkey hparts)
  · rw [if_neg htry0] at htry ⊢
    cases Except.ok.inj htry
    exact addParts_follows hconf hkey hparts

theorem addLines_follows (hparse : PutsPaths parse inc) {pairs : List (BufText × BufText)} {e : ScanEnd}
    (hconf : conf.Tidy) (h : addLines parse conf pairs e = .ok r) :
    Follows conf (linePaths inc pairs e) r := by
  induction pairs generalizing conf with
  | nil =>
    cases e with
    | done => exact finishConfig_follows hconf h
    | bad =>
      cases Except.ok.inj h
      exact .refl hconf (by simp)
    | halt e => cases h
  | cons pair pairs ih =>
    rw [addLines] at h
    obtain ⟨r1,hadd,h⟩ := bind_ok_inv h
    have hfirst := addBuf_follows hparse hconf hadd
    refine hfirst.andThen (fun hok => ?_) fun hfail => ?_
    · rw [if_pos hok] at h
      exact ih hfirst.tidy h
    · rw [if_neg hfail] at h
      cases Except.ok.inj h
      exact ⟨rfl,fun h => by cases h⟩

theorem textPaths_follows (hparse : PutsPaths parse inc) {text : Option Buffer} (hconf : conf.Tidy)
    (h : ConfigFs.parseText parse conf text = .ok r) : Follows conf (textPaths inc text) r := by
  cases text with
  | none =>
    cases Except.ok.inj h
    exact .refl hconf (by simp)
  | some buf =>
    obtain ⟨r',hr',h⟩ := bind_ok_inv h
    rw [parseString_eq] at hr'
    have hlines := addLines_follows hparse hconf hr'
    split_ifs at h with hok
    · cases Except.ok.inj h
      rw [← hok]
      exact hlines
    · cases Except.ok.inj h
      exact ⟨hlines.tidy,hlines.grows,hlines.paths,fun hs =>
        (iff_of_false (fun h => by cases h) hok).trans (hlines.ret hs)⟩

theorem textsPaths_follows (hparse : PutsPaths parse inc) {texts : List (Option Buffer)} (hconf : conf.Tidy)
    (h : ConfigFs.parseAll parse conf texts = .ok r) : Follows conf (textsPaths inc texts) r := by
  induction texts generalizing conf with
  | nil =>
    cases Except.ok.inj h
    exact .refl hconf (by simp)
  | cons text texts ih =>
    obtain ⟨r',hr',h⟩ := bind_ok_inv h
    have hfirst := textPaths_follows hparse hconf hr'
    refine hfirst.andThen (fun hok => ?_) fun hfail => ?_
    · rw [if_pos hok] at h
      exact ih hfirst.tidy h
    · rw [if_neg hfail] at h
      cases Except.ok.inj h
      exact ⟨rfl,hfail⟩

/-- A text is parsed with success only if the check was. -/
theorem addLines_sane {pairs : List (BufText × BufText)} {e : ScanEnd}
    (h : addLines parse conf pairs e = .ok r) (hr : r.1 = .ok) : r.2.checkSanity = .ok := by
  induction pairs generalizing conf with
  | nil =>
    cases e with
    | done =>
      obtain ⟨conf',-,h⟩ := bind_ok_inv h
      cases Except.ok.inj h
      exact hr
    | bad =>
      cases Except.ok.inj h
      cases hr
    | halt e => cases h
  | cons pair pairs ih =>
    obtain ⟨q,_,h⟩ := bind_ok_inv h
    split_ifs at h
    · exact ih h
    · cases Except.ok.inj h
      cases hr

/-- The parses of the includes, down to the depth where there must be none. -/
theorem parseWithin_putsPaths (fs : ConfigFs) (depth : ℕ) :
    PutsPaths (fs.parseWithin (fun _ _ => .error .fault) depth) (fs.pathsWithin depth) := by
  induction depth with
  | zero =>
    intro conf path r _ h
    cases h
  | succ depth ih =>
    intro conf path r hconf h
    rw [ConfigFs.parseWithin,ConfigFs.doInclude_eq] at h
    rw [ConfigFs.pathsWithin]
    cases htexts : fs.texts path with
    | none =>
      rw [htexts] at h
      cases Except.ok.inj h
      exact .refl hconf (by simp)
    | some texts =>
      rw [htexts] at h
      exact textsPaths_follows ih hconf h

end Following

/-- A text that is parsed with success makes a tree without twins exactly when no two of the paths that
it spells part behind their first names in nothing but the case. -/
theorem noTwins_iff_clashFree (fs : ConfigFs) (depth : ℕ) {buf : Buffer} {conf : ConfigNode}
    (h : parseString (fs.parseWithin (fun _ _ => .error .fault) depth) .init buf = .ok (.ok,conf)) :
    conf.NoTwins ↔ ClashFree (textPaths (fs.pathsWithin depth) (some buf)).1 := by
  rw [parseString_eq] at h
  have hfollow := addLines_follows (parseWithin_putsPaths fs depth) init_tidy h
  have hsane : conf.checkSanity = .ok := addLines_sane h rfl
  have htidy : conf.Tidy := hfollow.tidy
  have hpaths (q : List (List UInt8)) (hq : q ≠ []) : conf.mapAt q ≠ none ↔
      ∃ p ∈ (textPaths (fs.pathsWithin depth) (some buf)).1, q <+: p := by
    refine (hfollow.paths hsane q hq).trans (or_iff_right fun hinit => hinit ?_)
    obtain ⟨k,ks,rfl⟩ := List.exists_cons_of_ne_nil hq
    exact mapAt_absent (fun c hc => absurd hc List.not_mem_nil) ks
  have hne {p q : List (List UInt8)} (h : CaseTwins p q) : p ≠ [] ∧ q ≠ [] := by
    constructor
    · rintro rfl
      cases h
    · rintro rfl
      cases p <;> cases h
  rw [noTwins_iff htidy]
  constructor
  · intro hno p hp q hq _ htwins
    exact hno p q ((hpaths p (hne htwins).1).mpr ⟨p,hp,List.prefix_refl p⟩)
      ((hpaths q (hne htwins).2).mpr ⟨q,hq,List.prefix_refl q⟩) htwins
  · intro hfree p q hp hq htwins
    obtain ⟨x,hx,hpx⟩ := (hpaths p (hne htwins).1).mp hp
    obtain ⟨y,hy,hqy⟩ := (hpaths q (hne htwins).2).mp hq
    obtain ⟨a,p,rfl⟩ := List.exists_cons_of_ne_nil (hne htwins).1
    obtain ⟨b,q,rfl⟩ := List.exists_cons_of_ne_nil (hne htwins).2
    obtain ⟨xs,rfl⟩ := hpx
    obtain ⟨ys,rfl⟩ := hqy
    by_cases hab : a = b
    · exact hfree _ hx _ hy (by simp [hab])
        (htwins.mono (List.prefix_append ..) (List.prefix_append ..))
    · -- twins at the root do not pass the check
      rw [CaseTwins,if_neg hab] at htwins
      exact (sane_iff htidy).mp hsane a b hab ((hpaths [a] (by simp)).mpr ⟨_,hx,by simp⟩)
        ((hpaths [b] (by simp)).mpr ⟨_,hy,by simp⟩) (bufferCaseCmpBuf_of_caseEqual htwins)

/-- The lines "a!b = 1" and "a!B = 2". -/
def twinLines : Buffer := ⟨[97,33,98,32,61,32,49,10,97,33,66,32,61,32,50,10,0],17,16⟩

/-- No file can be read. -/
def noFiles : ConfigFs := ⟨fun _ => none,[],[]⟩

/-- What they make. -/
def twinTree : ConfigNode :=
  ⟨none,none,[⟨some [97],none,[⟨some [98],some [49],[]⟩,⟨some [66],some [50],[]⟩]⟩]⟩

theorem sortLists_leaf (key val : BufText) : sortLists ⟨key,val,[]⟩ = .ok ⟨key,val,[]⟩ := by
  have hnil : listSort cmpNum ([] : List ConfigNode) = [] := (listSort_perm ..).eq_nil
  simp [sortLists,sortAll,allNum,hnil]

theorem parseString_twinLines : parseString (noFiles.parseWithin (fun _ _ => .error .fault) 0) .init
    twinLines = .ok (.ok,twinTree) := by
  have hpairs : configPairs twinLines =
      ([(some [97,33,98],some [49]),(some [97,33,66],some [50])],.done) := by rfl
  have hadd (parse : ConfigNode → BufText → Exec (Ret × ConfigNode)) :
      init.addBuf parse (some [97,33,98]) (some [49]) =
        .ok (.ok,⟨none,none,[⟨some [97],none,[⟨some [98],some [49],[]⟩]⟩]⟩) ∧
      (⟨none,none,[⟨some [97],none,[⟨some [98],some [49],[]⟩]⟩]⟩ : ConfigNode).addBuf parse
        (some [97,33,66]) (some [50]) = .ok (.ok,twinTree) := ⟨rfl,rfl⟩
  have hnum (k : UInt8) (hk : k = 97 ∨ k = 98) (val : BufText) (child rest : List ConfigNode) :
      allNum (⟨some [k],val,child⟩::rest) = .ok false := by
    rcases hk with rfl | rfl <;> rfl
  have hleaves : sortAll [⟨some [98],some [49],[]⟩,⟨some [66],some [50],[]⟩] =
      .ok [⟨some [98],some [49],[]⟩,⟨some [66],some [50],[]⟩] := by
    simp only [sortAll,sortLists_leaf,ok_bind]
  have hsort : sortLists twinTree = .ok twinTree := by
    rw [twinTree,sortLists,hnum 97 (Or.inl rfl),ok_bind,sortAll,sortLists,hnum 98 (Or.inr rfl),hleaves]
    rfl
  rw [parseString_eq,hpairs]
  simp only [addLines,(hadd _).1,(hadd _).2,ok_bind,if_true,finishConfig,hsort]
  rfl

/-- Their tree has two children with the same name below "a", and is none without twins. -/
theorem not_noTwins_twinLines : ∃ conf, parseString (noFiles.parseWithin (fun _ _ => .error .fault) 0)
    .init twinLines = .ok (.ok,conf) ∧ ¬ conf.NoTwins := by
  refine ⟨twinTree,parseString_twinLines,fun h => ?_⟩
  obtain ⟨-,hchild⟩ := h
  obtain ⟨hpair,-⟩ := hchild _ (List.mem_cons_self ..)
  exact (List.pairwise_cons.mp hpair).1 _ (List.mem_cons_self ..) (by decide)

theorem noTwins_iff_clashFree_twinLines : twinTree.NoTwins ↔
    ClashFree (textPaths (noFiles.pathsWithin 0) (some twinLines)).1 :=
  noTwins_iff_clashFree noFiles 0 parseString_twinLines

end Http2d
