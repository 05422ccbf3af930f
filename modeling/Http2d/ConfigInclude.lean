import Http2d.ConfigScan
import Http2d.Library.CallGraph

/-! The files of a configuration.
A line may include a file, or all files of a directory, and these are parsed before the next line.
Nothing is known in the parser of the files that are being parsed already. -/
namespace Http2d

/-- What a path leads to; the files and the directories are numbered. -/
inductive Inode
  | file (i : ℕ)
  | dir (i : ℕ)
  | other

/-- The file system: where paths lead, the contents of the files that can be read, and the names in
the directories that can be opened. -/
structure ConfigFs where
  resolve : List UInt8 → Option Inode
  files : List (List UInt8)
  dirs : List (List (List UInt8))

namespace ConfigFs

open ConfigNode

variable (fs : ConfigFs) (parse : ConfigNode → BufText → Exec (Ret × ConfigNode))

/-- `http2d_buffer_read_file` with a new buffer; none when it fails. -/
def readFile (path : List UInt8) : Option Buffer :=
  match fs.resolve path with
  | some (.file i) => (fs.files[i]?).map fun content =>
    ⟨content ++ [0],content.length+1,content.length⟩
  | _ => none

/-- `do_parse_file`, once the file is read. -/
def parseText (conf : ConfigNode) : Option Buffer → Exec (Ret × ConfigNode)
  | none => .ok (.error,conf)
  | some buf => do
    let r ← parseString parse conf buf
    if r.1 = .ok then .ok (.ok,r.2) else .ok (.error,r.2)

/-- `do_parse_file`. -/
def doParseFile (conf : ConfigNode) (file : List UInt8) : Exec (Ret × ConfigNode) :=
  parseText parse conf (fs.readFile file)

/-- The names of a directory that are ignored. -/
def isBackup (name : List UInt8) : Bool :=
  name = [] || name.head? = some 46 || name.head? = some 35 || name.getLast? = some 126

/-- The loop of `do_include` over a directory. -/
def includeDir (path : List UInt8) : ConfigNode → List (List UInt8) → Exec (Ret × ConfigNode)
  | conf, [] => .ok (.ok,conf)
  | conf, name::names =>
    if isBackup name then includeDir path conf names
    else do
      let r ← fs.doParseFile parse conf (path ++ 47::name)
      if r.1 = .ok then includeDir path r.2 names else .ok r

/-- `do_include`; there is nothing at a NULL path. -/
def doInclude (conf : ConfigNode) (path : BufText) : Exec (Ret × ConfigNode) :=
  match path with
  | none => .ok (.error,conf)
  | some path =>
    match fs.resolve (cString path) with
    | none => .ok (.error,conf)
    | some (.file _) => fs.doParseFile parse conf (cString path)
    | some (.dir i) =>
      match fs.dirs[i]? with
      | none => .ok (.error,conf)
      | some names => fs.includeDir parse (cString path) conf names
    | some .other => .ok (.error,conf)

/-- `http2d_config_reader_parse`, where parses that are nested to the given depth are made by
`deeper`. -/
def parseWithin (deeper : ConfigNode → BufText → Exec (Ret × ConfigNode)) :
    ℕ → ConfigNode → BufText → Exec (Ret × ConfigNode)
  | 0 => deeper
  | depth+1 => fs.doInclude (parseWithin deeper depth)

/-- The parse ends after finitely many nested parses: it does not come to some depth. -/
def Ends (conf : ConfigNode) (path : BufText) : Prop := ∃ depth, ∀ deeper deeper',
  fs.parseWithin deeper depth conf path = fs.parseWithin deeper' depth conf path

/-- The texts that an include of the path parses, one after another; none when it cannot be opened. -/
def texts (path : BufText) : Option (List (Option Buffer)) :=
  match path with
  | none => none
  | some path =>
    match fs.resolve (cString path) with
    | some (.file _) => some [fs.readFile (cString path)]
    | some (.dir i) => (fs.dirs[i]?).map fun names =>
      (names.filter fun name => !isBackup name).map fun name => fs.readFile (cString path ++ 47::name)
    | _ => none

/-- The text can be read, and all of its lines. -/
def isComplete (text : Option Buffer) : Bool :=
  text.any fun buf => match (configPairs buf).2 with
    | .done => true
    | _ => false

/-- All that an include of the path parses can be read. -/
def isReadable (path : BufText) : Bool := (fs.texts path).any fun ts => ts.all isComplete

/-- The paths that lines include, up to an `include` of what cannot be read. -/
def included : List (BufText × BufText) → List BufText
  | [] => []
  | (key,val)::pairs =>
    if bufferCmpBuf key.bytes includeKey = 0 then
      val::(if fs.isReadable val then included pairs else [])
    else if bufferCmpBuf key.bytes tryIncludeKey = 0 then val::included pairs
    else included pairs

/-- The paths that texts include, up to a text that cannot be read. -/
def includedAll : List (Option Buffer) → List BufText
  | [] => []
  | text::texts =>
    (text.map fun buf => fs.included (configPairs buf).1).getD [] ++
      if isComplete text then includedAll texts else []

/-- A text that the include of `a` parses has a line that includes `b`. -/
def Includes (a b : BufText) : Prop := b ∈ fs.includedAll ((fs.texts a).getD [])

/-- The texts are parsed until one of them fails. -/
def parseAll : ConfigNode → List (Option Buffer) → Exec (Ret × ConfigNode)
  | conf, [] => .ok (.ok,conf)
  | conf, text::texts => do
    let r ← parseText parse conf text
    if r.1 = .ok then parseAll r.2 texts else .ok r

section Texts
variable {fs} {parse parse' : ConfigNode → BufText → Exec (Ret × ConfigNode)}

theorem parseAll_single (conf : ConfigNode) (text : Option Buffer) :
    parseAll parse conf [text] = parseText parse conf text := by
  simp only [parseAll]
  cases parseText parse conf text with
  | error e => rfl
  | ok r =>
    simp only [ok_bind]
    split_ifs with hr
    · rw [← hr]
    · rfl

theorem includeDir_eq (path : List UInt8) (conf : ConfigNode) (names : List (List UInt8)) :
    fs.includeDir parse path conf names = parseAll parse conf
      ((names.filter fun name => !isBackup name).map fun name => fs.readFile (path ++ 47::name)) := by
  induction names generalizing conf with
  | nil => rfl
  | cons name names ih =>
    rw [includeDir,List.filter_cons]
    cases isBackup name with
    | true => simpa using ih conf
    | false =>
      simp only [Bool.not_false,if_true,List.map_cons,parseAll,doParseFile,ih]
      rfl

theorem doInclude_eq (conf : ConfigNode) (path : BufText) : fs.doInclude parse conf path =
    ((fs.texts path).map (parseAll parse conf)).getD (.ok (.error,conf)) := by
  unfold doInclude texts
  cases path with
  | none => rfl
  | some path =>
    simp only
    cases fs.resolve (cString path) with
    | none => rfl
    | some inode =>
      cases inode with
      | file i => exact (parseAll_single conf _).symm
      | dir i =>
        simp only
        cases fs.dirs[i]? with
        | none => rfl
        | some names => exact includeDir_eq _ conf names
      | other => rfl

/-- Only a text whose lines can all be read is parsed with success. -/
theorem addLines_ok {conf : ConfigNode} {pairs : List (BufText × BufText)} {e : ScanEnd}
    {r : Ret × ConfigNode} (h : addLines parse conf pairs e = .ok r) (hr : r.1 = .ok) : e = .done := by
  induction pairs generalizing conf with
  | nil =>
    cases e with
    | done => rfl
    | bad =>
      cases Except.ok.inj h
      cases hr
    | halt e => cases h
  | cons pair pairs ih =>
    obtain ⟨q,_,h⟩ := bind_ok_inv h
    split_ifs at h
    · exact ih h
    · cases Except.ok.inj h
      cases hr

theorem parseText_ok {conf : ConfigNode} {text : Option Buffer} {r : Ret × ConfigNode}
    (h : parseText parse conf text = .ok r) (hr : r.1 = .ok) : isComplete text = true := by
  cases text with
  | none =>
    cases Except.ok.inj h
    cases hr
  | some buf =>
    obtain ⟨q,hq,h⟩ := bind_ok_inv h
    rw [parseString_eq] at hq
    split_ifs at h with hqok
    · simp [isComplete,addLines_ok hq hqok]
    · cases Except.ok.inj h
      cases hr

theorem parseAll_ok {conf : ConfigNode} {texts : List (Option Buffer)} {r : Ret × ConfigNode}
    (h : parseAll parse conf texts = .ok r) (hr : r.1 = .ok) : texts.all isComplete = true := by
  induction texts generalizing conf with
  | nil => rfl
  | cons text texts ih =>
    obtain ⟨q,hq,h⟩ := bind_ok_inv h
    split_ifs at h with hqok
    · rw [List.all_cons,parseText_ok hq hqok,ih h]
      rfl
    · cases Except.ok.inj h
      exact absurd hr hqok

/-- What cannot be read is not parsed with success. -/
def Honest (fs : ConfigFs) (parse : ConfigNode → BufText → Exec (Ret × ConfigNode)) : Prop :=
  ∀ conf path r, parse conf path = .ok r → r.1 = .ok → fs.isReadable path = true

theorem doInclude_honest (fs : ConfigFs) (parse : ConfigNode → BufText → Exec (Ret × ConfigNode)) :
    fs.Honest (fs.doInclude parse) := by
  intro conf path r h hr
  rw [doInclude_eq] at h
  unfold isReadable
  cases htexts : fs.texts path with
  | none =>
    rw [htexts] at h
    cases Except.ok.inj h
    cases hr
  | some ts =>
    rw [htexts] at h
    exact parseAll_ok h hr

/-- The lines of a text ask the parser for nothing but the paths that they include. -/
theorem addLines_congr (hhonest : fs.Honest parse) {conf : ConfigNode}
    {pairs : List (BufText × BufText)} {e : ScanEnd}
    (h : ∀ path ∈ fs.included pairs, ∀ conf, parse conf path = parse' conf path) :
    addLines parse conf pairs e = addLines parse' conf pairs e := by
  induction pairs generalizing conf with
  | nil => cases e <;> rfl
  | cons pair pairs ih =>
    obtain ⟨key,val⟩ := pair
    simp only [addLines,ConfigNode.addBuf]
    simp only [included] at h
    by_cases hinc : bufferCmpBuf key.bytes includeKey = 0
    · simp only [if_pos hinc] at h ⊢
      rw [← h val List.mem_cons_self conf]
      cases hval : parse conf val with
      | error e => rw [error_bind,error_bind]
      | ok r =>
        simp only [ok_bind]
        by_cases hr : r.1 = .ok
        · rw [if_pos hr,if_pos hr]
          refine ih fun path hpath => h path (List.mem_cons_of_mem _ ?_)
          rwa [if_pos (hhonest conf val r hval hr)]
        · rw [if_neg hr,if_neg hr]
    simp only [if_neg hinc] at h ⊢
    by_cases htry : bufferCmpBuf key.bytes tryIncludeKey = 0
    · simp only [if_pos htry] at h ⊢
      rw [← h val List.mem_cons_self conf]
      simp only [ih fun path hpath => h path (List.mem_cons_of_mem _ hpath)]
    · simp only [if_neg htry] at h ⊢
      simp only [ih h]

theorem parseAll_congr (hhonest : fs.Honest parse) {conf : ConfigNode}
    {texts : List (Option Buffer)}
    (h : ∀ path ∈ fs.includedAll texts, ∀ conf, parse conf path = parse' conf path) :
    parseAll parse conf texts = parseAll parse' conf texts := by
  induction texts generalizing conf with
  | nil => rfl
  | cons text texts ih =>
    obtain ⟨hfirst,hrest⟩ := List.forall_mem_append.mp h
    have htext : parseText parse conf text = parseText parse' conf text := by
      cases text with
      | none => rfl
      | some buf =>
        simp only [parseText,parseString_eq]
        rw [addLines_congr hhonest hfirst]
    simp only [parseAll]
    rw [← htext]
    cases hr : parseText parse conf text with
    | error e => rw [error_bind,error_bind]
    | ok r =>
      simp only [ok_bind]
      by_cases hrok : r.1 = .ok
      · rw [if_pos hrok,if_pos hrok]
        rw [if_pos (parseText_ok hr hrok)] at hrest
        exact ih hrest
      · rw [if_neg hrok,if_neg hrok]

/-- An include makes nested parses only of the paths that it includes. -/
theorem doInclude_congr (hhonest : fs.Honest parse) {path : BufText}
    (h : ∀ path', fs.Includes path path' → ∀ conf, parse conf path' = parse' conf path')
    (conf : ConfigNode) : fs.doInclude parse conf path = fs.doInclude parse' conf path := by
  rw [doInclude_eq,doInclude_eq]
  unfold Includes at h
  cases htexts : fs.texts path with
  | none => rw [Option.map_none,Option.map_none]
  | some ts =>
    rw [htexts] at h
    exact parseAll_congr hhonest h

end Texts

section Termination
variable {fs : ConfigFs} {path : BufText} {depth : ℕ}

/-- A parse of the path does not come to the depth, whatever the tree is. -/
def Shallow (fs : ConfigFs) (depth : ℕ) (path : BufText) : Prop := ∀ deeper deeper' conf,
  fs.parseWithin deeper depth conf path = fs.parseWithin deeper' depth conf path

theorem parseWithin_succ (deeper : ConfigNode → BufText → Exec (Ret × ConfigNode)) (depth : ℕ) :
    fs.parseWithin deeper (depth+1) = fs.parseWithin (fs.doInclude deeper) depth := by
  induction depth with
  | zero => rfl
  | succ depth ih =>
    rw [parseWithin,ih]
    rfl

theorem Shallow.mono {depth' : ℕ} (h : fs.Shallow depth path) (hle : depth ≤ depth') :
    fs.Shallow depth' path := by
  induction hle with
  | refl => exact h
  | step _ ih =>
    intro deeper deeper' conf
    rw [parseWithin_succ,parseWithin_succ]
    exact ih _ _ conf

/-- All paths of a list have a common depth. -/
theorem exists_shallow (paths : List BufText) (h : ∀ path ∈ paths, ∃ depth, fs.Shallow depth path) :
    ∃ depth, ∀ path ∈ paths, fs.Shallow depth path := by
  induction paths with
  | nil => exact ⟨0,by simp⟩
  | cons path paths ih =>
    obtain ⟨⟨d,hd⟩,hpaths⟩ := List.forall_mem_cons.mp h
    obtain ⟨d',hd'⟩ := ih hpaths
    exact ⟨max d d',List.forall_mem_cons.mpr ⟨hd.mono (le_max_left ..),
      fun q hq => (hd' q hq).mono (le_max_right ..)⟩⟩

theorem shallow_of_acc (h : Acc (flip fs.Includes) path) : ∃ depth, fs.Shallow depth path := by
  induction h with
  | intro path _ ih =>
    obtain ⟨depth,hdepth⟩ := exists_shallow (fs.includedAll ((fs.texts path).getD []))
      fun q hq => ih q hq
    refine ⟨depth+2,fun deeper deeper' conf => ?_⟩
    exact doInclude_congr (doInclude_honest fs _)
      (fun q hq => (hdepth q hq).mono (Nat.le_succ depth) deeper deeper') conf

/-- The paths of the lines of one file. -/
theorem included_mem {pairs : List (BufText × BufText)} (h : path ∈ fs.included pairs) :
    ∃ key, (key,path) ∈ pairs := by
  induction pairs with
  | nil => cases h
  | cons pair pairs ih =>
    obtain ⟨key,val⟩ := pair
    have hrest (h : path ∈ fs.included pairs) : ∃ k, (k,path) ∈ (key,val)::pairs := by
      obtain ⟨k,hk⟩ := ih h
      exact ⟨k,List.mem_cons_of_mem _ hk⟩
    simp only [included] at h
    split_ifs at h with hinc hread htry
    · rcases List.mem_cons.mp h with rfl | h
      · exact ⟨key,List.mem_cons_self⟩
      · exact hrest h
    · rw [List.mem_singleton.mp h]
      exact ⟨key,List.mem_cons_self⟩
    · rcases List.mem_cons.mp h with rfl | h
      · exact ⟨key,List.mem_cons_self⟩
      · exact hrest h
    · exact hrest h

theorem includedAll_mem {texts : List (Option Buffer)} (h : path ∈ fs.includedAll texts) :
    ∃ buf, some buf ∈ texts ∧ path ∈ fs.included (configPairs buf).1 := by
  induction texts with
  | nil => cases h
  | cons text texts ih =>
    rcases List.mem_append.mp h with h | h
    · cases text with
      | none => cases h
      | some buf => exact ⟨buf,List.mem_cons_self,h⟩
    · split_ifs at h
      · obtain ⟨buf,hbuf,hpath⟩ := ih h
        exact ⟨buf,List.mem_cons_of_mem _ hbuf,hpath⟩
      · cases h

/-- A text that is read is one of the files. -/
theorem readFile_mem {file : List UInt8} {buf : Buffer} (h : fs.readFile file = some buf) :
    ∃ content ∈ fs.files, buf = ⟨content ++ [0],content.length+1,content.length⟩ := by
  unfold readFile at h
  split at h
  · obtain ⟨content,hcontent,rfl⟩ := Option.map_eq_some_iff.mp h
    exact ⟨content,List.mem_of_getElem? hcontent,rfl⟩
  · cases h

theorem texts_mem {ts : List (Option Buffer)} {buf : Buffer} (h : fs.texts path = some ts)
    (hbuf : some buf ∈ ts) :
    ∃ content ∈ fs.files, buf = ⟨content ++ [0],content.length+1,content.length⟩ := by
  cases path with
  | none => cases h
  | some p =>
    simp only [texts] at h
    split at h
    · rw [← Option.some.inj h] at hbuf
      exact readFile_mem (List.mem_singleton.mp hbuf).symm
    · obtain ⟨names,_,rfl⟩ := Option.map_eq_some_iff.mp h
      obtain ⟨name,_,hname⟩ := List.mem_map.mp hbuf
      exact readFile_mem hname
    · cases h

/-- However many paths lead to a file, its lines include finitely many. -/
theorem includes_finite (fs : ConfigFs) : {b | ∃ a, fs.Includes a b}.Finite := by
  have hfin : {b | b ∈ fs.files.flatMap fun content =>
      (configPairs ⟨content ++ [0],content.length+1,content.length⟩).1.map Prod.snd}.Finite :=
    List.finite_toSet _
  refine hfin.subset fun b ⟨a,hb⟩ => ?_
  obtain ⟨buf,hbuf,hpath⟩ := includedAll_mem hb
  cases htexts : fs.texts a with
  | none =>
    rw [htexts] at hbuf
    cases hbuf
  | some ts =>
    rw [htexts] at hbuf
    obtain ⟨content,hcontent,rfl⟩ := texts_mem htexts hbuf
    obtain ⟨key,hkey⟩ := included_mem hpath
    exact List.mem_flatMap.mpr ⟨content,hcontent,List.mem_map.mpr ⟨(key,b),hkey,rfl⟩⟩

/-- Where no path is included on the way from itself, the parse ends. -/
theorem ends_of_acyclic (fs : ConfigFs) (conf : ConfigNode) (path : BufText)
    (h : ¬ CallGraph.ReachesCycle fs.Includes path) : fs.Ends conf path := by
  obtain ⟨depth,hdepth⟩ := shallow_of_acc ((CallGraph.acc_iff (includes_finite fs)).mpr h)
  exact ⟨depth,fun deeper deeper' => hdepth deeper deeper' conf⟩

end Termination

end ConfigFs

end Http2d
