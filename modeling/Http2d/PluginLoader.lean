import Http2d.AvlBuffer
import Http2d.BufferEscape
import Http2d.Library.CallGraph

/-! The loader of the plugins. Its table is the map that the tree keeps for names below 32768 bytes,
and the buffers of the file and symbol names are always built. Neither the stack nor the descriptors
of the process run out. An init function is the plugin's own: it is only known to run. -/
namespace Http2d

/-- `http2d_plugin_loader_entry_t`, and whether the init function of the plugin has run. -/
structure PluginEntry where
  info : ℕ
  dlopenRef : Option ℕ
  initialised : Bool
  deriving DecidableEq

/-- `http2d_plugin_loader_t`. The lengths of names of 32768 bytes or more are not compared as the map
has it. -/
structure PluginLoader where
  table : List UInt8 → Option PluginEntry
  moduleDir : List UInt8
  depsDir : List UInt8

/-- The system: the files that can be opened, what opening a library and looking for a symbol give,
and whether there is memory for the entry of a plugin. -/
structure PluginEnv where
  files : List (List UInt8 × List UInt8)
  dlopen : List UInt8 → ℕ → Option ℕ
  dlsym : ℕ → List UInt8 → Option ℕ
  malloc : List UInt8 → Bool
  rtldBase : ℕ
  rtldGlobal : ℕ
  modSuffix : List UInt8

/-- `fgets`: at most `n` bytes, up to the end of the line; and what is left of the file. -/
def fgets : ℕ → List UInt8 → List UInt8 × List UInt8
  | 0, file => ([],file)
  | _+1, [] => ([],[])
  | n+1, c::file => if c = 10 then ([c],file) else
    let (temp,rest) := fgets n file
    (c::temp,rest)

/-- What the calls of `fgets (temp, 127, file)` read until the end of the file. -/
def fgetsAll : ℕ → List UInt8 → List (List UInt8)
  | 0, _ => []
  | calls+1, file => if file = [] then [] else
    let (temp,rest) := fgets 126 file
    temp::fgetsAll calls rest

/-- The plugin that a line names, if any. -/
def depsName (temp : List UInt8) : Option (List UInt8) :=
  let temp := cString temp
  if temp.length < 2 then none
  else if temp.head? = some 35 then none
  else if temp.getLast? = some 10 then some temp.dropLast
  else some temp

/-- The plugins that a `.deps` file names, in the order of its lines. -/
def depsNames (file : List UInt8) : List (List UInt8) := (fgetsAll file.length file).filterMap depsName

namespace PluginLoader

open Avl

variable (env : PluginEnv) (l : PluginLoader)

/-- `http2d_avl_get_ptr`. -/
def tableGet (modname : List UInt8) : Ret × Option PluginEntry :=
  if nodeIsEmpty modname then (.error,none) else (mapCall l.table (.get modname)).1

/-- `http2d_avl_add_ptr`. -/
def tableAdd (modname : List UInt8) (entry : PluginEntry) : Ret × PluginLoader :=
  if nodeIsEmpty modname then (.error,l)
  else
    let (r,table) := mapCall l.table (.add modname entry)
    (r.1,{l with table := table})

/-- `"%s/libplugin_%s." MOD_SUFFIX`. -/
def libPath (libname : List UInt8) : List UInt8 :=
  l.moduleDir ++ [47,108,105,98,112,108,117,103,105,110,95] ++ libname ++ 46::env.modSuffix

/-- `"http2d_%s_info"`. -/
def infoName (module : List UInt8) : List UInt8 :=
  [104,116,116,112,50,100,95] ++ module ++ [95,105,110,102,111]

/-- `"http2d_plugin_%s_init"`. -/
def initName (module : List UInt8) : List UInt8 :=
  [104,116,116,112,50,100,95,112,108,117,103,105,110,95] ++ module ++ [95,105,110,105,116]

/-- `"%s/%s.deps"`. -/
def depsPath (modname : List UInt8) : List UInt8 :=
  l.depsDir ++ 47::modname ++ [46,100,101,112,115]

/-- `dylib_open`. -/
def dylibOpen (libname : List UInt8) (extraFlags : ℕ) : Ret × Option ℕ :=
  match env.dlopen (l.libPath env libname) (env.rtldBase ||| extraFlags) with
  | none => (.error,none)
  | some lib => (.ok,some lib)

/-- `get_info`: the info structure and the library. -/
def getInfo (module : List UInt8) (flags : ℕ) : Ret × Option (ℕ × ℕ) :=
  match l.dylibOpen env module flags with
  | (.ok,some dlHandler) =>
    match env.dlsym dlHandler (infoName module) with
    | none => (.notFound,none)
    | some info => (.ok,some (info,dlHandler))
  | _ => (.error,none)

/-- `execute_init_func`, and the entry after it. -/
def executeInitFunc (module : List UInt8) (entry : PluginEntry) : Ret × PluginEntry :=
  match entry.dlopenRef with
  | none => (.error,entry)
  | some lib =>
    match env.dlsym lib (initName module) with
    | none => (.notFound,entry)
    | some _ => (.ok,{entry with initialised := true})

/-- What `load_common` does once the dependencies were tried. -/
def loadModule (modname : List UInt8) (flags : ℕ) : Ret × PluginLoader :=
  match l.getInfo env modname flags with
  | (.ok,some (info,dlHandle)) =>
    if env.malloc modname = false then (.nomem,l)
    else
      let entry : PluginEntry := ⟨info,some dlHandle,false⟩
      let (ret,l) := l.tableAdd modname entry
      if ret ≠ .ok then (ret,l)
      else
        let (ret,entry) := executeInitFunc env modname entry
        (ret,{l with table := Function.update l.table modname (some entry)})
  | (ret,_) => (ret,l)

/-- The loop of `check_deps_file`; `load` is `http2d_plugin_loader_load`, which may not return. -/
def loadAll (load : PluginLoader → List UInt8 → Option (Ret × PluginLoader)) :
    PluginLoader → List (List UInt8) → Option PluginLoader
  | l, [] => some l
  | l, temp::temps => do
    let (_,l) ← load l temp
    loadAll load l temps

/-- What the `.deps` file of a plugin names; nothing when there is no such file. -/
def deps (modname : List UInt8) : List (List UInt8) :=
  ((env.files.lookup (l.depsPath modname)).map depsNames).getD []

/-- `check_deps_file`. -/
def checkDepsFile (load : PluginLoader → List UInt8 → Option (Ret × PluginLoader))
    (modname : List UInt8) : Option (Ret × PluginLoader) := do
  let l ← loadAll load l (l.deps env modname)
  some (.ok,l)

/-- `load_common`. -/
def loadCommon (load : PluginLoader → List UInt8 → Option (Ret × PluginLoader))
    (modname : List UInt8) (flags : ℕ) : Option (Ret × PluginLoader) :=
  if (l.tableGet modname).1 = .ok then some (.ok,l)
  else do
    let (ret,l) ← l.checkDepsFile env load modname
    if ret ≠ .ok then some (ret,l) else some (l.loadModule env modname flags)

/-- `http2d_plugin_loader_load`, with at most `depth` calls of it inside of each other; none when
that is not enough. -/
def load : ℕ → PluginLoader → List UInt8 → Option (Ret × PluginLoader)
  | 0, _, _ => none
  | depth+1, l, modname => l.loadCommon env (load depth) modname env.rtldGlobal

/-- The call returns. -/
def Loads (modname : List UInt8) (ret : Ret) (l' : PluginLoader) : Prop :=
  ∃ depth, load env depth l modname = some (ret,l')

/-- What the table has for a name. -/
def entry (modname : List UInt8) : Option PluginEntry := (l.tableGet modname).2

/-- The recursive calls of a load: a plugin that is not in the table calls those of its file. -/
def Calls (a b : List UInt8) : Prop := l.entry a = none ∧ b ∈ l.deps env a

/-- What becomes of a plugin that is not in the table: the return code, and the entry that is made
for it. -/
def attempt (modname : List UInt8) : Ret × Option PluginEntry :=
  match l.getInfo env modname env.rtldGlobal with
  | (.ok,some (info,dlHandle)) =>
    if env.malloc modname = false then (.nomem,none)
    else if nodeIsEmpty modname then (.error,none)
    else
      let (ret,entry) := executeInitFunc env modname ⟨info,some dlHandle,false⟩
      (ret,some entry)
  | (ret,_) => (ret,none)

def put (modname : List UInt8) : Option PluginEntry → PluginLoader
  | none => l
  | some entry => {l with table := Function.update l.table modname (some entry)}

section Table
variable {env l} {l' l'' : PluginLoader} {n : List UInt8}

theorem entry_eq (l : PluginLoader) (n : List UInt8) :
    l.entry n = if nodeIsEmpty n then none else l.table n := by
  cases hempty : nodeIsEmpty n <;> cases hn : l.table n <;>
    simp [entry,tableGet,mapCall,hempty,hn]

theorem tableGet_ok : (l.tableGet n).1 = .ok ↔ l.entry n ≠ none := by
  rw [entry_eq]
  cases hempty : nodeIsEmpty n <;> cases hn : l.table n <;> simp [tableGet,mapCall,hempty,hn]

theorem entry_put {e : PluginEntry} (hn : nodeIsEmpty n = false) (q : List UInt8) :
    (l.put n (some e)).entry q = if q = n then some e else l.entry q := by
  rw [entry_eq,entry_eq]
  by_cases hq : q = n
  · subst hq
    simp [put,hn]
  · simp [put,hq]

/-- The info structure is only found in a library that was opened. -/
theorem getInfo_ok {n : List UInt8} {flags : ℕ} {r : Option (ℕ × ℕ)}
    (h : l.getInfo env n flags = (.ok,r)) : ∃ info lib, r = some (info,lib) := by
  unfold getInfo at h
  split at h
  · split at h
    · cases h
    · cases h
      exact ⟨_,_,rfl⟩
  · cases h

/-- An entry is made exactly when the load fails no earlier than in the init function, and the load
is a success exactly when that has run. -/
theorem attempt_cases (env : PluginEnv) (l : PluginLoader) (n : List UInt8) :
    ((l.attempt env n).2 = none ∧ (l.attempt env n).1 ≠ .ok) ∨
    nodeIsEmpty n = false ∧ ∃ e, (l.attempt env n).2 = some e ∧
      ((l.attempt env n).1 = .ok ↔ e.initialised = true) := by
  unfold attempt
  split
  · split_ifs with hmalloc hempty
    · exact Or.inl ⟨rfl,by decide⟩
    · exact Or.inl ⟨rfl,by decide⟩
    · refine Or.inr ⟨Bool.not_eq_true _ ▸ hempty,_,rfl,?_⟩
      simp only [executeInitFunc]
      split <;> simp
  · rename_i ret r hne hinfo
    refine Or.inl ⟨rfl,fun hret => ?_⟩
    cases hret
    obtain ⟨info,lib,rfl⟩ := getInfo_ok hinfo
    exact hne info lib rfl rfl

theorem loadModule_eq (h : l.entry n = none) : l.loadModule env n env.rtldGlobal =
    ((l.attempt env n).1,l.put n (l.attempt env n).2) := by
  unfold loadModule attempt
  split
  · rename_i info lib hinfo
    split_ifs with hmalloc hempty
    · rfl
    · simp [tableAdd,hempty,put]
    · have hnone : l.table n = none := by
        rwa [entry_eq,if_neg hempty] at h
      simp [tableAdd,hempty,mapCall,hnone,put]
  · rfl

/-- A load keeps the entries that there are, and makes those that an attempt makes. -/
structure Extends (env : PluginEnv) (l l' : PluginLoader) : Prop where
  moduleDir : l'.moduleDir = l.moduleDir
  depsDir : l'.depsDir = l.depsDir
  kept : ∀ n e, l.entry n = some e → l'.entry n = some e
  made : ∀ n, l.entry n = none → l'.entry n = none ∨ l'.entry n = (l.attempt env n).2

theorem Extends.refl (l : PluginLoader) : Extends env l l :=
  ⟨rfl,rfl,fun _ _ h => h,fun _ h => Or.inl h⟩

theorem Extends.attempt_eq (h : Extends env l l') (n : List UInt8) :
    l'.attempt env n = l.attempt env n := by
  simp only [attempt,getInfo,dylibOpen,libPath,h.moduleDir]

theorem Extends.deps_eq (h : Extends env l l') (n : List UInt8) : l'.deps env n = l.deps env n := by
  simp only [deps,depsPath,h.depsDir]

theorem Extends.trans (h : Extends env l l') (h' : Extends env l' l'') : Extends env l l'' := by
  refine ⟨h'.moduleDir.trans h.moduleDir,h'.depsDir.trans h.depsDir,
    fun n e he => h'.kept n e (h.kept n e he),fun n hn => ?_⟩
  cases hl' : l'.entry n with
  | none =>
    rw [← h.attempt_eq]
    exact h'.made n hl'
  | some e =>
    have hsame := h'.kept n e hl'
    rcases h.made n hn with hnone | hmade
    · rw [hnone] at hl'
      cases hl'
    · exact Or.inr (hsame.trans (hl'.symm.trans hmade))

theorem Extends.absent (h : Extends env l l') (hn : l'.entry n = none) : l.entry n = none := by
  cases hl : l.entry n with
  | none => rfl
  | some e =>
    rw [h.kept n e hl] at hn
    cases hn

/-- What becomes of the plugin that is loaded, and of the others. -/
theorem loadModule_entry (h : l.entry n = none) (q : List UInt8) :
    (l.loadModule env n env.rtldGlobal).2.entry q =
      if q = n then (l.attempt env n).2 else l.entry q := by
  rw [loadModule_eq h]
  rcases attempt_cases env l n with ⟨hnone,_⟩ | ⟨hn,e,he,_⟩
  · simp only [hnone,put]
    split_ifs with hq
    · rw [hq,h]
    · rfl
  · rw [he,entry_put hn]

theorem loadModule_extends (h : l.entry n = none) :
    Extends env l (l.loadModule env n env.rtldGlobal).2 := by
  refine ⟨?_,?_,fun q e he => ?_,fun q hq => ?_⟩
  · rw [loadModule_eq h]
    cases (l.attempt env n).2 <;> rfl
  · rw [loadModule_eq h]
    cases (l.attempt env n).2 <;> rfl
  · have hqn : q ≠ n := by
      rintro rfl
      rw [h] at he
      cases he
    rw [loadModule_entry h,if_neg hqn,he]
  · rw [loadModule_entry h]
    split_ifs with hqn
    · exact Or.inr (by rw [hqn])
    · exact Or.inl hq

/-- A plugin that came into the table meanwhile is not added again. -/
theorem loadModule_present (h : l.entry n ≠ none) :
    (l.loadModule env n env.rtldGlobal).2 = l := by
  have hadd (e : PluginEntry) : l.tableAdd n e = (.error,l) := by
    rw [entry_eq] at h
    unfold tableAdd
    split_ifs at h ⊢ with hempty
    · exact absurd rfl h
    · obtain ⟨e',he'⟩ := Option.ne_none_iff_exists'.mp h
      simp [mapCall,he']
  unfold loadModule
  split
  · split_ifs
    · rfl
    · simp [hadd]
  · rfl

end Table

section Depth
variable {env : PluginEnv} {l l' : PluginLoader} {n : List UInt8}
variable {call call' : PluginLoader → List UInt8 → Option (Ret × PluginLoader)}

theorem loadAll_mono (h : ∀ l n x, call l n = some x → call' l n = some x) {ns : List (List UInt8)}
    (hall : loadAll call l ns = some l') : loadAll call' l ns = some l' := by
  induction ns generalizing l with
  | nil => exact hall
  | cons n ns ih =>
    obtain ⟨x,hx,hall⟩ := Option.bind_eq_some_iff.mp hall
    exact Option.bind_eq_some_iff.mpr ⟨x,h _ _ _ hx,ih hall⟩

/-- How a load that returns went. -/
theorem loadCommon_cases {r : Ret} (h : l.loadCommon env call n env.rtldGlobal = some (r,l')) :
    l.entry n ≠ none ∧ r = .ok ∧ l' = l ∨
    l.entry n = none ∧ ∃ d, loadAll call l (l.deps env n) = some d ∧
      (r,l') = d.loadModule env n env.rtldGlobal := by
  unfold loadCommon at h
  split_ifs at h with hin
  · cases h
    exact Or.inl ⟨tableGet_ok.mp hin,rfl,rfl⟩
  · obtain ⟨⟨r',d⟩,hd,h⟩ := Option.bind_eq_some_iff.mp h
    obtain ⟨d',hd',heq⟩ := Option.bind_eq_some_iff.mp hd
    cases heq
    exact Or.inr ⟨not_not.mp fun hne => hin (tableGet_ok.mpr hne),d,hd',(Option.some.inj h).symm⟩

theorem loadCommon_of_absent (h : l.entry n = none) {d : PluginLoader}
    (hd : loadAll call l (l.deps env n) = some d) :
    l.loadCommon env call n env.rtldGlobal = some (d.loadModule env n env.rtldGlobal) := by
  have hin : ¬ (l.tableGet n).1 = .ok := fun hok => tableGet_ok.mp hok h
  rw [loadCommon,if_neg hin,checkDepsFile,hd]
  rfl

theorem loadCommon_of_present (h : l.entry n ≠ none) :
    l.loadCommon env call n env.rtldGlobal = some (.ok,l) := if_pos (tableGet_ok.mpr h)

/-- More depth does no harm. -/
theorem load_succ (depth : ℕ) : ∀ l n x, load env depth l n = some x →
    load env (depth+1) l n = some x := by
  induction depth with
  | zero => exact fun _ _ _ h => by cases h
  | succ depth ih =>
    intro l n x h
    rcases loadCommon_cases h with ⟨hin,hr,hl⟩ | ⟨hin,d,hd,hx⟩
    · rw [show x = (.ok,l) from Prod.ext hr hl]
      exact loadCommon_of_present hin
    · rw [show x = d.loadModule env n env.rtldGlobal from hx]
      exact loadCommon_of_absent hin (loadAll_mono ih hd)

theorem load_le {depth depth' : ℕ} (hle : depth ≤ depth') {x : Ret × PluginLoader}
    (h : load env depth l n = some x) : load env depth' l n = some x := by
  induction hle with
  | refl => exact h
  | step _ ih => exact load_succ _ _ _ _ ih

/-- What every load preserves. -/
theorem load_invariant {I : PluginLoader → PluginLoader → Prop} (hrefl : ∀ l, I l l)
    (htrans : ∀ l l' l'', I l l' → I l' l'' → I l l'')
    (hmodule : ∀ l d n, I l d → l.entry n = none → I l (d.loadModule env n env.rtldGlobal).2)
    {depth : ℕ} : ∀ {l n r l'}, load env depth l n = some (r,l') → I l l' := by
  induction depth with
  | zero => exact fun h => by cases h
  | succ depth ih =>
    intro l n r l' h
    have hall {l l' : PluginLoader} {ns : List (List UInt8)}
        (hns : loadAll (load env depth) l ns = some l') : I l l' := by
      induction ns generalizing l with
      | nil => exact Option.some.inj hns ▸ hrefl l
      | cons n ns ihns =>
        obtain ⟨⟨r,d⟩,hd,hns⟩ := Option.bind_eq_some_iff.mp hns
        exact htrans _ _ _ (ih hd) (ihns hns)
    rcases loadCommon_cases h with ⟨_,_,rfl⟩ | ⟨hin,d,hd,hx⟩
    · exact hrefl _
    · rw [show l' = (d.loadModule env n env.rtldGlobal).2 from congrArg Prod.snd hx]
      exact hmodule l d n (hall hd) hin

theorem load_extends {depth : ℕ} {r : Ret} (h : load env depth l n = some (r,l')) :
    Extends env l l' := by
  refine load_invariant Extends.refl (fun _ _ _ => Extends.trans) (fun l d n hd _ => ?_) h
  cases hn : d.entry n with
  | none => exact hd.trans (loadModule_extends hn)
  | some e => rwa [loadModule_present (by rw [hn]; simp)]

theorem loadAll_extends {depth : ℕ} {ns : List (List UInt8)}
    (h : loadAll (load env depth) l ns = some l') : Extends env l l' := by
  induction ns generalizing l with
  | nil => exact Option.some.inj h ▸ Extends.refl l
  | cons n ns ih =>
    obtain ⟨⟨r,d⟩,hd,h⟩ := Option.bind_eq_some_iff.mp h
    exact (load_extends hd).trans (ih h)

/-- A plugin that was loaded is in the table, or the attempt made no entry. -/
theorem load_settled {depth : ℕ} {r : Ret} (h : load env depth l n = some (r,l')) :
    l'.entry n ≠ none ∨ (l.attempt env n).2 = none := by
  cases depth with
  | zero => cases h
  | succ depth =>
    rcases loadCommon_cases h with ⟨hin,_,rfl⟩ | ⟨hin,d,hd,hx⟩
    · exact Or.inl hin
    have hl' : l' = (d.loadModule env n env.rtldGlobal).2 := congrArg Prod.snd hx
    cases hn : d.entry n with
    | some e =>
      rw [hl',loadModule_present (by rw [hn]; simp),hn]
      exact Or.inl (by simp)
    | none =>
      rw [hl',loadModule_entry hn,if_pos rfl,(loadAll_extends hd).attempt_eq]
      rcases attempt_cases env l n with ⟨hnone,_⟩ | ⟨_,e,he,_⟩
      · exact Or.inr hnone
      · exact Or.inl (by rw [he]; simp)

end Depth

section Termination
variable {env : PluginEnv} {l : PluginLoader} {m : List UInt8}

/-- The files name finitely many plugins. -/
theorem calls_finite (env : PluginEnv) (l : PluginLoader) : {b | ∃ a, l.Calls env a b}.Finite := by
  have hnames : {b | b ∈ env.files.flatMap fun file => depsNames file.2}.Finite := List.finite_toSet _
  refine hnames.subset fun b ⟨a,_,hb⟩ => ?_
  unfold deps at hb
  cases hfile : env.files.lookup (l.depsPath a) with
  | none => simp [hfile] at hb
  | some content =>
    obtain ⟨l₁,l₂,hl,_⟩ := List.lookup_eq_some_iff.mp hfile
    refine List.mem_flatMap.mpr ⟨(l.depsPath a,content),by simp [hl],?_⟩
    simpa [hfile] using hb

/-- What was loaded since `l` calls nothing endlessly. -/
def Ended (env : PluginEnv) (l l' : PluginLoader) : Prop := Extends env l l' ∧
  ∀ n, l.entry n = none → l'.entry n ≠ none → Acc (flip (l.Calls env)) n

/-- A load that returns has ended its recursive calls: a plugin comes into the table only after the
loads of its dependencies returned. -/
theorem load_acc {depth : ℕ} : ∀ {d n r d'}, Ended env l d → load env depth d n = some (r,d') →
    Ended env l d' ∧ Acc (flip (l.Calls env)) n := by
  induction depth with
  | zero => exact fun _ h => by cases h
  | succ depth ih =>
    intro d n r d' hended h
    have hall {d d' : PluginLoader} {ns : List (List UInt8)} (hended : Ended env l d)
        (hns : loadAll (load env depth) d ns = some d') :
        Ended env l d' ∧ ∀ n ∈ ns, Acc (flip (l.Calls env)) n := by
      induction ns generalizing d with
      | nil => exact Option.some.inj hns ▸ ⟨hended,by simp⟩
      | cons n ns ihns =>
        obtain ⟨⟨r,c⟩,hc,hns⟩ := Option.bind_eq_some_iff.mp hns
        obtain ⟨hc,hn⟩ := ih hended hc
        obtain ⟨hd',hrest⟩ := ihns hc hns
        exact ⟨hd',List.forall_mem_cons.mpr ⟨hn,hrest⟩⟩
    rcases loadCommon_cases h with ⟨hin,_,rfl⟩ | ⟨hin,c,hc,hx⟩
    · refine ⟨hended,?_⟩
      by_cases hl : l.entry n = none
      · exact hended.2 n hl hin
      · exact ⟨_,fun _ hcalls => absurd hcalls.1 hl⟩
    obtain ⟨⟨hext,hacc⟩,hdeps⟩ := hall hended hc
    have hn : Acc (flip (l.Calls env)) n :=
      ⟨_,fun b hb => hdeps b (by rw [hended.1.deps_eq]; exact hb.2)⟩
    refine ⟨⟨hended.1.trans (load_extends h),fun q hq hq' => ?_⟩,hn⟩
    have hd' : d' = (c.loadModule env n env.rtldGlobal).2 := congrArg Prod.snd hx
    by_cases hqn : q = n
    · rwa [hqn]
    refine hacc q hq fun hcq => hq' ?_
    cases hcn : c.entry n with
    | none => rw [hd',loadModule_entry hcn,if_neg hqn,hcq]
    | some e => rw [hd',loadModule_present (by rw [hcn]; simp),hcq]

/-- Where the recursive calls end, the load returns. -/
theorem loads_of_acc (h : Acc (flip (l.Calls env)) m) : ∀ {d : PluginLoader}, Extends env l d →
    ∃ r d', d.Loads env m r d' := by
  induction h with
  | intro m _ ih =>
    intro d hext
    by_cases hin : d.entry m = none
    · have hl := hext.absent hin
      have hall (ns : List (List UInt8)) (hns : ∀ n ∈ ns, n ∈ l.deps env m) :
          ∀ {d : PluginLoader}, Extends env l d →
            ∃ depth d', loadAll (load env depth) d ns = some d' := by
        induction ns with
        | nil => exact fun _ => ⟨0,_,rfl⟩
        | cons n ns ihns =>
          intro d hext
          obtain ⟨hn,hns⟩ := List.forall_mem_cons.mp hns
          obtain ⟨r,c,depth,hc⟩ := ih n ⟨hl,hn⟩ hext
          obtain ⟨depth',d',hd'⟩ := ihns hns (hext.trans (load_extends hc))
          refine ⟨max depth depth',d',Option.bind_eq_some_iff.mpr ⟨(r,c),?_,?_⟩⟩
          · exact load_le (le_max_left ..) hc
          · exact loadAll_mono (fun _ _ _ => load_le (le_max_right ..)) hd'
      obtain ⟨depth,c,hc⟩ := hall (d.deps env m) (by rw [hext.deps_eq]; exact fun _ => id) hext
      exact ⟨_,_,depth+1,loadCommon_of_absent hin hc⟩
    · exact ⟨_,_,1,loadCommon_of_present hin⟩

theorem acc_of_loads {r : Ret} {l' : PluginLoader} (h : l.Loads env m r l') :
    Acc (flip (l.Calls env)) m := by
  obtain ⟨depth,h⟩ := h
  exact (load_acc ⟨Extends.refl l,fun n hn hn' => absurd hn hn'⟩ h).2

/-- With stack and descriptors for every depth, a load returns exactly when its recursive calls do not
come to a cycle of plugins that are not in the table. -/
theorem loads_iff (env : PluginEnv) (l : PluginLoader) (m : List UInt8) :
    (∃ r l', l.Loads env m r l') ↔ ¬ CallGraph.ReachesCycle (l.Calls env) m := by
  rw [← CallGraph.acc_iff (calls_finite env l)]
  exact ⟨fun ⟨_,_,h⟩ => acc_of_loads h,fun h => loads_of_acc h (Extends.refl l)⟩

/-- A system with one library, which has an info structure and an init function for all names, and
with the given `.deps` files. -/
def oneLibrary (files : List (List UInt8 × List UInt8)) : PluginEnv :=
  ⟨files,fun _ _ => some 1,fun _ _ => some 2,fun _ => true,1,256,[115,111]⟩

/-- A new loader. -/
def new : PluginLoader := ⟨fun _ => none,[109],[100]⟩

/-- The file `d/x.deps` names `x`. -/
theorem not_loads_self : ¬ ∃ r l', new.Loads
    (oneLibrary [([100,47,120,46,100,101,112,115],[120,10])]) [120] r l' := by
  rintro ⟨r,l',h⟩
  exact CallGraph.not_acc_of_cycle (.single ⟨rfl,by decide⟩) (acc_of_loads h)

end Termination

section Atomicity
variable {env : PluginEnv} {l l' d : PluginLoader} {m n : List UInt8}

/-- The plugin is in the table and initialised. -/
def Ready (l : PluginLoader) (n : List UInt8) : Prop := ∃ e, l.entry n = some e ∧ e.initialised = true

def DependsOn (env : PluginEnv) (l : PluginLoader) (a b : List UInt8) : Prop := b ∈ l.deps env a

/-- A success means that the plugin and those of its file are ready, and anything else that the
plugin is not in the table. -/
def AllOrNothing (env : PluginEnv) (l : PluginLoader) (m : List UInt8) : Prop :=
  ∃ r l', l.Loads env m r l' ∧ (r = .ok → l'.Ready m ∧ ∀ d ∈ l.deps env m, l'.Ready d) ∧
    (r ≠ .ok → l'.entry m = none)

/-- The plugin and those of its file are ready; or it is not in the table, and no entry is made for
it, or it can be loaded and initialised and so can those of its file that are not ready. -/
def Whole (env : PluginEnv) (l : PluginLoader) (m : List UInt8) : Prop :=
  l.Ready m ∧ (∀ d ∈ l.deps env m, l.Ready d) ∨
  l.entry m = none ∧ ((l.attempt env m).2 = none ∨ (l.attempt env m).1 = .ok ∧
    ∀ d ∈ l.deps env m, l.Ready d ∨ l.entry d = none ∧ (l.attempt env d).1 = .ok)

theorem attempt_ok : (l.attempt env n).1 = .ok ↔
    ∃ e, (l.attempt env n).2 = some e ∧ e.initialised = true := by
  rcases attempt_cases env l n with ⟨hnone,hret⟩ | ⟨_,e,he,hret⟩
  · simp [hnone,hret]
  · simp [he,hret]

/-- The plugins that a load of `n` can bring into the table. -/
def Adds (env : PluginEnv) (l : PluginLoader) (n : List UInt8) (d d' : PluginLoader) : Prop :=
  ∀ q, d.entry q = none → d'.entry q ≠ none → Relation.ReflTransGen (DependsOn env l) n q

theorem loadAll_adds {depth : ℕ} (hload : ∀ {d n r d'}, Extends env l d →
    load env depth d n = some (r,d') → Adds env l n d d') {ns : List (List UInt8)} {q : List UInt8}
    (hext : Extends env l d) (hns : loadAll (load env depth) d ns = some l')
    (hq : d.entry q = none) (hq' : l'.entry q ≠ none) :
    ∃ n ∈ ns, Relation.ReflTransGen (DependsOn env l) n q := by
  induction ns generalizing d with
  | nil => exact absurd (Option.some.inj hns ▸ hq) hq'
  | cons n ns ih =>
    obtain ⟨⟨r,c⟩,hc,hns⟩ := Option.bind_eq_some_iff.mp hns
    by_cases hcq : c.entry q = none
    · obtain ⟨k,hk,hreach⟩ := ih (hext.trans (load_extends hc)) hns hcq
      exact ⟨k,List.mem_cons_of_mem _ hk,hreach⟩
    · exact ⟨n,List.mem_cons_self,hload hext hc q hq hcq⟩

/-- A load brings only plugins into the table that the plugin leads to. -/
theorem load_adds {depth : ℕ} : ∀ {d n r d'}, Extends env l d → load env depth d n = some (r,d') →
    Adds env l n d d' := by
  induction depth with
  | zero => exact fun _ h => by cases h
  | succ depth ih =>
    intro d n r d' hext h q hq hq'
    rcases loadCommon_cases h with ⟨_,_,rfl⟩ | ⟨_,c,hc,hx⟩
    · exact absurd hq hq'
    have hd' : d' = (c.loadModule env n env.rtldGlobal).2 := congrArg Prod.snd hx
    by_cases hcq : c.entry q = none
    · by_cases hqn : q = n
      · exact hqn ▸ .refl
      refine absurd ?_ hq'
      cases hcn : c.entry n with
      | none => rw [hd',loadModule_entry hcn,if_neg hqn,hcq]
      | some e => rw [hd',loadModule_present (by rw [hcn]; simp),hcq]
    · obtain ⟨k,hk,hreach⟩ := loadAll_adds ih hext hc hq hcq
      exact .head (show k ∈ l.deps env n from hext.deps_eq n ▸ hk) hreach

theorem loadAll_settled {depth : ℕ} {ns : List (List UInt8)}
    (h : loadAll (load env depth) l ns = some d) :
    ∀ n ∈ ns, d.entry n ≠ none ∨ (l.attempt env n).2 = none := by
  induction ns generalizing l with
  | nil => simp
  | cons n ns ih =>
    obtain ⟨⟨r,c⟩,hc,h⟩ := Option.bind_eq_some_iff.mp h
    have hext := load_extends hc
    refine List.forall_mem_cons.mpr ⟨?_,fun k hk => ?_⟩
    · refine (load_settled hc).imp_left fun hn hd => hn ((loadAll_extends h).absent hd)
    · rw [← hext.attempt_eq]
      exact ih h k hk

/-- A dependency is ready after its load when it was ready or could be loaded. -/
theorem ready_iff (hext : Extends env l d)
    (hset : d.entry n ≠ none ∨ (l.attempt env n).2 = none) :
    d.Ready n ↔ l.Ready n ∨ l.entry n = none ∧ (l.attempt env n).1 = .ok := by
  cases hn : l.entry n with
  | some e =>
    have hkept := hext.kept n e hn
    simp [Ready,hn,hkept]
  | none =>
    rw [attempt_ok]
    rcases hext.made n hn with hd | hd
    · have hnone := hset.resolve_left fun hne => hne hd
      simp [Ready,hn,hd,hnone]
    · simp [Ready,hn,hd]

theorem Loads.unique {r r' : Ret} (h : l.Loads env m r l') (h' : l.Loads env m r' d) :
    r = r' ∧ l' = d := by
  obtain ⟨depth,h⟩ := h
  obtain ⟨depth',h'⟩ := h'
  have hsame := (load_le (le_max_left depth depth') h).symm.trans (load_le (le_max_right ..) h')
  exact Prod.mk.inj (Option.some.inj hsame)

theorem allOrNothing_of_loads {r : Ret} (h : l.Loads env m r l') : AllOrNothing env l m ↔
    (r = .ok → l'.Ready m ∧ ∀ d ∈ l.deps env m, l'.Ready d) ∧ (r ≠ .ok → l'.entry m = none) := by
  refine ⟨fun ⟨r',d,hd,hall⟩ => ?_,fun hall => ⟨r,l',h,hall⟩⟩
  obtain ⟨rfl,rfl⟩ := h.unique hd
  exact hall

theorem loads_of_acyclic (hacyclic : ∀ n, ¬ Relation.TransGen (DependsOn env l) n n) :
    ∃ r l', l.Loads env m r l' := by
  refine loads_of_acc ((CallGraph.acc_iff (calls_finite env l)).mpr ?_) (Extends.refl l)
  rintro ⟨c,_,hcycle⟩
  exact hacyclic c (Relation.TransGen.mono (fun _ _ h => h.2) _ _ hcycle)

/-- How the load of a plugin went that was not in the table: its dependencies were tried, and it is
not one of theirs. -/
theorem loads_absent (hacyclic : ∀ n, ¬ Relation.TransGen (DependsOn env l) n n)
    (hm : l.entry m = none) {r : Ret} (h : l.Loads env m r l') : r = (l.attempt env m).1 ∧
    l'.entry m = (l.attempt env m).2 ∧ ∀ d ∈ l.deps env m,
      (l'.Ready d ↔ l.Ready d ∨ l.entry d = none ∧ (l.attempt env d).1 = .ok) := by
  obtain ⟨depth,h⟩ := h
  cases depth with
  | zero => cases h
  | succ depth =>
    obtain ⟨_,c,hc,hx⟩ := (loadCommon_cases h).resolve_left fun hin => hin.1 hm
    have hext := loadAll_extends hc
    have hcm : c.entry m = none := by
      by_contra hcm
      obtain ⟨k,hk,hreach⟩ := loadAll_adds load_adds (Extends.refl l) hc hm hcm
      exact hacyclic m (.head' hk hreach)
    have hl' : l' = (c.loadModule env m env.rtldGlobal).2 := congrArg Prod.snd hx
    refine ⟨?_,?_,fun d hd => ?_⟩
    · rw [show r = (c.loadModule env m env.rtldGlobal).1 from congrArg Prod.fst hx,
        loadModule_eq hcm,hext.attempt_eq]
    · rw [hl',loadModule_entry hcm,if_pos rfl,hext.attempt_eq]
    · have hdm : d ≠ m := by
        rintro rfl
        exact hacyclic d (.single hd)
      have hsame : l'.Ready d ↔ c.Ready d := by
        rw [Ready,Ready,hl',loadModule_entry hcm,if_neg hdm]
      exact hsame.trans (ready_iff hext (loadAll_settled hc d hd))

/-- Where the dependencies have no cycle, a load is all or nothing exactly when the plugin and its
dependencies are ready, or it is not in the table and fails before its entry is made, or it and the
dependencies that are not ready can be loaded. -/
theorem allOrNothing_iff (env : PluginEnv) (l : PluginLoader) (m : List UInt8)
    (hacyclic : ∀ n, ¬ Relation.TransGen (DependsOn env l) n n) :
    AllOrNothing env l m ↔ Whole env l m := by
  unfold Whole
  cases hm : l.entry m with
  | some e =>
    have hloads : l.Loads env m .ok l := ⟨1,loadCommon_of_present (by rw [hm]; simp)⟩
    rw [allOrNothing_of_loads hloads]
    simp
  | none =>
    obtain ⟨r,l',h⟩ := loads_of_acyclic (m:=m) hacyclic
    obtain ⟨hr,hl',hdeps⟩ := loads_absent hacyclic hm h
    have hnot : ¬ l.Ready m := fun ⟨e,he,_⟩ => by
      rw [hm] at he
      cases he
    rw [allOrNothing_of_loads h,hr,hl']
    have hall : (∀ d ∈ l.deps env m, l'.Ready d) ↔ ∀ d ∈ l.deps env m,
        l.Ready d ∨ l.entry d = none ∧ (l.attempt env d).1 = .ok :=
      forall₂_congr hdeps
    rw [hall]
    by_cases hok : (l.attempt env m).1 = .ok
    · obtain ⟨e,he,hinit⟩ := attempt_ok.mp hok
      have hready : l'.Ready m := ⟨e,hl'.trans he,hinit⟩
      simp [hok,hready,hnot,he]
    · simp [hok,hnot]

/-- The file `d/x.deps` names `y`, which has no file. -/
def xNeedsY : List (List UInt8 × List UInt8) := [([100,47,120,46,100,101,112,115],[121,121,10])]

theorem xNeedsY_acyclic {env : PluginEnv} (henv : env.files = xNeedsY) (n : List UInt8) :
    ¬ Relation.TransGen (DependsOn env new) n n := by
  have hedge {a b : List UInt8} (h : DependsOn env new a b) : a = [120] ∧ b = [121,121] := by
    simp only [DependsOn,deps,henv,xNeedsY,depsPath,new] at h
    by_cases ha : a = [120]
    · subst ha
      exact ⟨rfl,List.mem_singleton.mp h⟩
    · have hne : (a ++ [46,100,101,112,115] == [120,46,100,101,112,115]) = false :=
        beq_eq_false_iff_ne.mpr fun h => ha (List.append_cancel_right (show a ++ _ = [120] ++ _ from h))
      simp [List.lookup_singleton,hne] at h
  intro h
  obtain ⟨b,hfirst,_⟩ := Relation.TransGen.head'_iff.mp h
  obtain ⟨c,_,hlast⟩ := Relation.TransGen.tail'_iff.mp h
  have hx := (hedge hfirst).1
  rw [(hedge hlast).2] at hx
  cases hx

theorem allOrNothing_iff_xNeedsY :
    (∀ n, ¬ Relation.TransGen (DependsOn (oneLibrary xNeedsY) new) n n) ∧
    (AllOrNothing (oneLibrary xNeedsY) new [120] ↔ Whole (oneLibrary xNeedsY) new [120]) :=
  ⟨xNeedsY_acyclic rfl,allOrNothing_iff _ _ _ (xNeedsY_acyclic rfl)⟩

/-- Only `x` can be opened. -/
def onlyX : PluginEnv := {oneLibrary xNeedsY with
  dlopen := fun path _ => if path = [109,47,108,105,98,112,108,117,103,105,110,95,120,46,115,111]
    then some 1 else none}

/-- The library has no init function. -/
def noInit : PluginEnv := {oneLibrary [] with
  dlsym := fun _ sym => if sym = infoName [120] then some 2 else none}

/-- A plugin is loaded without the one that it needs; and one that was not initialised stays in the
table, so that it is loaded the next time. -/
theorem not_allOrNothing :
    ((∀ n, ¬ Relation.TransGen (DependsOn onlyX new) n n) ∧ ∃ l', new.Loads onlyX [120] .ok l' ∧
      l'.entry [121,121] = none ∧ ¬ AllOrNothing onlyX new [120]) ∧
    ∃ l', new.Loads noInit [120] .notFound l' ∧ ¬ l'.Ready [120] ∧ l'.Loads noInit [120] .ok l' ∧
      ¬ AllOrNothing noInit new [120] := by
  have hx : load onlyX 2 new [120] = some (.ok,_) := rfl
  have hno : load noInit 1 new [120] = some (.notFound,_) := rfl
  refine ⟨⟨xNeedsY_acyclic rfl,_,⟨2,hx⟩,rfl,fun h => ?_⟩,_,⟨1,hno⟩,?_,⟨1,rfl⟩,fun h => ?_⟩
  · obtain ⟨e,he,_⟩ := (((allOrNothing_of_loads ⟨2,hx⟩).mp h).1 rfl).2 [121,121] (by decide)
    cases he
  · rintro ⟨e,he,hinit⟩
    cases he
    cases hinit
  · have hnone := ((allOrNothing_of_loads ⟨1,hno⟩).mp h).2 (by decide)
    cases hnone

end Atomicity

end PluginLoader

end Http2d
