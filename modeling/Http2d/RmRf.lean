import Http2d.Common
import Http2d.Library.FileTree
import Http2d.Library.Lines

/-! `http2d_rm_rf` of util.c over a file system with symbolic links. The process may read and change
every directory. -/
namespace Http2d
open FileTree

abbrev FsPlace := List (List UInt8)

abbrev FsNode := Node (List UInt8) UInt32

/-- A name that an entry can have. -/
def EntryName (n : List UInt8) : Prop := n ≠ [] ∧ 47 ∉ n ∧ n ≠ [46] ∧ n ≠ [46,46]

/-- The files of a system; there are finitely many, and they hang together. -/
structure Disk where
  node : Tree (List UInt8) UInt32
  places : List FsPlace
  listed : ∀ p x, node p = some x → p ∈ places
  nodup : places.Nodup
  parent : ∀ p n, node (p ++ [n]) ≠ none → isDir node p
  names : ∀ p x, node p = some x → ∀ n ∈ p, EntryName n

/-- What is seen of a run. For an entry that is entered or unlinked, `own` is the node at the entry itself,
and `known` says whether the status that was looked at had been written; `gone` is the node that a call
removed at `place`. -/
inductive RmEvent
  | enter (own : Option FsNode) (known : Bool)
  | unlink (own : Option FsNode) (known : Bool) (place : FsPlace) (gone : Option FsNode)
  | rmdir (place : FsPlace) (gone : Option FsNode)
  deriving DecidableEq

/-- Where the process is, and how many links it can follow on one path. -/
structure PathCalls where
  cwd : FsPlace
  maxLinks : ℕ

/-- What else the system decides: in which order a directory is read, and what the record of a status
holds before it is written. -/
structure FileCalls extends PathCalls where
  order : FsPlace → List (List UInt8) → List (List UInt8)
  order_perm : ∀ p l, (order p l).Perm l
  stack : List RmEvent → Kind (List UInt8)

/-- `(uid_t) -1`. -/
def noUid : UInt32 := 4294967295

namespace Disk

/-- The names in a directory, except the dot and the two dots. -/
def entries (fs : Disk) (p : FsPlace) : List (List UInt8) :=
  fs.places.filterMap fun q => if q.dropLast = p ∧ (fs.node q).isSome then q.getLast? else none

/-- What is there without one place, at which no directory with entries is. -/
def remove (fs : Disk) (p : FsPlace) (h : ∀ n, fs.node (p ++ [n]) = none) : Disk where
  node := Function.update fs.node p none
  places := fs.places
  listed q x hq := by
    by_cases hqp : q = p
    · rw [hqp,Function.update_self] at hq
      cases hq
    · rw [Function.update_of_ne hqp] at hq
      exact fs.listed q x hq
  nodup := fs.nodup
  parent q n hq := by
    have hn : fs.node (q ++ [n]) ≠ none := fun hnone => hq (by
      rw [Function.update_apply]
      split_ifs
      · rfl
      · exact hnone)
    have hqp : q ≠ p := fun he => hn (he ▸ h n)
    obtain ⟨owner,ho⟩ := isDir_iff.mp (fs.parent q n hn)
    exact isDir_iff.mpr ⟨owner,by rw [Function.update_of_ne hqp,ho]⟩
  names q x hq := by
    by_cases hqp : q = p
    · rw [hqp,Function.update_self] at hq
      cases hq
    · rw [Function.update_of_ne hqp] at hq
      exact fs.names q x hq

theorem mem_entries {fs : Disk} {p : FsPlace} {n : List UInt8} :
    n ∈ fs.entries p ↔ fs.node (p ++ [n]) ≠ none := by
  simp only [entries,List.mem_filterMap]
  constructor
  · rintro ⟨q,-,hq⟩
    split_ifs at hq with h
    obtain ⟨rfl,hsome⟩ := h
    have hq' : q.dropLast ++ [n] = q := List.dropLast_append_getLast? n hq
    rw [hq']
    exact Option.isSome_iff_ne_none.mp hsome
  · intro hn
    obtain ⟨x,hx⟩ := Option.ne_none_iff_exists'.mp hn
    exact ⟨p ++ [n],fs.listed _ x hx,by simp [hx]⟩

theorem none_below {fs : Disk} {p : FsPlace} (h : isDir fs.node p = false) (n : List UInt8) :
    fs.node (p ++ [n]) = none := by
  by_contra hn
  rw [fs.parent p n hn] at h
  cases h

theorem none_of_entries {fs : Disk} {p : FsPlace} (h : fs.entries p = []) (n : List UInt8) :
    fs.node (p ++ [n]) = none := by
  by_contra hn
  have hmem := mem_entries.mpr hn
  rw [h] at hmem
  cases hmem

end Disk

/-- The components of a path. -/
def pathSteps (path : List UInt8) : List (Step (List UInt8)) :=
  ((path.splitOn 47).filter (· ≠ [])).map fun n =>
    if n = [46] then .here else if n = [46,46] then .up else .name n

namespace Disk
variable (sys : PathCalls) (fs : Disk)

/-- The directory in which the resolution of a path begins. -/
def start (path : List UInt8) : FsPlace := if path.head? = some 47 then [] else sys.cwd

/-- Where a path leads, with all links followed; a separator at the end asks for a directory. -/
def resolve (path : List UInt8) : Option FsPlace :=
  if path = [] then none
  else (walkFrom fs.node sys.maxLinks (start sys path) (pathSteps path ++
    if path.getLast? = some 47 then [.here] else [])).map (·.1)

/-- The entry that a path names, whose own link is not followed. -/
def entryAt (path : List UInt8) : Option FsPlace :=
  match (pathSteps path).getLast? with
  | some (.name n) =>
    (walkFrom fs.node sys.maxLinks (start sys path) (pathSteps path).dropLast).bind fun r =>
      if isDir fs.node r.1 then some (r.1 ++ [n]) else none
  | _ => none

def stat (path : List UInt8) : Option FsNode := (fs.resolve sys path).bind fs.node

/-- The directory that is read. -/
def opendir (path : List UInt8) : Option FsPlace :=
  (fs.resolve sys path).filter fun p => isDir fs.node p

/-- `unlink`; the entry that is gone. -/
def unlink (path : List UInt8) : Disk × Option FsPlace :=
  match fs.entryAt sys path with
  | none => (fs,none)
  | some p =>
    if h : fs.node p ≠ none ∧ isDir fs.node p = false then (fs.remove p (none_below h.2),some p)
    else (fs,none)

/-- `rmdir`; the directory that is gone. -/
def rmdir (path : List UInt8) : Disk × Option FsPlace :=
  match fs.entryAt sys path with
  | none => (fs,none)
  | some p =>
    if h : isDir fs.node p ∧ fs.entries p = [] then (fs.remove p (none_of_entries h.2),some p)
    else (fs,none)

end Disk

/-- The state of a run. -/
structure RmState where
  fs : Disk
  log : List RmEvent

namespace RmState
variable (sys : FileCalls)

def note (s : RmState) (ev : RmEvent) : RmState := {s with log := s.log ++ [ev]}

/-- The call of `unlink` for an entry of the directory `d`. -/
def unlink (s : RmState) (d : FsPlace) (name tmp : List UInt8) (known : Bool) : RmState :=
  match s.fs.unlink sys.toPathCalls tmp with
  | (_,none) => s
  | (fs,some p) => ⟨fs,s.log ++ [.unlink (s.fs.node (d ++ [name])) known p (s.fs.node p)]⟩

def rmdir (s : RmState) (path : List UInt8) : RmState :=
  match s.fs.rmdir sys.toPathCalls path with
  | (_,none) => s
  | (fs,some p) => ⟨fs,s.log ++ [.rmdir p (s.fs.node p)]⟩

end RmState

section Code
variable (sys : FileCalls) (onlyUid : UInt32)

/-- What is behind the `stat` for one entry of the directory `d`: the status in `info`, or what the record
holds when none was written, decides. -/
def removeEntry (rmRf : List UInt8 → RmState → Bool × RmState) (d : FsPlace) (name tmp : List UInt8)
    (info : Option FsNode) (s : RmState) : Bool × RmState :=
  match (info.map Node.kind).getD (sys.stack s.log) with
  | .dir => rmRf tmp (s.note (.enter (s.fs.node (d ++ [name])) info.isSome))
  | .reg => (true,s.unlink sys d name tmp info.isSome)
  | _ => (true,s)

/-- The loop of `http2d_rm_rf` over the rest of the entries; false when the fuel did not suffice. -/
def removeEntries (rmRf : List UInt8 → RmState → Bool × RmState) (path : List UInt8) (d : FsPlace) :
    List (List UInt8) → Option FsNode → RmState → Bool × RmState
  | [], _, s => (true,s)
  | name::names, info, s =>
    if name.head? = some 46 then removeEntries rmRf path d names info s
    else
      let tmp := path ++ 47::name
      let status := s.fs.stat sys.toPathCalls tmp
      if onlyUid ≠ noUid ∧ status = none then removeEntries rmRf path d names info s
      else
        let info := if onlyUid ≠ noUid then status else info
        if onlyUid ≠ noUid ∧ (info.map Node.owner) ≠ some onlyUid then removeEntries rmRf path d names info s
        else
          match removeEntry sys rmRf d name tmp info s with
          | (false,s) => (false,s)
          | (true,s) => removeEntries rmRf path d names info s

/-- `http2d_rm_rf`, with the run so far when the fuel does not suffice. -/
def rmRf : ℕ → List UInt8 → RmState → Bool × RmState
  | 0, _, s => (false,s)
  | fuel+1, path, s =>
    match s.fs.opendir sys.toPathCalls path with
    | none => (true,s)
    | some d =>
      match removeEntries sys onlyUid (rmRf fuel) path d (sys.order d (s.fs.entries d)) none s with
      | (false,s) => (false,s)
      | (true,s) => (true,s.rmdir sys path)

end Code

section Paths
variable {path : List UInt8} {n : List UInt8}

theorem splitOn_slash (path : List UInt8) (hn : 47 ∉ n) :
    (path ++ 47::n).splitOn 47 = path.splitOn 47 ++ [n] := by
  have hsplit : (47::n).splitOn 47 = [[],n] := by
    rw [List.splitOn_cons_eq_if_modifyHead,List.splitOn_eq_singleton hn]
    rfl
  have hlast : (path.splitOn 47).dropLast ++ [Lines.lastPart 47 path] = path.splitOn 47 := by
    rw [Lines.lastPart,List.getLastD_eq_getLast?,List.getLast?_eq_getLast_of_ne_nil
      (List.splitOn_ne_nil 47 path)]
    exact List.dropLast_append_getLast _
  rw [Lines.splitOn_append,Lines.firstPart,hsplit]
  calc (path.splitOn 47).dropLast ++ (Lines.lastPart 47 path ++ [])::[n]
      = ((path.splitOn 47).dropLast ++ [Lines.lastPart 47 path]) ++ [n] := by simp
    _ = path.splitOn 47 ++ [n] := by rw [hlast]

/-- A name behind a separator is one more step. -/
theorem pathSteps_entry (path : List UInt8) (hn : EntryName n) :
    pathSteps (path ++ 47::n) = pathSteps path ++ [.name n] := by
  rw [pathSteps,splitOn_slash path hn.2.1,List.filter_append,List.map_append]
  simp [pathSteps,hn.1,hn.2.2.1,hn.2.2.2]

end Paths

namespace Disk
variable {sys : PathCalls} {fs fs' : Disk} {path : List UInt8} {n : List UInt8} {p d : FsPlace}

/-- The directory that a path leads to, however it ends. -/
theorem opendir_iff : fs.opendir sys path = some d ↔ path ≠ [] ∧
    (∃ b, walkFrom fs.node sys.maxLinks (start sys path) (pathSteps path) = some (d,b)) ∧
    isDir fs.node d := by
  unfold opendir resolve
  by_cases hpath : path = []
  · simp [hpath]
  · rw [if_neg hpath,Option.filter_eq_some_iff]
    split_ifs with hlast
    · rw [walkFrom_append]
      simp only [Option.map_eq_some_iff,Option.bind_eq_some_iff,walkFrom_here]
      constructor
      · rintro ⟨⟨r,⟨w,hw,hr⟩,rfl⟩,hd⟩
        split_ifs at hr with hdir
        cases hr
        exact ⟨hpath,⟨w.2,hw⟩,hdir⟩
      · rintro ⟨-,⟨b,hw⟩,hd⟩
        exact ⟨⟨(d,b),⟨(d,b),hw,by rw [if_pos hd]⟩,rfl⟩,hd⟩
    · rw [List.append_nil]
      simp only [Option.map_eq_some_iff,Prod.exists,exists_and_right,exists_eq_right]
      exact ⟨fun ⟨hw,hd⟩ => ⟨hpath,hw,hd⟩,fun ⟨_,hw,hd⟩ => ⟨hw,hd⟩⟩

theorem start_entry (sys : PathCalls) (hpath : path ≠ []) (n : List UInt8) :
    start sys (path ++ 47::n) = start sys path := by
  obtain ⟨c,path,rfl⟩ := List.exists_cons_of_ne_nil hpath
  rfl

theorem resolve_entry (hpath : path ≠ []) (hn : EntryName n) : fs.resolve sys (path ++ 47::n) =
    (walkFrom fs.node sys.maxLinks (start sys path) (pathSteps path ++ [.name n])).map (·.1) := by
  have hlast : (path ++ 47::n).getLast? ≠ some 47 := by
    intro h
    have hend : (path ++ 47::n).getLast? = n.getLast? := by
      rw [List.getLast?_append,List.getLast?_cons]
      cases hl : n.getLast? with
      | none => exact absurd (List.getLast?_eq_none_iff.mp hl) hn.1
      | some c => simp
    exact hn.2.1 (List.mem_of_getLast? (hend ▸ h))
  rw [resolve,if_neg (by simp),if_neg hlast,start_entry sys hpath,pathSteps_entry path hn,List.append_nil]

theorem entryAt_entry (hpath : path ≠ []) (hn : EntryName n) : fs.entryAt sys (path ++ 47::n) =
    (walkFrom fs.node sys.maxLinks (start sys path) (pathSteps path)).bind fun r =>
      if isDir fs.node r.1 then some (r.1 ++ [n]) else none := by
  simp only [entryAt,pathSteps_entry path hn,start_entry sys hpath,List.getLast?_concat,
    List.dropLast_concat]

/-- What leads to the entry of a path: all its steps but the last, which is a name. -/
theorem entryAt_iff : fs.entryAt sys path = some p ↔ ∃ ss n q b, pathSteps path = ss ++ [.name n] ∧
    walkFrom fs.node sys.maxLinks (start sys path) ss = some (q,b) ∧ isDir fs.node q ∧ p = q ++ [n] := by
  unfold entryAt
  constructor
  · intro h
    split at h
    case h_1 n hlast =>
      obtain ⟨r,hr,hp⟩ := Option.bind_eq_some_iff.mp h
      split_ifs at hp with hd
      exact ⟨_,n,r.1,r.2,(List.dropLast_append_getLast? _ hlast).symm,hr,hd,(Option.some.inj hp).symm⟩
    case h_2 => cases h
  · rintro ⟨ss,n,q,b,hsteps,hw,hd,rfl⟩
    simp only [hsteps,List.getLast?_concat,List.dropLast_concat,hw,Option.bind_some,hd,if_true]

/-- The entry that a path names is where it leads, unless a link is there. -/
theorem entryAt_walkFrom (h : fs.entryAt sys path = some p) (hp : isDir fs.node p) : ∃ b,
    walkFrom fs.node sys.maxLinks (start sys path) (pathSteps path) = some (p,b) := by
  obtain ⟨ss,n,q,b,hsteps,hw,hd,rfl⟩ := entryAt_iff.mp h
  obtain ⟨owner,ho⟩ := isDir_iff.mp hp
  refine ⟨b,?_⟩
  rw [hsteps,walkFrom_append,hw]
  exact walkFrom_name hd ho (by simp)

/-- The entry that a path names in a smaller system is the one in the larger. -/
theorem entryAt_mono (h : Sub fs.node fs'.node) (hp : fs.entryAt sys path = some p) :
    fs'.entryAt sys path = some p := by
  obtain ⟨ss,n,q,b,hsteps,hw,hd,rfl⟩ := entryAt_iff.mp hp
  exact entryAt_iff.mpr ⟨ss,n,q,b,hsteps,walkFrom_mono h hw,h.isDir hd,rfl⟩

theorem stat_mono (h : Sub fs.node fs'.node) {x : FsNode} (hx : fs.stat sys path = some x) :
    fs'.stat sys path = some x := by
  obtain ⟨p,hp,hx⟩ := Option.bind_eq_some_iff.mp hx
  refine Option.bind_eq_some_iff.mpr ⟨p,?_,h _ _ hx⟩
  unfold resolve at hp ⊢
  split_ifs at hp ⊢
  all_goals
    obtain ⟨r,hr,rfl⟩ := Option.map_eq_some_iff.mp hp
    exact Option.map_eq_some_iff.mpr ⟨r,walkFrom_mono h hr,rfl⟩

/-- Above everything that exists are directories. -/
theorem isDir_above {q : FsPlace} (h : fs.node (p ++ q) ≠ none) (hq : q ≠ []) : isDir fs.node p := by
  induction q using List.reverseRecOn with
  | nil => exact absurd rfl hq
  | append_singleton q n ih =>
    have hdir := fs.parent (p ++ q) n (by rwa [List.append_assoc])
    cases q with
    | nil => simpa using hdir
    | cons m q =>
      obtain ⟨owner,ho⟩ := isDir_iff.mp hdir
      exact ih (by simp [ho]) (by simp)

/-- Below nothing is nothing. -/
theorem none_of_above {q : FsPlace} (h : fs.node p = none) (hpq : p <+: q) : fs.node q = none := by
  obtain ⟨r,rfl⟩ := hpq
  by_contra hne
  have hr : r ≠ [] := fun hr => hne (by rw [hr,List.append_nil,h])
  obtain ⟨owner,ho⟩ := isDir_iff.mp (isDir_above hne hr)
  rw [h] at ho
  cases ho

theorem unlink_iff : (fs.unlink sys path).2 = some p ↔ fs.entryAt sys path = some p ∧
    fs.node p ≠ none ∧ isDir fs.node p = false := by
  unfold unlink
  cases hentry : fs.entryAt sys path with
  | none => simp
  | some q =>
    dsimp only
    split_ifs with hq
    · constructor
      · intro h
        cases h
        exact ⟨rfl,hq⟩
      · exact fun h => h.1
    · refine iff_of_false (by simp) fun h => hq ?_
      cases h.1
      exact h.2

theorem unlink_node (h : (fs.unlink sys path).2 = some p) :
    (fs.unlink sys path).1.node = Function.update fs.node p none := by
  obtain ⟨hentry,hp⟩ := unlink_iff.mp h
  unfold unlink
  rw [hentry]
  dsimp only
  rw [dif_pos hp]
  rfl

theorem rmdir_iff : (fs.rmdir sys path).2 = some p ↔ fs.entryAt sys path = some p ∧ isDir fs.node p ∧
    ∀ n, fs.node (p ++ [n]) = none := by
  have hempty (q : FsPlace) : fs.entries q = [] ↔ ∀ n, fs.node (q ++ [n]) = none := by
    rw [List.eq_nil_iff_forall_not_mem]
    exact forall_congr' fun n => by rw [mem_entries,not_not]
  unfold rmdir
  cases hentry : fs.entryAt sys path with
  | none => simp
  | some q =>
    dsimp only
    split_ifs with hq
    · constructor
      · intro h
        cases h
        exact ⟨rfl,hq.1,(hempty _).mp hq.2⟩
      · exact fun h => h.1
    · refine iff_of_false (by simp) fun h => hq ?_
      cases h.1
      exact ⟨h.2.1,(hempty _).mpr h.2.2⟩

theorem rmdir_node (h : (fs.rmdir sys path).2 = some p) :
    (fs.rmdir sys path).1.node = Function.update fs.node p none := by
  obtain ⟨hentry,hdir,hnone⟩ := rmdir_iff.mp h
  have hempty : fs.entries p = [] :=
    List.eq_nil_iff_forall_not_mem.mpr fun n hn => mem_entries.mp hn (hnone n)
  unfold rmdir
  rw [hentry]
  dsimp only
  rw [dif_pos ⟨hdir,hempty⟩]
  rfl

/-- What is removed is the directory that is read, when nothing was added. -/
theorem rmdir_place (hsub : Sub fs.node fs'.node) (hopen : fs'.opendir sys path = some d)
    (h : (fs.rmdir sys path).2 = some p) : p = d := by
  obtain ⟨hentry,hdir,-⟩ := rmdir_iff.mp h
  obtain ⟨b,hw⟩ := entryAt_walkFrom hentry hdir
  obtain ⟨-,⟨b',hw'⟩,-⟩ := opendir_iff.mp hopen
  exact congrArg Prod.fst (Option.some.inj ((walkFrom_mono hsub hw).symm.trans hw'))

end Disk

namespace RmState
variable {sys : FileCalls} {s : RmState} {d p : FsPlace} {name path : List UInt8} {known : Bool}

theorem unlink_some (h : (s.fs.unlink sys.toPathCalls path).2 = some p) :
    s.unlink sys d name path known = ⟨(s.fs.unlink sys.toPathCalls path).1,
      s.log ++ [.unlink (s.fs.node (d ++ [name])) known p (s.fs.node p)]⟩ := by
  rcases hun : s.fs.unlink sys.toPathCalls path with ⟨fs',q⟩
  rw [hun] at h
  obtain rfl : q = some p := h
  rw [unlink,hun]

theorem unlink_none (h : (s.fs.unlink sys.toPathCalls path).2 = none) :
    s.unlink sys d name path known = s := by
  rcases hun : s.fs.unlink sys.toPathCalls path with ⟨fs',q⟩
  rw [hun] at h
  obtain rfl : q = none := h
  rw [unlink,hun]

theorem rmdir_some (h : (s.fs.rmdir sys.toPathCalls path).2 = some p) :
    s.rmdir sys path = ⟨(s.fs.rmdir sys.toPathCalls path).1,s.log ++ [.rmdir p (s.fs.node p)]⟩ := by
  rcases hrm : s.fs.rmdir sys.toPathCalls path with ⟨fs',q⟩
  rw [hrm] at h
  obtain rfl : q = some p := h
  rw [rmdir,hrm]

theorem rmdir_none (h : (s.fs.rmdir sys.toPathCalls path).2 = none) : s.rmdir sys path = s := by
  rcases hrm : s.fs.rmdir sys.toPathCalls path with ⟨fs',q⟩
  rw [hrm] at h
  obtain rfl : q = none := h
  rw [rmdir,hrm]

end RmState

section Loop
variable {sys : FileCalls} {uid : UInt32} {rec : List UInt8 → RmState → Bool × RmState} {path : List UInt8}
  {d : FsPlace} {s : RmState} {n : List UInt8} {names : List (List UInt8)} {info : Option FsNode}

/-- The loop acts on an entry that it does not skip, and stops with it or goes on. -/
theorem removeEntries_acts {info' : Option FsNode} (hn : n.head? ≠ some 46)
    (hinfo : info' = if uid ≠ noUid then s.fs.stat sys.toPathCalls (path ++ 47::n) else info)
    (howner : uid ≠ noUid → info'.map Node.owner = some uid) :
    removeEntries sys uid rec path d (n::names) info s =
      let r := removeEntry sys rec d n (path ++ 47::n) info' s
      if r.1 then removeEntries sys uid rec path d names info' r.2 else r := by
  have hstat : ¬ (uid ≠ noUid ∧ s.fs.stat sys.toPathCalls (path ++ 47::n) = none) := fun h => by
    have hsome := howner h.1
    rw [hinfo,if_pos h.1,h.2] at hsome
    cases hsome
  have hskip : ¬ (uid ≠ noUid ∧ info'.map Node.owner ≠ some uid) := fun h => h.2 (howner h.1)
  rw [removeEntries,if_neg hn]
  dsimp only
  rw [if_neg hstat,← hinfo,if_neg hskip]
  rcases removeEntry sys rec d n (path ++ 47::n) info' s with ⟨_ | _,s'⟩
  · rfl
  · rfl

/-- What the loop does with one entry: it skips it, or acts on it with the status that it looks at. -/
theorem removeEntries_cons (sys : FileCalls) (uid : UInt32) (rec : List UInt8 → RmState → Bool × RmState)
    (path : List UInt8) (d : FsPlace) (s : RmState) (n : List UInt8) (names : List (List UInt8))
    (info : Option FsNode) : ∃ info',
    removeEntries sys uid rec path d (n::names) info s = removeEntries sys uid rec path d names info' s ∨
    n.head? ≠ some 46 ∧ (uid ≠ noUid → s.fs.stat sys.toPathCalls (path ++ 47::n) = info') ∧
      (uid ≠ noUid → info'.map Node.owner = some uid) ∧
      removeEntries sys uid rec path d (n::names) info s =
        let r := removeEntry sys rec d n (path ++ 47::n) info' s
        if r.1 then removeEntries sys uid rec path d names info' r.2 else r := by
  by_cases hn : n.head? = some 46
  · exact ⟨info,Or.inl (by rw [removeEntries,if_pos hn])⟩
  · by_cases howner : uid ≠ noUid →
        (s.fs.stat sys.toPathCalls (path ++ 47::n)).map Node.owner = some uid
    · have howner' (huid : uid ≠ noUid) : (if uid ≠ noUid then s.fs.stat sys.toPathCalls (path ++ 47::n)
          else info).map Node.owner = some uid := by rw [if_pos huid,howner huid]
      exact ⟨_,Or.inr ⟨hn,fun huid => (if_pos huid).symm,howner',removeEntries_acts hn rfl howner'⟩⟩
    · obtain ⟨huid,hother⟩ := Classical.not_imp.mp howner
      rw [removeEntries,if_neg hn]
      dsimp only
      by_cases hstat : s.fs.stat sys.toPathCalls (path ++ 47::n) = none
      · exact ⟨info,Or.inl (if_pos ⟨huid,hstat⟩)⟩
      · rw [if_neg (fun h => hstat h.2),if_pos huid]
        exact ⟨_,Or.inl (if_pos ⟨huid,hother⟩)⟩

end Loop

end Http2d
