import Http2d.BufferEscape
import Http2d.Library.WhileLoop
import Http2d.Strings

/-! `http2d_mkdir_p` of util.c. What `stat` and `mkdir` answer may depend on all that was called before;
the `mode` is only handed on and is left out. The path is an object that ends with its terminator. -/
namespace Http2d

open WhileLoop

/-- What `mkdir` does: it makes the directory, or fails with `EEXIST`, or otherwise. -/
inductive MkdirAnswer
  | created | eexist | failed
  deriving DecidableEq

/-- A call, with the path and the answer. -/
inductive DirEvent
  | stat (path : List UInt8) (found : Bool)
  | mkdir (path : List UInt8) (answer : MkdirAnswer)
  deriving DecidableEq

/-- The system: its answers to a path after the calls so far. -/
structure DirCalls where
  stat : List DirEvent → List UInt8 → Bool
  mkdir : List DirEvent → List UInt8 → MkdirAnswer

/-- The variables of the loop. -/
structure MkdirScan where
  blk : List UInt8
  p : ℕ
  log : List DirEvent
  deriving DecidableEq

section Code
variable (sys : DirCalls)

def callStat (path : List UInt8) (log : List DirEvent) : Bool × List DirEvent :=
  (sys.stat log path,log ++ [.stat path (sys.stat log path)])

def callMkdir (path : List UInt8) (log : List DirEvent) : MkdirAnswer × List DirEvent :=
  (sys.mkdir log path,log ++ [.mkdir path (sys.mkdir log path)])

/-- One directory: it is there, or `mkdir` makes it. -/
def ensureDir (path : List UInt8) (log : List DirEvent) : Bool × List DirEvent :=
  let (found,log) := callStat sys path log
  if found then (true,log)
  else
    let (answer,log) := callMkdir sys path log
    (answer ≠ .failed,log)

/-- One turn of the loop; no return code is the `break`. -/
def mkdirTurn (len : ℕ) (s : MkdirScan) : Turn MkdirScan (Exec (Option Ret × MkdirScan)) :=
  match strchr 47 (s.blk.drop (s.p+1)) (s.p+1) with
  | .error e => .stop (.error e)
  | .ok none => .stop (.ok (none,s))
  | .ok (some p) =>
    let blk := s.blk.set p 0
    let (there,log) := ensureDir sys (cString blk) s.log
    let blk := blk.set p 47
    if there = false then .stop (.ok (some .error,⟨blk,p,log⟩))
    else if p+1 > len then .stop (.ok (some .ok,⟨blk,p+1,log⟩))
    else .again ⟨blk,p+1,log⟩

/-- `http2d_mkdir_p`: what it returns, the bytes of the path then, and the calls it made. -/
def mkdirP (fuel : ℕ) (path : List UInt8) : Option (Exec (Ret × List UInt8 × List DirEvent)) :=
  let blk := path ++ [0]
  if path = [] then some (.ok (.ok,blk,[]))
  else
    let (found,log) := callStat sys (cString blk) []
    if found then some (.ok (.ok,blk,log))
    else
      (run (mkdirTurn sys path.length) fuel ⟨blk,0,log⟩).map fun r =>
        match r with
        | .error e => .error e
        | .ok (some ret,s) => .ok (ret,s.blk,s.log)
        | .ok (none,s) =>
          let (answer,log) := callMkdir sys (cString s.blk) s.log
          .ok (if answer = .failed then .error else .ok,s.blk,log)

end Code

/-- The separators at which the scan of a path stops; the byte behind each is passed over. -/
def scanStops : Bool → List UInt8 → ℕ → List ℕ
  | _, [], _ => []
  | true, _::bs, i => scanStops false bs (i+1)
  | false, b::bs, i => if b = 47 then i::scanStops true bs (i+1) else scanStops false bs (i+1)

/-- The directories above the path: a separator behind another character ends their names. -/
def ParentEnd (path : List UInt8) (i : ℕ) : Prop := path[i+1]? = some 47 ∧ ∃ b, path[i]? = some b ∧ b ≠ 47

/-- The calls report that the directory exists, or that it was made. -/
def Established (log : List DirEvent) (dir : List UInt8) : Prop :=
  .stat dir true ∈ log ∨ .mkdir dir .created ∈ log ∨ .mkdir dir .eexist ∈ log

/-- The directories that were tried, in order. -/
def mkdirPaths (log : List DirEvent) : List (List UInt8) :=
  log.filterMap fun | .mkdir dir _ => some dir | .stat _ _ => none

/-- The call stays inside the path and leaves it, it goes from shorter prefixes to longer ones, and it
reports no success without the directories. -/
def MakesPath (sys : DirCalls) (path : List UInt8) : Prop :=
  ∃ fuel ret log, mkdirP sys fuel path = some (.ok (ret,path ++ [0],log)) ∧
    (∀ dir ∈ mkdirPaths log, dir <+: path) ∧
    (mkdirPaths log).Pairwise (fun a b => a.length < b.length) ∧
    (ret = .ok → log.head? = some (.stat path true) ∨
      Established log path ∧ ∀ i, ParentEnd path i → Established log (path.take (i+1)))

/-- The directories in front of the stops are made one after another until one is refused. -/
def ensureAll (sys : DirCalls) (path : List UInt8) : List ℕ → List DirEvent → Bool × List DirEvent
  | [], log => (true,log)
  | q::qs, log =>
    let (there,log) := ensureDir sys (path.take q) log
    if there then ensureAll sys path qs log else (false,log)

/-- The number of separators at the end. -/
def trailingSlashes (path : List UInt8) : ℕ := (path.reverse.takeWhile (· = 47)).length

section Stops
variable {l : List UInt8}

/-- The search finds the first stop. -/
theorem strchr_stops (h : 0 ∉ l) (i : ℕ) : strchr 47 (l ++ [0]) i = .ok (scanStops false l i).head? := by
  induction l generalizing i with
  | nil => rfl
  | cons b bs ih =>
    obtain ⟨h0,h⟩ := not_or.mp (List.mem_cons.not.mp h)
    rw [List.cons_append,strchr,scanStops]
    by_cases hb : b = 47
    · rw [if_pos hb,if_pos hb]
      rfl
    · rw [if_neg hb,if_neg (Ne.symm h0),if_neg hb,ih h]

theorem scanStops_cons {i q : ℕ} {qs : List ℕ} (h : scanStops false l i = q::qs) :
    ∃ k, q = i+k ∧ l[k]? = some 47 ∧ qs = scanStops true (l.drop (k+1)) (i+k+1) := by
  induction l generalizing i with
  | nil => cases h
  | cons b bs ih =>
    rw [scanStops] at h
    split_ifs at h with hb
    · cases h
      exact ⟨0,rfl,by rw [hb]; rfl,rfl⟩
    · obtain ⟨k,hq,hslash,hqs⟩ := ih h
      refine ⟨k+1,by omega,hslash,?_⟩
      rw [hqs,List.drop_succ_cons]
      congr 1
      omega

/-- The stops come in order. -/
theorem scanStops_increasing (skip : Bool) (i : ℕ) : (scanStops skip l i).Pairwise (· < ·) ∧
    ∀ q ∈ scanStops skip l i, i ≤ q ∧ q < i+l.length := by
  induction l generalizing skip i with
  | nil => cases skip <;> simp [scanStops]
  | cons b bs ih =>
    have hnext (skip : Bool) : ∀ q ∈ scanStops skip bs (i+1), i < q ∧ q < i+(b::bs).length := by
      intro q hq
      have := (ih skip (i+1)).2 q hq
      rw [List.length_cons]
      omega
    cases skip with
    | true => exact ⟨(ih false (i+1)).1,fun q hq => ⟨(hnext false q hq).1.le,(hnext false q hq).2⟩⟩
    | false =>
      rw [scanStops]
      split_ifs with hb
      · refine ⟨List.pairwise_cons.mpr ⟨fun q hq => (hnext true q hq).1,(ih true (i+1)).1⟩,?_⟩
        intro q hq
        rcases List.mem_cons.mp hq with rfl|hq
        · simp
        · exact ⟨(hnext true q hq).1.le,(hnext true q hq).2⟩
      · exact ⟨(ih false (i+1)).1,fun q hq => ⟨(hnext false q hq).1.le,(hnext false q hq).2⟩⟩

/-- Only the first byte and a separator behind another are passed over. -/
theorem mem_scanStops {skip : Bool} {k : ℕ} (i : ℕ) (hk : l[k]? = some 47)
    (hfront : if k = 0 then skip = false else l[k-1]? ≠ some 47) : i+k ∈ scanStops skip l i := by
  induction l generalizing skip k i with
  | nil => simp at hk
  | cons b bs ih =>
    obtain _|k := k
    · simp only [if_true] at hfront
      subst hfront
      have hb : b = 47 := by simpa using hk
      rw [scanStops,if_pos hb]
      exact List.mem_cons_self
    · rw [if_neg (Nat.succ_ne_zero k),Nat.add_sub_cancel] at hfront
      have hnext (skip : Bool) (h0 : k = 0 → skip = false) : i+(k+1) ∈ scanStops skip bs (i+1) := by
        have hmem : i+1+k ∈ scanStops skip bs (i+1) := ih (i+1) hk (by
          split_ifs with hzero
          · exact h0 hzero
          · obtain ⟨j,rfl⟩ := Nat.exists_eq_succ_of_ne_zero hzero
            simpa using hfront)
        rwa [Nat.add_assoc,Nat.add_comm 1 k] at hmem
      cases skip with
      | true => exact hnext false fun _ => rfl
      | false =>
        rw [scanStops]
        split_ifs with hb
        · refine List.mem_cons_of_mem i (hnext true fun hzero => ?_)
          subst hzero
          exact absurd (by rw [hb]; rfl) hfront
        · exact hnext false fun _ => rfl

theorem trailingSlashes_cons (b : UInt8) (l : List UInt8) : trailingSlashes (b::l) =
    if trailingSlashes l = l.length ∧ b = 47 then l.length+1 else trailingSlashes l := by
  unfold trailingSlashes
  rw [List.reverse_cons,List.takeWhile_append,List.length_reverse]
  by_cases hall : (l.reverse.takeWhile (· = 47)).length = l.length
  · by_cases hb : b = 47 <;> simp [hall,hb]
  · simp [hall]

theorem trailingSlashes_le (l : List UInt8) : trailingSlashes l ≤ l.length := by
  have := (List.takeWhile_sublist (l:=l.reverse) (· = 47)).length_le
  simpa [trailingSlashes] using this

theorem trailingSlashes_pair (c : UInt8) (l : List UInt8) :
    trailingSlashes (47::c::l) % 2 = trailingSlashes l % 2 := by
  have hle := trailingSlashes_le l
  rw [trailingSlashes_cons 47,trailingSlashes_cons c,List.length_cons]
  by_cases hc : c = 47 <;> simp only [hc,and_true,and_false,if_false] <;> split_ifs <;> omega

/-- The last byte of a string is a stop when an odd number of separators ends it. -/
theorem last_stop_iff (l : List UInt8) (i : ℕ) :
    (scanStops false l i).getLast? = some (i+l.length-1) ↔ trailingSlashes l % 2 = 1 := by
  induction l using List.twoStepInduction generalizing i with
  | nil => simp [scanStops,trailingSlashes]
  | singleton b => by_cases hb : b = 47 <;> simp [scanStops,trailingSlashes,hb]
  | cons_cons b c cs ih ihc =>
    rw [List.length_cons,scanStops]
    by_cases hb : b = 47
    · -- the next byte is passed over, and does not change what is odd
      have hlast : i+1+1+cs.length-1 = i+(c::cs).length := by rw [List.length_cons]; omega
      have hrest := ih (i+1+1)
      rw [hlast,← trailingSlashes_pair c cs,← hb] at hrest
      rw [← hrest,if_pos hb,scanStops,List.getLast?_cons]
      cases (scanStops false cs (i+1+1)).getLast? <;> simp
    · have hlast : i+((c::cs).length+1)-1 = i+1+(c::cs).length-1 := by omega
      rw [if_neg hb,trailingSlashes_cons b,if_neg fun h => hb h.2,← ihc c (i+1),hlast]

end Stops

section Loop
variable {sys : DirCalls} {path : List UInt8} {log : List DirEvent}

/-- What the loop comes to: it is refused a directory, it searches behind the end, or it breaks off. -/
def loopEnd (sys : DirCalls) (path : List UInt8) (qs : List ℕ) (log : List DirEvent)
    (r : Exec (Option Ret × MkdirScan)) : Prop :=
  if (ensureAll sys path qs log).1 = false then
    ∃ p, r = .ok (some .error,⟨path ++ [0],p,(ensureAll sys path qs log).2⟩)
  else if qs.getLast? = some (path.length-1) then r = .error .fault
  else ∃ p, r = .ok (none,⟨path ++ [0],p,(ensureAll sys path qs log).2⟩)

/-- The path is cut at a separator, and the separator is put back. -/
theorem cut_path (hnul : 0 ∉ path) {q : ℕ} (hq : path[q]? = some 47) :
    cString ((path ++ [0]).set q 0) = path.take q ∧ ((path ++ [0]).set q 0).set q 47 = path ++ [0] := by
  obtain ⟨hlt,hget⟩ := List.getElem?_eq_some_iff.mp hq
  constructor
  · have hfront : 0 ∉ path.take q := fun h => hnul (List.mem_of_mem_take h)
    have hset : (path ++ [0]).set q 0 = path.take q ++ 0::(path ++ [0]).drop (q+1) := by
      rw [List.set_eq_take_append_cons_drop,if_pos (by simp; omega),List.take_append_of_le_length hlt.le]
    rw [hset,cString,cString_terminated,cString_eq hfront]
  · have hlen : q < (path ++ [0]).length := by simp; omega
    have hsame : (path ++ [0])[q] = 47 := by rw [List.getElem_append_left hlt,hget]
    rw [List.set_set,← hsame,List.set_getElem_self]

theorem ensureAll_refused {q : ℕ} {qs : List ℕ} (h : (ensureDir sys (path.take q) log).1 = false) :
    ensureAll sys path (q::qs) log = (false,(ensureDir sys (path.take q) log).2) := by
  simp [ensureAll,h]

theorem ensureAll_there {q : ℕ} {qs : List ℕ} (h : (ensureDir sys (path.take q) log).1 = true) :
    ensureAll sys path (q::qs) log = ensureAll sys path qs (ensureDir sys (path.take q) log).2 := by
  simp [ensureAll,h]

variable (sys) in
/-- One turn, by the next stop. -/
theorem mkdirTurn_eq (hnul : 0 ∉ path) {p : ℕ} (hp : p < path.length) (log : List DirEvent) :
    mkdirTurn sys path.length ⟨path ++ [0],p,log⟩ =
      match (scanStops true (path.drop p) p).head? with
      | none => .stop (.ok (none,⟨path ++ [0],p,log⟩))
      | some q =>
        if (ensureDir sys (path.take q) log).1 = false then
          .stop (.ok (some .error,⟨path ++ [0],q,(ensureDir sys (path.take q) log).2⟩))
        else .again ⟨path ++ [0],q+1,(ensureDir sys (path.take q) log).2⟩ := by
  have hdrop : (path ++ [0]).drop (p+1) = path.drop (p+1) ++ [0] :=
    List.drop_append_of_le_length hp
  have hstops : scanStops true (path.drop p) p = scanStops false (path.drop (p+1)) (p+1) := by
    rw [List.drop_eq_getElem_cons hp]
    rfl
  have hsearch := strchr_stops (l:=path.drop (p+1)) (fun h => hnul (List.mem_of_mem_drop h)) (p+1)
  rw [mkdirTurn,hdrop,hsearch,hstops]
  cases hqs : scanStops false (path.drop (p+1)) (p+1) with
  | nil => rfl
  | cons q qs =>
    obtain ⟨k,hq,hslash,-⟩ := scanStops_cons hqs
    rw [List.getElem?_drop,← hq] at hslash
    obtain ⟨hcut,hback⟩ := cut_path hnul hslash
    have hlt := (List.getElem?_eq_some_iff.mp hslash).1
    dsimp only [List.head?_cons]
    rw [hcut,hback,if_neg (not_lt.mpr hlt)]

variable (sys) in
theorem mkdirTurn_run (hnul : 0 ∉ path) {p : ℕ} (hp : p < path.length) {qs : List ℕ}
    (hqs : scanStops true (path.drop p) p = qs) (log : List DirEvent) :
    ∃ r, run (mkdirTurn sys path.length) (qs.length+1) ⟨path ++ [0],p,log⟩ = some r ∧
      loopEnd sys path qs log r := by
  induction qs generalizing p log with
  | nil =>
    have hturn := mkdirTurn_eq sys hnul hp log
    rw [hqs] at hturn
    exact ⟨_,run_stop hturn 0,p,rfl⟩
  | cons q qs ih =>
    have hturn := mkdirTurn_eq sys hnul hp log
    have hstops : scanStops false (path.drop (p+1)) (p+1) = q::qs := by
      rw [← hqs,List.drop_eq_getElem_cons hp]
      rfl
    obtain ⟨k,hq,hslash,hrest⟩ := scanStops_cons hstops
    rw [List.drop_drop,show p+1+(k+1) = q+1 by omega,show p+1+k+1 = q+1 by omega] at hrest
    rw [List.getElem?_drop,← hq] at hslash
    have hlt := (List.getElem?_eq_some_iff.mp hslash).1
    rw [hqs] at hturn
    dsimp only [List.head?_cons] at hturn
    unfold loopEnd
    cases hthere : (ensureDir sys (path.take q) log).1 with
    | false =>
      rw [if_pos hthere] at hturn
      exact ⟨_,run_stop hturn _,by simp [ensureAll_refused hthere]⟩
    | true =>
      rw [if_neg (by simp [hthere])] at hturn
      rw [ensureAll_there hthere]
      rcases Nat.lt_or_ge (q+1) path.length with hmore|hend
      · obtain ⟨r,hr,hloop⟩ := ih hmore hrest.symm (ensureDir sys (path.take q) log).2
        refine ⟨r,(run_again hturn _).trans hr,?_⟩
        have hlast : (q::qs).getLast? = some (path.length-1) ↔ qs.getLast? = some (path.length-1) := by
          cases qs with
          | nil => simp; omega
          | cons x xs => rw [List.getLast?_cons_cons]
        simp only [hlast]
        exact hloop
      · -- behind a stop at the last byte the search starts outside the string
        have hnil : qs = [] := by rw [hrest,List.drop_eq_nil_of_le hend]; rfl
        subst hnil
        have hfault : mkdirTurn sys path.length ⟨path ++ [0],q+1,(ensureDir sys (path.take q) log).2⟩ =
            .stop (.error .fault) := by
          rw [mkdirTurn,List.drop_eq_nil_of_le (by simp; omega)]
          rfl
        refine ⟨_,(run_again hturn _).trans (run_stop hfault 0),?_⟩
        have hq : q = path.length-1 := by omega
        simp [ensureAll,hq]

end Loop

section Calls
variable {sys : DirCalls} {path dir : List UInt8} {log ext : List DirEvent}

theorem Established.append (h : Established ext dir) (front back : List DirEvent) :
    Established (front ++ ext ++ back) dir := by
  unfold Established at *
  simp only [List.mem_append]
  tauto

theorem mkdirPaths_append (log ext : List DirEvent) :
    mkdirPaths (log ++ ext) = mkdirPaths log ++ mkdirPaths ext := List.filterMap_append

variable (sys) in
/-- One directory is found, or made, or else refused. -/
theorem ensureDir_log (dir : List UInt8) (log : List DirEvent) : ∃ ext,
    (ensureDir sys dir log).2 = log ++ ext ∧ (mkdirPaths ext).Sublist [dir] ∧
    ((ensureDir sys dir log).1 = true → Established ext dir) := by
  unfold ensureDir callStat callMkdir
  cases hstat : sys.stat log dir with
  | true => exact ⟨[.stat dir true],rfl,by simp [mkdirPaths],fun _ => by simp [Established]⟩
  | false =>
    dsimp only
    generalize sys.mkdir (log ++ [.stat dir false]) dir = answer
    refine ⟨[.stat dir false,.mkdir dir answer],by simp,by simp [mkdirPaths],fun hthere => ?_⟩
    cases answer <;> simp [Established] at hthere ⊢

variable (sys path) in
theorem ensureAll_log (qs : List ℕ) (log : List DirEvent) : ∃ ext,
    (ensureAll sys path qs log).2 = log ++ ext ∧ (mkdirPaths ext).Sublist (qs.map path.take) ∧
    ((ensureAll sys path qs log).1 = true → ∀ q ∈ qs, Established ext (path.take q)) := by
  induction qs generalizing log with
  | nil => exact ⟨[],by simp [ensureAll],by simp [mkdirPaths],fun _ => by simp⟩
  | cons q qs ih =>
    obtain ⟨ext,hext,hpaths,hest⟩ := ensureDir_log sys (path.take q) log
    cases hthere : (ensureDir sys (path.take q) log).1 with
    | false =>
      rw [ensureAll_refused hthere]
      exact ⟨ext,hext,hpaths.trans (by simp),fun h => by cases h⟩
    | true =>
      obtain ⟨more,hmore,hrest,hall⟩ := ih (ensureDir sys (path.take q) log).2
      rw [ensureAll_there hthere]
      refine ⟨ext ++ more,by rw [hmore,hext,List.append_assoc],?_,fun h => ?_⟩
      · rw [mkdirPaths_append,List.map_cons,← List.singleton_append]
        exact hpaths.append hrest
      · refine List.forall_mem_cons.mpr ⟨?_,fun r hr => ?_⟩
        · have := (hest hthere).append [] more
          rwa [List.nil_append] at this
        · have := (hall h r hr).append ext []
          rwa [List.append_nil] at this

/-- The directories in front of the stops are prefixes, one longer than the other. -/
theorem stops_prefixes (path : List UInt8)
    (hsub : (mkdirPaths ext).Sublist ((scanStops true path 0).map path.take)) :
    (∀ dir ∈ mkdirPaths ext, dir <+: path ∧ dir.length < path.length) ∧
    (mkdirPaths ext).Pairwise fun a b => a.length < b.length := by
  obtain ⟨hlt,hin⟩ := scanStops_increasing (l:=path) true 0
  constructor
  · intro dir hdir
    obtain ⟨q,hq,rfl⟩ := List.mem_map.mp (hsub.subset hdir)
    have := hin q hq
    refine ⟨List.take_prefix q path,?_⟩
    rw [List.length_take]
    omega
  · refine List.Pairwise.sublist hsub (List.pairwise_map.mpr ?_)
    refine List.Pairwise.imp_of_mem ?_ hlt
    intro a b ha hb hab
    have := hin b hb
    rw [List.length_take,List.length_take]
    omega

theorem parentEnd_stop {i : ℕ} (h : ParentEnd path i) : i+1 ∈ scanStops true path 0 := by
  obtain ⟨hslash,b,hb,hne⟩ := h
  have hmem : 0+(i+1) ∈ scanStops true path 0 := mem_scanStops 0 hslash (by
    rw [if_neg (Nat.succ_ne_zero i),Nat.add_sub_cancel,hb]
    simpa using hne)
  rwa [Nat.zero_add] at hmem

end Calls

/-- A path that is not there: the loop, and the directory itself when the loop breaks off. -/
theorem mkdirP_missing {sys : DirCalls} {path : List UInt8} (hne : path ≠ []) (hnul : 0 ∉ path)
    (hstat : sys.stat [] path = false) (fuel : ℕ) : mkdirP sys fuel path =
      (run (mkdirTurn sys path.length) fuel ⟨path ++ [0],0,[.stat path false]⟩).map fun r =>
        match r with
        | .error e => .error e
        | .ok (some ret,s) => .ok (ret,s.blk,s.log)
        | .ok (none,s) =>
          let (answer,log) := callMkdir sys (cString s.blk) s.log
          .ok (if answer = .failed then .error else .ok,s.blk,log) := by
  have hcut : cString (path ++ [0]) = path := by rw [cString,cString_terminated,cString_eq hnul]
  rw [mkdirP,if_neg hne,hcut,callStat,hstat]
  rfl

section Missing
variable {sys : DirCalls} {path : List UInt8}

variable (sys) in
theorem mkdirLoop_end (hne : path ≠ []) (hnul : 0 ∉ path) : ∃ r,
    run (mkdirTurn sys path.length) ((scanStops true path 0).length+1) ⟨path ++ [0],0,[.stat path false]⟩ =
      some r ∧ loopEnd sys path (scanStops true path 0) [.stat path false] r := by
  have hqs : scanStops true (path.drop 0) 0 = scanStops true path 0 := by rw [List.drop_zero]
  exact mkdirTurn_run sys hnul (List.length_pos_iff.mpr hne) hqs [.stat path false]

/-- A separator is the last byte and a stop when an odd number of them ends the path behind its first byte. -/
theorem last_stop_path (hne : path ≠ []) : (scanStops true path 0).getLast? = some (path.length-1) ↔
    trailingSlashes path.tail % 2 = 1 := by
  obtain ⟨c,l,rfl⟩ := List.exists_cons_of_ne_nil hne
  have hend : 1+l.length-1 = (c::l).length-1 := by simp
  have hlast := last_stop_iff l 1
  rwa [hend] at hlast

/-- A path that is there needs no loop. -/
theorem makesPath_there (hne : path ≠ []) (hnul : 0 ∉ path) (hstat : sys.stat [] path = true) :
    MakesPath sys path := by
  have hcut : cString (path ++ [0]) = path := by rw [cString,cString_terminated,cString_eq hnul]
  refine ⟨0,.ok,[.stat path true],?_,by simp [mkdirPaths],by simp [mkdirPaths],fun _ => Or.inl rfl⟩
  rw [mkdirP,if_neg hne,hcut,callStat,hstat]
  rfl

/-- A directory that is refused is reported. -/
theorem makesPath_refused (hne : path ≠ []) (hnul : 0 ∉ path) (hstat : sys.stat [] path = false)
    (hrefused : (ensureAll sys path (scanStops true path 0) [.stat path false]).1 = false) :
    MakesPath sys path := by
  obtain ⟨r,hrun,hend⟩ := mkdirLoop_end sys hne hnul
  obtain ⟨ext,hext,hsub,-⟩ := ensureAll_log sys path (scanStops true path 0) [.stat path false]
  obtain ⟨hin,hpairs⟩ := stops_prefixes path hsub
  rw [loopEnd,if_pos hrefused] at hend
  obtain ⟨p,rfl⟩ := hend
  have hcall := mkdirP_missing hne hnul hstat ((scanStops true path 0).length+1)
  rw [hrun,hext] at hcall
  refine ⟨_,_,_,hcall,?_,?_,fun h => by cases h⟩
  · exact fun dir hdir => (hin dir hdir).1
  · exact hpairs

/-- The search goes on behind the end of the string. -/
theorem not_makesPath_end (hne : path ≠ []) (hnul : 0 ∉ path) (hstat : sys.stat [] path = false)
    (hall : (ensureAll sys path (scanStops true path 0) [.stat path false]).1 = true)
    (hodd : trailingSlashes path.tail % 2 = 1) : ¬ MakesPath sys path := by
  obtain ⟨r,hrun,hend⟩ := mkdirLoop_end sys hne hnul
  rw [loopEnd,hall,if_neg (by simp),if_pos ((last_stop_path hne).mpr hodd)] at hend
  subst hend
  rintro ⟨fuel,ret,log,hcall,-⟩
  rw [mkdirP_missing hne hnul hstat] at hcall
  obtain ⟨r,hr,hmap⟩ := Option.map_eq_some_iff.mp hcall
  rw [run_unique hr hrun] at hmap
  cases hmap

/-- When all directories above it are there, the path itself is made. -/
theorem makesPath_made (hne : path ≠ []) (hnul : 0 ∉ path) (hstat : sys.stat [] path = false)
    (hall : (ensureAll sys path (scanStops true path 0) [.stat path false]).1 = true)
    (heven : trailingSlashes path.tail % 2 = 0) : MakesPath sys path := by
  have hcut : cString (path ++ [0]) = path := by rw [cString,cString_terminated,cString_eq hnul]
  obtain ⟨r,hrun,hend⟩ := mkdirLoop_end sys hne hnul
  obtain ⟨ext,hext,hsub,hest⟩ := ensureAll_log sys path (scanStops true path 0) [.stat path false]
  obtain ⟨hin,hpairs⟩ := stops_prefixes path hsub
  have hlast : (scanStops true path 0).getLast? ≠ some (path.length-1) := fun h => by
    have hodd := (last_stop_path hne).mp h
    omega
  rw [loopEnd,hall,if_neg (by simp),if_neg hlast] at hend
  obtain ⟨p,rfl⟩ := hend
  have hcall := mkdirP_missing hne hnul hstat ((scanStops true path 0).length+1)
  rw [hrun] at hcall
  simp only [Option.map_some,hcut,hext,callMkdir] at hcall
  have hpaths (answer : MkdirAnswer) :
      mkdirPaths ([.stat path false] ++ ext ++ [.mkdir path answer]) = mkdirPaths ext ++ [path] := by
    rw [mkdirPaths_append,mkdirPaths_append]
    rfl
  refine ⟨_,_,_,hcall,?_,?_,fun hok => Or.inr ⟨?_,fun i hi => ?_⟩⟩
  · rw [hpaths]
    intro dir hdir
    rcases List.mem_append.mp hdir with hdir|hdir
    · exact (hin dir hdir).1
    · rw [List.mem_singleton.mp hdir]
  · rw [hpaths]
    refine List.pairwise_append.mpr ⟨hpairs,List.pairwise_singleton ..,fun a ha b hb => ?_⟩
    rw [List.mem_singleton.mp hb]
    exact (hin a ha).2
  · generalize sys.mkdir ([.stat path false] ++ ext) path = answer at hok
    cases answer <;> simp [Established] at hok ⊢
  · exact ((hest hall) (i+1) (parentEnd_stop hi)).append _ _

end Missing

/-- The directories are made as they should be exactly when the path is there already, or ends in an even
number of separators behind its first byte, or a directory is refused before the scan is at the end. -/
theorem makesPath_iff (sys : DirCalls) {path : List UInt8} (hne : path ≠ []) (hnul : 0 ∉ path) :
    MakesPath sys path ↔ sys.stat [] path = true ∨ trailingSlashes path.tail % 2 = 0 ∨
      (ensureAll sys path (scanStops true path 0) [.stat path false]).1 = false := by
  cases hstat : sys.stat [] path with
  | true => exact iff_of_true (makesPath_there hne hnul hstat) (Or.inl rfl)
  | false =>
    rw [Bool.false_eq_true,false_or]
    cases hall : (ensureAll sys path (scanStops true path 0) [.stat path false]).1 with
    | false => exact iff_of_true (makesPath_refused hne hnul hstat hall) (Or.inr rfl)
    | true =>
      constructor
      · intro hmakes
        by_contra heven
        exact not_makesPath_end hne hnul hstat hall (by omega) hmakes
      · intro heven
        exact makesPath_made hne hnul hstat hall (heven.resolve_right (by simp))

/-- `a/b`, where nothing is there yet. -/
theorem makesPath_ab : MakesPath ⟨fun _ _ => false,fun _ _ => .created⟩ [97,47,98] :=
  (makesPath_iff _ (by decide) (by decide)).mpr (Or.inr (Or.inl (by decide)))

/-- `a/`, where nothing is there yet: the search goes on behind the terminator. -/
theorem not_makesPath_slash : ¬ MakesPath ⟨fun _ _ => false,fun _ _ => .created⟩ [97,47] := by
  rintro ⟨fuel,ret,log,hcall,-⟩
  have hfault : run (mkdirTurn ⟨fun _ _ => false,fun _ _ => .created⟩ 2) 2
      ⟨[97,47,0],0,[.stat [97,47] false]⟩ = some (.error .fault) := by decide
  rw [mkdirP_missing (by decide) (by decide) rfl] at hcall
  obtain ⟨r,hr,hmap⟩ := Option.map_eq_some_iff.mp hcall
  rw [run_unique hr hfault] at hmap
  cases hmap

end Http2d
