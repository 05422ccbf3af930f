import Http2d.RmRfSafety

/-! What a run of `http2d_rm_rf` does where a link acts, where a record is read that was not written, and
where everything in a directory can be removed. -/
namespace Http2d
open FileTree

section Logs
variable {sys : FileCalls} {uid : UInt32} {rec : List UInt8 → RmState → Bool × RmState} {path : List UInt8}
  {d : FsPlace} {s : RmState} {n : List UInt8} {names : List (List UInt8)} {info : Option FsNode}

theorem RmState.unlink_log (s : RmState) (d : FsPlace) (name tmp : List UInt8) (known : Bool) :
    s.log <+: (s.unlink sys d name tmp known).log := by
  cases hun : (s.fs.unlink sys.toPathCalls tmp).2 with
  | none => rw [RmState.unlink_none hun]
  | some p =>
    rw [RmState.unlink_some hun]
    exact List.prefix_append _ _

theorem RmState.rmdir_log (s : RmState) (path : List UInt8) : s.log <+: (s.rmdir sys path).log := by
  cases hrm : (s.fs.rmdir sys.toPathCalls path).2 with
  | none => rw [RmState.rmdir_none hrm]
  | some p =>
    rw [RmState.rmdir_some hrm]
    exact List.prefix_append _ _

variable (sys d) in
theorem removeEntry_log (hrec : ∀ path s, s.log <+: (rec path s).2.log) (name tmp : List UInt8)
    (info : Option FsNode) : s.log <+: (removeEntry sys rec d name tmp info s).2.log := by
  unfold removeEntry
  split
  · have hnote : s.log <+: (s.note (.enter (s.fs.node (d ++ [name])) info.isSome)).log :=
      List.prefix_append _ _
    exact hnote.trans (hrec _ _)
  · exact RmState.unlink_log _ _ _ _ _
  · exact List.prefix_refl _

theorem removeEntries_log (hrec : ∀ path s, s.log <+: (rec path s).2.log) (names : List (List UInt8))
    (info : Option FsNode) : s.log <+: (removeEntries sys uid rec path d names info s).2.log := by
  induction names generalizing info s with
  | nil => exact List.prefix_refl _
  | cons n names ih =>
    obtain ⟨info',hskip | ⟨-,-,-,hact⟩⟩ := removeEntries_cons sys uid rec path d s n names info
    · rw [hskip]
      exact ih info'
    · have hentry := removeEntry_log sys d (s:=s) hrec n (path ++ 47::n) info'
      rw [hact]
      dsimp only
      split_ifs
      · exact hentry.trans (ih info')
      · exact hentry

/-- All that is seen when the first entry is acted on is seen of the loop. -/
theorem removeEntries_acts_log (hrec : ∀ path s, s.log <+: (rec path s).2.log) {info' : Option FsNode}
    (hn : n.head? ≠ some 46)
    (hinfo : info' = if uid ≠ noUid then s.fs.stat sys.toPathCalls (path ++ 47::n) else info)
    (howner : uid ≠ noUid → info'.map Node.owner = some uid) :
    (removeEntry sys rec d n (path ++ 47::n) info' s).2.log <+:
      (removeEntries sys uid rec path d (n::names) info s).2.log := by
  rw [removeEntries_acts hn hinfo howner]
  dsimp only
  split_ifs
  · exact removeEntries_log hrec names info'
  · exact List.prefix_refl _

variable (sys uid) in
/-- What is seen in the loop over a directory is seen of the whole call. -/
theorem rmRf_log_of_entries (fuel : ℕ) (hopen : s.fs.opendir sys.toPathCalls path = some d) :
    (removeEntries sys uid (rmRf sys uid fuel) path d (sys.order d (s.fs.entries d)) none s).2.log <+:
      (rmRf sys uid (fuel+1) path s).2.log := by
  simp only [rmRf,hopen]
  split
  case h_1 s' hrun => rw [hrun]
  case h_2 s' hrun =>
    rw [hrun]
    exact RmState.rmdir_log _ _

theorem rmRf_log (fuel : ℕ) (path : List UInt8) (s : RmState) :
    s.log <+: (rmRf sys uid fuel path s).2.log := by
  induction fuel generalizing path s with
  | zero => exact List.prefix_refl _
  | succ fuel ih =>
    cases hopen : s.fs.opendir sys.toPathCalls path with
    | none =>
      simp only [rmRf,hopen]
      exact List.prefix_refl _
    | some d => exact (removeEntries_log ih _ none).trans (rmRf_log_of_entries sys uid fuel hopen)

/-- The whole call acts on the entry that is read first. -/
theorem rmRf_acts_log {fuel : ℕ} (hopen : s.fs.opendir sys.toPathCalls path = some d)
    (horder : sys.order d (s.fs.entries d) = n::names) (huid : uid ≠ noUid) (hn : n.head? ≠ some 46)
    {kind : Kind (List UInt8)} (hstat : s.fs.stat sys.toPathCalls (path ++ 47::n) = some ⟨uid,kind⟩) :
    (removeEntry sys (rmRf sys uid fuel) d n (path ++ 47::n) (some ⟨uid,kind⟩) s).2.log <+:
      (rmRf sys uid (fuel+1) path s).2.log := by
  have hloop := rmRf_log_of_entries sys uid fuel hopen
  rw [horder] at hloop
  exact (removeEntries_acts_log (rmRf_log fuel) hn (by rw [if_pos huid,hstat]) fun _ => rfl).trans hloop

end Logs

section Unset
variable {paths : PathCalls} {fs : Disk} {path : List UInt8} {d : FsPlace} {n : List UInt8}

/-- A system in which the unwritten record says that everything is a directory. -/
def unsetCalls (paths : PathCalls) : FileCalls :=
  {paths with order := fun _ l => l, order_perm := fun _ l => List.Perm.refl l, stack := fun _ => .dir}

variable (paths path d) in
theorem removeEntries_unset {rec : List UInt8 → RmState → Bool × RmState}
    (hrec : ∀ path s, s.log <+: (rec path s).2.log) {names : List (List UInt8)} (hn : n ∈ names)
    (hhead : n.head? ≠ some 46) (s : RmState) :
    ∃ own, .enter own false ∈ (removeEntries (unsetCalls paths) noUid rec path d names none s).2.log := by
  induction names with
  | nil => cases hn
  | cons m names ih =>
    by_cases hm : m.head? = some 46
    · rw [removeEntries,if_pos hm]
      refine ih ((List.mem_cons.mp hn).resolve_left fun he => hhead ?_)
      rw [he,hm]
    · have hacts : (removeEntry (unsetCalls paths) rec d m (path ++ 47::m) none s).2.log <+:
          (removeEntries (unsetCalls paths) noUid rec path d (m::names) none s).2.log :=
        removeEntries_acts_log hrec hm (by simp) fun h => absurd rfl h
      have henter : (s.note (.enter (s.fs.node (d ++ [m])) false)).log <+:
          (removeEntry (unsetCalls paths) rec d m (path ++ 47::m) none s).2.log := hrec _ _
      exact ⟨_,(henter.trans hacts).subset (List.mem_append_right _ (List.mem_singleton.mpr rfl))⟩

/-- With no user given, the first entry that is not hidden is treated as the record happens to say. -/
theorem not_removesWithin_unset (hopen : fs.opendir paths path = some d) (hn : n ∈ fs.entries d)
    (hhead : n.head? ≠ some 46) : ¬ RemovesWithin paths fs path noUid := by
  intro h
  obtain ⟨own,hown⟩ := removeEntries_unset paths path d (rmRf_log 0) hn hhead ⟨fs,[]⟩
  have hlog := rmRf_log_of_entries (unsetCalls paths) noUid 0 (s:=⟨fs,[]⟩) hopen
  obtain ⟨e,-,hknown,-⟩ := h (unsetCalls paths) rfl 1 _ (hlog.subset hown)
  cases hknown

end Unset

section Calls
variable {fs : Disk} {path n : List UInt8} {d : FsPlace}

theorem Disk.stat_of_opendir {paths : PathCalls} (hopen : fs.opendir paths path = some d) :
    fs.stat paths path = fs.node d := by
  obtain ⟨hd,-⟩ := Option.filter_eq_some_iff.mp hopen
  rw [Disk.stat,hd,Option.bind_some]

theorem Disk.entryAt_of_opendir {paths : PathCalls} (hopen : fs.opendir paths path = some d)
    (hname : EntryName n) : fs.entryAt paths (path ++ 47::n) = some (d ++ [n]) := by
  obtain ⟨hpath,⟨b,hw⟩,hdir⟩ := Disk.opendir_iff.mp hopen
  rw [Disk.entryAt_entry hpath hname,hw,Option.bind_some,if_pos hdir]

end Calls

section Links
variable {paths : PathCalls} {fs : Disk} {path : List UInt8} {d : FsPlace} {uid : UInt32}
  {ns : List (List UInt8)} {n : List UInt8}

/-- The order in which the next name on the way to a place is read first. -/
def towards (target p : FsPlace) (l : List (List UInt8)) : List (List UInt8) :=
  match target[p.length]? with
  | some n => if n ∈ l then n::l.erase n else l
  | none => l

theorem towards_perm (target p : FsPlace) (l : List (List UInt8)) : (towards target p l).Perm l := by
  unfold towards
  split
  · split_ifs with hn
    · exact (List.perm_cons_erase hn).symm
    · exact List.Perm.refl l
  · exact List.Perm.refl l

theorem towards_append {p q : FsPlace} {l : List (List UInt8)} (hn : n ∈ l) :
    towards (p ++ n::q) p l = n::l.erase n := by
  simp [towards,hn]

def towardsCalls (paths : PathCalls) (target : FsPlace) : FileCalls :=
  {paths with order := towards target, order_perm := towards_perm target, stack := fun _ => .other}

/-- The first entry of a directory on the way to a place. -/
theorem towards_acts_log (q : FsPlace) {s : RmState} (fuel : ℕ) {kind : Kind (List UInt8)}
    (huid : uid ≠ noUid) (hopen : s.fs.opendir paths path = some d)
    (hnode : s.fs.node (d ++ [n]) ≠ none) (hn : n.head? ≠ some 46)
    (hstat : s.fs.stat paths (path ++ 47::n) = some ⟨uid,kind⟩) :
    (removeEntry (towardsCalls paths (d ++ n::q)) (rmRf (towardsCalls paths (d ++ n::q)) uid fuel) d n
      (path ++ 47::n) (some ⟨uid,kind⟩) s).2.log <+:
      (rmRf (towardsCalls paths (d ++ n::q)) uid (fuel+1) path s).2.log :=
  rmRf_acts_log hopen (towards_append (Disk.mem_entries.mpr hnode)) huid hn hstat

/-- The link itself is entered or unlinked for what it leads to. -/
theorem link_acts (huid : uid ≠ noUid) (hopen : fs.opendir paths path = some d) (h : Enterable fs d uid ns)
    (hlink : LinkActs paths fs path d uid ns n) (s : RmState) (hs : s.fs = fs) : ∃ ev ∈
      (rmRf (towardsCalls paths (d ++ (ns ++ [n]))) uid 1 (below path ns) s).2.log, ¬ ev.Within d uid := by
  subst hs
  obtain ⟨hn,⟨owner,absolute,target,hnode⟩,kind,hstat,hkind⟩ := hlink
  have hopen' := opendir_below hopen h
  have hnotDir : isDir s.fs.node (d ++ (ns ++ [n])) = false := by
    rw [isDir,hnode]
  rw [below_snoc] at hstat
  have hlog := towards_acts_log [] 0 huid hopen'
    (by rw [List.append_assoc,hnode]; simp) hn hstat
  rw [List.append_assoc] at hlog
  rcases hkind with rfl | rfl
  · refine ⟨.enter (s.fs.node (d ++ ns ++ [n])) true,hlog.subset ?_,?_⟩
    · exact List.mem_append_right _ (List.mem_singleton.mpr rfl)
    · rintro ⟨-,o,ho,-⟩
      rw [List.append_assoc,hnode] at ho
      cases ho
  · have hname : EntryName n := s.fs.names _ _ hnode n (by simp)
    have hun : (s.fs.unlink (towardsCalls paths (d ++ (ns ++ [n]))).toPathCalls (below path ns ++ 47::n)).2 =
        some (d ++ (ns ++ [n])) := Disk.unlink_iff.mpr
      ⟨by rw [← List.append_assoc]; exact Disk.entryAt_of_opendir hopen' hname,by simp [hnode],hnotDir⟩
    have hentry : (removeEntry (towardsCalls paths (d ++ (ns ++ [n])))
        (rmRf (towardsCalls paths (d ++ (ns ++ [n]))) uid 0) (d ++ ns) n (below path ns ++ 47::n)
        (some ⟨uid,.reg⟩) s).2.log = s.log ++ [.unlink (s.fs.node (d ++ ns ++ [n])) true
          (d ++ (ns ++ [n])) (s.fs.node (d ++ (ns ++ [n])))] := congrArg RmState.log (RmState.unlink_some hun)
    rw [hentry] at hlog
    refine ⟨_,hlog.subset (List.mem_append_right _ (List.mem_singleton.mpr rfl)),?_⟩
    rintro ⟨-,⟨o,ho,-⟩,-⟩
    rw [List.append_assoc,hnode] at ho
    cases ho

/-- The run enters one directory after the other, until it is where the link is. -/
theorem rmRf_reaches (huid : uid ≠ noUid) (hopen : fs.opendir paths path = some d) (h : Enterable fs d uid ns)
    (hlink : LinkActs paths fs path d uid ns n) (ms ks : List (List UInt8)) (hms : ms ++ ks = ns)
    (s : RmState) (hs : s.fs = fs) : ∃ ev ∈ (rmRf (towardsCalls paths (d ++ (ns ++ [n]))) uid
      (ks.length+1) (below path ms) s).2.log, ¬ ev.Within d uid := by
  induction ks generalizing ms s with
  | nil =>
    rw [List.append_nil] at hms
    subst hms
    exact link_acts huid hopen h hlink s hs
  | cons k ks ih =>
    subst hs
    have hnext : (ms ++ [k]) ++ ks = ns := by rw [← hms]; simp
    have hinitial : ms ++ [k] <+: ns := ⟨ks,hnext⟩
    obtain ⟨hk,hnode⟩ := h ms k hinitial
    have hstat : s.fs.stat paths (below path ms ++ 47::k) = some ⟨uid,.dir⟩ := by
      rw [← below_snoc,Disk.stat_of_opendir (opendir_below hopen (h.initial hinitial)),hnode]
    have hlog := towards_acts_log (ks ++ [n]) (ks.length+1) huid
      (opendir_below hopen (h.initial ⟨k::ks,hms⟩)) (by rw [List.append_assoc,hnode]; simp) hk hstat
    have htarget : d ++ ms ++ k::(ks ++ [n]) = d ++ (ns ++ [n]) := by
      rw [← hms]
      simp
    rw [htarget] at hlog
    obtain ⟨ev,hev,hout⟩ := ih (ms ++ [k]) hnext
      (s.note (.enter (s.fs.node (d ++ ms ++ [k])) true)) rfl
    rw [below_snoc] at hev
    exact ⟨ev,hlog.subset hev,hout⟩

/-- A link that acts is found by a run that reads the directories in a suitable order. -/
theorem not_removesWithin_link (huid : uid ≠ noUid) (hopen : fs.opendir paths path = some d)
    (h : Enterable fs d uid ns) (hlink : LinkActs paths fs path d uid ns n) :
    ¬ RemovesWithin paths fs path uid := by
  intro hall
  obtain ⟨ev,hev,hout⟩ := rmRf_reaches huid hopen h hlink [] ns rfl ⟨fs,[]⟩ rfl
  obtain ⟨e,he,hwithin⟩ := hall (towardsCalls paths (d ++ (ns ++ [n]))) rfl (ns.length+1) ev hev
  obtain rfl : e = d := Option.some.inj (he.symm.trans hopen)
  exact hout hwithin

end Links

end Http2d
