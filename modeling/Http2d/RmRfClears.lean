import Http2d.RmRfRuns

/-! A run of `http2d_rm_rf` over a directory in which everything can be removed, and when no run leaves
the directory that it is given. -/
namespace Http2d
open FileTree

/-- Of the second all that is at a place and in it is gone. -/
def Cut (p : FsPlace) (fs fs' : Disk) : Prop := ∀ q, fs'.node q = if p <+: q then none else fs.node q

/-- Of the second all that is at these entries of a directory and in them is gone. -/
def CutAll (p : FsPlace) (names : List (List UInt8)) (fs fs' : Disk) : Prop :=
  ∀ q, fs'.node q = if ∃ n ∈ names, p ++ [n] <+: q then none else fs.node q

/-- The path does not need what is in the directory, and all that is in it can be removed. -/
structure Clearable (paths : PathCalls) (path : List UInt8) (d : FsPlace) (uid : UInt32) (fs : Disk) :
    Prop where
  opens : (fs.clear d).opendir paths path = some d
  removable : ∀ p x, Inside d p → fs.node p = some x → Removable uid p x

/-- Nothing is as deep in the directory as this. -/
def Shallow (p : FsPlace) (depth : ℕ) (fs : Disk) : Prop := ∀ q, fs.node (p ++ q) ≠ none → q.length < depth

section Cuts
variable {paths : PathCalls} {fs fs' : Disk} {path : List UInt8} {d p : FsPlace} {uid : UInt32}
  {ns : List (List UInt8)} {n : List UInt8} {depth : ℕ}

theorem Disk.opendir_mono (h : Sub fs.node fs'.node) (hopen : fs.opendir paths path = some d) :
    fs'.opendir paths path = some d := by
  obtain ⟨hpath,⟨b,hw⟩,hdir⟩ := Disk.opendir_iff.mp hopen
  exact Disk.opendir_iff.mpr ⟨hpath,⟨b,walkFrom_mono h hw⟩,h.isDir hdir⟩

theorem Disk.clear_sub (fs : Disk) (d : FsPlace) : Sub (fs.clear d).node fs.node := by
  intro p x hp
  have hp' : (if Inside d p then none else fs.node p) = some x := hp
  split_ifs at hp'
  exact hp'

theorem Clearable.opendir (hc : Clearable paths path d uid fs) : fs.opendir paths path = some d :=
  Disk.opendir_mono (fs.clear_sub d) hc.opens

theorem Cut.sub (h : Cut p fs fs') : Sub fs'.node fs.node := by
  intro q x hq
  rw [h q] at hq
  split_ifs at hq
  exact hq

theorem Cut.of_not (h : Cut p fs fs') {q : FsPlace} (hq : ¬ p <+: q) : fs'.node q = fs.node q := by
  rw [h q,if_neg hq]

theorem Inside.trans {q : FsPlace} (h : Inside d p) (hq : p <+: q) : Inside d q := by
  obtain ⟨r,hr,rfl⟩ := inside_iff.mp h
  obtain ⟨t,rfl⟩ := hq
  exact inside_iff.mpr ⟨r ++ t,by simp [hr],List.append_assoc _ _ _⟩

theorem Cut.clearable (h : Cut p fs fs') (hp : Inside d p) (hc : Clearable paths path d uid fs) :
    Clearable paths path d uid fs' where
  opens := by
    refine Disk.opendir_mono (fun q x hq => ?_) hc.opens
    have hq' : (if Inside d q then none else fs.node q) = some x := hq
    split_ifs at hq' with hin
    have hout : ¬ p <+: q := fun hpq => hin (hp.trans hpq)
    exact (if_neg hin).trans ((h.of_not hout).trans hq')
  removable q x hq hx := hc.removable q x hq (h.sub _ _ hx)

theorem not_prefix_above {ms : List (List UInt8)} (h : ms <+: ns) (d : FsPlace) (n : List UInt8) :
    ¬ d ++ (ns ++ [n]) <+: d ++ ms := by
  intro hp
  have hlen := hp.length_le
  have hle := h.length_le
  simp only [List.length_append,List.length_singleton] at hlen
  omega

theorem Cut.enterable (h : Cut (d ++ (ns ++ [n])) fs fs') (he : Enterable fs d uid ns) :
    Enterable fs' d uid ns := by
  intro ms m hm
  obtain ⟨hhead,hnode⟩ := he ms m hm
  exact ⟨hhead,by rw [h.of_not (not_prefix_above hm d n),hnode]⟩

theorem Cut.shallow {q : FsPlace} (h : Cut p fs fs') (hs : Shallow q depth fs) : Shallow q depth fs' := by
  intro r hr
  refine hs r fun hnone => hr ?_
  rw [h]
  split_ifs
  · rfl
  · exact hnone

theorem Shallow.entry (h : Shallow (d ++ ns) (depth+1) fs) : Shallow (d ++ (ns ++ [n])) depth fs := by
  intro q hq
  have hlen := h (n::q) (by simpa using hq)
  simpa using hlen

/-- Where nothing is deeper, the place is all that goes. -/
theorem cut_of_update (hbelow : ∀ q, Inside p q → fs.node q = none)
    (h : fs'.node = Function.update fs.node p none) : Cut p fs fs' := by
  intro q
  rw [h]
  by_cases hq : q = p
  · rw [hq,Function.update_self,if_pos (List.prefix_refl _)]
  · rw [Function.update_of_ne hq]
    split_ifs with hp
    · exact hbelow q ⟨hp,hq⟩
    · rfl

theorem CutAll.nil : CutAll p [] fs fs := fun q => by simp

theorem CutAll.cons {fs'' : Disk} {names : List (List UInt8)} (h : Cut (p ++ [n]) fs fs'')
    (hs : CutAll p names fs'' fs') : CutAll p (n::names) fs fs' := by
  intro q
  rw [hs q,h q]
  by_cases hn : p ++ [n] <+: q
  · simp [hn]
  · simp [hn]

/-- When all the entries go, the directory is left empty. -/
theorem CutAll.clear {names : List (List UInt8)} (h : CutAll p names fs fs')
    (hall : ∀ n, fs.node (p ++ [n]) ≠ none → n ∈ names) : fs'.node = (fs.clear p).node := by
  funext q
  have hclear : (fs.clear p).node q = if Inside p q then none else fs.node q := rfl
  rw [h q,hclear]
  by_cases hq : Inside p q
  · rw [if_pos hq]
    split_ifs with hn
    · rfl
    · obtain ⟨r,hr,rfl⟩ := inside_iff.mp hq
      obtain ⟨m,r,rfl⟩ := List.exists_cons_of_ne_nil hr
      have hm : p ++ [m] <+: p ++ m::r := ⟨r,by simp⟩
      by_contra hne
      exact hn ⟨m,hall m fun hnone => hne (Disk.none_of_above hnone hm),hm⟩
  · rw [if_neg hq,if_neg]
    rintro ⟨n,-,hn⟩
    exact hq (Inside.trans (inside_iff.mpr ⟨[n],by simp,rfl⟩) hn)

end Cuts

section Runs
variable {sys : FileCalls} {path : List UInt8} {d : FsPlace} {uid : UInt32} {ns : List (List UInt8)}
  {n : List UInt8} {depth : ℕ} {rec : List UInt8 → RmState → Bool × RmState} {s : RmState} {x : FsNode}

theorem Removable.entry (h : Removable uid (d ++ (ns ++ [n])) x) :
    n.head? ≠ some 46 ∧ (x = ⟨uid,.dir⟩ ∨ x = ⟨uid,.reg⟩) := by
  obtain ⟨hhead,howner,hkind⟩ := h
  obtain ⟨owner,kind⟩ := x
  obtain rfl : owner = uid := howner
  refine ⟨hhead n (by rw [← List.append_assoc,List.getLast?_concat]; rfl),hkind.imp ?_ ?_⟩
  · exact congrArg _
  · exact congrArg _

/-- The status of an entry that is no link. -/
theorem Disk.stat_entry {paths : PathCalls} {fs : Disk} (hopen : fs.opendir paths path = some d)
    (hnode : fs.node (d ++ [n]) = some x) (hlink : ∀ absolute target, x.kind ≠ .link absolute target) :
    fs.stat paths (path ++ 47::n) = some x := by
  have hname : EntryName n := fs.names _ _ hnode n (by simp)
  obtain ⟨hpath,⟨b,hw⟩,hdir⟩ := Disk.opendir_iff.mp hopen
  rw [Disk.stat,Disk.resolve_entry hpath hname,walkFrom_append,hw,Option.bind_some,
    walkFrom_name hdir hnode hlink]
  exact hnode

/-- The call for an entry that is a directory removes all of it, as far as this many levels go. -/
def ClearsBelow (sys : FileCalls) (path : List UInt8) (d : FsPlace) (uid : UInt32) (depth : ℕ)
    (rec : List UInt8 → RmState → Bool × RmState) : Prop :=
  ∀ ns n s, Clearable sys.toPathCalls path d uid s.fs → Enterable s.fs d uid (ns ++ [n]) →
    Shallow (d ++ (ns ++ [n])) depth s.fs →
    ∃ s', rec (below path (ns ++ [n])) s = (true,s') ∧ Cut (d ++ (ns ++ [n])) s.fs s'.fs

theorem removeEntry_clears (hrec : ClearsBelow sys path d uid depth rec)
    (hc : Clearable sys.toPathCalls path d uid s.fs) (he : Enterable s.fs d uid ns)
    (hs : Shallow (d ++ ns) (depth+1) s.fs) (hnode : s.fs.node (d ++ (ns ++ [n])) = some x) :
    ∃ s', removeEntry sys rec (d ++ ns) n (below path ns ++ 47::n) (some x) s = (true,s') ∧
      Cut (d ++ (ns ++ [n])) s.fs s'.fs := by
  obtain ⟨hhead,rfl | rfl⟩ := (hc.removable _ x (inside_entry d ns n) hnode).entry
  · obtain ⟨s',hrun,hcut⟩ := hrec ns n (s.note (.enter (s.fs.node (d ++ ns ++ [n])) true)) hc
      (he.snoc hhead hnode) hs.entry
    rw [below_snoc] at hrun
    exact ⟨s',hrun,hcut⟩
  · have hname : EntryName n := s.fs.names _ _ hnode n (by simp)
    have hnotDir : isDir s.fs.node (d ++ (ns ++ [n])) = false := by rw [isDir,hnode]
    have hun : (s.fs.unlink sys.toPathCalls (below path ns ++ 47::n)).2 = some (d ++ (ns ++ [n])) := by
      refine Disk.unlink_iff.mpr ⟨?_,by simp [hnode],hnotDir⟩
      rw [Disk.entryAt_of_opendir (opendir_below hc.opendir he) hname,List.append_assoc]
    refine ⟨_,congrArg (Prod.mk true) (RmState.unlink_some hun),?_⟩
    exact cut_of_update (fun q hq => none_inside (Disk.none_below hnotDir) hq) (Disk.unlink_node hun)

/-- The loop removes all of the entries that it is given. -/
theorem removeEntries_clears (huid : uid ≠ noUid) (hrec : ClearsBelow sys path d uid depth rec)
    {names : List (List UInt8)} (hnodup : names.Nodup) (info : Option FsNode)
    (hc : Clearable sys.toPathCalls path d uid s.fs) (he : Enterable s.fs d uid ns)
    (hs : Shallow (d ++ ns) (depth+1) s.fs) (hthere : ∀ n ∈ names, s.fs.node (d ++ (ns ++ [n])) ≠ none) :
    ∃ s', removeEntries sys uid rec (below path ns) (d ++ ns) names info s = (true,s') ∧
      CutAll (d ++ ns) names s.fs s'.fs := by
  induction names generalizing info s with
  | nil => exact ⟨s,rfl,CutAll.nil⟩
  | cons n names ih =>
    obtain ⟨hn,hnodup⟩ := List.nodup_cons.mp hnodup
    obtain ⟨hnode,hthere⟩ := List.forall_mem_cons.mp hthere
    obtain ⟨x,hx⟩ := Option.ne_none_iff_exists'.mp hnode
    obtain ⟨hhead,hkind⟩ := (hc.removable _ x (inside_entry d ns n) hx).entry
    have hlink (absolute : Bool) (target : List (Step (List UInt8))) : x.kind ≠ .link absolute target := by
      rcases hkind with rfl | rfl
      · simp
      · simp
    have howner : x.owner = uid := by
      rcases hkind with rfl | rfl
      · rfl
      · rfl
    have hstat : s.fs.stat sys.toPathCalls (below path ns ++ 47::n) = some x :=
      Disk.stat_entry (opendir_below hc.opendir he) (by rw [List.append_assoc,hx]) hlink
    obtain ⟨s₁,hentry,hcut⟩ := removeEntry_clears hrec hc he hs hx
    -- what the other names are about is not below this one
    have hothers : ∀ m ∈ names, s₁.fs.node (d ++ (ns ++ [m])) ≠ none := fun m hm => by
      rw [hcut.of_not]
      · exact hthere m hm
      · intro hp
        have heq := hp.eq_of_length (by simp)
        simp only [List.append_cancel_left_eq,List.cons.injEq,and_true] at heq
        exact hn (heq ▸ hm)
    obtain ⟨s',hrun,hall⟩ := ih hnodup (some x) (hcut.clearable (inside_entry d ns n) hc) (hcut.enterable he)
      (hcut.shallow hs) hothers
    refine ⟨s',?_,CutAll.cons (by rwa [List.append_assoc]) hall⟩
    rw [removeEntries_acts hhead (by rw [if_pos huid,hstat]) fun _ => by rw [Option.map_some,howner],hentry]
    exact hrun

theorem Disk.entries_nodup (fs : Disk) (p : FsPlace) : (fs.entries p).Nodup := by
  refine List.Nodup.filterMap (fun q q' n hq hq' => ?_) fs.nodup
  obtain ⟨h,hq⟩ := Option.mem_ite_none_right.mp hq
  obtain ⟨h',hq'⟩ := Option.mem_ite_none_right.mp hq'
  calc q = q.dropLast ++ [n] := (List.dropLast_append_getLast? n hq).symm
    _ = q'.dropLast ++ [n] := by rw [h.1,h'.1]
    _ = q' := List.dropLast_append_getLast? n hq'

/-- An entered directory stays where it is when all that is in it goes. -/
theorem Enterable.of_clear {fs fs' : Disk} (he : Enterable fs d uid (ns ++ [n]))
    (h : fs'.node = (fs.clear (d ++ (ns ++ [n]))).node) : Enterable fs' d uid (ns ++ [n]) := by
  intro ms m hm
  obtain ⟨hhead,hnode⟩ := he ms m hm
  have hout : ¬ Inside (d ++ (ns ++ [n])) (d ++ (ms ++ [m])) := fun hin =>
    hin.2 (((List.prefix_append_right_inj d).mpr hm).eq_of_length_le hin.1.length_le)
  rw [h]
  exact ⟨hhead,(if_neg hout).trans hnode⟩

theorem Clearable.opendir_clear {paths : PathCalls} {fs fs' : Disk} {p : FsPlace} (hp : d <+: p)
    (hc : Clearable paths path d uid fs) (h : fs'.node = (fs.clear p).node) :
    fs'.opendir paths path = some d := by
  refine Disk.opendir_mono (fun q x hq => ?_) hc.opens
  have hq' : (if Inside d q then none else fs.node q) = some x := hq
  split_ifs at hq' with hin
  have hout : ¬ Inside p q := fun hpq => hin (by
    obtain ⟨r,rfl⟩ := hp
    obtain ⟨t,ht,rfl⟩ := inside_iff.mp hpq
    exact inside_iff.mpr ⟨r ++ t,by simp [ht],List.append_assoc _ _ _⟩)
  rw [h]
  exact (if_neg hout).trans hq'

variable (sys ns s) in
/-- The loop over all that is in a directory. -/
theorem removeEntries_clear (huid : uid ≠ noUid) (hrec : ClearsBelow sys path d uid depth rec)
    (hc : Clearable sys.toPathCalls path d uid s.fs) (he : Enterable s.fs d uid ns)
    (hs : Shallow (d ++ ns) (depth+1) s.fs) : ∃ s', removeEntries sys uid rec (below path ns) (d ++ ns)
      (sys.order (d ++ ns) (s.fs.entries (d ++ ns))) none s = (true,s') ∧
      s'.fs.node = (s.fs.clear (d ++ ns)).node := by
  have hperm := sys.order_perm (d ++ ns) (s.fs.entries (d ++ ns))
  obtain ⟨s',hrun,hall⟩ := removeEntries_clears huid hrec (hperm.nodup_iff.mpr (s.fs.entries_nodup _)) none
    hc he hs fun n hn => by
      rw [← List.append_assoc]
      exact Disk.mem_entries.mp (hperm.mem_iff.mp hn)
  exact ⟨s',hrun,hall.clear fun n hn => hperm.mem_iff.mpr (Disk.mem_entries.mpr hn)⟩

/-- A directory that was entered goes with all that is in it. -/
theorem rmRf_clears (huid : uid ≠ noUid) (depth : ℕ) :
    ClearsBelow sys path d uid depth (rmRf sys uid depth) := by
  induction depth with
  | zero =>
    intro ns n s hc he hs
    obtain ⟨-,hnode⟩ := he ns n (List.prefix_refl _)
    have hlen := hs [] (by simp [hnode])
    cases hlen
  | succ depth ih =>
    intro ns n s hc he hs
    obtain ⟨s₁,hloop,hclear⟩ := removeEntries_clear sys _ s huid ih hc he hs
    have he₁ := he.of_clear hclear
    obtain ⟨-,hnode⟩ := he₁ ns n (List.prefix_refl _)
    have hopen₁ := opendir_below (hc.opendir_clear (List.prefix_append _ _) hclear)
      (he₁.initial (List.prefix_append _ _))
    have hrm : (s₁.fs.rmdir sys.toPathCalls (below path (ns ++ [n]))).2 = some (d ++ (ns ++ [n])) := by
      refine Disk.rmdir_iff.mpr ⟨?_,isDir_iff.mpr ⟨uid,hnode⟩,fun m => ?_⟩
      · rw [below_snoc,Disk.entryAt_of_opendir hopen₁ (s₁.fs.names _ _ hnode n (by simp)),List.append_assoc]
      · rw [hclear]
        exact if_pos (inside_iff.mpr ⟨[m],by simp,rfl⟩)
    refine ⟨s₁.rmdir sys (below path (ns ++ [n])),?_,fun q => ?_⟩
    · simp only [rmRf,opendir_below hc.opendir he,hloop]
    · have hafter := Disk.rmdir_node hrm
      rw [RmState.rmdir_some hrm]
      dsimp only
      rw [hafter,hclear]
      by_cases hq : q = d ++ (ns ++ [n])
      · rw [hq,Function.update_self,if_pos (List.prefix_refl _)]
      · rw [Function.update_of_ne hq]
        exact if_congr (and_iff_left hq) rfl rfl

theorem exists_shallow (fs : Disk) (p : FsPlace) : ∃ depth, Shallow p (depth+1) fs := by
  refine ⟨(fs.places.map List.length).sum,fun q hq => ?_⟩
  obtain ⟨x,hx⟩ := Option.ne_none_iff_exists'.mp hq
  have hlen : (p ++ q).length ≤ (fs.places.map List.length).sum :=
    List.le_sum_of_mem (List.mem_map_of_mem (fs.listed _ _ hx))
  rw [List.length_append] at hlen
  omega

end Runs

section Top
variable {paths : PathCalls} {fs : Disk} {path : List UInt8} {d : FsPlace} {uid : UInt32}

theorem EmptiesTop.clearable (h : EmptiesTop paths fs path d uid) (hpath : path ≠ []) :
    Clearable paths path d uid fs := by
  obtain ⟨hentry,hdir,-⟩ := Disk.rmdir_iff.mp h.2.2
  exact ⟨Disk.opendir_iff.mpr ⟨hpath,Disk.entryAt_walkFrom hentry hdir,hdir⟩,h.2.1⟩

/-- A directory of another user is removed when it has been emptied. -/
theorem not_removesWithin_top (huid : uid ≠ noUid) (hopen : fs.opendir paths path = some d)
    (h : EmptiesTop paths fs path d uid) : ¬ RemovesWithin paths fs path uid := by
  intro hall
  have hc := h.clearable (Disk.opendir_iff.mp hopen).1
  obtain ⟨depth,hdepth⟩ := exists_shallow fs d
  obtain ⟨s₁,hloop,hclear⟩ := removeEntries_clear (unsetCalls paths) [] ⟨fs,[]⟩ huid
    (rmRf_clears huid depth) hc enterable_nil (by rwa [List.append_nil])
  rw [List.append_nil] at hloop hclear
  obtain ⟨hentry,hdir,hnone⟩ := Disk.rmdir_iff.mp h.2.2
  have hrm : (s₁.fs.rmdir (unsetCalls paths).toPathCalls path).2 = some d := by
    have hsub : Sub (fs.clear d).node s₁.fs.node := fun q x hq => by rw [hclear,hq]
    refine Disk.rmdir_iff.mpr ⟨Disk.entryAt_mono hsub hentry,hsub.isDir hdir,fun n => ?_⟩
    rw [hclear,hnone]
  have hrun : (rmRf (unsetCalls paths) uid (depth+1) path ⟨fs,[]⟩).2.log =
      s₁.log ++ [.rmdir d (s₁.fs.node d)] := by
    have hloop' : removeEntries (unsetCalls paths) uid (rmRf (unsetCalls paths) uid depth) path d
        ((unsetCalls paths).order d (fs.entries d)) none ⟨fs,[]⟩ = (true,s₁) := hloop
    have hopen' : fs.opendir (unsetCalls paths).toPathCalls path = some d := hopen
    simp only [rmRf,hopen',hloop']
    exact congrArg RmState.log (RmState.rmdir_some hrm)
  obtain ⟨e,-,-,owner',ho',huser⟩ := hall (unsetCalls paths) rfl (depth+1) (.rmdir d (s₁.fs.node d))
    (by rw [hrun]; exact List.mem_append_right _ (List.mem_singleton.mpr rfl))
  obtain ⟨owner,ho,hother⟩ := h.1
  have hself : ¬ Inside d d := fun hin => hin.2 rfl
  rw [hclear] at ho'
  have heq := (if_neg hself).symm.trans ho'
  rw [ho] at heq
  cases heq
  exact hother (huser huid)

variable (path d uid) in
/-- When every entry is hidden, nothing is touched but the directory itself. -/
theorem removeEntries_hidden (sys : FileCalls) (rec : List UInt8 → RmState → Bool × RmState) {s : RmState}
    {names : List (List UInt8)} (h : ∀ n ∈ names, n.head? = some 46) :
    removeEntries sys uid rec path d names none s = (true,s) := by
  induction names with
  | nil => rfl
  | cons n names ih =>
    obtain ⟨hn,h⟩ := List.forall_mem_cons.mp h
    rw [removeEntries,if_pos hn]
    exact ih h

theorem rmRf_hidden {sys : FileCalls} (hopen : fs.opendir sys.toPathCalls path = some d)
    (h : ∀ n ∈ fs.entries d, n.head? = some 46) (fuel : ℕ) :
    ∀ ev ∈ (rmRf sys noUid fuel path ⟨fs,[]⟩).2.log, ev.Within d noUid := by
  cases fuel with
  | zero => simp [rmRf]
  | succ fuel =>
    have hloop := removeEntries_hidden path d noUid sys (rmRf sys noUid fuel) (s:=⟨fs,[]⟩)
      fun n hn => h n ((sys.order_perm d _).mem_iff.mp hn)
    simp only [rmRf,hopen,hloop]
    cases hrm : (fs.rmdir sys.toPathCalls path).2 with
    | none =>
      rw [RmState.rmdir_none hrm]
      simp
    | some p =>
      obtain rfl := Disk.rmdir_place (fun _ _ hq => hq) hopen hrm
      obtain ⟨owner,ho⟩ := isDir_iff.mp (Disk.rmdir_iff.mp hrm).2.1
      rw [RmState.rmdir_some hrm]
      intro ev hev
      rw [List.nil_append,List.mem_singleton] at hev
      rw [hev]
      exact ⟨List.prefix_refl _,owner,ho,fun hne => absurd rfl hne⟩

end Top

/-- Exactly then every run stays within. -/
theorem removesWithin_iff (paths : PathCalls) (fs : Disk) (path : List UInt8) (onlyUid : UInt32) :
    RemovesWithin paths fs path onlyUid ↔ StaysWithin paths fs path onlyUid := by
  constructor
  · intro h d hopen
    split_ifs with huid
    · subst huid
      intro n hn
      by_contra hhead
      exact not_removesWithin_unset hopen hn hhead h
    · exact ⟨fun ns n he hlink => not_removesWithin_link huid hopen he hlink h,
        fun htop => not_removesWithin_top huid hopen htop h⟩
  · intro h sys hsys fuel ev hev
    subst hsys
    cases hopen : fs.opendir sys.toPathCalls path with
    | none => 
      cases fuel with
      | zero => cases hev
      | succ fuel =>
        simp only [rmRf,hopen] at hev
        cases hev
    | some d =>
      refine ⟨d,rfl,?_⟩
      have hd := h d hopen
      split_ifs at hd with huid
      · subst huid
        exact rmRf_hidden hopen hd fuel ev hev
      · exact rmRf_within huid hopen hd.1 hd.2 fuel ev hev

/-- In the directory `/c` of the user 33 is a link to the user's directory `/v`, with a file in it. -/
def plantedTree : Tree (List UInt8) UInt32 := fun p =>
  if p = [] then some ⟨0,.dir⟩
  else if p = [[99]] then some ⟨33,.dir⟩
  else if p = [[99],[108]] then some ⟨33,.link true [.name [118]]⟩
  else if p = [[118]] then some ⟨33,.dir⟩
  else if p = [[118],[102]] then some ⟨33,.reg⟩
  else none

def plantedPlaces : List FsPlace := [[],[[99]],[[99],[108]],[[118]],[[118],[102]]]

theorem plantedTree_listed (p : FsPlace) (x : FsNode) (h : plantedTree p = some x) : p ∈ plantedPlaces := by
  unfold plantedTree at h
  split_ifs at h with h₁ h₂ h₃ h₄ h₅
  all_goals simp_all [plantedPlaces]

def plantedDisk : Disk where
  node := plantedTree
  places := plantedPlaces
  listed := plantedTree_listed
  nodup := by decide
  parent p n h := by
    obtain ⟨x,hx⟩ := Option.ne_none_iff_exists'.mp h
    have hall : ∀ q ∈ plantedPlaces, isDir plantedTree q.dropLast := by decide
    simpa using hall _ (plantedTree_listed _ _ hx)
  names p x h := by
    have hall : ∀ q ∈ plantedPlaces, ∀ n ∈ q, n ≠ [] ∧ 47 ∉ n ∧ n ≠ [46] ∧ n ≠ [46,46] := by
      decide
    exact hall p (plantedTree_listed p x h)

/-- The file behind the link is unlinked. -/
theorem not_removesWithin_planted : ¬ RemovesWithin ⟨[],8⟩ plantedDisk [47,99] 33 := by
  intro h
  have hrun : RmEvent.unlink (some ⟨33,.reg⟩) true [[118],[102]] (some ⟨33,.reg⟩) ∈
      (rmRf (unsetCalls ⟨[],8⟩) 33 3 [47,99] ⟨plantedDisk,[]⟩).2.log := by decide
  have hopen : plantedDisk.opendir ⟨[],8⟩ [47,99] = some [[99]] := by decide
  obtain ⟨d,hd,-,-,hplace,-⟩ := h (unsetCalls ⟨[],8⟩) rfl 3 _ hrun
  obtain rfl : [[99]] = d := Option.some.inj (hopen.symm.trans hd)
  revert hplace
  decide

end Http2d
