import Http2d.RmRf

/-! When `http2d_rm_rf` stays inside the directory that it is given, decides on each entry from the
entry's own status, and leaves the files of other users alone. -/
namespace Http2d
open FileTree

/-- The node is there, is of this kind, and belongs to the user when one is given. -/
def OwnNode (onlyUid : UInt32) (kind : Kind (List UInt8)) (own : Option FsNode) : Prop :=
  ∃ owner, own = some ⟨owner,kind⟩ ∧ (onlyUid ≠ noUid → owner = onlyUid)

/-- What may be seen of a run in the directory `d`. -/
def RmEvent.Within (d : FsPlace) (onlyUid : UInt32) : RmEvent → Prop
  | .enter own known => known ∧ OwnNode onlyUid .dir own
  | .unlink own known place gone =>
    known ∧ OwnNode onlyUid .reg own ∧ d <+: place ∧ OwnNode onlyUid .reg gone
  | .rmdir place gone => d <+: place ∧ OwnNode onlyUid .dir gone

/-- In whatever order the directories are read, and whatever records hold that were not written, the run
stays in the directory that the path leads to. -/
def RemovesWithin (paths : PathCalls) (fs : Disk) (path : List UInt8) (onlyUid : UInt32) : Prop :=
  ∀ sys : FileCalls, sys.toPathCalls = paths → ∀ fuel, ∀ ev ∈ (rmRf sys onlyUid fuel path ⟨fs,[]⟩).2.log,
    ∃ d, fs.opendir paths path = some d ∧ ev.Within d onlyUid

/-- A path with further names. -/
def below (path : List UInt8) (ns : List (List UInt8)) : List UInt8 := ns.foldl (fun q n => q ++ 47::n) path

/-- The directories from `d` by these names are there, belong to the user, and none is hidden. -/
def Enterable (fs : Disk) (d : FsPlace) (uid : UInt32) (ns : List (List UInt8)) : Prop :=
  ∀ ms n, ms ++ [n] <+: ns → n.head? ≠ some 46 ∧ fs.node (d ++ (ms ++ [n])) = some ⟨uid,.dir⟩

/-- In such a directory there is a link to a directory or a file of the user. -/
def LinkActs (paths : PathCalls) (fs : Disk) (path : List UInt8) (d : FsPlace) (uid : UInt32)
    (ns : List (List UInt8)) (n : List UInt8) : Prop :=
  n.head? ≠ some 46 ∧
  (∃ owner absolute target, fs.node (d ++ (ns ++ [n])) = some ⟨owner,.link absolute target⟩) ∧
  ∃ kind, fs.stat paths (below path (ns ++ [n])) = some ⟨uid,kind⟩ ∧ (kind = .dir ∨ kind = .reg)

/-- Something that is removed when it is found. -/
def Removable (uid : UInt32) (p : FsPlace) (x : FsNode) : Prop :=
  (∀ n ∈ p.getLast?, n.head? ≠ some 46) ∧ x.owner = uid ∧ (x.kind = .dir ∨ x.kind = .reg)

/-- The place is in the directory `d`, at any depth. -/
def Inside (d p : FsPlace) : Prop := d <+: p ∧ p ≠ d

instance (d p : FsPlace) : Decidable (Inside d p) := inferInstanceAs (Decidable (_ ∧ _))

theorem inside_iff {d p : FsPlace} : Inside d p ↔ ∃ q, q ≠ [] ∧ p = d ++ q := by
  constructor
  · rintro ⟨⟨q,rfl⟩,hne⟩
    exact ⟨q,fun hq => hne (by rw [hq,List.append_nil]),rfl⟩
  · rintro ⟨q,hq,rfl⟩
    exact ⟨⟨q,rfl⟩,fun he => hq (List.append_right_eq_self.mp he)⟩

namespace Disk

/-- What is there without all that is in the directory `d`. -/
def clear (fs : Disk) (d : FsPlace) : Disk where
  node p := if Inside d p then none else fs.node p
  places := fs.places
  listed p x hp := by
    split_ifs at hp
    exact fs.listed p x hp
  nodup := fs.nodup
  parent p n hp := by
    have hin : ¬ Inside d (p ++ [n]) := fun hin => hp (if_pos hin)
    rw [if_neg hin] at hp
    have hp' : ¬ Inside d p := fun hi => by
      obtain ⟨q,-,rfl⟩ := inside_iff.mp hi
      exact hin (inside_iff.mpr ⟨q ++ [n],by simp,by rw [List.append_assoc]⟩)
    obtain ⟨owner,ho⟩ := isDir_iff.mp (fs.parent p n hp)
    exact isDir_iff.mpr ⟨owner,by rw [if_neg hp',ho]⟩
  names p x hp := by
    split_ifs at hp
    exact fs.names p x hp

end Disk

/-- The directory belongs to another user, but everything in it goes, and then it can be removed. -/
def EmptiesTop (paths : PathCalls) (fs : Disk) (path : List UInt8) (d : FsPlace) (uid : UInt32) : Prop :=
  (∃ owner, fs.node d = some ⟨owner,.dir⟩ ∧ owner ≠ uid) ∧
  (∀ p x, Inside d p → fs.node p = some x → Removable uid p x) ∧
  ((fs.clear d).rmdir paths path).2 = some d

/-- When no record is read that was not written, no link is taken for what it leads to, and no directory
is removed whose owner was not looked at. -/
def StaysWithin (paths : PathCalls) (fs : Disk) (path : List UInt8) (onlyUid : UInt32) : Prop :=
  ∀ d, fs.opendir paths path = some d →
    if onlyUid = noUid then ∀ n ∈ fs.entries d, n.head? = some 46
    else (∀ ns n, Enterable fs d onlyUid ns → ¬ LinkActs paths fs path d onlyUid ns n) ∧
      ¬ EmptiesTop paths fs path d onlyUid

section Frames
variable {paths : PathCalls} {fs : Disk} {path : List UInt8} {d : FsPlace} {uid : UInt32}
  {ns : List (List UInt8)} {n : List UInt8}

theorem below_snoc (path : List UInt8) (ns : List (List UInt8)) (n : List UInt8) :
    below path (ns ++ [n]) = below path ns ++ 47::n := by
  rw [below,below,List.foldl_append]
  rfl

theorem enterable_nil : Enterable fs d uid [] := fun ms m hp =>
  absurd (List.prefix_nil.mp hp) (by simp)

theorem Enterable.initial {ms : List (List UInt8)} (h : Enterable fs d uid ns) (hp : ms <+: ns) :
    Enterable fs d uid ms := fun as a ha => h as a (ha.trans hp)

theorem Enterable.snoc (h : Enterable fs d uid ns) (hn : n.head? ≠ some 46)
    (hnode : fs.node (d ++ (ns ++ [n])) = some ⟨uid,.dir⟩) : Enterable fs d uid (ns ++ [n]) := by
  intro ms m hp
  rcases List.prefix_concat_iff.mp hp with heq | hp
  · obtain ⟨rfl,hm⟩ := List.append_inj' heq rfl
    obtain rfl : m = n := List.singleton_inj.mp hm
    exact ⟨hn,hnode⟩
  · exact h ms m hp

/-- The path of such a directory leads to it. -/
theorem opendir_below (hopen : fs.opendir paths path = some d) (h : Enterable fs d uid ns) :
    fs.opendir paths (below path ns) = some (d ++ ns) := by
  induction ns using List.reverseRecOn with
  | nil => simpa [below] using hopen
  | append_singleton ns n ih =>
    obtain ⟨hne,⟨b,hw⟩,hdir⟩ := Disk.opendir_iff.mp (ih (h.initial (List.prefix_append _ _)))
    obtain ⟨-,hnode⟩ := h ns n (List.prefix_refl _)
    have hname : EntryName n := fs.names _ _ hnode n (by simp)
    rw [← List.append_assoc] at hnode
    rw [below_snoc,Disk.opendir_iff]
    refine ⟨by simp,⟨b,?_⟩,?_⟩
    · rw [Disk.start_entry paths hne,pathSteps_entry _ hname,walkFrom_append,hw,← List.append_assoc]
      exact walkFrom_name hdir hnode (by simp)
    · rw [← List.append_assoc]
      exact isDir_iff.mpr ⟨uid,hnode⟩

/-- In what is left of the files the path leads nowhere else. -/
theorem walkFrom_below {t : Tree (List UInt8) UInt32} (hopen : fs.opendir paths path = some d)
    (h : Enterable fs d uid ns) (hsub : Sub t fs.node) {r : FsPlace × ℕ}
    (hr : walkFrom t paths.maxLinks (Disk.start paths (below path ns)) (pathSteps (below path ns)) = some r) :
    r.1 = d ++ ns := by
  obtain ⟨-,⟨b,hw⟩,-⟩ := Disk.opendir_iff.mp (opendir_below hopen h)
  have heq := (walkFrom_mono hsub hr).symm.trans hw
  rw [Option.some.inj heq]

/-- What is left of the files after a part of a run, and what was seen of it. -/
structure RmKeeps (fs : Disk) (d : FsPlace) (uid : UInt32) (s : RmState) : Prop where
  sub : Sub s.fs.node fs.node
  outside : ∀ p, ¬ Inside d p → s.fs.node p = fs.node p
  gone : ∀ p x, fs.node p = some x → s.fs.node p = none → Removable uid p x
  log : ∀ ev ∈ s.log, ev.Within d uid

variable {s : RmState}

/-- The status of an entry is its own, unless a link acts. -/
theorem RmKeeps.stat (hk : RmKeeps fs d uid s) (hopen : fs.opendir paths path = some d)
    (h : Enterable fs d uid ns) (hname : EntryName n) (hn : n.head? ≠ some 46)
    (hlink : ¬ LinkActs paths fs path d uid ns n) {kind : Kind (List UInt8)}
    (hstat : s.fs.stat paths (below path ns ++ 47::n) = some ⟨uid,kind⟩) (hkind : kind = .dir ∨ kind = .reg) :
    s.fs.node (d ++ (ns ++ [n])) = some ⟨uid,kind⟩ := by
  obtain ⟨hne,-,-⟩ := Disk.opendir_iff.mp (opendir_below hopen h)
  obtain ⟨p,hp,hx⟩ := Option.bind_eq_some_iff.mp hstat
  rw [Disk.resolve_entry hne hname] at hp
  obtain ⟨r',hr',rfl⟩ := Option.map_eq_some_iff.mp hp
  rw [walkFrom_append] at hr'
  obtain ⟨r,hr,hr'⟩ := Option.bind_eq_some_iff.mp hr'
  have hplace := walkFrom_below hopen h hk.sub hr
  have hstep := hr'
  rw [walkFrom_eq] at hstep
  obtain ⟨hdir,⟨owner,own⟩,hown,hplain | ⟨absolute,target,htarget⟩⟩ := walkSteps_name_inv hstep
  · rw [walkFrom_name hdir hown hplain] at hr'
    rw [← List.append_assoc,← hplace]
    obtain rfl := Option.some.inj hr'
    exact hx
  · rw [hplace,List.append_assoc] at hown
    cases htarget
    refine absurd ⟨hn,⟨owner,absolute,target,hk.sub _ _ hown⟩,kind,?_,hkind⟩ hlink
    rw [below_snoc]
    exact Disk.stat_mono hk.sub hstat

theorem RmKeeps.note (hk : RmKeeps fs d uid s) (ev : RmEvent) (hev : ev.Within d uid) :
    RmKeeps fs d uid (s.note ev) :=
  ⟨hk.sub,hk.outside,hk.gone,fun e he => by
    rcases List.mem_append.mp he with he | he
    · exact hk.log e he
    · rwa [List.mem_singleton.mp he]⟩

/-- Something removable goes. -/
theorem RmKeeps.remove (hk : RmKeeps fs d uid s) {p : FsPlace} {x : FsNode} (hx : s.fs.node p = some x)
    (hp : Inside d p) (hrem : Removable uid p x) {ev : RmEvent} (hev : ev.Within d uid) {fs' : Disk}
    (hfs' : fs'.node = Function.update s.fs.node p none) : RmKeeps fs d uid ⟨fs',s.log ++ [ev]⟩ where
  sub q y hq := by
    rw [hfs'] at hq
    by_cases hqp : q = p
    · rw [hqp,Function.update_self] at hq
      cases hq
    · rw [Function.update_of_ne hqp] at hq
      exact hk.sub q y hq
  outside q hq := by
    have hqp : q ≠ p := fun he => hq (he ▸ hp)
    rw [hfs',Function.update_of_ne hqp]
    exact hk.outside q hq
  gone q y hy hq := by
    rw [hfs'] at hq
    by_cases hqp : q = p
    · subst hqp
      obtain rfl : y = x := Option.some.inj (hy.symm.trans (hk.sub _ _ hx))
      exact hrem
    · rw [Function.update_of_ne hqp] at hq
      exact hk.gone q y hy hq
  log := (hk.note _ hev).log

/-- The entry that a call for a name in the directory is about. -/
theorem RmKeeps.entryAt (hk : RmKeeps fs d uid s) (hopen : fs.opendir paths path = some d)
    (h : Enterable fs d uid ns) (hname : EntryName n) {p : FsPlace}
    (hp : s.fs.entryAt paths (below path ns ++ 47::n) = some p) : p = d ++ (ns ++ [n]) := by
  obtain ⟨hne,-,-⟩ := Disk.opendir_iff.mp (opendir_below hopen h)
  rw [Disk.entryAt_entry hne hname] at hp
  obtain ⟨r,hr,hp⟩ := Option.bind_eq_some_iff.mp hp
  split_ifs at hp
  rw [← Option.some.inj hp,walkFrom_below hopen h hk.sub hr,List.append_assoc]

theorem inside_entry (d : FsPlace) (ns : List (List UInt8)) (n : List UInt8) : Inside d (d ++ (ns ++ [n])) :=
  inside_iff.mpr ⟨ns ++ [n],by simp,rfl⟩

theorem removable_entry (hn : n.head? ≠ some 46) {kind : Kind (List UInt8)}
    (hkind : kind = .dir ∨ kind = .reg) (d : FsPlace) (ns : List (List UInt8)) :
    Removable uid (d ++ (ns ++ [n])) ⟨uid,kind⟩ := by
  refine ⟨fun m hm => ?_,rfl,hkind⟩
  rw [← List.append_assoc,List.getLast?_concat] at hm
  cases hm
  exact hn

variable {sys : FileCalls}

theorem RmKeeps.unlink (hk : RmKeeps fs d uid s) (hopen : fs.opendir sys.toPathCalls path = some d)
    (h : Enterable fs d uid ns) (hname : EntryName n) (hn : n.head? ≠ some 46)
    (hown : s.fs.node (d ++ (ns ++ [n])) = some ⟨uid,.reg⟩) :
    RmKeeps fs d uid (s.unlink sys (d ++ ns) n (below path ns ++ 47::n) true) := by
  cases hun : (s.fs.unlink sys.toPathCalls (below path ns ++ 47::n)).2 with
  | none =>
    rw [RmState.unlink_none hun]
    exact hk
  | some p =>
    obtain rfl := hk.entryAt hopen h hname (Disk.unlink_iff.mp hun).1
    rw [RmState.unlink_some hun]
    refine hk.remove hown (inside_entry d ns n) (removable_entry hn (Or.inr rfl) d ns) ?_
      (Disk.unlink_node hun)
    rw [List.append_assoc,hown]
    exact ⟨rfl,⟨uid,rfl,fun _ => rfl⟩,(inside_entry d ns n).1,⟨uid,rfl,fun _ => rfl⟩⟩

/-- The removal of a directory that was entered. -/
theorem RmKeeps.rmdir (hk : RmKeeps fs d uid s) (hopen : fs.opendir sys.toPathCalls path = some d)
    (h : Enterable fs d uid (ns ++ [n])) : RmKeeps fs d uid (s.rmdir sys (below path (ns ++ [n]))) := by
  obtain ⟨hn,hnode⟩ := h ns n (List.prefix_refl _)
  cases hrm : (s.fs.rmdir sys.toPathCalls (below path (ns ++ [n]))).2 with
  | none =>
    rw [RmState.rmdir_none hrm]
    exact hk
  | some p =>
    obtain rfl := Disk.rmdir_place hk.sub (opendir_below hopen h) hrm
    obtain ⟨-,hdir,-⟩ := Disk.rmdir_iff.mp hrm
    obtain ⟨owner,ho⟩ := isDir_iff.mp hdir
    have hown : s.fs.node (d ++ (ns ++ [n])) = some ⟨uid,.dir⟩ := by
      rw [ho]
      exact (hk.sub _ _ ho).symm.trans hnode
    rw [RmState.rmdir_some hrm]
    refine hk.remove hown (inside_entry d ns n) (removable_entry hn (Or.inl rfl) d ns) ?_
      (Disk.rmdir_node hrm)
    rw [hown]
    exact ⟨(inside_entry d ns n).1,⟨uid,rfl,fun _ => rfl⟩⟩

/-- What is done with an entry whose status is that of the user. -/
theorem removeEntry_keeps (hopen : fs.opendir sys.toPathCalls path = some d)
    (hlink : ¬ LinkActs sys.toPathCalls fs path d uid ns n) (h : Enterable fs d uid ns)
    {rec : List UInt8 → RmState → Bool × RmState}
    (hrec : ∀ s, Enterable fs d uid (ns ++ [n]) → RmKeeps fs d uid s →
      RmKeeps fs d uid (rec (below path (ns ++ [n])) s).2)
    (hname : EntryName n) (hn : n.head? ≠ some 46) {kind : Kind (List UInt8)}
    (hstat : s.fs.stat sys.toPathCalls (below path ns ++ 47::n) = some ⟨uid,kind⟩) (hk : RmKeeps fs d uid s) :
    RmKeeps fs d uid (removeEntry sys rec (d ++ ns) n (below path ns ++ 47::n) (some ⟨uid,kind⟩) s).2 := by
  have hown := hk.stat hopen h hname hn hlink hstat
  unfold removeEntry
  cases kind with
  | dir =>
    have hnode := hown (Or.inl rfl)
    have hnext := hrec _ (h.snoc hn (hk.sub _ _ hnode)) (hk.note
      (.enter (s.fs.node (d ++ ns ++ [n])) true) ⟨rfl,uid,by rw [List.append_assoc,hnode],fun _ => rfl⟩)
    rw [below_snoc] at hnext
    exact hnext
  | reg => exact hk.unlink hopen h hname hn (hown (Or.inr rfl))
  | link absolute target => exact hk
  | other => exact hk

/-- The loop over the entries of a directory that was entered. -/
theorem removeEntries_keeps (huid : uid ≠ noUid) (hopen : fs.opendir sys.toPathCalls path = some d)
    (hlinks : ∀ n, ¬ LinkActs sys.toPathCalls fs path d uid ns n) (h : Enterable fs d uid ns)
    {rec : List UInt8 → RmState → Bool × RmState}
    (hrec : ∀ n s, Enterable fs d uid (ns ++ [n]) → RmKeeps fs d uid s →
      RmKeeps fs d uid (rec (below path (ns ++ [n])) s).2)
    (names : List (List UInt8)) (hnames : ∀ n ∈ names, EntryName n) (info : Option FsNode)
    (hk : RmKeeps fs d uid s) :
    RmKeeps fs d uid (removeEntries sys uid rec (below path ns) (d ++ ns) names info s).2 := by
  induction names generalizing info s with
  | nil => exact hk
  | cons n names ih =>
    obtain ⟨hname,hnames⟩ := List.forall_mem_cons.mp hnames
    obtain ⟨info',hskip | ⟨hn,hstat,howner,hact⟩⟩ :=
      removeEntries_cons sys uid rec (below path ns) (d ++ ns) s n names info
    · rw [hskip]
      exact ih hnames info' hk
    · obtain ⟨⟨owner,kind⟩,rfl,hown⟩ := Option.map_eq_some_iff.mp (howner huid)
      obtain rfl : owner = uid := hown
      have hentry := removeEntry_keeps hopen (hlinks n) h (hrec n) hname hn (hstat huid) hk
      rw [hact]
      dsimp only
      split_ifs
      · exact ih hnames _ hentry
      · exact hentry

theorem entryName_of_order {g : Disk} {p : FsPlace} (hn : n ∈ sys.order p (g.entries p)) : EntryName n := by
  have hentry := Disk.mem_entries.mp ((sys.order_perm _ _).mem_iff.mp hn)
  obtain ⟨x,hx⟩ := Option.ne_none_iff_exists'.mp hentry
  exact g.names _ x hx n (by simp)

/-- A run in a directory that was entered. -/
theorem rmRf_keeps (huid : uid ≠ noUid) (hopen : fs.opendir sys.toPathCalls path = some d)
    (hlinks : ∀ ns n, Enterable fs d uid ns → ¬ LinkActs sys.toPathCalls fs path d uid ns n) (fuel : ℕ)
    (h : Enterable fs d uid (ns ++ [n])) (hk : RmKeeps fs d uid s) :
    RmKeeps fs d uid (rmRf sys uid fuel (below path (ns ++ [n])) s).2 := by
  induction fuel generalizing ns n s with
  | zero => exact hk
  | succ fuel ih =>
    rw [rmRf]
    split
    case h_1 => exact hk
    case h_2 d' hd' =>
      obtain ⟨-,⟨b,hw⟩,-⟩ := Disk.opendir_iff.mp hd'
      obtain rfl : d' = d ++ (ns ++ [n]) := walkFrom_below hopen h hk.sub hw
      have hloop := removeEntries_keeps huid hopen (fun m => hlinks _ m h) h (fun m s hm hs => ih hm hs)
        (sys.order (d ++ (ns ++ [n])) (s.fs.entries (d ++ (ns ++ [n]))))
        (fun m hm => entryName_of_order hm) none hk
      split
      case h_1 s' hrun =>
        rw [hrun] at hloop
        exact hloop
      case h_2 s' hrun =>
        rw [hrun] at hloop
        exact hloop.rmdir hopen h

theorem rmKeeps_start : RmKeeps fs d uid ⟨fs,[]⟩ :=
  ⟨fun _ _ h => h,fun _ _ => rfl,fun p x hx hnone => absurd (hx.symm.trans hnone) (by simp),by simp⟩

/-- A directory without entries has nothing inside. -/
theorem none_inside {g : Disk} (h : ∀ n, g.node (d ++ [n]) = none) {p : FsPlace} (hp : Inside d p) :
    g.node p = none := by
  obtain ⟨q,hq,rfl⟩ := inside_iff.mp hp
  obtain ⟨m,q,rfl⟩ := List.exists_cons_of_ne_nil hq
  exact Disk.none_of_above (h m) ⟨q,by simp⟩

/-- The directory of the call itself is removed only when it is the user's. -/
theorem RmKeeps.rmdir_top (hk : RmKeeps fs d uid s) (hopen : fs.opendir sys.toPathCalls path = some d)
    (hempty : ¬ EmptiesTop sys.toPathCalls fs path d uid) :
    ∀ ev ∈ (s.rmdir sys path).log, ev.Within d uid := by
  cases hrm : (s.fs.rmdir sys.toPathCalls path).2 with
  | none =>
    rw [RmState.rmdir_none hrm]
    exact hk.log
  | some p =>
    obtain rfl := Disk.rmdir_place hk.sub hopen hrm
    obtain ⟨hentry,hdir,hnone⟩ := Disk.rmdir_iff.mp hrm
    obtain ⟨owner,ho⟩ := isDir_iff.mp hdir
    have howner : owner = uid := by
      by_contra hne
      refine hempty ⟨⟨owner,hk.sub _ _ ho,hne⟩,fun q x hq hx => hk.gone q x hx (none_inside hnone hq),?_⟩
      -- what is left of the files is what is outside the directory
      have hclear : Sub s.fs.node (fs.clear p).node := fun q x hx => by
        have hout : ¬ Inside p q := fun hq => absurd (hx.symm.trans (none_inside hnone hq)) (by simp)
        exact (if_neg hout).trans (hk.sub _ _ hx)
      exact Disk.rmdir_iff.mpr ⟨Disk.entryAt_mono hclear hentry,hclear.isDir hdir,
        fun n => if_pos (inside_iff.mpr ⟨[n],by simp,rfl⟩)⟩
    rw [RmState.rmdir_some hrm]
    exact (hk.note (.rmdir p (s.fs.node p)) ⟨List.prefix_refl _,owner,ho,fun _ => howner⟩).log

/-- Every run is safe where the condition holds, with a user given. -/
theorem rmRf_within (huid : uid ≠ noUid) (hopen : fs.opendir sys.toPathCalls path = some d)
    (hlinks : ∀ ns n, Enterable fs d uid ns → ¬ LinkActs sys.toPathCalls fs path d uid ns n)
    (hempty : ¬ EmptiesTop sys.toPathCalls fs path d uid) (fuel : ℕ) :
    ∀ ev ∈ (rmRf sys uid fuel path ⟨fs,[]⟩).2.log, ev.Within d uid := by
  cases fuel with
  | zero => simp [rmRf]
  | succ fuel =>
    have htop : Enterable fs d uid [] := enterable_nil
    have hstart : RmKeeps fs d uid ⟨fs,[]⟩ := rmKeeps_start
    have hloop : RmKeeps fs d uid (removeEntries sys uid (rmRf sys uid fuel) path d
        (sys.order d (fs.entries d)) none ⟨fs,[]⟩).2 := by
      have hnames : ∀ m ∈ sys.order d (fs.entries d), EntryName m := fun m hm => entryName_of_order hm
      have hrun := removeEntries_keeps huid hopen (fun m => hlinks _ m htop) htop
        (fun m s hm hs => rmRf_keeps huid hopen hlinks fuel hm hs) _ hnames none hstart
      rwa [List.append_nil] at hrun
    simp only [rmRf,hopen]
    split
    case h_1 s' hrun =>
      rw [hrun] at hloop
      exact hloop.log
    case h_2 s' hrun =>
      rw [hrun] at hloop
      exact hloop.rmdir_top hopen hempty

end Frames

end Http2d
