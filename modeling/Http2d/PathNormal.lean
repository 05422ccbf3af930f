import Http2d.PathComponents

/-! The shortening of paths and lexical normalisation.
The text in front of the cursor is the normal form of what the cursor has passed as long as every
component that begins with two dots is the parent directory; another one costs the text a slash that
the normal form keeps, until the normal form is the root again. -/
namespace Http2d

/-- The directory behind one more component. -/
def resolve (dir : List (List UInt8)) (c : List UInt8) : List (List UInt8) :=
  if c = [] ∨ c = [46] then dir else if c = [46,46] then dir.dropLast else dir ++ [c]

/-- A slash in front of every component. -/
def pathText (dir : List (List UInt8)) : List UInt8 := dir.flatMap (47::·)

/-- The path with its dots resolved; an empty last component is a slash at the end. -/
def normalPath (comps : List (List UInt8)) : List UInt8 :=
  pathText (comps.foldl resolve []) ++
    if comps.foldl resolve [] = [] ∨ comps.getLast? = some [] then [47] else []

/-- The components of a resolved directory. -/
def Resolved (dir : List (List UInt8)) : Prop :=
  ∀ c ∈ dir, c ≠ [] ∧ c ≠ [46] ∧ c ≠ [46,46] ∧ 47 ∉ c

section Normal
variable {dir m : List (List UInt8)} {c u v x y : List UInt8}

theorem Resolved.resolve (h : Resolved dir) (hc : 47 ∉ c) : Resolved (resolve dir c) := by
  unfold Http2d.resolve
  split_ifs with hskip hback
  · exact h
  · exact fun d hd => h d (List.dropLast_subset _ hd)
  · obtain ⟨hnil,hsingle⟩ := not_or.mp hskip
    exact List.forall_mem_append.mpr ⟨h,List.forall_mem_singleton.mpr ⟨hnil,hsingle,hback,hc⟩⟩

theorem resolved_foldl (h : Resolved dir) (hm : ∀ c ∈ m, 47 ∉ c) : Resolved (m.foldl resolve dir) := by
  induction m generalizing dir with
  | nil => exact h
  | cons c m ih =>
    obtain ⟨hc,hm⟩ := List.forall_mem_cons.mp hm
    exact ih (h.resolve hc) hm

theorem resolved_nil : Resolved [] := by simp [Resolved]

theorem pathText_concat (dir : List (List UInt8)) (c : List UInt8) :
    pathText (dir ++ [c]) = pathText dir ++ 47::c := by
  simp [pathText]

theorem pathText_count (h : Resolved dir) : (pathText dir).count 47 = dir.length := by
  induction dir with
  | nil => rfl
  | cons c dir ih =>
    obtain ⟨⟨_,_,_,hc⟩,hdir⟩ := List.forall_mem_cons.mp h
    have hih := ih hdir
    unfold pathText at hih ⊢
    rw [List.flatMap_cons,List.count_append,List.count_cons_self,List.count_eq_zero.mpr hc,hih,
      List.length_cons]
    omega

theorem parent_component (x : List UInt8) (hu : 47 ∉ u) : parent (x ++ 47::u) = x := by
  induction u using List.reverseRecOn with
  | nil => exact parent_slash x
  | append_singleton u d ih =>
    have hd : d ≠ 47 := fun h => hu (by simp [h])
    rw [← List.cons_append,← List.append_assoc,parent_concat _ hd]
    exact ih fun h => hu (List.mem_append_left _ h)

/-- The last slash cuts a text in one way. -/
theorem lastSlash_inj (hu : 47 ∉ u) (hv : 47 ∉ v) (h : x ++ 47::u = y ++ 47::v) : x = y ∧ u = v := by
  obtain rfl : x = y := by rw [← parent_component x hu,h,parent_component y hv]
  exact ⟨rfl,(List.cons.inj (List.append_cancel_left h)).2⟩

theorem parent_flat (hu : 47 ∉ u) : parent u = [] := by
  induction u using List.reverseRecOn with
  | nil => rfl
  | append_singleton u d ih =>
    have hd : d ≠ 47 := fun h => hu (by simp [h])
    rw [parent_concat _ hd]
    exact ih fun h => hu (List.mem_append_left _ h)

theorem parent_count (x : List UInt8) : (parent x).count 47 = x.count 47-1 := by
  induction x using List.reverseRecOn with
  | nil => rfl
  | append_singleton x d ih =>
    rw [List.count_append]
    by_cases hd : d = 47
    · rw [hd,parent_slash,List.count_singleton_self,Nat.add_sub_cancel]
    · rw [parent_concat _ hd,ih,List.count_singleton,if_neg (by simpa using hd),Nat.add_zero]

theorem parent_pathText (h : Resolved dir) : parent (pathText dir) = pathText dir.dropLast := by
  rcases List.eq_nil_or_concat dir with rfl | ⟨dir,c,rfl⟩
  · rfl
  · rw [List.concat_eq_append] at h ⊢
    rw [pathText_concat,List.dropLast_concat,parent_component _ (h c (by simp)).2.2.2]

theorem resolve_nil_eq (dir : List (List UInt8)) : Http2d.resolve dir [] = dir := if_pos (Or.inl rfl)

theorem resolve_single (dir : List (List UInt8)) : Http2d.resolve dir [46] = dir := if_pos (Or.inr rfl)

theorem resolve_back (dir : List (List UInt8)) : Http2d.resolve dir [46,46] = dir.dropLast := by
  rw [Http2d.resolve,if_neg (by decide),if_pos rfl]

theorem resolve_push (h : c ≠ []) (hsingle : c ≠ [46]) (hback : c ≠ [46,46]) :
    Http2d.resolve dir c = dir ++ [c] := by
  rw [Http2d.resolve,if_neg (not_or.mpr ⟨h,hsingle⟩),if_neg hback]

end Normal

/-- A component that begins with two dots and is not the parent directory. -/
def Glued (c : List UInt8) : Prop := DotDot c ∧ c ≠ [46,46]

/-- Behind every such component the others lead back to the root. -/
def Recovers (m : List (List UInt8)) : Prop :=
  ∀ pre c post, m = pre ++ c::post → Glued c → ∃ q, q <+: post ∧ (pre ++ c::q).foldl resolve [] = []

section Recovers
variable {m : List (List UInt8)} {c : List UInt8}

theorem recovers_concat : Recovers (m ++ [c]) ↔
    (Glued c → (m ++ [c]).foldl resolve [] = []) ∧ (Recovers m ∨ (m ++ [c]).foldl resolve [] = []) := by
  constructor
  · intro h
    refine ⟨fun hc => ?_,or_iff_not_imp_right.mpr fun hne pre d post heq hd => ?_⟩
    · obtain ⟨q,hq,hroot⟩ := h m c [] rfl hc
      rwa [List.prefix_nil.mp hq] at hroot
    · obtain ⟨q,hq,hroot⟩ := h pre d (post ++ [c]) (by rw [heq]; simp) hd
      rcases List.prefix_concat_iff.mp hq with rfl | hq
      · refine absurd ?_ hne
        rw [heq,List.append_assoc]
        exact hroot
      · exact ⟨q,hq,hroot⟩
  · rintro ⟨hc,hor⟩ pre d post heq hd
    obtain ⟨rfl,rfl,rfl⟩ | ⟨post,rfl,hm⟩ := concat_middle heq
    · exact ⟨[],List.prefix_rfl,hc hd⟩
    · rcases hor with hrec | hroot
      · obtain ⟨q,hq,hq'⟩ := hrec pre d post hm hd
        exact ⟨q,hq.trans (List.prefix_append _ _),hq'⟩
      · exact ⟨post ++ [c],List.prefix_rfl,heq ▸ hroot⟩

theorem recovers_kept (hc : ¬ Glued c) :
    Recovers (m ++ [c]) ↔ Recovers m ∨ (m ++ [c]).foldl resolve [] = [] := by
  rw [recovers_concat]
  exact and_iff_right fun h => absurd h hc

/-- What stands in front of the cursor is the text of the directory, or has fewer slashes. -/
structure Tracks (R : Prop) (front : List UInt8) (dir : List (List UInt8)) : Prop where
  text : R → front = pathText dir
  fewer : ¬ R → front.count 47 < dir.length

section Tracks
variable {R : Prop} {front : List UInt8} {dir : List (List UInt8)}

theorem Tracks.eq_iff (h : Tracks R front dir) (hdir : Resolved dir) : front = pathText dir ↔ R := by
  refine ⟨fun heq => ?_,h.text⟩
  by_contra hR
  have := h.fewer hR
  rw [heq,pathText_count hdir] at this
  omega

theorem Tracks.count_le (h : Tracks R front dir) (hdir : Resolved dir) : front.count 47 ≤ dir.length := by
  by_cases hR : R
  · rw [h.text hR,pathText_count hdir]
  · exact (h.fewer hR).le

/-- At the root there is nothing to lose. -/
theorem Tracks.root (h : Tracks R front dir) : Tracks (R ∨ dir = []) front dir := by
  refine ⟨fun hor => h.text (hor.elim id fun hroot => ?_),fun hnor => h.fewer fun hR => hnor (Or.inl hR)⟩
  by_contra hR
  have := h.fewer hR
  rw [hroot] at this
  exact absurd this (Nat.not_lt_zero _)

theorem Tracks.back (h : Tracks R front dir) (hdir : Resolved dir) :
    Tracks (R ∨ dir.dropLast = []) (parent front) dir.dropLast := by
  have hlen : dir.dropLast.length = dir.length-1 := List.length_dropLast
  refine ⟨fun hor => ?_,fun hnor => ?_⟩
  · by_cases hR : R
    · rw [h.text hR,parent_pathText hdir]
    · have hroot := hor.resolve_left hR
      have := h.fewer hR
      rw [hroot,List.length_nil] at hlen
      rw [hroot,parent_flat (List.count_eq_zero.mp (by omega))]
      rfl
  · obtain ⟨hR,hroot⟩ := not_or.mp hnor
    have := h.fewer hR
    have hpos := List.length_pos_of_ne_nil hroot
    rw [parent_count]
    omega

theorem Tracks.push (h : Tracks R front dir) (hc : 47 ∉ c) : Tracks R (front ++ 47::c) (dir ++ [c]) := by
  refine ⟨fun hR => by rw [h.text hR,pathText_concat],fun hR => ?_⟩
  have := h.fewer hR
  rw [List.count_append,List.count_cons_self,List.count_eq_zero.mpr hc,List.length_append,
    List.length_singleton]
  omega

/-- The component in front goes, where one more should come. -/
theorem Tracks.glue (h : Tracks R front dir) (hdir : Resolved dir) {v : List UInt8} (hv : 47 ∉ v) :
    Tracks False (parent front ++ v) (dir ++ [c]) := by
  refine ⟨False.elim,fun _ => ?_⟩
  have := h.count_le hdir
  rw [List.count_append,List.count_eq_zero.mpr hv,parent_count,List.length_append,List.length_singleton]
  omega

end Tracks

/-- What the cursor leaves behind it is the normal form exactly when the code recovers. -/
theorem shorten_tracks (hm : ∀ c ∈ m, c ≠ [] ∧ 47 ∉ c) :
    Tracks (Recovers m) (m.foldl shorten []) (m.foldl resolve []) := by
  induction m using List.reverseRecOn with
  | nil => exact ⟨fun _ => rfl,fun h => absurd (by simp [Recovers]) h⟩
  | append_singleton m c ih =>
    obtain ⟨hm,hc⟩ := List.forall_mem_append.mp hm
    obtain ⟨hnil,hslash⟩ := List.forall_mem_singleton.mp hc
    have htracks := ih hm
    have hdir := resolved_foldl resolved_nil fun c hc => (hm c hc).2
    by_cases hsingle : c = [46]
    · subst hsingle
      rw [recovers_kept fun h => absurd h.1 (by decide)]
      simp only [List.foldl_append,List.foldl_cons,List.foldl_nil,resolve_single]
      rw [shorten,if_pos rfl]
      exact htracks.root
    by_cases hback : c = [46,46]
    · subst hback
      rw [recovers_kept fun h => h.2 rfl]
      simp only [List.foldl_append,List.foldl_cons,List.foldl_nil,resolve_back]
      rw [shorten,if_neg (by decide),if_pos (by decide),
        show ([46,46] : List UInt8).dropWhile (· = 46) = [] from rfl,List.append_nil]
      exact htracks.back hdir
    by_cases hdots : DotDot c
    · have hlost : ¬ Recovers (m ++ [c]) := fun h => by
        have := (recovers_concat.mp h).1 ⟨hdots,hback⟩
        rw [List.foldl_append,List.foldl_cons,List.foldl_nil,resolve_push hnil hsingle hback] at this
        simp at this
      rw [eq_false hlost]
      simp only [List.foldl_append,List.foldl_cons,List.foldl_nil,resolve_push hnil hsingle hback]
      rw [shorten,if_neg hsingle,if_pos hdots]
      exact htracks.glue hdir fun h => hslash ((List.dropWhile_sublist _).subset h)
    · rw [recovers_kept fun h => hdots h.1]
      simp only [List.foldl_append,List.foldl_cons,List.foldl_nil,resolve_push hnil hsingle hback]
      rw [shorten,if_neg hsingle,if_neg hdots,or_iff_left (by simp)]
      exact htracks.push hslash

/-- What the last component must be for the code to treat it rightly. A parent directory is only resolved
when the end lies behind the path, and not down to the root; other runs of dots are only kept when it does
not. -/
def LastKept (m : List (List UInt8)) (l : List UInt8) : Prop :=
  if l = [46] then False
  else if l = [46,46] then EndMissed m ∧ 2 ≤ (m.foldl resolve []).length
  else if DotDot l then (∀ d ∈ l, d = 46) ∧ ¬ EndMissed m
  else True

theorem normalPath_concat (m : List (List UInt8)) (l : List UInt8) : normalPath (m ++ [l]) =
    pathText (resolve (m.foldl resolve []) l) ++
      if resolve (m.foldl resolve []) l = [] ∨ l = [] then [47] else [] := by
  simp only [normalPath,List.foldl_append,List.foldl_cons,List.foldl_nil,List.getLast?_concat,Option.some_inj]

theorem normalPath_push (m : List (List UInt8)) {l : List UInt8} (h : l ≠ []) (hsingle : l ≠ [46])
    (hback : l ≠ [46,46]) : normalPath (m ++ [l]) = pathText (m.foldl resolve []) ++ 47::l := by
  rw [normalPath_concat,resolve_push h hsingle hback,if_neg (by simp [h]),List.append_nil,pathText_concat]

/-- A text that ends in a component which resolved directories do not have. -/
theorem normal_ne {dir : List (List UInt8)} (hdir : Resolved dir) {x l e : List UInt8} (hl : 47 ∉ l)
    (hdots : l = [46] ∨ l = [46,46]) (he : e = if dir = [] then [47] else []) :
    x ++ 47::l ≠ pathText dir ++ e := by
  rcases List.eq_nil_or_concat dir with rfl | ⟨dir,c,rfl⟩
  · intro h
    rw [he,if_pos rfl] at h
    have := congrArg List.length h
    rcases hdots with rfl | rfl <;> simp [pathText] at this
  · rw [List.concat_eq_append] at *
    rw [he,if_neg (by simp),List.append_nil,pathText_concat]
    intro h
    obtain ⟨_,hsingle,hback,hc⟩ := hdir c (by simp)
    obtain ⟨_,rfl⟩ := lastSlash_inj hl hc h
    exact hdots.elim hsingle hback

/-- The parent directory of a tracked text; the root would need a slash. -/
theorem parent_eq_iff {R : Prop} {front : List UInt8} {dir : List (List UInt8)} (h : Tracks R front dir)
    (hdir : Resolved dir) : parent front = pathText dir.dropLast ++
      (if dir.dropLast = [] ∨ ([46,46] : List UInt8) = [] then [47] else []) ↔ R ∧ 2 ≤ dir.length := by
  have hdir' : Resolved dir.dropLast := fun c hc => hdir c (List.dropLast_subset _ hc)
  have hback := h.back hdir
  have hlen : dir.dropLast.length = dir.length-1 := List.length_dropLast
  by_cases hroot : dir.dropLast = []
  · rw [hback.text (Or.inr hroot),hroot,if_pos (Or.inl rfl)]
    rw [hroot,List.length_nil] at hlen
    exact iff_of_false (by simp [pathText]) fun h => by omega
  · have hpos := List.length_pos_of_ne_nil hroot
    rw [if_neg (by simp [hroot]),List.append_nil,hback.eq_iff hdir',or_iff_left hroot]
    exact (and_iff_left (by omega)).symm

/-- What is left of the path is its normal form exactly when the condition holds. -/
theorem lastText_eq_iff {l : List UInt8} (hm : ∀ c ∈ m, c ≠ [] ∧ 47 ∉ c) (hl : 47 ∉ l) :
    lastText (m.foldl shorten []) (m.foldl missed 0) l = normalPath (m ++ [l]) ↔
      Recovers m ∧ LastKept m l := by
  have hdir := resolved_foldl resolved_nil fun c hc => (hm c hc).2
  have htracks := shorten_tracks hm
  have hkeep : m.foldl shorten [] ++ 47::l = pathText (m.foldl resolve []) ++ 47::l ↔ Recovers m := by
    rw [List.append_left_inj,htracks.eq_iff hdir]
  by_cases hnil : l = []
  · subst hnil
    rw [lastText,if_neg (fun h => absurd h.1 (by decide)),LastKept,if_neg (by decide),if_neg (by decide),
      if_neg (by decide),and_true,normalPath_concat,resolve_nil_eq,if_pos (Or.inr rfl),hkeep]
  by_cases hsingle : l = [46]
  · subst hsingle
    rw [lastText,if_neg (fun h => absurd h.1 (by decide)),LastKept,if_pos rfl,and_false,iff_false,
      normalPath_concat,resolve_single]
    exact normal_ne hdir hl (Or.inl rfl) (by simp)
  by_cases hback : l = [46,46]
  · subst hback
    have hdir' : Resolved (m.foldl resolve []).dropLast := fun c hc => hdir c (List.dropLast_subset _ hc)
    rw [LastKept,if_neg (by decide),if_pos rfl,normalPath_concat,resolve_back]
    by_cases hmissed : EndMissed m
    · rw [lastText,if_pos ⟨by decide,Or.inl ((missed_ne_zero_iff m).mpr hmissed)⟩,
        show ([46,46] : List UInt8).dropWhile (· = 46) = [] from rfl,List.append_nil,and_iff_right hmissed]
      exact parent_eq_iff htracks hdir
    · have hk : m.foldl missed 0 = 0 := by_contra fun h => hmissed ((missed_ne_zero_iff m).mp h)
      rw [lastText,if_neg (by simp [hk])]
      exact iff_of_false (normal_ne hdir' hl (Or.inr rfl) (by simp)) fun h => hmissed h.2.1
  rw [LastKept,if_neg hsingle,if_neg hback,normalPath_push m hnil hsingle hback]
  by_cases hdots : DotDot l
  · rw [if_pos hdots]
    by_cases hcut : m.foldl missed 0 ≠ 0 ∨ ∃ d ∈ l, d ≠ 46
    · have hglue := htracks.glue hdir (c:=l) fun h => hl ((List.dropWhile_sublist (· = 46)).subset h)
      have hdir' : Resolved (m.foldl resolve [] ++ [l]) := List.forall_mem_append.mpr
        ⟨hdir,List.forall_mem_singleton.mpr ⟨hnil,hsingle,hback,hl⟩⟩
      rw [lastText,if_pos ⟨hdots,hcut⟩,← pathText_concat,hglue.eq_iff hdir',false_iff]
      rintro ⟨_,hall,hmissed⟩
      rcases hcut with hk | ⟨d,hd,hne⟩
      · exact hmissed ((missed_ne_zero_iff m).mp hk)
      · exact hne (hall d hd)
    · rw [lastText,if_neg fun h => hcut h.2,hkeep]
      obtain ⟨hk,hall⟩ := not_or.mp hcut
      have hall' : ∀ d ∈ l, d = 46 := by simpa using hall
      rw [iff_self_and]
      exact fun _ => ⟨hall',(missed_ne_zero_iff m).not.mp hk⟩
  · rw [if_neg hdots,lastText,if_neg fun h => hdots h.1,hkeep,and_true]

end Recovers

section Contained
variable {dir comps m : List (List UInt8)} {c l : List UInt8}

theorem pathText_components (m : List (List UInt8)) (l : List UInt8) :
    pathText (m ++ [l]) = 47::(m.flatMap (· ++ [47]) ++ l) := by
  induction m with
  | nil => simp [pathText]
  | cons c m ih =>
    rw [List.cons_append,pathText,List.flatMap_cons,← pathText,ih]
    simp

theorem intercalate_pathText (c : List UInt8) (dir : List (List UInt8)) :
    [47].intercalate (c::dir) = c ++ pathText dir := by
  induction dir generalizing c with
  | nil => simp [List.intercalate,pathText]
  | cons d dir ih =>
    rw [List.intercalate_cons_cons,ih]
    simp [pathText]

theorem splitOn_pathText (h : ∀ c ∈ dir, 47 ∉ c) : (pathText dir).splitOn 47 = []::dir := by
  have hjoin := intercalate_pathText [] dir
  rw [List.nil_append] at hjoin
  rw [← hjoin]
  exact List.splitOn_intercalate 47 (List.forall_mem_cons.mpr ⟨List.not_mem_nil,h⟩) (List.cons_ne_nil _ _)

theorem normalPath_head (comps : List (List UInt8)) : (normalPath comps).head? = some 47 := by
  unfold normalPath
  cases comps.foldl resolve [] with
  | nil => rfl
  | cons c dir => rfl

/-- No component of a normal form leads out of the root. -/
theorem normalPath_contained (h : ∀ c ∈ comps, 47 ∉ c) : [46,46] ∉ (normalPath comps).splitOn 47 := by
  have hdir := resolved_foldl resolved_nil h
  have hno : [46,46] ∉ comps.foldl resolve [] := fun hmem => (hdir _ hmem).2.2.1 rfl
  unfold normalPath
  split_ifs
  · rw [← pathText_concat,splitOn_pathText (List.forall_mem_append.mpr
      ⟨fun c hc => (hdir c hc).2.2.2,List.forall_mem_singleton.mpr List.not_mem_nil⟩)]
    simp [hno]
  · rw [List.append_nil,splitOn_pathText fun c hc => (hdir c hc).2.2.2]
    simp [hno]

theorem pathText_foldl_length (dir m : List (List UInt8)) :
    (pathText (m.foldl resolve dir)).length ≤ (pathText dir).length+(pathText m).length := by
  induction m generalizing dir with
  | nil => exact le_rfl
  | cons c m ih =>
    have hstep : (pathText (resolve dir c)).length ≤ (pathText dir).length+(c.length+1) := by
      unfold resolve
      split_ifs
      · omega
      · have hsub : (pathText dir.dropLast).length ≤ (pathText dir).length :=
          ((List.dropLast_sublist dir).flatMap _).length_le
        omega
      · rw [pathText_concat,List.length_append,List.length_cons]
    have hcons : (pathText (c::m)).length = c.length+1+(pathText m).length := by
      simp only [pathText,List.flatMap_cons,List.length_append,List.length_cons]
    have := ih (resolve dir c)
    rw [List.foldl_cons]
    omega

theorem normalPath_length (m : List (List UInt8)) (l : List UInt8) :
    (normalPath (m ++ [l])).length ≤ (pathText (m ++ [l])).length := by
  have hm := pathText_foldl_length [] m
  have hml := pathText_foldl_length [] (m ++ [l])
  rw [List.foldl_append,List.foldl_cons,List.foldl_nil] at hml
  have hpos := congrArg List.length (pathText_concat m l)
  rw [List.length_append,List.length_cons] at hpos
  rw [normalPath_concat,List.length_append]
  by_cases hnil : l = []
  · subst hnil
    rw [resolve_nil_eq,if_pos (Or.inr rfl),List.length_singleton]
    simp only [pathText,List.flatMap_nil,List.length_nil] at hm hpos ⊢
    omega
  by_cases hroot : resolve (m.foldl resolve []) l = []
  · rw [hroot,if_pos (Or.inl rfl),List.length_singleton]
    simp only [pathText,List.flatMap_nil,List.length_nil] at hpos ⊢
    omega
  · rw [if_neg (not_or.mpr ⟨hroot,hnil⟩)]
    simp only [pathText,List.flatMap_nil,List.length_nil] at hml ⊢
    omega

end Contained

/-- What the path is to become. -/
structure LexicallyShort (path path' : Buffer) : Prop where
  text : path'.content = normalPath (path.content.tail.splitOn 47)
  absolute : path'.content.head? = some 47
  length_le : path'.content.length ≤ path.content.length
  contained : [46,46] ∉ path'.content.splitOn 47

/-- `http2d_path_short` is lexical normalisation on the path. -/
def ShortensLexically (path : Buffer) : Prop :=
  ∃ path', ShortensPath false path (.ok (.ok,path')) ∧ LexicallyShort path path'

/-- An absolute path without empty components, but perhaps with a slash at its end, is normalised exactly when
the components that begin with two dots are resolved away again, and the last one is of a kind that the code
treats rightly. -/
theorem shortensLexically_iff {path : Buffer} (h : path.Wf) {t : List UInt8} (hcont : path.content = 47::t)
    {m : List (List UInt8)} {l : List UInt8} (hsplit : t.splitOn 47 = m ++ [l]) (hne : ∀ c ∈ m, c ≠ []) :
    ShortensLexically path ↔ Recovers m ∧ LastKept m l := by
  obtain ⟨m',l',hsplit',ht,hm,hl⟩ := splitOn_ends t
  obtain ⟨rfl,hll⟩ := List.append_inj' (hsplit.symm.trans hsplit') rfl
  obtain rfl := List.singleton_inj.mp hll
  have hm' : ∀ c ∈ m, c ≠ [] ∧ 47 ∉ c := fun c hc => ⟨hne c hc,hm c hc⟩
  have hpieces : path.content = [] ++ 47::(m.flatMap (· ++ [47]) ++ l) := by rw [hcont,← ht]; rfl
  obtain ⟨path',hrun,htext⟩ := shortensPath_components false h hpieces List.not_mem_nil hm hl (by decide)
    fun hf => absurd hf Bool.false_ne_true
  have hgoal : normalPath (path.content.tail.splitOn 47) = normalPath (m ++ [l]) := by
    rw [hcont,List.tail_cons,hsplit]
  rw [← lastText_eq_iff hm' hl,← htext]
  constructor
  · rintro ⟨path₂,⟨fuel₂,hrun₂⟩,hshort⟩
    obtain ⟨fuel,hrun⟩ := hrun
    obtain ⟨_,rfl⟩ := Prod.mk.inj (Except.ok.inj (WhileLoop.run_unique hrun hrun₂))
    rw [hshort.text,hgoal]
  · intro heq
    refine ⟨path',hrun,by rw [heq,hgoal],by rw [heq,normalPath_head],?_,?_⟩
    · rw [heq,hpieces,List.nil_append,← pathText_components]
      exact normalPath_length m l
    · rw [heq]
      refine normalPath_contained fun c hc => ?_
      rcases List.mem_append.mp hc with hc | hc
      · exact hm c hc
      · exact List.mem_singleton.mp hc ▸ hl

/-- `/a/..b` becomes `b`. -/
theorem not_shortensLexically_glued : ¬ ShortensLexically (.holding [47,97,47,46,46,98]) := by
  have hrun : WhileLoop.run (pathTurn false) 9 ⟨.holding [47,97,47,46,46,98],0,6⟩ =
      some (.ok (.ok,⟨[98,0,47,46,46,98,0],7,1⟩)) := rfl
  rintro ⟨path',⟨fuel,hrun'⟩,hshort⟩
  obtain ⟨_,rfl⟩ := Prod.mk.inj (Except.ok.inj (WhileLoop.run_unique hrun hrun'))
  exact absurd hshort.absolute (by decide)

/-- `/a/..b/../../c`. -/
theorem shortensLexically_iff_back :
    ShortensLexically (.holding [47,97,47,46,46,98,47,46,46,47,46,46,47,99]) := by
  refine (shortensLexically_iff (Buffer.holding_wf (by decide)) (Buffer.content_holding _)
    (m:=[[97],[46,46,98],[46,46],[46,46]]) (l:=[99]) (by decide) (by decide)).mpr ⟨?_,?_⟩
  · exact (recovers_concat (m:=[[97],[46,46,98],[46,46]])).mpr ⟨fun h => absurd rfl h.2,Or.inr (by decide)⟩
  · rw [LastKept,if_neg (by decide),if_neg (by decide),if_neg (by decide)]
    trivial

end Http2d
