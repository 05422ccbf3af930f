import Http2d.PathShort

/-! What the shortening makes of the components of a path.
A single dot between two slashes goes; every component that begins with two dots takes its dots and the
component in front with it. The last component is treated in its own way, which depends on whether the
end was computed again behind the last cut. -/
namespace Http2d

open WhileLoop

/-- What the cuts leave behind the terminator: it, and the last byte of the path. -/
def leftBehind (c : UInt8) : ℕ → List UInt8
  | 0 => []
  | k+1 => 0::c::leftBehind c k

/-- The path, after `k` cuts behind which the end was not computed again. -/
structure Stands (path : Buffer) (bs : List UInt8) (c : UInt8) (k : ℕ) : Prop where
  block : ∃ rest, path.buf = bs ++ (leftBehind c k ++ 0::rest)
  len_eq : path.len = bs.length
  fin_lt : bs.length+2*k < 2^32

/-- A component that the code takes for the parent directory. -/
def DotDot (c : List UInt8) : Prop := [46,46] <+: c

instance (c : List UInt8) : Decidable (DotDot c) := inferInstanceAs (Decidable (_ <+: _))

/-- What is in front of the cursor behind a component between two slashes. -/
def shorten (front c : List UInt8) : List UInt8 :=
  if c = [46] then front
  else if DotDot c then parent front ++ c.dropWhile (· = 46) else front ++ 47::c

/-- How many cuts the end has missed behind such a component. -/
def missed (k : ℕ) (c : List UInt8) : ℕ := if c = [46] then k+1 else if DotDot c then 0 else k

section Components
variable {checked : Bool} {path : Buffer} {front c z : List UInt8} {b : UInt8} {k : ℕ}

theorem leftBehind_length (c : UInt8) (k : ℕ) : (leftBehind c k).length = 2*k := by
  induction k with
  | zero => rfl
  | succ k ih =>
    rw [leftBehind,List.length_cons,List.length_cons,ih]
    omega

theorem cutPath_ok (checked : Bool) {x y : List UInt8} (h : Stands path (x ++ y ++ z) b k) :
    ∃ path', cutPath checked path x.length y.length = .ok (.ok,path') ∧ path'.len = (x ++ z).length ∧
      path'.buf = x ++ z ++ 0::path.buf.drop ((x ++ z).length+1) := by
  obtain ⟨rest,hblk⟩ := h.block
  have hlen := h.len_eq
  have hlt := h.fin_lt
  have hrest : ∃ rest', leftBehind b k ++ 0::rest = 0::rest' := by
    cases k with
    | zero => exact ⟨rest,rfl⟩
    | succ k => exact ⟨_,rfl⟩
  obtain ⟨rest',hrest⟩ := hrest
  rw [hrest] at hblk
  have hin : ¬ (checked = true ∧ path.len < x.length+y.length) := by
    rintro ⟨_,hout⟩
    simp only [hlen,List.length_append] at hout
    omega
  exact ⟨_,(if_neg hin).trans (Buffer.removeChunk_eq hblk hlen (by omega)),rfl,rfl⟩

/-- The cut of a single dot leaves the end behind. -/
theorem cut_single (checked : Bool) (h : Stands path (front ++ [46,47] ++ z) b k)
    (hb : (front ++ [46,47] ++ z).getLast? = some b) : ∃ path',
      cutPath checked path front.length 2 = .ok (.ok,path') ∧ Stands path' (front ++ z) b (k+1) := by
  obtain ⟨path',hcut,hlen,hbuf⟩ := cutPath_ok checked h
  obtain ⟨rest,hblk⟩ := h.block
  have hlt := h.fin_lt
  refine ⟨path',hcut,⟨rest,?_⟩,hlen,?_⟩
  · obtain ⟨w,hw⟩ := List.getLast?_eq_some_iff.mp hb
    have hlw := congrArg List.length hw
    simp only [List.length_append,List.length_cons,List.length_nil] at hlw
    have hdrop : path.buf.drop ((front ++ z).length+1) = b::(leftBehind b k ++ 0::rest) := by
      rw [hblk,hw,show (front ++ z).length+1 = w.length by rw [List.length_append]; omega,
        List.append_assoc,List.drop_left]
      rfl
    rw [hbuf,hdrop]
    rfl
  · simp only [List.length_append,List.length_cons,List.length_nil] at hlt ⊢
    omega

theorem cut_back (checked : Bool) {x y : List UInt8} (h : Stands path (x ++ y ++ z) b k) : ∃ path',
    cutPath checked path x.length y.length = .ok (.ok,path') ∧ Stands path' (x ++ z) b 0 := by
  obtain ⟨path',hcut,hlen,hbuf⟩ := cutPath_ok checked h
  have hlt := h.fin_lt
  refine ⟨path',hcut,⟨_,hbuf⟩,hlen,?_⟩
  simp only [List.length_append] at hlt ⊢
  omega

/-- The cursor comes to the byte behind the next slash. -/
theorem walk_slash (checked : Bool) (h : Stands path (front ++ (c ++ 47::z)) b k) (hc : 47 ∉ c)
    (hpass : Passes front c) (hsingle : front.getLast? = some 47 → c ≠ [46]) :
    Visits (pathTurn checked) ⟨path,front.length,(front ++ (c ++ 47::z)).length+2*k⟩
      ⟨path,(front ++ c).length+1,(front ++ (c ++ 47::z)).length+2*k⟩ := by
  obtain ⟨rest,hblk⟩ := h.block
  have hlt := h.fin_lt
  have hlen := h.len_eq
  rw [List.append_assoc,List.append_assoc] at hblk
  simp only [List.length_append,List.length_cons] at hlt hlen ⊢
  have hfin : front.length+c.length < front.length+(c.length+(z.length+1))+2*k := by omega
  rcases walk checked hblk hc (by decide) hpass (fun _ => hsingle) hfin hlt (fun _ => by omega) with
    hwalk | hwalk
  · refine hwalk.trans (.turn ?_ (.start _))
    rw [← List.length_append]
    exact turn_byte (t:=z ++ (leftBehind b k ++ 0::rest)) (by rw [hblk,List.append_assoc]; rfl) (by decide)
      (by rw [List.length_append]; omega) (fun _ => by rw [List.length_append]; omega)
  · exact hwalk

theorem dropWhile_dots (n : ℕ) {v : List UInt8} (hv : v = [] ∨ ∃ d v', v = d::v' ∧ d ≠ 46) :
    (List.replicate n 46 ++ v).dropWhile (· = 46) = v := by
  rw [List.dropWhile_append_of_pos fun b hb => decide_eq_true (List.eq_of_mem_replicate hb)]
  rcases hv with rfl | ⟨d,v',rfl,hd⟩
  · rfl
  · rw [List.dropWhile_cons_of_neg (by simpa using hd)]

theorem not_dots {v : List UInt8} (hv : v = [] ∨ ∃ d v', v = d::v' ∧ d ≠ 46) {w : List UInt8} :
    ¬ 46::w <+: v := by
  rcases hv with rfl | ⟨d,v',rfl,hd⟩
  · simp
  · exact fun h => hd (List.cons_prefix_cons.mp h).1.symm

/-- The dots behind a slash, and what they cut off. -/
theorem turn_back (checked : Bool) {n fin : ℕ}
    (h : Stands path (front ++ 47::(List.replicate (n+2) 46 ++ z)) b k)
    (hz : z = [] ∨ ∃ d z', z = d::z' ∧ d ≠ 46)
    (hfin : fin = (front ++ 47::(List.replicate (n+2) 46 ++ z)).length+2*k) (hend : z ≠ [] ∨ k ≠ 0) :
    ∃ path', Stands path' (parent front ++ z) b 0 ∧
      pathTurn checked ⟨path,front.length+1,fin⟩ =
        .again ⟨path',(parent front).length,(parent front ++ z).length⟩ := by
  obtain ⟨rest,hblk⟩ := h.block
  have hlen := h.len_eq
  have hlt := h.fin_lt
  obtain ⟨g,hg⟩ := parent_front front
  have hglen := congrArg List.length hg
  have hpos : z.length ≠ 0 ∨ k ≠ 0 := hend.imp_left fun hz h0 => hz (List.length_eq_zero_iff.mp h0)
  simp only [List.length_append,List.length_cons,List.length_replicate] at hlt hfin hlen hglen
  obtain ⟨path',hcut,hstands⟩ := cut_back checked (x:=parent front)
    (y:=g ++ 47::List.replicate (n+2) 46) (z:=z) (by
      rw [← List.append_assoc,hg,List.append_assoc,List.cons_append]
      exact h)
  refine ⟨path',hstands,?_⟩
  have hturn := turn_dots checked (x:=front ++ [47]) (n:=n)
    (t:=z ++ (leftBehind b k ++ 0::rest)) (by rw [hblk]; simp) (show fin < 2^32 by omega)
    (by rw [List.length_append,List.length_singleton]; omega) (Or.inr (by
      rcases hz with rfl | ⟨d,z',rfl,hd⟩
      · obtain ⟨k,rfl⟩ : ∃ m, k = m+1 := ⟨k-1,by simp at hpos; omega⟩
        exact ⟨0,_,rfl,by decide⟩
      · exact ⟨d,_,rfl,hd⟩)) (fun _ => by
      rw [List.length_append,List.length_singleton,if_neg (by omega)]
      omega)
  rw [List.length_append,List.length_singleton,if_neg (by
      rintro (h | h)
      · omega
      · simp at h),if_pos (by simp),List.dropLast_concat,
    show front.length+1+n+2-(parent front).length = (g ++ 47::List.replicate (n+2) 46).length by
      simp only [List.length_append,List.length_cons,List.length_replicate]; omega,hcut] at hturn
  rw [← hstands.len_eq]
  exact hturn

/-- A single dot between two slashes. -/
theorem component_single (checked : Bool) {fin : ℕ} (h : Stands path (front ++ 47::([46] ++ 47::z)) b k)
    (hb : (47::z).getLast? = some b) (hfin : fin = (front ++ 47::([46] ++ 47::z)).length+2*k) :
    ∃ path', Stands path' (front ++ 47::z) b (k+1) ∧ Visits (pathTurn checked) ⟨path,front.length+1,fin⟩
      ⟨path',front.length+1,(front ++ 47::z).length+2*(k+1)⟩ := by
  have hp : front.length+1 = (front ++ [47]).length := by simp
  have hcut' : front ++ 47::([46] ++ 47::z) = (front ++ [47]) ++ [46,47] ++ z := by simp
  have hb' : ((front ++ [47]) ++ [46,47] ++ z).getLast? = some b := by
    rw [← hb,show (front ++ [47]) ++ [46,47] ++ z = (front ++ [47,46]) ++ 47::z by simp,
      List.getLast?_append_of_ne_nil _ (List.cons_ne_nil _ _)]
  rw [hcut'] at h hfin
  obtain ⟨rest,hblk⟩ := h.block
  have hlt := h.fin_lt
  have hlen := h.len_eq
  obtain ⟨path',hcut,hstands⟩ := cut_single checked h hb'
  simp only [List.length_append,List.length_cons,List.length_nil] at hlt hfin hlen
  have hstands' : Stands path' (front ++ 47::z) b (k+1) := by simpa using hstands
  have hturn : pathTurn checked ⟨path,front.length+1,fin⟩ = .again ⟨path',front.length,fin⟩ := by
    rw [hp,turn_single (t:=z ++ (leftBehind b k ++ 0::rest)) (by rw [hblk]; simp) (by simp)
      (by rw [← hp]; omega) (fun _ => by rw [← hp]; omega),hcut,← hp]
    rfl
  obtain ⟨rest',hblk'⟩ := hstands'.block
  have hlen' := hstands'.len_eq
  refine ⟨path',hstands',.turn hturn (.turn ?_ (.start _))⟩
  -- the cursor stands on the slash in front of the dot, which it passes
  rw [turn_byte (c:=47) (t:=z ++ (leftBehind b (k+1) ++ 0::rest')) (by rw [hblk']; simp) (by decide)
    (by omega) (fun _ => by rw [hlen',List.length_append]; omega),hfin]
  simp only [List.length_append,List.length_cons]
  congr 2
  omega

/-- A component between two slashes. -/
theorem component_step (checked : Bool) {fin : ℕ}
    (h : Stands path (front ++ 47::(c ++ 47::z)) b k) (hc : 47 ∉ c)
    (hb : (47::z).getLast? = some b) (hfin : fin = (front ++ 47::(c ++ 47::z)).length+2*k) :
    ∃ path', Stands path' (shorten front c ++ 47::z) b (missed k c) ∧
      Visits (pathTurn checked) ⟨path,front.length+1,fin⟩
        ⟨path',(shorten front c).length+1,(shorten front c ++ 47::z).length+2*missed k c⟩ := by
  by_cases hsingle : c = [46]
  · subst hsingle
    rw [shorten,if_pos rfl,missed,if_pos rfl]
    exact component_single checked h hb hfin
  by_cases hdots : DotDot c
  · rw [shorten,if_neg hsingle,if_pos hdots,missed,if_neg hsingle,if_pos hdots]
    obtain ⟨n,v,rfl,hv⟩ := dots_split hdots
    rw [dropWhile_dots _ hv]
    have hvslash : 47 ∉ v := fun h => hc (List.mem_append_right _ h)
    rw [List.append_assoc] at h hfin
    obtain ⟨path',hstands,hturn⟩ := turn_back checked h (by
      rcases hv with rfl | ⟨d,v',rfl,hd⟩
      · exact Or.inr ⟨47,z,rfl,by decide⟩
      · exact Or.inr ⟨d,v' ++ 47::z,rfl,hd⟩) hfin (Or.inl (by simp))
    refine ⟨path',by rwa [List.append_assoc],.turn hturn ?_⟩
    have hwalk := walk_slash checked hstands hvslash (fun _ => not_dots hv)
      fun _ heq => not_dots hv (w:=[]) ⟨[],by rw [heq]; rfl⟩
    rw [List.append_assoc (parent front) v]
    exact hwalk
  · rw [shorten,if_neg hsingle,if_neg hdots,missed,if_neg hsingle,if_neg hdots]
    have heq : front ++ 47::c ++ 47::z = front ++ 47::(c ++ 47::z) := by simp
    have hsplit : front ++ 47::(c ++ 47::z) = (front ++ [47]) ++ (c ++ 47::z) := by simp
    refine ⟨path,by rwa [heq],?_⟩
    rw [hsplit] at h
    have hwalk := walk_slash checked h hc (fun _ => hdots) fun _ => hsingle
    rw [heq,hsplit,hfin,hsplit,show front.length+1 = (front ++ [47]).length by simp]
    simpa using hwalk

theorem getLast?_components (m : List (List UInt8)) (z : List UInt8) :
    (47::(m.flatMap (· ++ [47]) ++ z)).getLast? = (47::z).getLast? := by
  rcases List.eq_nil_or_concat m with rfl | ⟨m,c,rfl⟩
  · rfl
  · have hsplit : 47::((m.concat c).flatMap (· ++ [47]) ++ z) =
        (47::(m.flatMap (· ++ [47]) ++ c)) ++ 47::z := by
      simp
    rw [hsplit,List.getLast?_append_of_ne_nil _ (List.cons_ne_nil _ _)]

/-- The components in front of the last one. -/
theorem components_run (checked : Bool) {m : List (List UInt8)} {fin : ℕ}
    (h : Stands path (front ++ 47::(m.flatMap (· ++ [47]) ++ z)) b k) (hm : ∀ c ∈ m, 47 ∉ c)
    (hb : (47::z).getLast? = some b) (hfin : fin = (front ++ 47::(m.flatMap (· ++ [47]) ++ z)).length+2*k) :
    ∃ path', Stands path' (m.foldl shorten front ++ 47::z) b (m.foldl missed k) ∧
      Visits (pathTurn checked) ⟨path,front.length+1,fin⟩
        ⟨path',(m.foldl shorten front).length+1,
          (m.foldl shorten front ++ 47::z).length+2*m.foldl missed k⟩ := by
  induction m generalizing path front k fin with
  | nil => exact ⟨path,h,by rw [hfin]; exact .start _⟩
  | cons c m ih =>
    obtain ⟨hc,hm⟩ := List.forall_mem_cons.mp hm
    have hsplit : front ++ 47::((c::m).flatMap (· ++ [47]) ++ z) =
        front ++ 47::(c ++ 47::(m.flatMap (· ++ [47]) ++ z)) := by simp
    rw [hsplit] at h hfin
    obtain ⟨path₁,h₁,hvisit₁⟩ := component_step checked h hc
      ((getLast?_components m z).trans hb) hfin
    obtain ⟨path₂,h₂,hvisit₂⟩ := ih h₁ hm rfl
    exact ⟨path₂,h₂,hvisit₁.trans hvisit₂⟩

/-- A run of dots does not go on behind a NUL. -/
theorem dotDot_of_append {l t : List UInt8} (h : [46,46] <+: l ++ 0::t) : DotDot l := by
  cases l with
  | nil => exact absurd (List.cons_prefix_cons.mp h).1 (by decide)
  | cons d l =>
    obtain ⟨hd,h⟩ := List.cons_prefix_cons.mp h
    cases l with
    | nil => exact absurd (List.cons_prefix_cons.mp h).1 (by decide)
    | cons e l =>
      obtain ⟨he,_⟩ := List.cons_prefix_cons.mp h
      exact ⟨l,by rw [← hd,← he]; rfl⟩

/-- What is left of the path when the last component is `l`. -/
def lastText (front : List UInt8) (k : ℕ) (l : List UInt8) : List UInt8 :=
  if DotDot l ∧ (k ≠ 0 ∨ ∃ d ∈ l, d ≠ 46) then parent front ++ l.dropWhile (· = 46) else front ++ 47::l

theorem Stands.content_eq {bs : List UInt8} (h : Stands path bs b k) : path.content = bs := by
  obtain ⟨rest,hblk⟩ := h.block
  rw [Buffer.content,hblk,h.len_eq,List.take_left]

/-- The last component goes with its dots, and the end is right again. -/
theorem last_back (checked : Bool) {fin : ℕ} (h : Stands path (front ++ 47::c) b k) (hc : 47 ∉ c)
    (hfin : fin = (front ++ 47::c).length+2*k) (hdots : DotDot c) (hmore : k ≠ 0 ∨ ∃ d ∈ c, d ≠ 46) :
    ∃ fuel path', run (pathTurn checked) fuel ⟨path,front.length+1,fin⟩ = some (.ok (.ok,path')) ∧
      path'.content = parent front ++ c.dropWhile (· = 46) := by
  obtain ⟨n,v,rfl,hv⟩ := dots_split hdots
  rw [dropWhile_dots _ hv]
  have hend : v ≠ [] ∨ k ≠ 0 := by
    rcases hmore with hk | ⟨d,hd,hne⟩
    · exact Or.inr hk
    · refine Or.inl ?_
      rintro rfl
      rw [List.append_nil] at hd
      exact hne (List.eq_of_mem_replicate hd)
  obtain ⟨path',hstands,hturn⟩ := turn_back checked h hv hfin hend
  obtain ⟨rest',hblk⟩ := hstands.block
  have hsmall := hstands.fin_lt
  rw [List.append_assoc] at hblk
  obtain ⟨fuel,hrun⟩ := walk_end checked hblk (Or.inl fun hmem => hc (List.mem_append_right _ hmem))
    (Or.inl fun _ => not_dots hv) List.length_append hsmall fun _ => hstands.len_eq.ge
  exact ⟨fuel+1,path',by rw [run_again hturn,hrun],hstands.content_eq⟩

/-- What the cuts leave behind the last component has no dots, or no slashes. -/
theorem leftBehind_kind (k : ℕ) (hc : 47 ∉ c) (hb : (47::c).getLast? = some b) :
    47 ∉ c ++ leftBehind b k ∨ 46 ∉ c ++ leftBehind b k := by
  have hmem {d : UInt8} (hd : d ≠ 0) (hdb : d ≠ b) : d ∉ leftBehind b k := by
    induction k with
    | zero => exact List.not_mem_nil
    | succ k ih => simp [leftBehind,hd,hdb,ih]
  by_cases hb47 : b = 47
  · have hnil : c = [] := by
      rcases List.eq_nil_or_concat c with rfl | ⟨c,d,rfl⟩
      · rfl
      · rw [List.concat_eq_append,← List.cons_append,List.getLast?_concat,hb47] at hb
        exact absurd (by simp [Option.some.inj hb]) hc
    rw [hnil,List.nil_append]
    exact Or.inr (hmem (by decide) (by rw [hb47]; decide))
  · exact Or.inl fun h => (List.mem_append.mp h).elim hc (hmem (by decide) (Ne.symm hb47))

/-- The last component; a checked run is safe when the end is right or is computed again. -/
theorem last_run (checked : Bool) {l : List UInt8} {fin : ℕ} (h : Stands path (front ++ 47::l) b k)
    (hl : 47 ∉ l) (hb : (47::l).getLast? = some b) (hfin : fin = (front ++ 47::l).length+2*k)
    (hin : checked = true → k = 0 ∨ DotDot l) : ∃ fuel path',
      run (pathTurn checked) fuel ⟨path,front.length+1,fin⟩ = some (.ok (.ok,path')) ∧
        path'.content = lastText front k l := by
  by_cases hback : DotDot l ∧ (k ≠ 0 ∨ ∃ d ∈ l, d ≠ 46)
  · rw [lastText,if_pos hback]
    exact last_back checked h hl hfin hback.1 hback.2
  obtain ⟨rest,hblk⟩ := h.block
  have hlt := h.fin_lt
  have hlen := h.len_eq
  have hp : front.length+1 = (front ++ [47]).length := by simp
  simp only [List.length_append,List.length_cons] at hlt hlen hfin
  rw [lastText,if_neg hback,hp]
  have hkeep {u : List UInt8} (hu : l ++ (leftBehind b k ++ 0::rest) = u ++ 0::rest)
      (hkind : 47 ∉ u ∨ 46 ∉ u) (hpass : Passes (front ++ [47]) u ∨ ∀ d ∈ u, d = 46)
      (hulen : l.length+2*k = u.length) (hin : checked = true → k = 0) : ∃ fuel path',
      run (pathTurn checked) fuel ⟨path,(front ++ [47]).length,fin⟩ = some (.ok (.ok,path')) ∧
        path'.content = front ++ 47::l := by
    obtain ⟨fuel,hrun⟩ := walk_end checked (by rw [hblk,← hu]; simp) hkind hpass
      (by rw [← hp]; omega) (by omega : fin < 2^32) fun hc => by
        have := hin hc
        omega
    exact ⟨fuel,path,hrun,h.content_eq⟩
  by_cases hk : k = 0
  · subst hk
    refine hkeep (u:=l) (by rfl) (Or.inl hl) ?_ (by omega) fun _ => rfl
    by_cases hdots : DotDot l
    · exact Or.inr fun d hd => by_contra fun hne => hback ⟨hdots,Or.inr ⟨d,hd,hne⟩⟩
    · exact Or.inl fun _ => hdots
  · -- the cursor walks on over what the cuts have left behind
    have hdots : ¬ DotDot l := fun hdots => hback ⟨hdots,Or.inl hk⟩
    obtain ⟨k,rfl⟩ : ∃ m, k = m+1 := ⟨k-1,by omega⟩
    exact hkeep (u:=l ++ leftBehind b (k+1)) (by rw [List.append_assoc]) (leftBehind_kind _ hl hb)
      (Or.inl fun _ hpre => hdots (dotDot_of_append hpre))
      (by rw [List.length_append,leftBehind_length]) fun hc => (hin hc).resolve_right hdots

/-- A checked run faults behind the last component when the end is not right. -/
theorem last_fault {l : List UInt8} {fin : ℕ} (h : Stands path (front ++ 47::l) b k) (hl : 47 ∉ l)
    (hfin : fin = (front ++ 47::l).length+2*k) (hk : k ≠ 0) (hdots : ¬ DotDot l) :
    ∃ fuel, run (pathTurn true) fuel ⟨path,front.length+1,fin⟩ = some (.error .fault) := by
  obtain ⟨rest,hblk⟩ := h.block
  have hlt := h.fin_lt
  have hlen := h.len_eq
  have hp : front.length+1 = (front ++ [47]).length := by simp
  simp only [List.length_append,List.length_cons] at hlt hlen hfin
  obtain ⟨k,rfl⟩ : ∃ m, k = m+1 := ⟨k-1,by omega⟩
  have hfault : pathTurn true ⟨path,path.len+1,fin⟩ = .stop (.error .fault) :=
    turn_fault (by omega) (by omega)
  have hend : (front ++ [47]).length+l.length = path.len := by rw [← hp]; omega
  have hblk' : path.buf = (front ++ [47]) ++ (l ++ 0::b::(leftBehind b k ++ 0::rest)) := by
    rw [hblk]
    simp [leftBehind]
  have hwalk := walk true hblk' hl (by decide) (fun _ => hdots) (fun h0 => absurd h0 (by decide))
    (by omega : _ < fin) (by omega) (fun _ => hend.le)
  rw [hend] at hwalk
  rw [hp]
  rcases hwalk with hwalk | hwalk
  · have hturn : pathTurn true ⟨path,path.len,fin⟩ = .again ⟨path,path.len+1,fin⟩ := by
      rw [hlen,← List.length_cons,← List.length_append]
      exact turn_byte (c:=0) (t:=b::(leftBehind b k ++ 0::rest)) (by rw [hblk]; simp [leftBehind]) (by decide)
        (by simp only [List.length_append,List.length_cons]; omega) fun _ => h.len_eq.ge
    exact (hwalk.trans (.turn hturn (.start _))).run (run_stop hfault 0)
  · exact hwalk.run (run_stop hfault 0)

end Components

section Paths
variable {path : Buffer} {c₀ l : List UInt8} {m : List (List UInt8)}

/-- A text is its pieces with the separator behind each but the last. -/
theorem splitOn_ends (bs : List UInt8) : ∃ m l, bs.splitOn 47 = m ++ [l] ∧ bs = m.flatMap (· ++ [47]) ++ l ∧
    (∀ c ∈ m, 47 ∉ c) ∧ 47 ∉ l := by
  induction hn : bs.length using Nat.strong_induction_on generalizing bs with
  | _ n ih =>
    subst hn
    by_cases hmem : 47 ∈ bs
    · obtain ⟨c,t,rfl,hc⟩ := List.eq_append_cons_of_mem hmem
      obtain ⟨m,l,hsplit,ht,hm,hl⟩ := ih t.length (by simp; omega) t rfl
      refine ⟨c::m,l,?_,?_,List.forall_mem_cons.mpr ⟨hc,hm⟩,hl⟩
      · rw [List.splitOn_append_cons_self_of_not_mem hc,hsplit]
        rfl
      · rw [List.flatMap_cons,List.append_assoc,List.append_assoc,← ht]
        rfl
    · exact ⟨[],bs,List.splitOn_eq_singleton hmem,rfl,by simp,hmem⟩

theorem stands_of_wf (h : path.Wf) (hne : path.buf ≠ []) (b : UInt8) : Stands path path.content b 0 := by
  have hlen := Buffer.content_length h
  exact ⟨h.block hne,hlen.symm,by rw [hlen]; exact h.len_lt⟩

/-- A path without slashes, or that starts with two dots, stays as it is. -/
theorem shortensPath_same (checked : Bool) (h : path.Wf) (hsame : DotDot path.content ∨ 47 ∉ path.content) :
    ShortensPath checked path (.ok (.ok,path)) := by
  by_cases hne : path.buf = []
  · have h0 := h.len_le
    rw [hne,List.length_nil] at h0
    exact ⟨1,run_stop (turn_end h0) 0⟩
  obtain ⟨rest,hblk⟩ := h.block hne
  have hlen := Buffer.content_length h
  by_cases hdots : DotDot path.content
  · obtain ⟨n,v,hv,hstop⟩ := dots_split hdots
    have hvlen := congrArg List.length hv
    rw [List.length_append,List.length_replicate,hlen] at hvlen
    have hturn := turn_dots checked (x:=[]) (n:=n) (t:=v ++ 0::rest) (by rw [hblk,hv,List.append_assoc]; rfl)
      h.len_lt (by rw [List.length_nil]; omega) (by
        rcases hstop with rfl | ⟨d,v',rfl,hd⟩
        · refine Or.inl ?_
          rw [List.length_nil] at hvlen ⊢
          omega
        · exact Or.inr ⟨d,v' ++ 0::rest,rfl,hd⟩) (fun _ => by
        rw [List.length_nil]
        split_ifs <;> omega)
    rw [if_pos (Or.inr rfl)] at hturn
    exact ⟨1,run_stop hturn 0⟩
  · have hblk' : path.buf = [] ++ (path.content ++ 0::rest) := hblk
    exact walk_end checked hblk' (Or.inl (hsame.resolve_left hdots))
      (Or.inl fun _ => hdots) (by rw [hlen,List.length_nil,Nat.zero_add]) h.len_lt fun _ => le_rfl

/-- The cursor comes to the last component with what the others leave in front of it. -/
theorem paths_run (checked : Bool) (h : path.Wf)
    (hcont : path.content = c₀ ++ 47::(m.flatMap (· ++ [47]) ++ l)) (hc₀ : 47 ∉ c₀) (hm : ∀ c ∈ m, 47 ∉ c)
    (hdots : ¬ DotDot c₀) : ∃ path' b, (47::l).getLast? = some b ∧
      Stands path' (m.foldl shorten c₀ ++ 47::l) b (m.foldl missed 0) ∧
      Visits (pathTurn checked) ⟨path,0,path.len⟩
        ⟨path',(m.foldl shorten c₀).length+1,(m.foldl shorten c₀ ++ 47::l).length+2*m.foldl missed 0⟩ := by
  have hne : path.buf ≠ [] := by
    intro hnil
    rw [Buffer.content,hnil,List.take_nil] at hcont
    simp at hcont
  have hlen := Buffer.content_length h
  obtain ⟨b,hb⟩ : ∃ b, (47::l).getLast? = some b := ⟨_,List.getLast?_eq_some_getLast (List.cons_ne_nil _ _)⟩
  have hstands := stands_of_wf h hne b
  rw [hcont] at hstands hlen
  have hfirst := walk_slash checked (show Stands path ([] ++ _) b 0 from hstands) hc₀ (fun _ => hdots) (by simp)
  obtain ⟨path',hstands',hvisit⟩ := components_run checked hstands hm hb rfl
  refine ⟨path',b,hb,hstands',?_⟩
  rw [← hlen]
  exact hfirst.trans hvisit

theorem shortensPath_components (checked : Bool) (h : path.Wf)
    (hcont : path.content = c₀ ++ 47::(m.flatMap (· ++ [47]) ++ l)) (hc₀ : 47 ∉ c₀) (hm : ∀ c ∈ m, 47 ∉ c)
    (hl : 47 ∉ l) (hdots : ¬ DotDot c₀) (hin : checked = true → m.foldl missed 0 = 0 ∨ DotDot l) :
    ∃ path', ShortensPath checked path (.ok (.ok,path')) ∧
      path'.content = lastText (m.foldl shorten c₀) (m.foldl missed 0) l := by
  obtain ⟨path₁,b,hb,hstands,hvisit⟩ := paths_run checked h hcont hc₀ hm hdots
  obtain ⟨fuel,path',hrun,htext⟩ := last_run checked hstands hl hb rfl hin
  obtain ⟨fuel',hrun'⟩ := hvisit.run hrun
  exact ⟨path',⟨fuel',hrun'⟩,htext⟩

theorem shortensPath_fault (h : path.Wf) (hcont : path.content = c₀ ++ 47::(m.flatMap (· ++ [47]) ++ l))
    (hc₀ : 47 ∉ c₀) (hm : ∀ c ∈ m, 47 ∉ c) (hl : 47 ∉ l) (hdots : ¬ DotDot c₀) (hk : m.foldl missed 0 ≠ 0)
    (hlast : ¬ DotDot l) : ShortensPath true path (.error .fault) := by
  obtain ⟨path₁,b,_,hstands,hvisit⟩ := paths_run true h hcont hc₀ hm hdots
  obtain ⟨fuel,hrun⟩ := last_fault hstands hl rfl hk hlast
  exact hvisit.run hrun

/-- The loop ends for every path. -/
theorem shortensPath_returns (h : path.Wf) : ∃ path', ShortensPath false path (.ok (.ok,path')) := by
  by_cases hsame : DotDot path.content ∨ 47 ∉ path.content
  · exact ⟨path,shortensPath_same false h hsame⟩
  obtain ⟨hdots,hslash⟩ := not_or.mp hsame
  obtain ⟨c₀,t,hcont,hc₀⟩ := List.eq_append_cons_of_mem (not_not.mp hslash)
  obtain ⟨m,l,_,ht,hm,hl⟩ := splitOn_ends t
  obtain ⟨path',hrun,_⟩ := shortensPath_components false h (ht ▸ hcont) hc₀ hm hl
    (fun h => hdots (h.trans (hcont ▸ List.prefix_append _ _))) fun hf => absurd hf Bool.false_ne_true
  exact ⟨path',hrun⟩

/-- A dot between two slashes, and no component that begins with two dots behind it. -/
def EndMissed (m : List (List UInt8)) : Prop := ∃ pre post, m = pre ++ [46]::post ∧ ∀ d ∈ post, ¬ DotDot d

/-- An element of a list with one more at its end is that one or stands before it. -/
theorem concat_middle {α : Type} {m pre post : List α} {c d : α} (h : m ++ [c] = pre ++ d::post) :
    (post = [] ∧ m = pre ∧ c = d) ∨ ∃ post', post = post' ++ [c] ∧ m = pre ++ d::post' := by
  rcases List.eq_nil_or_concat post with rfl | ⟨post,e,rfl⟩
  · obtain ⟨hm,hcd⟩ := List.append_inj' h rfl
    exact Or.inl ⟨rfl,hm,List.singleton_inj.mp hcd⟩
  · rw [List.concat_eq_append] at h ⊢
    obtain ⟨hm,hce⟩ : m = pre ++ d::post ∧ [c] = [e] :=
      List.append_inj' (by rw [h,List.append_assoc]; rfl) rfl
    obtain rfl := List.singleton_inj.mp hce
    exact Or.inr ⟨post,rfl,hm⟩

theorem endMissed_concat {c : List UInt8} (hc : c ≠ [46]) :
    EndMissed (m ++ [c]) ↔ EndMissed m ∧ ¬ DotDot c := by
  constructor
  · rintro ⟨pre,post,heq,hpost⟩
    obtain ⟨_,_,rfl⟩ | ⟨post,rfl,hm⟩ := concat_middle heq
    · exact absurd rfl hc
    · exact ⟨⟨pre,post,hm,fun e he => hpost e (List.mem_append_left _ he)⟩,hpost c (by simp)⟩
  · rintro ⟨⟨pre,post,rfl,hpost⟩,hdots⟩
    exact ⟨pre,post ++ [c],by simp,List.forall_mem_append.mpr ⟨hpost,List.forall_mem_singleton.mpr hdots⟩⟩

theorem missed_ne_zero_iff (m : List (List UInt8)) : m.foldl missed 0 ≠ 0 ↔ EndMissed m := by
  induction m using List.reverseRecOn with
  | nil => simp [EndMissed]
  | append_singleton m c ih =>
    rw [List.foldl_append,List.foldl_cons,List.foldl_nil,missed]
    split_ifs with hsingle hdots
    · exact iff_of_true (Nat.succ_ne_zero _) ⟨m,[],by rw [hsingle],by simp⟩
    · exact iff_of_false (fun h => h rfl) fun h => ((endMissed_concat hsingle).mp h).2 hdots
    · rw [ih,endMissed_concat hsingle,and_iff_left hdots]

end Paths

/-- The function reads no byte behind the terminator, cuts within the path and returns. -/
def StaysInside (path : Buffer) : Prop := ∃ r, ShortensPath true path (.ok r)

/-- The bounds hold exactly when the path begins with two dots, or every dot between two slashes has a
component that begins with two dots behind it. -/
theorem staysInside_iff {path : Buffer} (h : path.Wf) : StaysInside path ↔
    DotDot path.content ∨ ∀ pre post, path.content.splitOn 47 = pre ++ [46]::post → pre ≠ [] → post ≠ [] →
      ∃ d ∈ post, DotDot d := by
  by_cases hsame : DotDot path.content ∨ 47 ∉ path.content
  · refine iff_of_true ⟨_,shortensPath_same true h hsame⟩
      (hsame.imp_right fun hslash pre post heq hpre hpost => ?_)
    rw [List.splitOn_eq_singleton hslash] at heq
    obtain ⟨x,pre,rfl⟩ := List.exists_cons_of_ne_nil hpre
    exact absurd (List.cons.inj heq).2 (by simp)
  obtain ⟨hdots,hslash⟩ := not_or.mp hsame
  obtain ⟨c₀,t,hcont,hc₀⟩ := List.eq_append_cons_of_mem (not_not.mp hslash)
  obtain ⟨m,l,hsplit,ht,hm,hl⟩ := splitOn_ends t
  have hdots₀ : ¬ DotDot c₀ := fun h => hdots (h.trans (hcont ▸ List.prefix_append _ _))
  rw [or_iff_right hdots,hcont,List.splitOn_append_cons_self_of_not_mem hc₀,hsplit]
  rw [ht] at hcont
  constructor
  · rintro ⟨r,fuel,hrun⟩ pre post heq hpre hpost
    by_contra hnone
    obtain ⟨x,pre,rfl⟩ := List.exists_cons_of_ne_nil hpre
    obtain ⟨hnil,_⟩ | ⟨post,rfl,hmeq⟩ := concat_middle (List.cons.inj heq).2
    · exact hpost hnil
    have hmissed : EndMissed m := ⟨pre,post,hmeq,fun e he hde => hnone ⟨e,List.mem_append_left _ he,hde⟩⟩
    obtain ⟨fuel',hrun'⟩ := shortensPath_fault h hcont hc₀ hm hl hdots₀ ((missed_ne_zero_iff m).mpr hmissed)
      fun hde => hnone ⟨l,by simp,hde⟩
    cases run_unique hrun hrun'
  · intro hall
    obtain ⟨path',hrun,_⟩ := shortensPath_components true h hcont hc₀ hm hl hdots₀ fun _ => by
      by_contra hor
      obtain ⟨hk,hdl⟩ := not_or.mp hor
      obtain ⟨pre,post,rfl,hpost⟩ := (missed_ne_zero_iff m).mp hk
      obtain ⟨d,hd,hdd⟩ := hall (c₀::pre) (post ++ [l]) (by simp) (by simp) (by simp)
      rcases List.mem_append.mp hd with hd | hd
      · exact hpost d hd hdd
      · exact hdl (List.mem_singleton.mp hd ▸ hdd)
    exact ⟨_,hrun⟩

/-- `/./a` is read behind its terminator. -/
theorem not_staysInside_single : ¬ StaysInside (.holding [47,46,47,97]) := by
  have hrun : run (pathTurn true) 6 ⟨.holding [47,46,47,97],0,4⟩ = some (.error .fault) := rfl
  rintro ⟨r,fuel,h⟩
  cases run_unique h hrun

/-- `/./a/../b`. -/
theorem staysInside_iff_back : StaysInside (.holding [47,46,47,97,47,46,46,47,98]) := by
  refine (staysInside_iff (Buffer.holding_wf (by decide))).mpr (Or.inr fun pre post heq hpre _ => ?_)
  have heq : [[],[46],[97],[46,46],[98]] = pre ++ [46]::post := by
    rw [← heq]
    decide
  match pre with
  | [] => exact absurd rfl hpre
  | [x] =>
    obtain rfl : [[97],[46,46],[98]] = post := (List.cons.inj (List.cons.inj heq).2).2
    exact ⟨[46,46],by simp,by decide⟩
  | x::y::pre =>
    have hrest : [[97],[46,46],[98]] = pre ++ [46]::post := (List.cons.inj (List.cons.inj heq).2).2
    have hmem : [46] ∈ pre ++ [46]::post := by simp
    rw [← hrest] at hmem
    exact absurd hmem (by decide)

end Http2d
