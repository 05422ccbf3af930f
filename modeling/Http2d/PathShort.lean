import Http2d.BufferOps
import Http2d.Library.WhileLoop
import Mathlib.Data.List.DropRight

/-! The shortening of paths.
The cursor walks over the path and cuts `/./` and `/..` out of it on the spot. The end of the walk is
computed again only behind the second kind of cut, so after the first kind it lies behind the path. -/
namespace Http2d

open WhileLoop

/-- A byte of the path; a checked run may read up to the terminator. -/
def pathByte (checked : Bool) (path : Buffer) (pos : ℕ) : Exec UInt8 :=
  if checked ∧ path.len < pos then .error .fault else peekByte path.buf pos

/-- `http2d_buffer_remove_chunk`; a checked run may cut within the string. -/
def cutPath (checked : Bool) (path : Buffer) (start len : ℕ) : Exec (Ret × Buffer) :=
  if checked ∧ path.len < start+len then .error .fault else path.removeChunk start len

/-- Whether a slash stands in front of `p`. -/
def slashBefore (checked : Bool) (path : Buffer) (p : ℕ) : Exec Bool :=
  if 0 < p then do
    let c ← pathByte checked path (p-1)
    .ok (c == 47)
  else .ok false

/-- The dot at `p` is a component of its own. -/
def betweenSlashes (checked : Bool) (path : Buffer) (p : ℕ) : Exec Bool := do
  let d ← pathByte checked path (p+1)
  if d = 47 then slashBefore checked path p else .ok false

/-- The loop over the dots; `left` bytes are in front of `end`. -/
def dotsEndLoop (checked : Bool) (path : Buffer) : ℕ → ℕ → Exec ℕ
  | 0, q => .ok q
  | left+1, q => do
    let c ← pathByte checked path q
    if c = 46 then dotsEndLoop checked path left (q+1) else .ok q

/-- The loop back to the previous slash. -/
def prevSlashLoop (checked : Bool) (path : Buffer) : ℕ → Exec ℕ
  | 0 => .ok 0
  | q+1 => do
    let c ← pathByte checked path (q+1)
    if c = 47 then .ok (q+1) else prevSlashLoop checked path q

/-- `prev_slash`, for dots that stand at `p` behind a slash. -/
def prevSlash (checked : Bool) (path : Buffer) (p : ℕ) : Exec ℕ :=
  prevSlashLoop checked path (if 0 < p-1 then p-2 else p-1)

/-- The variables of `http2d_path_short`; `fin` is `end`. -/
structure PathScan where
  path : Buffer
  p : ℕ
  fin : ℕ

/-- One turn of the loop. -/
def pathTurnExec (checked : Bool) (s : PathScan) : Exec (Turn PathScan (Exec (Ret × Buffer))) :=
  if s.fin ≤ s.p then .ok (.stop (.ok (.ok,s.path)))
  else do
    let c ← pathByte checked s.path s.p
    if c ≠ 46 then .ok (.again {s with p := s.p+1})
    else do
      let inside ← betweenSlashes checked s.path s.p
      if inside then do
        let r ← cutPath checked s.path s.p 2
        .ok (.again {s with path := r.2, p := s.p-1})
      else if s.fin < s.p+2 then .ok (.stop (.ok (.ok,s.path)))
      else do
        let d ← pathByte checked s.path (s.p+1)
        if d ≠ 46 then .ok (.again {s with p := s.p+2})
        else do
          let dotsEnd ← dotsEndLoop checked s.path (s.fin-(s.p+2)) (s.p+2)
          if s.fin ≤ dotsEnd ∨ s.p = 0 then .ok (.stop (.ok (.ok,s.path)))
          else do
            let slash ← slashBefore checked s.path s.p
            if slash = false then .ok (.again {s with p := dotsEnd})
            else do
              let start ← prevSlash checked s.path s.p
              let len := cuint ((dotsEnd : ℤ)-start)
              let r ← cutPath checked s.path start len
              .ok (.again ⟨r.2,s.p-(len-(dotsEnd-s.p)),r.2.len⟩)

def pathTurn (checked : Bool) (s : PathScan) : Turn PathScan (Exec (Ret × Buffer)) :=
  match pathTurnExec checked s with
  | .ok t => t
  | .error e => .stop (.error e)

/-- `http2d_path_short` returns. -/
def ShortensPath (checked : Bool) (path : Buffer) (result : Exec (Ret × Buffer)) : Prop :=
  ∃ fuel, run (pathTurn checked) fuel ⟨path,0,path.len⟩ = some result

section Checked
variable {α β : Type} {path : Buffer}

/-- The second call returns what the first one returns, if that returns. -/
def Agrees (x y : Exec α) : Prop := ∀ a, x = .ok a → y = .ok a

theorem Agrees.refl (x : Exec α) : Agrees x x := fun _ h => h

theorem Agrees.bind {x y : Exec α} {f g : α → Exec β} (h : Agrees x y) (hf : ∀ a, Agrees (f a) (g a)) :
    Agrees (x >>= f) (y >>= g) := by
  intro b hb
  obtain ⟨a,hx,ha⟩ := bind_ok_inv hb
  rw [h a hx]
  exact hf a b ha

theorem Agrees.ite {p : Prop} [Decidable p] {x x' y y' : Exec α} (h : Agrees x y) (h' : Agrees x' y') :
    Agrees (if p then x else x') (if p then y else y') := by
  split_ifs
  · exact h
  · exact h'

theorem pathByte_agrees (pos : ℕ) : Agrees (pathByte true path pos) (pathByte false path pos) := by
  intro c hc
  unfold pathByte at hc ⊢
  split_ifs at hc
  rwa [if_neg (by simp)]

theorem cutPath_agrees (start len : ℕ) :
    Agrees (cutPath true path start len) (cutPath false path start len) := by
  intro r hr
  unfold cutPath at hr ⊢
  split_ifs at hr
  rwa [if_neg (by simp)]

theorem slashBefore_agrees (p : ℕ) : Agrees (slashBefore true path p) (slashBefore false path p) :=
  .ite (.bind (pathByte_agrees _) fun _ => .refl _) (.refl _)

theorem dotsEndLoop_agrees (left q : ℕ) :
    Agrees (dotsEndLoop true path left q) (dotsEndLoop false path left q) := by
  induction left generalizing q with
  | zero => exact .refl _
  | succ left ih => exact .bind (pathByte_agrees _) fun _ => .ite (ih _) (.refl _)

theorem prevSlashLoop_agrees (q : ℕ) : Agrees (prevSlashLoop true path q) (prevSlashLoop false path q) := by
  induction q with
  | zero => exact .refl _
  | succ q ih => exact .bind (pathByte_agrees _) fun _ => .ite (.refl _) ih

theorem pathTurnExec_agrees (s : PathScan) : Agrees (pathTurnExec true s) (pathTurnExec false s) := by
  refine .ite (.refl _) (.bind (pathByte_agrees _) fun _ => .ite (.refl _) ?_)
  refine .bind (.bind (pathByte_agrees _) fun _ => .ite (slashBefore_agrees _) (.refl _)) fun _ => ?_
  refine .ite (.bind (cutPath_agrees _ _) fun _ => .refl _) (.ite (.refl _) ?_)
  refine .bind (pathByte_agrees _) fun _ => .ite (.refl _) (.bind (dotsEndLoop_agrees _ _) fun _ => ?_)
  refine .ite (.refl _) (.bind (slashBefore_agrees _) fun _ => .ite (.refl _) ?_)
  exact .bind (prevSlashLoop_agrees _) fun _ => .bind (cutPath_agrees _ _) fun _ => .refl _

/-- A checked run that returns is a run of the function. -/
theorem ShortensPath.unchecked {r : Ret × Buffer} (h : ShortensPath true path (.ok r)) :
    ShortensPath false path (.ok r) := by
  obtain ⟨fuel,hrun⟩ := h
  refine ⟨fuel,?_⟩
  generalize (⟨path,0,path.len⟩ : PathScan) = s at *
  induction fuel generalizing s with
  | zero => cases hrun
  | succ n ih =>
    rw [run] at hrun ⊢
    have hagree := pathTurnExec_agrees s
    unfold pathTurn at hrun ⊢
    cases hexec : pathTurnExec true s with
    | error e =>
      rw [hexec] at hrun
      cases hrun
    | ok t =>
      rw [hexec] at hrun
      rw [hagree t hexec]
      cases t with
      | stop r' => exact hrun
      | again s' => exact ih s' hrun

end Checked

/-- What is in front of the last slash. -/
def parent (front : List UInt8) : List UInt8 := (front.rdropWhile (· ≠ 47)).dropLast

section Parent
variable {front : List UInt8}

theorem parent_slash (front : List UInt8) : parent (front ++ [47]) = front := by
  rw [parent,List.rdropWhile_concat_neg _ _ _ (by simp),List.dropLast_concat]

theorem parent_concat (front : List UInt8) {c : UInt8} (h : c ≠ 47) : parent (front ++ [c]) = parent front := by
  rw [parent,List.rdropWhile_concat_pos _ _ _ (by simpa using h),parent]

theorem parent_front (front : List UInt8) : parent front <+: front :=
  (List.dropLast_prefix _).trans (List.rdropWhile_prefix _ _)

end Parent

section Turns
variable {checked : Bool} {path : Buffer} {x t : List UInt8} {c d : UInt8} {fin p : ℕ}

theorem pathByte_ok (hbuf : path.buf = x ++ c::t) (hp : p = x.length)
    (hin : checked = true → x.length ≤ path.len) : pathByte checked path p = .ok c := by
  subst hp
  rw [pathByte,if_neg (by simpa using hin)]
  exact (peekByte_drop (by rw [hbuf,List.drop_left])).1

theorem turn_end (h : fin ≤ p) : pathTurn checked ⟨path,p,fin⟩ = .stop (.ok (.ok,path)) := by
  simp [pathTurn,pathTurnExec,h]

/-- A checked run does not go on behind the terminator. -/
theorem turn_fault (h : path.len < p) (hfin : p < fin) :
    pathTurn true ⟨path,p,fin⟩ = .stop (.error .fault) := by
  simp [pathTurn,pathTurnExec,pathByte,h,Nat.not_le.mpr hfin]

theorem turn_byte (hbuf : path.buf = x ++ c::t) (hc : c ≠ 46) (hfin : x.length < fin)
    (hin : checked = true → x.length ≤ path.len) :
    pathTurn checked ⟨path,x.length,fin⟩ = .again ⟨path,x.length+1,fin⟩ := by
  have hbyte := pathByte_ok hbuf rfl hin
  simp [pathTurn,pathTurnExec,Nat.not_le.mpr hfin,hbyte,hc]

theorem slashBefore_eq (hbuf : path.buf = x ++ t) (hin : checked = true → x.length ≤ path.len) :
    slashBefore checked path x.length = .ok (x.getLast? == some 47) := by
  rw [slashBefore]
  rcases List.eq_nil_or_concat x with rfl | ⟨g,b,rfl⟩
  · rfl
  · rw [List.concat_eq_append] at *
    rw [List.length_append,List.length_singleton] at *
    rw [if_pos (Nat.succ_pos _),Nat.add_sub_cancel,
      pathByte_ok (x:=g) (c:=b) (t:=t) (by rw [hbuf,List.append_assoc]; rfl) rfl fun h => by
        have := hin h
        omega,ok_bind]
    simp

/-- A dot that is not followed by a dot, and not between slashes. -/
theorem turn_dot (hbuf : path.buf = x ++ 46::d::t) (hd : d ≠ 46)
    (hslash : d = 47 → x.getLast? ≠ some 47) (hfin : x.length < fin)
    (hin : checked = true → x.length+1 ≤ path.len) : pathTurn checked ⟨path,x.length,fin⟩ =
      if fin < x.length+2 then .stop (.ok (.ok,path)) else .again ⟨path,x.length+2,fin⟩ := by
  have hin' : checked = true → x.length ≤ path.len := fun h => by
    have := hin h
    omega
  have hbyte := pathByte_ok hbuf rfl hin'
  have hnext : pathByte checked path (x.length+1) = .ok d :=
    pathByte_ok (x:=x ++ [46]) (by rw [hbuf,List.append_assoc]; rfl) (by simp) (by simpa using hin)
  have hinside : betweenSlashes checked path x.length = .ok false := by
    rw [betweenSlashes,hnext,ok_bind]
    split_ifs with h47
    · rw [slashBefore_eq hbuf hin']
      simpa using hslash h47
    · rfl
  simp only [pathTurn,pathTurnExec,if_neg (Nat.not_le.mpr hfin),hbyte,ok_bind,hnext,hinside]
  simp only [ne_eq,not_true_eq_false,if_false,Bool.false_eq_true,hd,not_false_eq_true,if_true]
  split_ifs <;> rfl

/-- The dots end at another byte or at the end. -/
theorem dotsEndLoop_eq {n left q : ℕ} (hbuf : path.buf = x ++ (List.replicate n 46 ++ t)) (hq : q = x.length)
    (hle : n ≤ left) (hstop : n = left ∨ ∃ d t', t = d::t' ∧ d ≠ 46)
    (hin : checked = true → (if n = left then x.length+n ≤ path.len+1 else x.length+n ≤ path.len)) :
    dotsEndLoop checked path left q = .ok (q+n) := by
  induction n generalizing left q x with
  | zero =>
    cases left with
    | zero => rfl
    | succ left =>
      obtain ⟨d,t',rfl,hd⟩ := hstop.resolve_left (by omega)
      rw [dotsEndLoop,pathByte_ok (by simpa using hbuf) hq (by simpa using hin),ok_bind,if_neg hd]
      rfl
  | succ n ih =>
    obtain ⟨left,rfl⟩ : ∃ m, left = m+1 := ⟨left-1,by omega⟩
    have hin' : checked = true → x.length ≤ path.len := fun h => by
      have := hin h
      split_ifs at this <;> omega
    rw [List.replicate_succ,List.cons_append] at hbuf
    rw [dotsEndLoop,pathByte_ok hbuf hq hin',ok_bind,if_pos rfl]
    rw [ih (x:=x ++ [46]) (by rw [hbuf,List.append_assoc]; rfl) (by simp [hq]) (by omega)
      (hstop.imp_left Nat.succ.inj) fun h => by
        have := hin h
        rw [List.length_append,List.length_singleton]
        split_ifs at this ⊢ <;> omega]
    congr 1
    omega

theorem prevSlashLoop_eq (hbuf : path.buf = x ++ t) (hin : checked = true → x.length ≤ path.len) :
    prevSlashLoop checked path (x.length-1) = .ok (parent x).length := by
  induction x using List.reverseRecOn generalizing t with
  | nil => rfl
  | append_singleton g b ih =>
    rw [List.append_assoc] at hbuf
    rw [List.length_append,List.length_singleton] at hin ⊢
    have hin' : checked = true → g.length ≤ path.len := fun h => by
      have := hin h
      omega
    have hpar : (parent (g ++ [b])).length = if b = 47 then g.length else (parent g).length := by
      split_ifs with hb
      · rw [hb,parent_slash]
      · rw [parent_concat g hb]
    rw [Nat.add_sub_cancel,hpar]
    cases hg : g.length with
    | zero =>
      obtain rfl := List.length_eq_zero_iff.mp hg
      rw [prevSlashLoop]
      split_ifs <;> rfl
    | succ n =>
      rw [prevSlashLoop,pathByte_ok hbuf hg.symm hin',ok_bind]
      split_ifs
      · rfl
      · rw [← ih hbuf hin',hg,Nat.add_sub_cancel]

/-- Two dots or more, in the path or up to its end; behind a slash they are cut out with the component
in x. -/
theorem turn_dots (checked : Bool) {n : ℕ} (hbuf : path.buf = x ++ (List.replicate (n+2) 46 ++ t))
    (hsmall : fin < 2^32)
    (hle : x.length+n+2 ≤ fin) (hstop : x.length+n+2 = fin ∨ ∃ d t', t = d::t' ∧ d ≠ 46)
    (hin : checked = true → (if x.length+n+2 = fin then x.length+n+1 ≤ path.len
      else x.length+n+2 ≤ path.len)) : pathTurn checked ⟨path,x.length,fin⟩ =
      if x.length+n+2 = fin ∨ x = [] then .stop (.ok (.ok,path))
      else if x.getLast? = some 47 then
        match cutPath checked path (parent x.dropLast).length
          (x.length+n+2-(parent x.dropLast).length) with
        | .ok r => .again ⟨r.2,(parent x.dropLast).length,r.2.len⟩
        | .error e => .stop (.error e)
      else .again ⟨path,x.length+n+2,fin⟩ := by
  have hin' : checked = true → x.length+1 ≤ path.len := fun h => by
    have := hin h
    split_ifs at this <;> omega
  have hin₀ : checked = true → x.length ≤ path.len := fun h => by
    have := hin' h
    omega
  have hbuf' : path.buf = x ++ 46::46::(List.replicate n 46 ++ t) := hbuf
  have hbyte := pathByte_ok hbuf' rfl hin₀
  have hnext : pathByte checked path (x.length+1) = .ok 46 :=
    pathByte_ok (x:=x ++ [46]) (by rw [hbuf',List.append_assoc]; rfl) (by simp) (by simpa using hin')
  have hinside : betweenSlashes checked path x.length = .ok false := by
    rw [betweenSlashes,hnext,ok_bind,if_neg (by decide)]
  have hdots : dotsEndLoop checked path (fin-(x.length+2)) (x.length+2) = .ok (x.length+2+n) :=
    dotsEndLoop_eq (x:=x ++ [46,46]) (by rw [hbuf',List.append_assoc]; rfl) (by simp) (by omega)
      (hstop.imp_left fun h => by omega) fun h => by
        have := hin h
        rw [List.length_append,List.length_cons,List.length_singleton]
        split_ifs at this ⊢ <;> omega
  simp only [pathTurn,pathTurnExec,if_neg (show ¬ fin ≤ x.length by omega),hbyte,ok_bind,hinside,hnext,
    hdots,ne_eq,not_true_eq_false,if_false,Bool.false_eq_true,if_neg (show ¬ fin < x.length+2 by omega)]
  have hend : fin ≤ x.length+2+n ∨ x.length = 0 ↔ x.length+n+2 = fin ∨ x = [] := by
    rw [List.length_eq_zero_iff]
    exact or_congr_left (by omega)
  simp only [hend,slashBefore_eq hbuf hin₀,ok_bind]
  by_cases hall : x.length+n+2 = fin ∨ x = []
  · rw [if_pos hall,if_pos hall]
  rw [if_neg hall,if_neg hall]
  by_cases hlast : x.getLast? = some 47
  · obtain ⟨g,rfl⟩ : ∃ g, x = g ++ [47] := List.getLast?_eq_some_iff.mp hlast
    have hpar := (parent_front g).length_le
    have hback : prevSlash checked path (g ++ [47]).length = .ok (parent g).length := by
      rw [prevSlash,← prevSlashLoop_eq (x:=g) (by rw [hbuf,List.append_assoc]) fun h => by
        have := hin₀ h
        rw [List.length_append] at this
        omega]
      congr 1
      rw [List.length_append,List.length_singleton]
      split_ifs <;> omega
    rw [if_pos hlast,hlast,List.dropLast_concat]
    simp only [beq_self_eq_true,Bool.true_eq_false,if_false,hback,ok_bind]
    rw [List.length_append,List.length_singleton] at hle ⊢
    rw [cuint_sub (by omega) (by omega),Nat.add_right_comm _ 2 n,
      show g.length+1-(g.length+1+n+2-(parent g).length-(g.length+1+n+2-(g.length+1))) = (parent g).length by
        omega]
    cases cutPath checked path (parent g).length (g.length+1+n+2-(parent g).length) <;> rfl
  · rw [if_neg hlast,beq_eq_false_iff_ne.mpr hlast,if_pos rfl,Nat.add_right_comm _ 2 n]

/-- A dot between two slashes is cut out with the slash behind it. -/
theorem turn_single (hbuf : path.buf = x ++ 46::47::t) (hlast : x.getLast? = some 47)
    (hfin : x.length < fin) (hin : checked = true → x.length+1 ≤ path.len) :
    pathTurn checked ⟨path,x.length,fin⟩ =
      match cutPath checked path x.length 2 with
      | .ok r => .again ⟨r.2,x.length-1,fin⟩
      | .error e => .stop (.error e) := by
  have hin₀ : checked = true → x.length ≤ path.len := fun h => by
    have := hin h
    omega
  have hnext : pathByte checked path (x.length+1) = .ok 47 :=
    pathByte_ok (x:=x ++ [46]) (by rw [hbuf,List.append_assoc]; rfl) (by simp) (by simpa using hin)
  have hinside : betweenSlashes checked path x.length = .ok true := by
    rw [betweenSlashes,hnext,ok_bind,if_pos rfl,slashBefore_eq hbuf hin₀,hlast]
    rfl
  simp only [pathTurn,pathTurnExec,if_neg (Nat.not_le.mpr hfin),pathByte_ok hbuf rfl hin₀,ok_bind,hinside,
    ne_eq,not_true_eq_false,if_false,if_true]
  cases cutPath checked path x.length 2 <;> rfl

end Turns

/-- A text that starts with two dots is no component of its own, nor does it start the path. -/
def Passes (front u : List UInt8) : Prop := front = [] ∨ front.getLast? = some 47 → ¬ [46,46] <+: u

section Walk
variable {checked : Bool} {path : Buffer} {front u t : List UInt8} {c d : UInt8} {fin : ℕ}

theorem passes_behind {w u : List UInt8} (hne : w ≠ []) (hw : w.getLast? ≠ some 47) :
    Passes (front ++ w) u := by
  rintro (h | h)
  · exact absurd (List.append_eq_nil_iff.mp h).2 hne
  · rw [List.getLast?_append_of_ne_nil _ hne] at h
    exact absurd h hw

/-- All the dots that a text starts with. -/
theorem dots_split (h : [46,46] <+: u) :
    ∃ n v, u = List.replicate (n+2) (46 : UInt8) ++ v ∧ (v = [] ∨ ∃ d v', v = d::v' ∧ d ≠ 46) := by
  obtain ⟨w,rfl⟩ := h
  refine ⟨(w.takeWhile (· = 46)).length,w.dropWhile (· = 46),?_,?_⟩
  · have hdots : w.takeWhile (· = 46) = List.replicate (w.takeWhile (· = 46)).length 46 :=
      List.eq_replicate_iff.mpr ⟨rfl,fun b hb => by simpa using List.mem_takeWhile_imp hb⟩
    rw [List.replicate_succ,List.replicate_succ,← hdots]
    simp only [List.cons_append,List.nil_append,List.takeWhile_append_dropWhile]
  · cases hv : w.dropWhile (· = 46) with
    | nil => exact Or.inl rfl
    | cons d v' =>
      have := List.head_dropWhile_not (fun b => decide (b = 46)) (l:=w) (by simp [hv])
      exact Or.inr ⟨d,v',rfl,by simpa [hv] using this⟩

/-- One turn takes a part off the front of a text without slashes, or the dot that the text is with the byte
behind it; dots do not go up to the end. -/
theorem turn_part (checked : Bool) (hbuf : path.buf = front ++ (u ++ d::t)) (hne : u ≠ []) (hslash : 47 ∉ u)
    (hd : d ≠ 46) (hpass : Passes front u) (hsingle : d = 47 → front.getLast? = some 47 → u ≠ [46])
    (hfin : front.length+u.length ≤ fin)
    (hend : front.length+u.length < fin ∨ ([46,46] <+: u → ∃ b ∈ u, b ≠ 46))
    (hsmall : fin < 2^32) (hin : checked = true → front.length+u.length ≤ path.len) :
    (u = [46] ∧ pathTurn checked ⟨path,front.length,fin⟩ =
      if fin < front.length+2 then .stop (.ok (.ok,path)) else .again ⟨path,front.length+2,fin⟩) ∨
    ∃ w v, u = w ++ v ∧ w ≠ [] ∧ w.getLast? ≠ some 47 ∧
      pathTurn checked ⟨path,front.length,fin⟩ = .again ⟨path,(front ++ w).length,fin⟩ := by
  obtain ⟨x,v,rfl⟩ := List.exists_cons_of_ne_nil hne
  obtain ⟨hx,hv⟩ := not_or.mp (List.mem_cons.not.mp hslash)
  rw [List.length_cons] at hfin hend hin
  by_cases hdot : x = 46
  swap
  · refine Or.inr ⟨[x],v,rfl,by simp,by simpa using Ne.symm hx,?_⟩
    rw [turn_byte hbuf hdot (by omega) (fun h => by
      have := hin h
      omega),List.length_append]
    rfl
  subst hdot
  by_cases hdots : [46,46] <+: 46::v
  · obtain ⟨n,w,hw,hstop⟩ := dots_split hdots
    have hfront : ¬ (front = [] ∨ front.getLast? = some 47) := fun h => hpass h hdots
    have hlen := congrArg List.length hw
    rw [List.length_cons,List.length_append,List.length_replicate] at hlen
    have hlt : front.length+n+2 < fin := by
      rcases hend with hlt | hother
      · omega
      · obtain ⟨b,hb,hne⟩ := hother hdots
        have hwne : w ≠ [] := by
          rintro rfl
          rw [hw,List.append_nil] at hb
          exact hne (List.eq_of_mem_replicate hb)
        have := List.length_pos_of_ne_nil hwne
        omega
    refine Or.inr ⟨_,w,hw,by simp,by simp [List.getLast?_replicate],?_⟩
    rw [turn_dots checked (t:=w ++ d::t) (by rw [hbuf,hw,List.append_assoc]) hsmall (by omega) (Or.inr ?_)
      (fun h => by
        have := hin h
        rw [if_neg (by omega)]
        omega),if_neg (not_or.mpr ⟨by omega,fun h => hfront (Or.inl h)⟩),
      if_neg fun h => hfront (Or.inr h),List.length_append,List.length_replicate]
    · rfl
    · rcases hstop with rfl | ⟨e,w',rfl,he⟩
      · exact ⟨d,t,rfl,hd⟩
      · exact ⟨e,w' ++ d::t,rfl,he⟩
  cases v with
  | nil => exact Or.inl ⟨rfl,turn_dot hbuf hd (fun h47 hlast => hsingle h47 hlast rfl) (by omega) hin⟩
  | cons y v =>
    have hy : y ≠ 46 := by
      rintro rfl
      exact hdots ⟨v,rfl⟩
    have hy47 : y ≠ 47 := fun h => hv (h ▸ List.mem_cons_self)
    rw [List.length_cons] at hfin hin
    refine Or.inr ⟨[46,y],v,rfl,by simp,by simpa using hy47,?_⟩
    rw [turn_dot (d:=y) hbuf hy (fun h => absurd h hy47) (by omega) (fun h => by
      have := hin h
      omega),if_neg (by omega),List.length_append]
    rfl

/-- The cursor passes over a text without slashes, and perhaps over the byte behind it. -/
theorem walk (checked : Bool) (hbuf : path.buf = front ++ (u ++ d::t)) (hslash : 47 ∉ u) (hd : d ≠ 46)
    (hpass : Passes front u) (hsingle : d = 47 → front.getLast? = some 47 → u ≠ [46])
    (hfin : front.length+u.length < fin) (hsmall : fin < 2^32)
    (hin : checked = true → front.length+u.length ≤ path.len) :
    Visits (pathTurn checked) ⟨path,front.length,fin⟩ ⟨path,front.length+u.length,fin⟩ ∨
    Visits (pathTurn checked) ⟨path,front.length,fin⟩ ⟨path,front.length+u.length+1,fin⟩ := by
  induction hn : u.length using Nat.strong_induction_on generalizing front u with
  | _ n ih =>
    subst hn
    by_cases hne : u = []
    · rw [hne]
      exact Or.inl (.start _)
    rcases turn_part checked hbuf hne hslash hd hpass hsingle hfin.le (Or.inl hfin) hsmall hin with
      ⟨rfl,hturn⟩ | ⟨w,v,rfl,hwne,hw,hturn⟩
    · rw [List.length_singleton] at hfin
      rw [if_neg (by omega)] at hturn
      exact Or.inr (.turn hturn (.start _))
    · have hwpos := List.length_pos_of_ne_nil hwne
      have hlast : (front ++ w).getLast? ≠ some 47 := by rwa [List.getLast?_append_of_ne_nil _ hwne]
      have hlen : (front ++ w).length+v.length = front.length+(w ++ v).length := by
        rw [List.length_append,List.length_append,Nat.add_assoc]
      rw [← hlen] at hfin hin ⊢
      exact (ih v.length (by rw [List.length_append]; omega) (by rw [hbuf]; simp only [List.append_assoc])
        (fun h => hslash (List.mem_append_right w h)) (passes_behind hwne hw)
        (fun _ h => absurd h hlast) hfin hin rfl).imp (.turn hturn) (.turn hturn)

/-- At the end of the walk the path is as it was, unless a component is cut out. -/
theorem walk_end (checked : Bool) (hbuf : path.buf = front ++ (u ++ 0::t)) (hkind : 47 ∉ u ∨ 46 ∉ u)
    (hpass : Passes front u ∨ ∀ b ∈ u, b = 46) (hfin : fin = front.length+u.length) (hsmall : fin < 2^32)
    (hin : checked = true → fin ≤ path.len) :
    ∃ fuel, run (pathTurn checked) fuel ⟨path,front.length,fin⟩ = some (.ok (.ok,path)) := by
  induction hn : u.length using Nat.strong_induction_on generalizing front u with
  | _ n ih =>
    subst hn
    by_cases hne : u = []
    · exact ⟨1,run_stop (turn_end (by rw [hfin,hne]; exact le_rfl)) 0⟩
    by_cases hall : [46,46] <+: u ∧ ∀ b ∈ u, b = 46
    · -- dots up to the end
      obtain ⟨hdots,hall⟩ := hall
      obtain ⟨n,w,rfl,hstop⟩ := dots_split hdots
      have hw : w = [] := by
        rcases hstop with rfl | ⟨e,w',rfl,he⟩
        · rfl
        · exact absurd (hall e (by simp)) he
      rw [hw,List.append_nil,List.length_replicate] at hfin
      have hturn := turn_dots checked (x:=front) (t:=0::t) (by rw [hbuf,hw,List.append_nil]) hsmall (by omega)
        (Or.inl (by omega)) (fun h => by
          have := hin h
          split_ifs <;> omega)
      rw [if_pos (Or.inl (by omega))] at hturn
      exact ⟨1,run_stop hturn 0⟩
    have hpart : (u = [46] ∧ pathTurn checked ⟨path,front.length,fin⟩ =
          if fin < front.length+2 then .stop (.ok (.ok,path)) else .again ⟨path,front.length+2,fin⟩) ∨
        ∃ w v, u = w ++ v ∧ w ≠ [] ∧ Passes (front ++ w) v ∧
          pathTurn checked ⟨path,front.length,fin⟩ = .again ⟨path,(front ++ w).length,fin⟩ := by
      rcases hkind with hslash | hnodot
      · have hpass' : Passes front u := hpass.elim id fun h _ hdots => hall ⟨hdots,h⟩
        have hother : [46,46] <+: u → ∃ b ∈ u, b ≠ 46 := fun hdots => by
          by_contra hnone
          exact hall ⟨hdots,by simpa using hnone⟩
        rcases turn_part checked hbuf hne hslash (by decide) hpass' (fun h => absurd h (by decide)) hfin.ge
          (Or.inr hother) hsmall (hfin ▸ hin) with hturn | ⟨w,v,hu,hwne,hw,hturn⟩
        · exact Or.inl hturn
        · exact Or.inr ⟨w,v,hu,hwne,passes_behind hwne hw,hturn⟩
      · obtain ⟨x,v,rfl⟩ := List.exists_cons_of_ne_nil hne
        obtain ⟨hx,hv⟩ := not_or.mp (List.mem_cons.not.mp hnodot)
        rw [List.length_cons] at hfin
        refine Or.inr ⟨[x],v,rfl,by simp,fun _ hdots => hv (hdots.subset List.mem_cons_self),?_⟩
        rw [turn_byte hbuf (Ne.symm hx) (by omega) (fun h => by
          have := hin h
          omega),List.length_append]
        rfl
    rcases hpart with ⟨rfl,hturn⟩ | ⟨w,v,rfl,hwne,hpass',hturn⟩
    · rw [List.length_singleton] at hfin
      rw [if_pos (by omega)] at hturn
      exact ⟨1,run_stop hturn 0⟩
    · have hwpos := List.length_pos_of_ne_nil hwne
      have hsub {b : UInt8} (h : b ∉ w ++ v) : b ∉ v := fun hb => h (List.mem_append_right w hb)
      rw [List.length_append] at hfin ih
      obtain ⟨fuel,hrun⟩ := ih v.length (by omega) (by rw [hbuf]; simp only [List.append_assoc])
        (hkind.imp hsub hsub) (Or.inl hpass') (by rw [List.length_append]; omega) rfl
      exact ⟨fuel+1,by rw [run_again hturn,hrun]⟩

end Walk

end Http2d
