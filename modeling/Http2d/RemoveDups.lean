import Mathlib.Data.List.Destutter
import Http2d.BufferOps

/-! `http2d_buffer_remove_dups`.
The string is compressed in place: behind the cursor stands the result, and what is read next lies
`offset` bytes in front of it. -/
namespace Http2d

/-- A byte of a block of which only the first `lim` bytes may be read. -/
def peekWithin (lim : ℕ) (blk : List UInt8) (off : ℕ) : Exec UInt8 :=
  if off < lim then peekByte blk off else .error .fault

/-- The block, the cursor `a` and the offset. -/
structure DupCursor where
  blk : List UInt8
  a : ℕ
  offset : ℕ

namespace DupCursor

/-- `(*a == c) && (a[offset+1] == c)`. -/
def isDup (lim : ℕ) (c : UInt8) (s : DupCursor) : Exec Bool := do
  let x ← peekWithin lim s.blk s.a
  if x ≠ c then .ok false
  else do
    let y ← peekWithin lim s.blk (s.a+cuint (s.offset+1))
    .ok (y == c)

/-- The body of the `do` loop. -/
def turn (lim : ℕ) (c : UInt8) (s : DupCursor) : Exec DupCursor := do
  let dup ← s.isDup lim c
  if dup then .ok {s with offset := cuint (s.offset+1)}
  else do
    let y ← peekWithin lim s.blk (s.a+1+s.offset)
    if s.a+1 < s.blk.length then .ok {s with blk := s.blk.set (s.a+1) y, a := s.a+1}
    else .error .fault

/-- The `do` loop. -/
def loop (lim : ℕ) (c : UInt8) (len : ℕ) : ℕ → DupCursor → Exec DupCursor
  | 0, _ => .error .fault
  | fuel+1, s => do
    let s ← s.turn lim c
    if s.a+s.offset < len ∧ cuint (s.offset+1) < len then loop lim c len fuel s else .ok s

end DupCursor

namespace Buffer

/-- `http2d_buffer_remove_dups` that reads nothing behind the first `lim` bytes of the block. -/
def removeDupsWithin (lim : ℕ) (b : Buffer) (c : UInt8) : Exec (Ret × Buffer) :=
  if b.len < 2 then .ok (.ok,b)
  else do
    let s ← DupCursor.loop lim c b.len (b.len+1) ⟨b.buf,0,0⟩
    let b ← ({b with buf := s.blk} : Buffer).setLen (cuint ((b.len : ℤ)-s.offset))
    .ok (.ok,b)

/-- `http2d_buffer_remove_dups`. -/
def removeDups (b : Buffer) (c : UInt8) : Exec (Ret × Buffer) := b.removeDupsWithin b.buf.length c

end Buffer

section Squeeze
variable {c : UInt8}

/-- Every run of `c` becomes a single `c`: of two neighbours that both are `c` the second goes. -/
def squeeze (c : UInt8) (s : List UInt8) : List UInt8 := s.destutter fun x y => ¬ (x = c ∧ y = c)

/-- The same when `x` was put out last. -/
def squeezeFrom (c x : UInt8) (s : List UInt8) : List UInt8 :=
  s.destutter' (fun x y => ¬ (x = c ∧ y = c)) x

@[simp] theorem squeeze_nil : squeeze c [] = [] := rfl

theorem squeezeFrom_dup (s : List UInt8) : squeezeFrom c c (c::s) = squeezeFrom c c s :=
  List.destutter'_cons_neg _ (not_not.mpr ⟨rfl,rfl⟩)

theorem squeezeFrom_other {x y : UInt8} (h : ¬ (x = c ∧ y = c)) (s : List UInt8) :
    squeezeFrom c x (y::s) = x::squeezeFrom c y s := List.destutter'_cons_pos _ h

/-- Squeezing twice is squeezing once. -/
theorem squeeze_squeeze (s : List UInt8) : squeeze c (squeeze c s) = squeeze c s :=
  List.destutter_idem _ _

/-- The terminator is not part of a run. -/
theorem squeezeFrom_nul (hc : c ≠ 0) (x : UInt8) (s : List UInt8) :
    squeezeFrom c x (s ++ [0]) = squeezeFrom c x s ++ [0] := by
  have hend (x : UInt8) : ¬ (x = c ∧ 0 = c) := fun h => hc h.2.symm
  induction s generalizing x with
  | nil => exact squeezeFrom_other (hend x) []
  | cons y s ih =>
    by_cases hdup : x = c ∧ y = c
    · obtain ⟨rfl,rfl⟩ := hdup
      rw [List.cons_append,squeezeFrom_dup,squeezeFrom_dup,ih]
    · rw [List.cons_append,squeezeFrom_other hdup,squeezeFrom_other hdup,ih,List.cons_append]

theorem squeeze_nul (hc : c ≠ 0) (s : List UInt8) : squeeze c (s ++ [0]) = squeeze c s ++ [0] := by
  cases s with
  | nil => rfl
  | cons x s => exact squeezeFrom_nul hc x s

end Squeeze

section Access
variable {c : UInt8} {lim lim' : ℕ}

theorem peekWithin_mono (hle : lim ≤ lim') {blk : List UInt8} {off : ℕ} {x : UInt8}
    (h : peekWithin lim blk off = .ok x) : peekWithin lim' blk off = .ok x := by
  unfold peekWithin at h ⊢
  split_ifs at h with hlt
  rwa [if_pos (hlt.trans_le hle)]

theorem DupCursor.isDup_mono (hle : lim ≤ lim') {s : DupCursor} {dup : Bool}
    (h : s.isDup lim c = .ok dup) : s.isDup lim' c = .ok dup := by
  obtain ⟨x,hx,h⟩ := bind_ok_inv h
  rw [isDup,peekWithin_mono hle hx,ok_bind]
  split_ifs at h ⊢
  · exact h
  · obtain ⟨y,hy,h⟩ := bind_ok_inv h
    rw [peekWithin_mono hle hy,ok_bind,h]

theorem DupCursor.turn_mono (hle : lim ≤ lim') {s s' : DupCursor} (h : s.turn lim c = .ok s') :
    s.turn lim' c = .ok s' := by
  obtain ⟨dup,hdup,h⟩ := bind_ok_inv h
  rw [turn,isDup_mono hle hdup,ok_bind]
  cases dup with
  | true => exact h
  | false =>
    obtain ⟨y,hy,h⟩ := bind_ok_inv h
    rw [if_neg Bool.false_ne_true,peekWithin_mono hle hy,ok_bind,h]

theorem DupCursor.loop_mono (hle : lim ≤ lim') {fuel len : ℕ} {s s' : DupCursor}
    (h : loop lim c len fuel s = .ok s') : loop lim' c len fuel s = .ok s' := by
  induction fuel generalizing s with
  | zero => cases h
  | succ fuel ih =>
    obtain ⟨t,ht,h⟩ := bind_ok_inv h
    rw [loop,turn_mono hle ht,ok_bind]
    split_ifs at h ⊢
    · exact ih h
    · exact h

/-- A run that reads little is the run that may read more. -/
theorem Buffer.removeDupsWithin_mono (hle : lim ≤ lim') {b : Buffer} {r : Ret × Buffer}
    (h : b.removeDupsWithin lim c = .ok r) : b.removeDupsWithin lim' c = .ok r := by
  unfold removeDupsWithin at h ⊢
  split_ifs at h ⊢
  · exact h
  · obtain ⟨s,hs,h⟩ := bind_ok_inv h
    rw [DupCursor.loop_mono hle hs,ok_bind,h]

end Access

section Loop
variable {c : UInt8} {text rest : List UInt8} {s : DupCursor} {lim : ℕ}

/-- In front of the cursor stands what was put out, then the byte that was put out last and `offset`
bytes that are not needed any more; from there on the block is untouched. -/
def Compressed (c : UInt8) (text rest : List UInt8) (s : DupCursor) : Prop :=
  ∃ front x gap todo, s.blk = front ++ x::(gap ++ (todo ++ rest)) ∧ s.a = front.length ∧
    s.offset = gap.length ∧ text.drop (front.length+gap.length+1) = todo ∧
    front.length+gap.length+1+todo.length = text.length ∧ front ++ squeezeFrom c x todo = squeeze c text

theorem Compressed.start (x : UInt8) (t rest : List UInt8) :
    Compressed c (x::t) rest ⟨x::(t ++ rest),0,0⟩ :=
  ⟨[],x,[],t,rfl,rfl,rfl,rfl,by simp [Nat.add_comm],rfl⟩

theorem peekWithin_at {blk xs ys : List UInt8} {y : UInt8} {off : ℕ} (hblk : blk = xs ++ y::ys)
    (hoff : off = xs.length) (hlim : off < lim) : peekWithin lim blk off = .ok y := by
  have hdrop : blk.drop off = y::ys := by rw [hblk,hoff,List.drop_left]
  rw [peekWithin,if_pos hlim,(peekByte_drop hdrop).1]

/-- The byte at the cursor is compared with the one behind the gap. -/
theorem isDup_at {front gap todo : List UInt8} {x y : UInt8} (hblk : s.blk = front ++ x::(gap ++ y::todo))
    (ha : s.a = front.length) (hoff : s.offset = gap.length) (hlim : s.a+s.offset+1 < lim)
    (hsmall : s.offset+1 < 2^32) : s.isDup lim c = .ok (decide (x = c ∧ y = c)) := by
  have hread : s.blk = (front ++ x::gap) ++ y::todo := by rw [hblk,List.append_assoc]; rfl
  have hnew : cuint ((s.offset : ℤ)+1) = s.offset+1 := cuint_succ (by omega)
  have hx : peekWithin lim s.blk s.a = .ok x := peekWithin_at hblk ha (by omega)
  have hy : peekWithin lim s.blk (s.a+(s.offset+1)) = .ok y :=
    peekWithin_at hread (by simp; omega) (by omega)
  rw [DupCursor.isDup,hx,ok_bind,hnew,hy,ok_bind]
  split_ifs with hc <;> simp_all [beq_eq_decide]

/-- The byte behind the cursor is overwritten; the rest of the gap and the byte behind it form the new
gap. -/
theorem set_behind_cursor (gap : List UInt8) (y : UInt8) : ∃ gap' : List UInt8, gap'.length = gap.length ∧
    ∀ (front todo : List UInt8) (x : UInt8), (front ++ x::(gap ++ y::todo)).set (front.length+1) y =
      (front ++ [x]) ++ y::(gap' ++ todo) := by
  obtain ⟨g,gap',hgap⟩ : ∃ g gap', gap ++ [y] = g::gap' := List.exists_cons_of_ne_nil (by simp)
  refine ⟨gap',by simpa using (congrArg List.length hgap).symm,fun front todo x => ?_⟩
  have hshape : front ++ x::(gap ++ y::todo) = (front ++ [x]) ++ g::(gap' ++ todo) := by
    have hrest : gap ++ y::todo = g::(gap' ++ todo) := by
      rw [← List.cons_append,← hgap,List.append_assoc]
      rfl
    rw [hrest,List.append_assoc]
    rfl
  rw [hshape]
  simp

/-- A turn looks at the next byte and takes it over or skips it. -/
theorem Compressed.turn (h : Compressed c text rest s) (hmore : s.a+s.offset+1 < text.length)
    (hlim : text.length ≤ lim) (htext : text.length < 2^32) :
    ∃ s', s.turn lim c = .ok s' ∧ Compressed c text rest s' ∧ s'.a+s'.offset = s.a+s.offset+1 := by
  obtain ⟨front,x,gap,todo,hblk,ha,hoff,hdrop,hlen,hout⟩ := h
  obtain ⟨y,todo,rfl⟩ : ∃ y t, todo = y::t := List.exists_cons_of_length_pos (by omega)
  rw [List.length_cons] at hlen
  have hone : text.drop (front.length+gap.length+1) = [y] ++ todo := hdrop
  have hnext : text.drop (front.length+gap.length+1+1) = todo := drop_of_drop hone
  have hblk' : s.blk = front ++ x::(gap ++ y::(todo ++ rest)) := hblk
  have hnew : cuint ((s.offset : ℤ)+1) = s.offset+1 := cuint_succ (by omega)
  rw [DupCursor.turn,isDup_at hblk' ha hoff (by omega) (by omega),ok_bind]
  by_cases hdup : x = c ∧ y = c
  · have hyc := hdup.2
    rw [← hdup.1] at hyc
    refine ⟨{s with offset := s.offset+1},?_,⟨front,x,gap ++ [y],todo,?_,ha,?_,?_,?_,?_⟩,?_⟩
    · rw [if_pos (decide_eq_true hdup),hnew]
    · rw [hblk,List.append_assoc]
      rfl
    · simp [hoff]
    · rw [← hnext,List.length_append,List.length_singleton]
      rfl
    · simp only [List.length_append,List.length_singleton]
      omega
    · rw [← hout,hyc,hdup.1,squeezeFrom_dup]
    · simp only
      omega
  · obtain ⟨gap',hgl,hset⟩ := set_behind_cursor gap y
    have hread : s.blk = (front ++ x::gap) ++ y::(todo ++ rest) := by rw [hblk,List.append_assoc]; rfl
    have hy : peekWithin lim s.blk (s.a+1+s.offset) = .ok y :=
      peekWithin_at hread (by simp; omega) (by omega)
    refine ⟨⟨s.blk.set (s.a+1) y,s.a+1,s.offset⟩,?_,
      ⟨front ++ [x],y,gap',todo,by rw [hblk',ha]; exact hset _ _ _,?_,?_,?_,?_,?_⟩,?_⟩
    · have hin : s.a+1 < s.blk.length := by rw [hread]; simp; omega
      rw [if_neg (by simpa using hdup),hy,ok_bind,if_pos hin]
    · simp [ha]
    · simp [hoff,hgl]
    · rw [← hnext,List.length_append,List.length_singleton,hgl]
      congr 1
      omega
    · simp only [List.length_append,List.length_singleton]
      omega
    · rw [← hout,squeezeFrom_other hdup,List.append_assoc]
      rfl
    · simp only
      omega

/-- The loop ends, at the end of the text or with nothing put out but the first byte. -/
theorem Compressed.loop (fuel len : ℕ) (h : Compressed c text rest s) (hmore : s.a+s.offset < len)
    (hlen : len+1 = text.length) (hlim : text.length ≤ lim) (htext : text.length < 2^32)
    (hfuel : len < s.a+s.offset+fuel+1) :
    ∃ s', DupCursor.loop lim c len fuel s = .ok s' ∧ Compressed c text rest s' ∧
      (s'.a+s'.offset = len ∨ len ≤ s'.offset+1) := by
  induction fuel generalizing s with
  | zero => omega
  | succ fuel ih =>
    obtain ⟨s',hs,hc,hpos⟩ := h.turn (by omega) hlim htext
    have hnew : cuint ((s'.offset : ℤ)+1) = s'.offset+1 := cuint_succ (by omega)
    simp only [DupCursor.loop,hs,ok_bind,hnew]
    split_ifs with hgo
    · exact ih hc hgo.1 (by omega)
    · exact ⟨s',rfl,hc,by omega⟩

/-- What the loop leaves: the squeezed text is as much shorter as the offset says. -/
theorem Compressed.result {len : ℕ} {t : List UInt8} (h : Compressed c (t ++ [0]) rest s) (hc : c ≠ 0)
    (hlen : len = t.length) (hend : s.a+s.offset = len ∨ len ≤ s.offset+1) :
    s.blk.take (len-s.offset) = squeeze c t ∧ s.offset ≤ len ∧
      s.blk.length = t.length+1+rest.length := by
  obtain ⟨front,x,gap,todo,hblk,ha,hoff,hdrop,hcount,hout⟩ := h
  rw [squeeze_nul hc] at hout
  simp only [List.length_append,List.length_singleton] at hcount
  have hl : s.blk.length = t.length+1+rest.length := by rw [hblk]; simp; omega
  refine ⟨?_,by omega,hl⟩
  by_cases hall : todo = []
  · rw [hall,squeezeFrom,List.destutter'_nil] at hout
    obtain ⟨hfront,_⟩ := List.append_inj' hout rfl
    rw [hall,List.length_nil] at hcount
    rw [hblk,← hfront]
    exact List.take_left' (by omega)
  · -- Only the first byte was put out, and only the terminator is left.
    have hone := List.length_pos_iff.mpr hall
    obtain rfl : front = [] := List.length_eq_zero_iff.mp (by omega)
    simp only [List.length_nil] at ha hcount
    have htodo : todo = [0] := by
      rw [← hdrop,List.length_nil,Nat.zero_add,show gap.length+1 = t.length by omega,List.drop_left]
    have hother : ¬ (x = c ∧ 0 = c) := fun h => hc h.2.symm
    rw [htodo,squeezeFrom_other hother,List.nil_append] at hout
    have hfirst : [x] ++ [0] = squeeze c t ++ [0] := hout
    obtain ⟨hx,_⟩ := List.append_inj' hfirst rfl
    rw [hblk,← hx,show len-s.offset = 1 by rw [htodo] at hcount; simp at hcount; omega]
    rfl

end Loop

namespace Buffer
variable {b : Buffer} {c : UInt8}

/-- The call compresses the string whatever lies behind its terminator, without a look at it. -/
theorem removeDupsWithin_spec {lim : ℕ} (hb : b.Wf) (hc : c ≠ 0) (hlim : b.len < lim) :
    ∃ d, b.removeDupsWithin lim c = .ok (.ok,d) ∧ d.Wf ∧ d.content = squeeze c b.content := by
  have hcl := content_length hb
  unfold removeDupsWithin
  split_ifs with hshort
  · refine ⟨b,rfl,hb,?_⟩
    match hs : b.content with
    | [] => rfl
    | [x] => rfl
    | x::y::s => rw [hs] at hcl; simp at hcl; omega
  obtain ⟨rest,hblk⟩ := hb.block (hb.buf_ne_nil (by omega))
  obtain ⟨x,t,hxt⟩ := List.exists_cons_of_ne_nil (List.ne_nil_of_length_pos (by omega : 0 < b.content.length))
  have hbl : b.buf.length = b.len+1+rest.length := by rw [hblk]; simp [hcl]; omega
  have hstart : Compressed c (b.content ++ [0]) rest ⟨b.buf,0,0⟩ := by
    rw [hblk,hxt,show (x::t ++ 0::rest) = x::((t ++ [0]) ++ rest) by simp]
    exact Compressed.start x (t ++ [0]) rest
  have hsz := hb.size_eq
  have hslt := hb.size_lt
  have htl : (b.content ++ [0]).length = b.len+1 := by rw [List.length_append,hcl,List.length_singleton]
  have hread : (b.content ++ [0]).length ≤ lim := by omega
  obtain ⟨s,hs,hcomp,hend⟩ := Compressed.loop (b.len+1) b.len hstart (by simp only; omega) htl.symm hread
    (by omega) (by simp only; omega)
  obtain ⟨htake,hoff,hl⟩ := hcomp.result hc hcl.symm hend
  have hnew : cuint ((b.len : ℤ)-s.offset) = b.len-s.offset := cuint_sub hoff hb.len_lt
  obtain ⟨d,hd,hwf,_,_,hcont⟩ := setLen_spec {b with buf := s.blk} (b.len-s.offset)
    (by simp only; omega) hslt (by simp only; omega)
  exact ⟨d,by rw [hs,ok_bind,hnew,hd]; rfl,hwf,by rw [hcont,← htake]⟩

/-- The string and its terminator are part of the block, when there is anything to do. -/
theorem removeDups_of_within (hb : b.Wf) {r : Ret × Buffer}
    (h : b.removeDupsWithin (b.len+1) c = .ok r) : b.removeDups c = .ok r := by
  by_cases hshort : b.len < 2
  · rw [removeDupsWithin,if_pos hshort] at h
    rw [removeDups,removeDupsWithin,if_pos hshort,h]
  · exact removeDupsWithin_mono (hb.len_lt_length (by omega)) h

/-- No access leaves the string and its terminator; the runs of the character are squeezed, and a second
call changes nothing any more. -/
theorem removeDups_squeezes (hb : b.Wf) (hc : c ≠ 0) :
    ∃ d e, b.removeDups c = .ok (.ok,d) ∧ b.removeDupsWithin (b.len+1) c = .ok (.ok,d) ∧ d.Wf ∧
      d.content = squeeze c b.content ∧ d.removeDups c = .ok (.ok,e) ∧ e.content = d.content := by
  obtain ⟨d,hd,hwf,hcont⟩ := removeDupsWithin_spec hb hc (Nat.lt_succ_self b.len)
  obtain ⟨e,he,_,hcont'⟩ := removeDupsWithin_spec hwf hc (Nat.lt_succ_self d.len)
  exact ⟨d,e,removeDups_of_within hb hd,hd,hwf,hcont,removeDups_of_within hwf he,
    by rw [hcont',hcont,squeeze_squeeze]⟩

theorem removeDups_squeezes_spaces : ∃ d e, (holding [32,32,97,32,32,32]).removeDups 32 = .ok (.ok,d) ∧
    (holding [32,32,97,32,32,32]).removeDupsWithin 7 32 = .ok (.ok,d) ∧ d.Wf ∧
    d.content = squeeze 32 (holding [32,32,97,32,32,32]).content ∧
    d.removeDups 32 = .ok (.ok,e) ∧ e.content = d.content :=
  removeDups_squeezes (holding_wf (by decide)) (by decide)

example : squeeze 32 [32,32,97,32,32,32] = [32,97,32] := by decide

end Buffer

end Http2d
