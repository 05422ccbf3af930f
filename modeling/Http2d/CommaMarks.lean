import Http2d.BufferFailure

/-! `http2d_buffer_add_comma_marks`.
The groups are moved one byte back, from the front to the end, and each move makes room for a comma. -/
namespace Http2d

open Bytes

section Groups

/-- Groups of three, counted from the front, with a ',' between them. -/
def groupThree : List UInt8 → List UInt8
  | a::b::c::d::s => a::b::c::44::groupThree (d::s)
  | s => s

/-- The digits with a ',' in front of every group of three, counted from the right, but not at the very
start. -/
def commaMarked (s : List UInt8) : List UInt8 := (groupThree s.reverse).reverse

theorem groupThree_cons {s : List UInt8} (hs : s ≠ []) (a b c : UInt8) :
    groupThree (a::b::c::s) = a::b::c::44::groupThree s := by
  cases s with
  | nil => exact absurd rfl hs
  | cons d s => rfl

/-- One group more at the end of a string. -/
theorem commaMarked_append {s : List UInt8} (hs : s ≠ []) (a b c : UInt8) :
    commaMarked (s ++ [a,b,c]) = commaMarked s ++ [44,a,b,c] := by
  rw [commaMarked,List.reverse_append,List.reverse_cons,List.reverse_cons,List.reverse_singleton]
  simp only [List.cons_append,List.nil_append]
  rw [groupThree_cons (List.reverse_ne_nil_iff.mpr hs),commaMarked]
  simp

theorem commaMarked_short {s : List UInt8} (hs : s.length ≤ 3) : commaMarked s = s := by
  have hgroup : groupThree s.reverse = s.reverse := by
    match h : s.reverse with
    | [] => rfl
    | [_] => rfl
    | [_,_] => rfl
    | [_,_,_] => rfl
    | a::b::c::d::t =>
      have := congrArg List.length h
      simp at this
      omega
  rw [commaMarked,hgroup,List.reverse_reverse]

theorem groupThree_length (s : List UInt8) : (groupThree s).length = s.length+(s.length-1)/3 := by
  induction s using groupThree.induct with
  | case1 a b c d s ih =>
    rw [groupThree]
    simp only [List.length_cons] at ih ⊢
    omega
  | case2 s h =>
    have hshort : s.length ≤ 3 := by
      match s with
      | [] => simp
      | [_] => simp
      | [_,_] => simp
      | [_,_,_] => simp
      | a::b::c::d::t => exact absurd rfl (h a b c d t)
    rw [groupThree.eq_2 s h]
    omega

theorem commaMarked_length (s : List UInt8) : (commaMarked s).length = s.length+(s.length-1)/3 := by
  rw [commaMarked,List.length_reverse,groupThree_length,List.length_reverse]

end Groups

namespace Buffer

/-- The loop of `http2d_buffer_add_comma_marks`, with `p` as an offset; the `len` of `memmove` is an `int`. -/
def commaLoop : ℕ → ℕ → Buffer → Exec Buffer
  | 0, _, b => .ok b
  | i+1, p, b => do
    let tail ← peek b.buf p (sizeT (cint (cuint ((b.len : ℤ)-p))))
    let w ← b.write (p+1) tail
    let w ← w.write p [44]
    commaLoop i (p+4) {w with len := cuint (b.len+1)}

/-- `http2d_buffer_add_comma_marks`; what `http2d_buffer_ensure_size` returns is not looked at. -/
def addCommaMarks (mem : Bool) (b : Buffer) : Exec (Ret × Buffer) :=
  if b.buf = [] ∨ b.len ≤ 3 then .ok (.ok,b)
  else do
    let num := b.len/3
    let off := b.len%3
    let b := (b.ensure mem (cuint (b.len+num+2))).2
    let b ← if off = 0 then commaLoop (num-1) 3 b else commaLoop num off b
    let b ← b.setLen b.len
    .ok (.ok,b)

section Loop
variable {x todo rest : List UInt8} {size : ℕ}

/-- The buffer before a group is moved: the digits in front of the cursor have their marks. -/
def marking (x todo rest : List UInt8) (size : ℕ) : Buffer :=
  ⟨commaMarked x ++ todo ++ rest,size,(commaMarked x).length+todo.length⟩

variable (x todo rest size) in
theorem marking_drop : (marking x todo rest size).buf.drop (commaMarked x).length = todo ++ rest := by
  rw [marking,List.append_assoc,List.drop_left]

variable (x todo rest size) in
theorem marking_length : (marking x todo rest size).buf.length =
    (commaMarked x).length+todo.length+rest.length := by
  simp [marking]
  omega

/-- What is moved is all that is behind the cursor, as long as its length is an `int`. -/
theorem marking_peek (hint : todo.length < 2^31) :
    peek (marking x todo rest size).buf (commaMarked x).length
      (sizeT (cint (cuint (((marking x todo rest size).len : ℤ)-(commaMarked x).length)))) = .ok todo := by
  have hcount : cuint (((marking x todo rest size).len : ℤ)-(commaMarked x).length) = todo.length := by
    simp only [marking,cuint]
    omega
  rw [hcount,cint_of_lt hint,sizeT_natCast (by omega)]
  exact peek_drop (by rw [marking_length]; omega) (marking_drop ..)

theorem marking_peek_fault (hint : 2^31 ≤ todo.length)
    (hlen : (marking x todo rest size).buf.length < 2^32) :
    peek (marking x todo rest size).buf (commaMarked x).length
      (sizeT (cint (cuint (((marking x todo rest size).len : ℤ)-(commaMarked x).length)))) =
      .error .fault := by
  rw [marking_length] at hlen
  have hcount : cuint (((marking x todo rest size).len : ℤ)-(commaMarked x).length) = todo.length := by
    simp only [marking,cuint]
    omega
  have hm : todo.length % 2^32 = todo.length := Nat.mod_eq_of_lt (by omega)
  have hhuge : 2^63 ≤ sizeT (cint todo.length) := by
    rw [cint,hm,if_neg (by omega)]
    simp only [sizeT]
    omega
  rw [hcount,peek,if_neg]
  rw [marking_length]
  omega

/-- A group is moved when its length is an `int` and there is a byte more in the block. -/
theorem commaLoop_succ {a b c y : UInt8} (hx : x ≠ []) (i : ℕ) (hint : (a::b::c::todo).length < 2^31)
    (hlen : (commaMarked x).length+(a::b::c::todo).length+1 < 2^32) :
    commaLoop (i+1) (commaMarked x).length (marking x (a::b::c::todo) (y::rest) size) =
      commaLoop i (commaMarked (x ++ [a,b,c])).length (marking (x ++ [a,b,c]) todo rest size) := by
  have hbl := marking_length x (a::b::c::todo) (y::rest) size
  have hnext := commaMarked_append hx a b c
  obtain ⟨tail,htail⟩ : ∃ t, t = a::b::c::todo := ⟨_,rfl⟩
  obtain ⟨g,hg⟩ : ∃ g, g = marking x tail (y::rest) size := ⟨_,rfl⟩
  rw [← htail] at hint hlen hbl ⊢
  rw [← hg] at hbl ⊢
  rw [List.length_cons] at hbl
  have hgl : g.len = (commaMarked x).length+tail.length := by rw [hg]; rfl
  have hfront : g.buf.take (commaMarked x).length = commaMarked x := by
    rw [hg,marking,List.append_assoc,List.take_left]
  have hback : g.buf.drop ((commaMarked x).length+1+tail.length) = rest := by
    have := marking_drop x (tail ++ [y]) rest size
    have hsame : (marking x (tail ++ [y]) rest size).buf = g.buf := by rw [hg]; simp [marking]
    rw [hsame] at this
    rw [show (commaMarked x).length+1+tail.length = (commaMarked x).length+(tail ++ [y]).length by
      rw [List.length_append,List.length_singleton]; omega]
    exact drop_of_drop this
  have hpeek : peek g.buf (commaMarked x).length
      (sizeT (cint (cuint ((g.len : ℤ)-(commaMarked x).length)))) = .ok tail := hg ▸ marking_peek hint
  have hfirst : g.write ((commaMarked x).length+1) tail =
      .ok {g with buf := overwrite g.buf ((commaMarked x).length+1) tail} := write_ok (by omega)
  have hml : (overwrite g.buf ((commaMarked x).length+1) tail).length = g.buf.length :=
    overwrite_length (by omega)
  have hroom : (commaMarked x).length+[(44 : UInt8)].length ≤
      (overwrite g.buf ((commaMarked x).length+1) tail).length := by
    rw [hml,List.length_singleton]
    omega
  have hsecond := write_ok (b:={g with buf := overwrite g.buf ((commaMarked x).length+1) tail}) hroom
  have hgap := overwrite_gap g.buf [44] tail (commaMarked x).length
    (by rw [List.length_singleton]; omega)
  rw [List.length_singleton] at hgap
  simp only [commaLoop,hpeek,ok_bind,hfirst,hsecond]
  have hnew : cuint ((g.len : ℤ)+1) = (commaMarked (x ++ [a,b,c])).length+todo.length := by
    rw [hnext,hgl,htail,List.length_append]
    rw [htail] at hlen
    simp only [List.length_cons,List.length_nil,cuint] at hlen ⊢
    omega
  have hcursor : (commaMarked x).length+4 = (commaMarked (x ++ [a,b,c])).length := by
    rw [hnext,List.length_append]
    rfl
  have hblk : commaMarked x ++ [44] ++ tail ++ rest = commaMarked (x ++ [a,b,c]) ++ todo ++ rest := by
    rw [hnext,htail]
    simp
  rw [hgap,hfront,hback,hnew,hcursor,hblk,hg]
  rfl

/-- Without a byte more the group does not fit. -/
theorem commaLoop_full (i : ℕ) (hint : todo.length < 2^31) :
    commaLoop (i+1) (commaMarked x).length (marking x todo [] size) = .error .fault := by
  have hbl := marking_length x todo [] size
  rw [List.length_nil] at hbl
  rw [commaLoop,marking_peek hint,ok_bind,write,if_neg (by omega)]
  rfl

/-- All groups are moved when there is a byte for each of them; otherwise the loop leaves the block. -/
theorem commaLoop_spec {i : ℕ} (hx : x ≠ []) (htodo : todo.length = 3*i) (hint : todo.length < 2^31)
    (hlen : (commaMarked x).length+todo.length+rest.length < 2^32) :
    commaLoop i (commaMarked x).length (marking x todo rest size) =
      if i ≤ rest.length then .ok (marking (x ++ todo) [] (rest.drop i) size) else .error .fault := by
  induction i generalizing x todo rest with
  | zero =>
    obtain rfl : todo = [] := List.length_eq_zero_iff.mp htodo
    rw [List.append_nil,List.drop_zero,if_pos (Nat.zero_le _)]
    rfl
  | succ i ih =>
    cases rest with
    | nil => rw [commaLoop_full i hint,if_neg (by simp)]
    | cons y rest =>
      match todo with
      | [] => simp at htodo
      | [_] => simp at htodo; omega
      | [_,_] => simp at htodo; omega
      | a::b::c::todo =>
        have hcm := commaMarked_append hx a b c
        simp only [List.length_cons] at htodo hint hlen
        rw [commaLoop_succ hx i (by simp only [List.length_cons]; omega)
            (by simp only [List.length_cons]; omega),
          ih (by simp) (by omega) (by omega) (by rw [hcm,List.length_append]; simp; omega)]
        simp

end Loop

section Marks
variable {mem : Bool} {b : Buffer}

/-- The block after the request. -/
def commaBlock (mem : Bool) (b : Buffer) : ℕ := ensuredSize mem b (cuint ((b.len : ℤ)+(b.len/3 : ℕ)+2))

/-- The condition on the sizes: what the first move moves is counted by an `int`, and the block has
room for the commas and the terminator. -/
def CommaFits (mem : Bool) (b : Buffer) : Prop :=
  3*((b.len-1)/3) < 2^31 ∧ b.len+(b.len-1)/3 < commaBlock mem b

/-- The string gets its commas, in the storage that was ensured. -/
def Commafies (mem : Bool) (b : Buffer) : Prop :=
  ∃ d, b.addCommaMarks mem = .ok (.ok,d) ∧ d.content = commaMarked b.content

variable (mem) in
/-- The call as one loop over the groups behind the first digits. -/
theorem addCommaMarks_eq (hb : b.Wf) (hlong : 3 < b.len) : ∃ x todo rest size, x ≠ [] ∧
    x ++ todo = b.content ∧ todo.length = 3*((b.len-1)/3) ∧ b.len+rest.length = commaBlock mem b ∧
    b.addCommaMarks mem = (do
      let d ← commaLoop ((b.len-1)/3) (commaMarked x).length (marking x todo rest size)
      let d ← d.setLen d.len
      .ok (.ok,d)) := by
  have hcl := content_length hb
  obtain ⟨hgb,hgl,hgc⟩ := ensure_block mem hb (cuint ((b.len : ℤ)+(b.len/3 : ℕ)+2))
  obtain ⟨g,hg⟩ : ∃ g, g = (b.ensure mem (cuint ((b.len : ℤ)+(b.len/3 : ℕ)+2))).2 := ⟨_,rfl⟩
  rw [← hg] at hgb hgl hgc
  obtain ⟨p,hp⟩ : ∃ p, p = b.len-3*((b.len-1)/3) := ⟨_,rfl⟩
  have hbuf := hb.buf_ne_nil (by omega)
  have hgle : g.len ≤ g.buf.length := by
    have : g.content.length = g.len := by rw [hgc,hgl,hcl]
    rw [content,List.length_take] at this
    omega
  have hxl : (b.content.take p).length = p := by rw [List.length_take]; omega
  have hcm : commaMarked (b.content.take p) = b.content.take p := commaMarked_short (by omega)
  have hmark : g = marking (b.content.take p) (b.content.drop p) (g.buf.drop g.len) g.size := by
    have hsplit : g.buf = b.content.take p ++ b.content.drop p ++ g.buf.drop g.len := by
      rw [List.take_append_drop,← hgc,content,List.take_append_drop]
    have hlen : g.len = (b.content.take p).length+(b.content.drop p).length := by
      rw [← List.length_append,List.take_append_drop,hcl,hgl]
    rw [marking,hcm,← hsplit,← hlen]
  refine ⟨b.content.take p,b.content.drop p,g.buf.drop g.len,g.size,?_,List.take_append_drop _ _,?_,?_,?_⟩
  · exact List.ne_nil_of_length_pos (by omega)
  · rw [List.length_drop]
    omega
  · rw [List.length_drop,commaBlock,← hgb]
    omega
  · rw [← hmark,hcm,hxl,addCommaMarks,if_neg (not_or.mpr ⟨hbuf,by omega⟩)]
    simp only
    rw [← hg]
    by_cases hoff : b.len%3 = 0
    · rw [if_pos hoff,show b.len/3-1 = (b.len-1)/3 by omega,show p = 3 by omega]
    · rw [if_neg hoff,show b.len/3 = (b.len-1)/3 by omega,show p = b.len%3 by omega]

/-- The string gets its commas exactly when the sizes allow it. -/
theorem commafies_iff (hb : b.Wf) : Commafies mem b ↔ b.len ≤ 3 ∨ CommaFits mem b := by
  have hcl := content_length hb
  by_cases hshort : b.len ≤ 3
  · refine iff_of_true ⟨b,by rw [addCommaMarks,if_pos (Or.inr hshort)],?_⟩ (Or.inl hshort)
    exact (commaMarked_short (by omega)).symm
  rw [or_iff_right hshort,CommaFits]
  obtain ⟨x,todo,rest,size,hx,hxt,htodo,hrest,heq⟩ := addCommaMarks_eq mem hb (by omega)
  have hmarked := commaMarked_length b.content
  rw [hcl] at hmarked
  have hblock : commaBlock mem b < 2^32 := ensuredSize_lt hb.size_lt (cuint_lt _)
  have hxl : x.length+todo.length = b.len := by rw [← List.length_append,hxt,hcl]
  have hcm : commaMarked x = x := commaMarked_short (by omega)
  unfold Commafies
  rw [heq]
  by_cases hint : todo.length < 2^31
  · rw [and_iff_right (by omega),commaLoop_spec hx htodo hint (by rw [hcm]; omega),hxt]
    have hml := marking_length b.content [] (rest.drop ((b.len-1)/3)) size
    have hlen : (marking b.content [] (rest.drop ((b.len-1)/3)) size).len = (commaMarked b.content).length :=
      rfl
    rw [List.length_drop,List.length_nil] at hml
    constructor
    · rintro ⟨d,hd,_⟩
      split_ifs at hd with hroom
      · rw [ok_bind] at hd
        obtain ⟨w,hw,_⟩ := bind_ok_inv hd
        have := (setLen_inv hw).1
        omega
      · cases hd
    · intro hroom
      rw [if_pos (by omega),ok_bind,setLen,if_pos (by omega)]
      refine ⟨_,rfl,?_⟩
      rw [content,List.take_set_of_le le_rfl,hlen,marking,List.append_nil,List.take_left]
  · obtain ⟨i,hi⟩ : ∃ i, (b.len-1)/3 = i+1 := ⟨(b.len-1)/3-1,by omega⟩
    have hml := marking_length x todo rest size
    refine iff_of_false ?_ fun h => hint (by omega)
    rintro ⟨d,hd,_⟩
    rw [hi,commaLoop,marking_peek_fault (by omega) (by rw [hml,hcm]; omega)] at hd
    cases hd

theorem commafies_iff_holding : Commafies true (holding [49,50,51,52]) ↔
    (holding [49,50,51,52]).len ≤ 3 ∨ CommaFits true (holding [49,50,51,52]) :=
  commafies_iff (holding_wf (by decide))

/-- Four digits in a block of five bytes, when there is no memory: the terminator is put behind the block. -/
theorem not_commafies_refused : ¬ Commafies false (holding [49,50,51,52]) := by
  rintro ⟨d,hd,_⟩
  have hcall : (holding [49,50,51,52]).addCommaMarks false = .error .fault := by rfl
  rw [hcall] at hd
  cases hd

example : commaMarked [49,50,51,52,53,54,55] = [49,44,50,51,52,44,53,54,55] := by decide

end Marks

end Buffer

end Http2d
