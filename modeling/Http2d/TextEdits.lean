import Http2d.BufferRefinement
import Http2d.BufferEscape
import Http2d.StringReplace
import Http2d.Library.WhileLoop
import Mathlib.Data.List.DropRight

/-! The operations that edit the string of a buffer in place.
They need no memory; each does to the string what a function of lists does. -/
namespace Http2d

open Bytes Occurrences WhileLoop

/-- The white space of `http2d_buffer_trim`. -/
def isWhite (c : UInt8) : Bool := c = 32 || c = 9 || c = 13 || c = 10

namespace Buffer

/-- The loops of `http2d_buffer_trim` count white bytes; the `i`th of them stands at `pos i`. -/
def countWhite (b : Buffer) (pos : ℕ → ℕ) : ℕ → ℕ → Exec ℕ
  | 0, i => .ok i
  | left+1, i => do
    let c ← peekByte b.buf (pos i)
    if isWhite c then countWhite b pos left (i+1) else .ok i

/-- `http2d_buffer_trim`. -/
def trim (b : Buffer) : Exec (Ret × Buffer) :=
  if b.len = 0 then .ok (.ok,b)
  else do
    let s ← b.countWhite id b.len 0
    let e ← b.countWhite (fun e => b.len-(e+1)) (b.len-s) 0
    let len := b.len-(s+e)
    let txt ← peek b.buf s len
    let b ← b.write 0 txt
    let b ← b.setLen len
    .ok (.ok,b)

/-- The loop of `http2d_buffer_swap_chars` and `http2d_buffer_to_lowcase`: `f` says what is written
over a byte, if anything is. -/
def editLoop (f : UInt8 → Option UInt8) : ℕ → ℕ → Buffer → Exec Buffer
  | 0, _, b => .ok b
  | left+1, i, b => do
    let c ← peekByte b.buf i
    match f c with
    | some d => do
      let b ← b.write i [d]
      editLoop f left (i+1) b
    | none => editLoop f left (i+1) b

/-- `http2d_buffer_swap_chars`. -/
def swapChars (buffer : Buffer) (a b : UInt8) : Exec (Ret × Buffer) :=
  if buffer.buf = [] then .ok (.ok,buffer)
  else do
    let buffer ← editLoop (fun c => if c = a then some b else none) buffer.len 0 buffer
    .ok (.ok,buffer)

/-- `http2d_buffer_to_lowcase`. -/
def toLowcase (b : Buffer) : Exec (Ret × Buffer) := do
  let b ← editLoop (fun c => if 65 ≤ c ∧ c ≤ 90 then some (c+32) else none) b.len 0 b
  .ok (.ok,b)

/-- `http2d_buffer_is_ending`. -/
def isEnding (b : Buffer) (c : UInt8) : Exec Bool :=
  if b.isEmpty then .ok false else (peekByte b.buf (b.len-1 : ℕ)).map (· == c)

/-- The loop of `http2d_fix_dirpath`. -/
def fixDirpathTurn (b : Buffer) : Turn Buffer (Exec (Ret × Buffer)) :=
  if 1 < b.len then
    match b.isEnding 47 with
    | .error e => .stop (.error e)
    | .ok false => .stop (.ok (.ok,b))
    | .ok true =>
      match b.dropEnding 1 with
      | .error e => .stop (.error e)
      | .ok (_,b) => .again b
  else .stop (.ok (.ok,b))

/-- `memmove` and the new length in `http2d_buffer_remove_string`. -/
def cutOut (b : Buffer) (offset : ℕ) (stringLen : ℤ) : Exec Buffer := do
  let stop ← intValue (cint offset+stringLen)
  let tail ← peek b.buf (offset+stringLen) (cuint (b.len-stop+1))
  let b ← b.write offset tail
  .ok {b with len := cuint (b.len-stringLen)}

/-- The loop of `http2d_buffer_remove_string`. -/
def removeStringTurn (string : List UInt8) (stringLen : ℤ) (b : Buffer) :
    Turn Buffer (Exec (Ret × Buffer)) :=
  match strstr string b.buf 0 with
  | .error e => .stop (.error e)
  | .ok none => .stop (.ok (.ok,b))
  | .ok (some offset) =>
    match b.cutOut offset stringLen with
    | .error e => .stop (.error e)
    | .ok b => .again b

/-- `http2d_buffer_remove_string` ends with `x`. -/
def RemovesString (b : Buffer) (string : List UInt8) (stringLen : ℤ) (x : Exec (Ret × Buffer)) : Prop :=
  if b.len = 0 then x = .ok (.ok,b) else ∃ fuel, run (removeStringTurn string stringLen) fuel b = some x

/-- `http2d_fix_dirpath` ends with `x`. -/
def FixesDirpath (b : Buffer) (x : Exec (Ret × Buffer)) : Prop :=
  ∃ fuel, run fixDirpathTurn fuel b = some x

/-- The call succeeds, and its buffer has the string `bs` in a block of the same size. -/
def Edited (b : Buffer) (x : Exec (Ret × Buffer)) (bs : List UInt8) : Prop :=
  ∃ b', x = .ok (.ok,b') ∧ b'.Wf ∧ b'.content = bs ∧ b'.size = b.size

end Buffer

section Lists
variable {α : Type} (p : α → Bool) (l : List α)

theorem drop_takeWhile : l.drop (l.takeWhile p).length = l.dropWhile p := by
  calc l.drop (l.takeWhile p).length
      = (l.takeWhile p ++ l.dropWhile p).drop (l.takeWhile p).length := by
        rw [List.takeWhile_append_dropWhile]
    _ = l.dropWhile p := List.drop_left

theorem take_rdropWhile : l.take (l.length-(l.reverse.takeWhile p).length) = l.rdropWhile p := by
  rw [List.rdropWhile,← drop_takeWhile,List.reverse_drop,List.reverse_reverse,List.length_reverse]

end Lists

namespace Buffer

variable {b : Buffer}

theorem peekByte_content (hb : b.Wf) {k : ℕ} (hk : k < b.content.length) :
    peekByte b.buf k = .ok b.content[k] := by
  have hlt : k < b.buf.length := (content_length hb ▸ hk).trans_le hb.len_le
  rw [peekByte_ok _ _ hlt]
  simp [content,hlt]

theorem countWhite_eq (pos : ℕ → ℕ) (xs : List UInt8) (i : ℕ)
    (h : ∀ k (hk : k < xs.length), peekByte b.buf (pos (i+k)) = .ok xs[k]) :
    b.countWhite pos xs.length i = .ok (i+(xs.takeWhile isWhite).length) := by
  induction xs generalizing i with
  | nil => rfl
  | cons x xs ih =>
    have hrest := ih (i+1) fun k hk => by
      have hk' := h (k+1) (by simpa using hk)
      rwa [← Nat.add_assoc,Nat.add_right_comm] at hk'
    have hfirst := h 0 (by simp)
    rw [Nat.add_zero] at hfirst
    rw [List.length_cons,countWhite,hfirst,ok_bind,List.takeWhile_cons]
    cases hx : isWhite x with
    | true =>
      simp only [List.getElem_cons_zero,hx,if_true,hrest,List.length_cons]
      congr 1
      omega
    | false => simp [hx]

/-- The white space at both ends goes. -/
theorem trim_spec (hb : b.Wf) :
    Edited b b.trim ((b.content.dropWhile isWhite).rdropWhile isWhite) := by
  have hlen := content_length hb
  rw [trim]
  split_ifs with h0
  · exact ⟨b,rfl,hb,by rw [content_nil h0]; rfl,rfl⟩
  have hlt := hb.len_lt_length (Nat.pos_of_ne_zero h0)
  obtain ⟨s,hs⟩ : ∃ s, s = (b.content.takeWhile isWhite).length := ⟨_,rfl⟩
  obtain ⟨rest,hrest⟩ : ∃ rest, rest = b.content.drop s := ⟨_,rfl⟩
  have hsle : s ≤ b.len := by
    rw [hs,← hlen]
    exact (List.takeWhile_sublist _).length_le
  have hrl : rest.length = b.len-s := by rw [hrest,List.length_drop,hlen]
  have hfirst : b.countWhite id b.len 0 = .ok s := by
    have h := countWhite_eq id b.content 0 fun k hk => by
      rw [Nat.zero_add]
      exact peekByte_content hb hk
    rwa [hlen,Nat.zero_add,← hs] at h
  obtain ⟨e,he⟩ : ∃ e, e = (rest.reverse.takeWhile isWhite).length := ⟨_,rfl⟩
  have hele : e ≤ b.len-s := by
    rw [he,← hrl]
    exact (List.takeWhile_sublist _).length_le.trans_eq (List.length_reverse ..)
  have hlast : b.countWhite (fun e => b.len-(e+1)) (b.len-s) 0 = .ok e := by
    have h := countWhite_eq (b:=b) (fun e => b.len-(e+1)) rest.reverse 0 fun k hk => by
      rw [List.length_reverse,hrl] at hk
      have hat : b.len-(0+k+1) < b.content.length := by omega
      rw [peekByte_content hb hat,List.getElem_reverse]
      simp only [hrest,List.getElem_drop,List.length_drop,hlen]
      congr 2
      omega
    rwa [List.length_reverse,hrl,Nat.zero_add,← he] at h
  have hcut : slice b.buf s (b.len-(s+e)) = (b.content.dropWhile isWhite).rdropWhile isWhite := by
    rw [← take_rdropWhile,← drop_takeWhile,← hs,← hrest,← he,hrl,slice,hrest,content,List.drop_take,
      List.take_take]
    congr 1
    omega
  have hpeek : peek b.buf s (b.len-(s+e)) = .ok (slice b.buf s (b.len-(s+e))) :=
    peek_ok _ _ _ (by omega)
  have hsl : (slice b.buf s (b.len-(s+e))).length = b.len-(s+e) := slice_length (by omega)
  have hw : b.write 0 (slice b.buf s (b.len-(s+e))) =
      .ok {b with buf := overwrite b.buf 0 (slice b.buf s (b.len-(s+e)))} := write_ok (by omega)
  have hol : (overwrite b.buf 0 (slice b.buf s (b.len-(s+e)))).length = b.buf.length :=
    overwrite_length (by omega)
  obtain ⟨b',hset,hwf,_,hsize,hcont⟩ := setLen_spec
    {b with buf := overwrite b.buf 0 (slice b.buf s (b.len-(s+e)))} (b.len-(s+e))
    (hb.size_eq.trans hol.symm) hb.size_lt (by simp only [hol]; omega)
  refine ⟨b',by simp only [hfirst,ok_bind,hlast,hpeek,hw,hset],hwf,?_,hsize⟩
  rw [hcont,← hcut,overwrite,List.take_zero,List.nil_append]
  exact List.take_left' hsl

theorem editLoop_eq (f : UInt8 → Option UInt8) (xs ys zs : List UInt8) (h : b.buf = xs ++ ys ++ zs) :
    editLoop f ys.length xs.length b =
      .ok {b with buf := xs ++ ys.map (fun c => (f c).getD c) ++ zs} := by
  induction ys generalizing xs b with
  | nil =>
    rw [List.append_nil] at h
    simp [editLoop,← h]
  | cons y ys ih =>
    have hdrop : b.buf.drop xs.length = y::(ys ++ zs) := by
      rw [h,List.append_assoc,List.drop_left]
      rfl
    obtain ⟨hpeek,hnext,hlt⟩ := peekByte_drop hdrop
    have hset (d : UInt8) : overwrite b.buf xs.length [d] = (xs ++ [d]) ++ ys ++ zs := by
      rw [overwrite,List.length_singleton,hnext,h,List.append_assoc,List.append_assoc,List.take_left]
      simp
    rw [List.length_cons,editLoop,hpeek,ok_bind]
    cases hf : f y with
    | none =>
      have hrest := ih (xs ++ [y]) (by rw [h]; simp)
      rw [List.length_append,List.length_singleton] at hrest
      simp only [hrest,List.map_cons,hf,Option.getD_none]
      simp
    | some d =>
      have hrest := ih (b:={b with buf := overwrite b.buf xs.length [d]}) (xs ++ [d]) (hset d)
      rw [List.length_append,List.length_singleton] at hrest
      have hw : b.write xs.length [d] = .ok {b with buf := overwrite b.buf xs.length [d]} :=
        write_ok (by simpa using hlt)
      simp only [hw,ok_bind,hrest,List.map_cons,hf,Option.getD_some]
      simp

/-- A string of the same length in place of the string. -/
theorem replaced_wf (hb : b.Wf) {txt : List UInt8} (hlen : txt.length = b.len) :
    ({b with buf := txt ++ b.buf.drop b.len} : Buffer).Wf := by
  have hle := hb.len_le
  refine ⟨by simp [hb.size_eq,hlen]; omega,hb.size_lt,?_⟩
  rcases hb.shape with ⟨hnil,h0⟩ | ⟨hlt,hnul⟩
  · exact Or.inl ⟨by simp [hnil,List.length_eq_zero_iff.mp (hlen.trans h0)],h0⟩
  · refine Or.inr ⟨by simp [hlen]; omega,?_⟩
    simp only
    rw [List.getElem?_append_right hlen.le,hlen,Nat.sub_self,List.getElem?_drop,Nat.add_zero]
    exact hnul

theorem editLoop_spec (hb : b.Wf) (f : UInt8 → Option UInt8) : ∃ b', editLoop f b.len 0 b = .ok b' ∧
    b'.Wf ∧ b'.content = b.content.map (fun c => (f c).getD c) ∧ b'.size = b.size := by
  have hlen := content_length hb
  have hrun := editLoop_eq f [] b.content (b.buf.drop b.len) (List.take_append_drop ..).symm
  have hmap : (b.content.map fun c => (f c).getD c).length = b.len := by rw [List.length_map,hlen]
  rw [hlen] at hrun
  exact ⟨_,hrun,replaced_wf hb hmap,List.take_left' hmap,rfl⟩

theorem swapChars_spec (hb : b.Wf) (a c : UInt8) :
    Edited b (b.swapChars a c) (b.content.map fun x => if x = a then c else x) := by
  rw [swapChars]
  split_ifs with hnil
  · exact ⟨b,rfl,hb,by rw [content_nil (hb.len_of_nil hnil)]; rfl,rfl⟩
  · obtain ⟨b',hrun,hwf,hcont,hsize⟩ := editLoop_spec hb fun x => if x = a then some c else none
    refine ⟨b',by rw [hrun]; rfl,hwf,hcont.trans (List.map_congr_left fun x _ => ?_),hsize⟩
    split_ifs <;> rfl

theorem toLowcase_spec (hb : b.Wf) : Edited b b.toLowcase (b.content.map tolower) := by
  obtain ⟨b',hrun,hwf,hcont,hsize⟩ :=
    editLoop_spec hb fun c => if 65 ≤ c ∧ c ≤ 90 then some (c+32) else none
  refine ⟨b',by rw [toLowcase,hrun]; rfl,hwf,hcont.trans (List.map_congr_left fun c _ => ?_),hsize⟩
  rw [tolower]
  split_ifs <;> rfl

theorem isEnding_spec (hb : b.Wf) {xs : List UInt8} {x : UInt8} (h : b.content = xs ++ [x]) (c : UInt8) :
    b.isEnding c = .ok (x == c) := by
  have hlen := content_length hb
  rw [h,List.length_append,List.length_singleton] at hlen
  have hlast : peekByte b.buf (b.len-1 : ℕ) = .ok x := by
    rw [peekByte_content hb (by rw [h]; simp; omega)]
    simp [h,← hlen]
  rw [isEnding,isEmpty,if_neg (by simp; omega),hlast]
  rfl

/-- The slashes at the end go, but not the first character. -/
def fixSlashes : List UInt8 → List UInt8
  | [] => []
  | c::cs => c::cs.rdropWhile (· = 47)

theorem dropEnding_edited (hb : b.Wf) {xs : List UInt8} {x : UInt8} (h : b.content = xs ++ [x]) :
    ∃ b', b.dropEnding 1 = .ok (.ok,b') ∧ b'.Wf ∧ b'.content = xs ∧ b'.size = b.size := by
  have hlen := content_length hb
  rw [h,List.length_append,List.length_singleton] at hlen
  have hlt := hb.len_lt_length (by omega)
  obtain ⟨b',hset,hwf,_,hsize,hcont⟩ := setLen_spec b (b.len-min 1 b.len) hb.size_eq hb.size_lt (by omega)
  refine ⟨b',?_,hwf,?_,hsize⟩
  · rw [dropEnding,if_neg (List.ne_nil_of_length_pos (by omega)),hset]
    rfl
  · have htake : b.buf.take (b.len-min 1 b.len) = b.content.take (b.len-min 1 b.len) := by
      rw [content,List.take_take]
      congr 1
      omega
    rw [hcont,htake,h]
    exact List.take_left' (by omega)

theorem fixDirpathTurn_short (h : ¬ 1 < b.len) : b.fixDirpathTurn = .stop (.ok (.ok,b)) := if_neg h

theorem fixDirpath_run {c : UInt8} (cs : List UInt8) (hb : b.Wf) (hc : b.content = c::cs) :
    ∃ x, run fixDirpathTurn (cs.length+1) b = some x ∧ Edited b x (c::cs.rdropWhile (· = 47)) := by
  -- from the end of the path on; one turn for each slash
  induction cs using List.reverseRecOn generalizing b with
  | nil =>
    have h1 : b.len = 1 := by rw [← content_length hb,hc]; rfl
    exact ⟨_,run_stop (fixDirpathTurn_short (by omega)) 0,b,rfl,hb,hc,rfl⟩
  | append_singleton cs x ih =>
    have hpath : b.content = (c::cs) ++ [x] := hc
    have hlong : 1 < b.len := by rw [← content_length hb,hc]; simp
    have hend := isEnding_spec hb hpath 47
    by_cases hx : x = 47
    · obtain ⟨b',hdrop,hwf,hcont,hsize⟩ := dropEnding_edited hb hpath
      obtain ⟨y,hrun,b'',hy,hwf',hcont',hsize'⟩ := ih hwf hcont
      have hturn : b.fixDirpathTurn = .again b' := by
        rw [fixDirpathTurn,if_pos hlong,hend,hx]
        simp [hdrop]
      refine ⟨y,?_,b'',hy,hwf',?_,hsize'.trans hsize⟩
      · rw [run_again hturn,List.length_append,List.length_singleton,hrun]
      · rw [hcont',List.rdropWhile_concat_pos _ _ _ (by simpa using hx)]
    · have hturn : b.fixDirpathTurn = .stop (.ok (.ok,b)) := by
        rw [fixDirpathTurn,if_pos hlong,hend,beq_eq_false_iff_ne.mpr hx]
      refine ⟨_,run_stop hturn _,b,rfl,hb,?_,rfl⟩
      rw [hc,List.rdropWhile_concat_neg _ _ _ (by simpa using hx)]

theorem fixDirpath_fuel (hb : b.Wf) :
    ∃ x, run fixDirpathTurn (b.len+1) b = some x ∧ Edited b x (fixSlashes b.content) := by
  cases hc : b.content with
  | nil =>
    have h0 : b.len = 0 := by rw [← content_length hb,hc]; rfl
    exact ⟨_,run_stop (fixDirpathTurn_short (by omega)) _,b,rfl,hb,hc,rfl⟩
  | cons c cs =>
    obtain ⟨x,hrun,hedit⟩ := fixDirpath_run cs hb hc
    have hlen := content_length hb
    rw [hc,List.length_cons] at hlen
    exact ⟨x,run_mono (by omega) hrun,hedit⟩

/-- `http2d_fix_dirpath` ends, and of the slashes at the end only one that begins the path is left. -/
theorem fixesDirpath_edited (hb : b.Wf) : ∃ x, b.FixesDirpath x ∧ Edited b x (fixSlashes b.content) := by
  obtain ⟨x,hrun,hedit⟩ := fixDirpath_fuel hb
  exact ⟨x,⟨b.len+1,hrun⟩,hedit⟩

theorem cutOut_spec (hb : b.Wf) (hlt : b.len < 2^31) {x y z : List UInt8} (hcont : b.content = x ++ y ++ z)
    (hy : y ≠ []) : ∃ b', b.cutOut x.length y.length = .ok b' ∧ b'.Wf ∧ b'.content = x ++ z ∧
      b'.size = b.size := by
  have hlen : b.len = (x ++ y ++ z).length := by rw [← hcont,content_length hb]
  have hpos := List.length_pos_iff.mpr hy
  simp only [List.length_append] at hlen
  obtain ⟨rest,hblk⟩ := hb.block (hb.buf_ne_nil (by omega))
  rw [hcont] at hblk
  have hbl := congrArg List.length hblk
  simp only [List.length_append,List.length_cons] at hbl
  have hfront : b.buf.take x.length = x := by
    rw [hblk,List.append_assoc,List.append_assoc,List.take_left]
  have hdrop : b.buf.drop (x.length+y.length) = (z ++ [0]) ++ rest := by
    rw [hblk,← List.length_append,List.append_assoc,List.drop_left,List.append_assoc]
    rfl
  have hstop : intValue (cint x.length+y.length) = .ok ((x.length+y.length : ℕ) : ℤ) := by
    rw [cint_of_lt (by omega),intValue_ok (by omega) (by omega)]
    rfl
  have hcount : cuint ((b.len : ℤ)-(x.length+y.length : ℕ)+1) = (z ++ [0]).length := by
    simp only [cuint,List.length_append,List.length_singleton]
    omega
  have hpeek := peek_drop (by omega) hdrop
  have hw : b.write x.length (z ++ [0]) = .ok {b with buf := overwrite b.buf x.length (z ++ [0])} :=
    write_ok (by simp only [List.length_append,List.length_singleton]; omega)
  have hnew : cuint ((b.len : ℤ)-y.length) = x.length+z.length := by
    rw [cuint_sub (by omega) (by omega)]
    omega
  obtain ⟨htext,hend⟩ := overwrite_terminated b.buf z x.length (by omega)
  have hol : (overwrite b.buf x.length (z ++ [0])).length = b.buf.length :=
    overwrite_length (by simp only [List.length_append,List.length_singleton]; omega)
  refine ⟨{b with buf := overwrite b.buf x.length (z ++ [0]), len := x.length+z.length},?_,
    ⟨hb.size_eq.trans hol.symm,hb.size_lt,Or.inr ⟨by simp only [hol]; omega,hend⟩⟩,?_,rfl⟩
  · push_cast at hpeek
    rw [cutOut,hstop,ok_bind,hcount,hpeek,ok_bind,hw,ok_bind,hnew]
  · rw [content,htext,hfront]

/-- The block from the string on, when the string goes on behind a NUL or not. -/
theorem string_block (hb : b.Wf) (hne : b.buf ≠ []) {s t : List UInt8} (ht : t = [] ∨ ∃ t', t = 0::t')
    (hcont : b.content = s ++ t) : ∃ rest, b.buf = s ++ 0::rest := by
  obtain ⟨rest,hblk⟩ := hb.block hne
  rw [hcont] at hblk
  rcases ht with rfl | ⟨t',rfl⟩
  · exact ⟨rest,by rw [hblk,List.append_nil]⟩
  · exact ⟨t' ++ 0::rest,by rw [hblk,List.append_assoc]; rfl⟩

variable {string : List UInt8}

theorem removeString_run (hne : string ≠ []) (hnul : 0 ∉ string) {t : List UInt8}
    (ht : t = [] ∨ ∃ t', t = 0::t') (s : List UInt8) (hs : 0 ∉ s) (hb : b.Wf) (hbuf : b.buf ≠ [])
    (hlt : b.len < 2^31) (hcont : b.content = s ++ t) :
    ∃ x, run (removeStringTurn string string.length) (s.length+1) b = some x ∧
      Edited b x (deleteAll string hne s ++ t) := by
  obtain ⟨rest,hblk⟩ := string_block hb hbuf ht hcont
  have hfind : strstr string b.buf 0 = .ok ((splitFirst string s).map fun r => 0+r.1.length) := by
    rw [hblk]
    exact strstr_splitFirst hne hnul hs 0
  induction s using deleteAll.induct string hne generalizing b rest with
  | case1 s h =>
    have hturn : removeStringTurn string string.length b = .stop (.ok (.ok,b)) := by
      rw [removeStringTurn,hfind,h]
      rfl
    exact ⟨_,run_stop hturn _,b,rfl,hb,by rw [hcont,deleteAll_none h],rfl⟩
  | case2 s r h ih =>
    have hcut : s = r.1 ++ string ++ r.2 := splitFirst_some h
    rw [hcut,List.append_assoc] at hcont
    obtain ⟨b',hcall,hwf,hcont',hsize⟩ := cutOut_spec hb hlt hcont hne
    have hturn : removeStringTurn string string.length b = .again b' := by
      rw [removeStringTurn,hfind,h]
      simp only [Option.map_some,Nat.zero_add,hcall]
    have hs' : 0 ∉ r.1 ++ r.2 := fun hm => hs (by
      rw [hcut]
      simp only [List.mem_append] at hm ⊢
      tauto)
    rw [← List.append_assoc] at hcont'
    have hbuf' : b'.buf ≠ [] := List.ne_nil_of_length_pos (by
      have := List.length_pos_iff.mpr hbuf
      rw [← hwf.size_eq,hsize,hb.size_eq]
      exact this)
    have hlt' : b'.len < 2^31 := by
      have hlen := congrArg List.length hcont
      have hlen' := congrArg List.length hcont'
      simp only [content_length hb,content_length hwf,List.length_append] at hlen hlen'
      omega
    obtain ⟨rest',hblk'⟩ := string_block hwf hbuf' ht hcont'
    obtain ⟨x,hrun,b'',hx,hwf'',hcont'',hsize'⟩ := ih hs' hwf hbuf' hlt' hcont' rest' hblk' (by
      rw [hblk']
      exact strstr_splitFirst hne hnul hs' 0)
    have hmore := run_mono (splitFirst_shorter hne h).2 hrun
    exact ⟨x,by rw [run_again hturn,hmore],b'',hx,hwf'',by rw [hcont'',deleteAll_some h],
      hsize'.trans hsize⟩

theorem dropWhile_nul (s : List UInt8) : s.dropWhile (· ≠ 0) = [] ∨ ∃ t, s.dropWhile (· ≠ 0) = 0::t := by
  have hhead := List.head?_dropWhile_not (· ≠ (0 : UInt8)) s
  cases hd : s.dropWhile (· ≠ 0) with
  | nil => exact Or.inl rfl
  | cons c t =>
    rw [hd] at hhead
    exact Or.inr ⟨t,by simpa using hhead⟩

/-- The string without the occurrences; behind a NUL it is not searched. -/
def removed (string : List UInt8) (hne : string ≠ []) (bs : List UInt8) : List UInt8 :=
  deleteAll string hne (cString bs) ++ bs.dropWhile (· ≠ 0)

theorem removed_nil (hne : string ≠ []) : removed string hne [] = [] := by
  rw [removed,cString,List.takeWhile_nil,List.dropWhile_nil,List.append_nil,deleteAll_none rfl]

theorem removeString_fuel (hne : string ≠ []) (hnul : 0 ∉ string) (hb : b.Wf) (hpos : 0 < b.len)
    (hlt : b.len < 2^31) : ∃ x, run (removeStringTurn string string.length) (b.len+1) b = some x ∧
      Edited b x (removed string hne b.content) := by
  obtain ⟨x,hx,hedit⟩ := removeString_run hne hnul (dropWhile_nul b.content) _ (cString_nul _) hb
    (hb.buf_ne_nil hpos) hlt (List.takeWhile_append_dropWhile).symm
  have hle : (cString b.content).length ≤ b.len :=
    (List.takeWhile_sublist _).length_le.trans_eq (content_length hb)
  exact ⟨x,run_mono (Nat.succ_le_succ hle) hx,hedit⟩

theorem removeString_edited (hne : string ≠ []) (hnul : 0 ∉ string) (hb : b.Wf) (hlt : b.len < 2^31) :
    ∃ x, b.RemovesString string string.length x ∧ Edited b x (removed string hne b.content) := by
  rcases Nat.eq_zero_or_pos b.len with h0 | hpos
  · refine ⟨_,by rw [RemovesString,if_pos h0],b,rfl,hb,?_,rfl⟩
    rw [content_nil h0,removed_nil]
  · obtain ⟨x,hx,hedit⟩ := removeString_fuel hne hnul hb hpos hlt
    exact ⟨x,by rw [RemovesString,if_neg hpos.ne']; exact ⟨_,hx⟩,hedit⟩

/-- The empty string is found again and again. -/
theorem not_removesString_empty (hb : b.Wf) (hpos : 0 < b.len) : ¬ ∃ x, b.RemovesString [] 0 x := by
  rintro ⟨x,hx⟩
  rw [RemovesString,if_neg hpos.ne'] at hx
  obtain ⟨fuel,hx⟩ := hx
  have hlong := hb.len_lt_length hpos
  have hsize := hb.size_eq
  have hsl := hb.size_lt
  have hfind : strstr [] b.buf 0 = .ok (some 0) := by
    cases hbuf : b.buf with
    | nil => simp [hbuf] at hlong
    | cons c blk => rw [strstr,if_pos (List.nil_prefix)]
  have hcount : cuint ((b.len : ℤ)-0+1) = b.len+1 := by
    rw [sub_zero,cuint_succ (by omega)]
  have hpeek : peek b.buf (0 : ℕ) (b.len+1) = .ok (slice b.buf 0 (b.len+1)) := peek_ok _ _ _ (by omega)
  have hsame : overwrite b.buf 0 (slice b.buf 0 (b.len+1)) = b.buf := by
    simp only [overwrite,slice,List.drop_zero,List.take_zero,List.nil_append,Nat.zero_add,
      List.length_take,min_eq_left (Nat.succ_le_of_lt hlong),List.take_append_drop]
  have hcut : b.cutOut 0 0 = .ok b := by
    have hstop : intValue (cint 0+0) = .ok 0 := by decide
    have hw : b.write 0 (slice b.buf 0 (b.len+1)) = .ok b := by
      rw [write_ok (by rw [slice_length (by omega)]; omega),hsame]
    have hnew : cuint ((b.len : ℤ)-0) = b.len := by rw [sub_zero,cuint_natCast (by omega)]
    rw [cutOut,hstop,ok_bind,hcount]
    simp only [Nat.cast_zero,add_zero] at hpeek ⊢
    rw [hpeek,ok_bind,hw,ok_bind,hnew]
  have hturn : removeStringTurn [] 0 b = .again b := by
    simp only [removeStringTurn,hfind,hcut]
  exact not_terminates_of_fixed hturn ⟨fuel,x,hx⟩

/-- All occurrences of a string go, and those that come about by it, so that none is left; behind a
NUL the buffer is not searched. The empty string is looked for without an end. -/
theorem removeString_spec (hnul : 0 ∉ string) (hb : b.Wf) (hlt : b.len < 2^31) :
    (∀ hne : string ≠ [], ∃ x, b.RemovesString string string.length x ∧
      Edited b x (deleteAll string hne (cString b.content) ++ b.content.dropWhile (· ≠ 0)) ∧
      ¬ string <:+: deleteAll string hne (cString b.content) ∧
      (deleteAll string hne (cString b.content)).Sublist (cString b.content)) ∧
    (string = [] → 0 < b.len → ¬ ∃ x, b.RemovesString string string.length x) := by
  refine ⟨fun hne => ?_,?_⟩
  · obtain ⟨x,hx,hedit⟩ := removeString_edited hne hnul hb hlt
    exact ⟨x,hx,hedit,deleteAll_clear _,deleteAll_sublist _⟩
  · rintro rfl hpos
    exact not_removesString_empty hb hpos

/-- `ab` is taken out of `aabb`, and again out of what is left. -/
theorem removeString_spec_nested : ∃ x, (holding [97,97,98,98]).RemovesString [97,98] 2 x ∧
    Edited (holding [97,97,98,98]) x [] := by
  have hwf : (holding [97,97,98,98]).Wf := holding_wf (by decide)
  have hnul : (0 : UInt8) ∉ [97,98] := by decide
  obtain ⟨x,hx,hedit,_⟩ := (removeString_spec hnul hwf (by decide)).1 (by decide)
  have hgone : deleteAll [(97 : UInt8),98] (by decide) (cString [97,97,98,98]) = [] := by
    rw [show cString [97,97,98,98] = [97,97,98,98] by decide,deleteAll_some (r:=([97],[98])) (by decide),
      deleteAll_some (r:=([],[])) (by decide),deleteAll_none (by decide)]
    rfl
  rw [content_holding,hgone] at hedit
  exact ⟨x,hx,hedit⟩

/-- `http2d_buffer_insert_buffer` of another buffer. -/
def insertBuffer (mem : Bool) (b src : Buffer) (pos : ℕ) : Exec (Ret × Buffer) := do
  let txt ← peek src.buf 0 src.len
  b.insert mem txt pos

/-- `http2d_buffer_add_uint16be`. -/
def addUint16be (mem : Bool) (b : Buffer) (n : UInt16) : Exec (Ret × Buffer) :=
  b.addText mem (beBytes 2 n.toNat)

/-- `http2d_buffer_add_uint32be`. -/
def addUint32be (mem : Bool) (b : Buffer) (n : UInt32) : Exec (Ret × Buffer) :=
  b.addText mem (beBytes 4 n.toNat)

end Buffer

/-- All calls that change a buffer. -/
inductive TextOp
  | call (op : BufferOp)
  | trim
  | swapChars (a b : UInt8)
  | toLowcase
  | removeString (string : List UInt8)
  | fixDirpath
  | insertBuffer (src : Buffer) (pos : ℕ)
  | addUint16be (n : UInt16)
  | addUint32be (n : UInt32)

namespace TextOp

open Buffer

/-- The call on a buffer; none when a loop makes more turns than there are bytes. -/
def exec (b : Buffer) : TextOp → Option (Exec (Ret × Buffer))
  | .call op => some (op.exec b)
  | .trim => some b.trim
  | .swapChars x y => some (b.swapChars x y)
  | .toLowcase => some b.toLowcase
  | .removeString string =>
    if b.len = 0 then some (.ok (.ok,b))
    else run (removeStringTurn string string.length) (b.len+1) b
  | .fixDirpath => run fixDirpathTurn (b.len+1) b
  | .insertBuffer src pos => some (b.insertBuffer true src pos)
  | .addUint16be n => some (b.addUint16be true n)
  | .addUint32be n => some (b.addUint32be true n)

/-- The same operation on a list of bytes. -/
def onList (bs : List UInt8) : TextOp → List UInt8
  | .call op => op.onList bs
  | .trim => (bs.dropWhile isWhite).rdropWhile isWhite
  | .swapChars x y => bs.map fun c => if c = x then y else c
  | .toLowcase => bs.map tolower
  | .removeString string => if hne : string ≠ [] then removed string hne bs else bs
  | .fixDirpath => fixSlashes bs
  | .insertBuffer src pos => bs.take pos ++ src.content ++ bs.drop pos
  | .addUint16be n => bs ++ beBytes 2 n.toNat
  | .addUint32be n => bs ++ beBytes 4 n.toNat

/-- A call that may be made: within the bounds, and with a string that is one and is not empty. -/
def Allowed (b : Buffer) (bs : List UInt8) : TextOp → Prop
  | .call op => op.Admissible bs ∧ op.Tame b
  | .removeString string => string ≠ [] ∧ 0 ∉ string
  | .insertBuffer src pos => src.Wf ∧ pos ≤ bs.length ∧ bs.length+src.len < 2^31
  | .addUint16be _ => bs.length+2 < 2^31
  | .addUint32be _ => bs.length+4 < 2^31
  | _ => True

end TextOp

namespace Keeps

open Buffer

variable {b : Buffer} {bs : List UInt8}

/-- An edited string is a string in a block of bounded size. -/
theorem edited (h : Keeps b bs) {x : Exec (Ret × Buffer)} {f : List UInt8 → List UInt8}
    (he : Edited b x (f b.content)) : Yields x (f bs) := by
  obtain ⟨b',hx,hwf,hcont,hsize⟩ := he
  exact ⟨b',hx,hwf,by rw [hcont,h.content_eq],hsize.trans_le h.size_le⟩

theorem text (h : Keeps b bs) (hlt : bs.length < 2^31) {op : TextOp} (ha : op.Allowed b bs) :
    ∃ x, op.exec b = some x ∧ Yields x (op.onList bs) := by
  have hlen := h.len_eq
  cases op with
  | call op => exact ⟨_,rfl,h.exec ha.1 ha.2⟩
  | trim => exact ⟨_,rfl,h.edited (f:=fun bs => (bs.dropWhile isWhite).rdropWhile isWhite) (trim_spec h.wf)⟩
  | swapChars x y =>
    exact ⟨_,rfl,h.edited (f:=fun bs => bs.map fun c => if c = x then y else c) (swapChars_spec h.wf x y)⟩
  | toLowcase => exact ⟨_,rfl,h.edited (f:=fun bs => bs.map tolower) (toLowcase_spec h.wf)⟩
  | removeString string =>
    obtain ⟨hne,hnul⟩ := ha
    have hlist : (TextOp.removeString string).onList bs = removed string hne bs := dif_pos hne
    rw [hlist]
    by_cases h0 : b.len = 0
    · have hbs : bs = [] := List.length_eq_zero_iff.mp (hlen ▸ h0)
      refine ⟨_,if_pos h0,b,rfl,?_⟩
      subst hbs
      rwa [removed_nil]
    · obtain ⟨x,hx,hedit⟩ := removeString_fuel hne hnul h.wf (Nat.pos_of_ne_zero h0) (hlen ▸ hlt)
      exact ⟨x,by rw [TextOp.exec,if_neg h0,hx],h.edited hedit⟩
  | fixDirpath =>
    obtain ⟨x,hx,hedit⟩ := fixDirpath_fuel h.wf
    exact ⟨x,hx,h.edited hedit⟩
  | insertBuffer src pos =>
    obtain ⟨hsrc,hpos,hsum⟩ := ha
    have hsl := content_length hsrc
    have hpeek : peek src.buf (0 : ℕ) src.len = .ok src.content := by
      rw [peek_ok _ _ _ (by have := hsrc.len_le; omega)]
      rfl
    have hcall : b.insertBuffer true src pos = b.insert true src.content pos := by
      simp only [Nat.cast_zero] at hpeek
      rw [insertBuffer,hpeek,ok_bind]
    exact ⟨_,rfl,by rw [hcall]; exact h.insert hpos (by rwa [hsl])⟩
  | addUint16be n => exact ⟨_,rfl,h.addText (by rw [beBytes_length]; exact ha)⟩
  | addUint32be n => exact ⟨_,rfl,h.addText (by rw [beBytes_length]; exact ha)⟩

end Keeps

namespace TextOp

theorem removed_length {string : List UInt8} (hne : string ≠ []) (bs : List UInt8) :
    (Buffer.removed string hne bs).length ≤ bs.length := by
  have hparts := congrArg List.length (List.takeWhile_append_dropWhile (p:=(· ≠ 0)) (l:=bs))
  have hdel : (deleteAll string hne (cString bs)).length ≤ (cString bs).length :=
    (deleteAll_sublist _).length_le
  rw [List.length_append] at hparts
  rw [Buffer.removed,List.length_append]
  exact (Nat.add_le_add_right hdel _).trans_eq hparts

/-- Below the limit the strings stay below it. -/
theorem onList_length {b : Buffer} {bs : List UInt8} (hlt : bs.length < 2^31) {op : TextOp}
    (ha : op.Allowed b bs) : (op.onList bs).length < 2^31 := by
  cases op with
  | call op => exact ha.1.2
  | trim =>
    have hle := (List.rdropWhile_prefix isWhite (bs.dropWhile isWhite)).length_le
    exact (hle.trans (List.dropWhile_suffix _).length_le).trans_lt hlt
  | swapChars x y => rwa [onList,List.length_map]
  | toLowcase => rwa [onList,List.length_map]
  | removeString string =>
    rw [onList,dif_pos ha.1]
    exact (removed_length ha.1 bs).trans_lt hlt
  | fixDirpath =>
    cases bs with
    | nil => exact hlt
    | cons c cs =>
      have hle := (List.rdropWhile_prefix (· = 47) cs).length_le
      exact (Nat.succ_le_succ hle).trans_lt hlt
  | insertBuffer src pos =>
    have hsl := Buffer.content_length ha.1
    have hpos := ha.2.1
    have hsum := ha.2.2
    simp only [onList,List.length_append,List.length_take,List.length_drop]
    omega
  | addUint16be n =>
    rw [onList,List.length_append,beBytes_length]
    exact ha
  | addUint32be n =>
    rw [onList,List.length_append,beBytes_length]
    exact ha

end TextOp

namespace Driven

/-- One of the calls on the buffer and on the list. -/
def textStep (s : Driven) (op : TextOp) : Option Driven :=
  match op.exec s.buffer with
  | some (.ok (.ok,b)) => some ⟨b,op.onList s.bytes⟩
  | _ => none

def Allowed (s : Driven) (op : TextOp) : Prop := op.Allowed s.buffer s.bytes

/-- Every run of calls that may be made goes through: each loop ends, no call leaves its memory, and
the buffer holds what the list operations give. -/
theorem texts_agree {ops : List TextOp} (h : Transition.Guarded textStep Allowed init ops) :
    ∃ t, Transition.run textStep init ops = some t ∧ t.Agrees := by
  obtain ⟨t,ht,hkeep,_⟩ := Transition.guarded_run_exists Allowed
    (fun s => Keeps s.buffer s.bytes ∧ s.bytes.length < 2^31) (fun s op hs ha => by
      obtain ⟨x,hx,b,hb,hk⟩ := hs.1.text hs.2 ha
      exact ⟨⟨b,op.onList s.bytes⟩,by simp [textStep,hx,hb],hk,TextOp.onList_length hs.2 ha⟩)
    ⟨Keeps.init,by decide⟩ h
  exact ⟨t,ht,agrees_of_keeps hkeep⟩

/-- A path with white space around it and slashes at its end. -/
def pathEdits : List TextOp := [.call (.add [32,65,98,47,47,10]),.trim,.toLowcase,.fixDirpath]

theorem texts_agree_path : ∃ t, Transition.run textStep init pathEdits = some t ∧ t.Agrees :=
  texts_agree ⟨⟨⟨trivial,by decide⟩,trivial⟩,fun _ _ => ⟨trivial,fun _ _ => ⟨trivial,fun _ _ =>
    ⟨trivial,fun _ _ => trivial⟩⟩⟩⟩

end Driven

end Http2d
