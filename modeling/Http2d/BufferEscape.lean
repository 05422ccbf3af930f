import Mathlib.Data.List.TakeWhile
import Http2d.BufferOps

/-! The escaping functions of `http2d_buffer_t` and the way back.
A pointer into a block is the rest of the block from it. -/
namespace Http2d

open Bytes

/-- A bit of a table of eight words, one bit for a character. -/
def isCharEscaped (table : List ℕ) (c : UInt8) : Bool := (table.getD (c.toNat/32) 0).testBit (c.toNat%32)

/-- The table of `http2d_buffer_escape_uri`. -/
def escapeUriTable : List ℕ :=
  [0xffffffff,0x80000029,0x00000000,0x80000000,0xffffffff,0xffffffff,0xffffffff,0xffffffff]

/-- The table of `http2d_buffer_escape_uri_delims`. -/
def escapeUriDelimsTable : List ℕ :=
  [0xffffffff,0x84000029,0x28000001,0x80000000,0xffffffff,0xffffffff,0xffffffff,0xffffffff]

/-- The table of `http2d_buffer_escape_arg`. -/
def escapeArgTable : List ℕ :=
  [0xffffffff,0x88000869,0x00000000,0x80000000,0xffffffff,0xffffffff,0xffffffff,0xffffffff]

/-- `hex_chars`. -/
def hexChars : List UInt8 := [48,49,50,51,52,53,54,55,56,57,97,98,99,100,101,102]

/-- The bytes that the first byte of a character announces. -/
def announced (c : UInt8) : ℕ :=
  if c &&& 0xE0 = 0xC0 then 1 else if c &&& 0xF0 = 0xE0 then 2 else if c &&& 0xF8 = 0xF0 then 3 else 0

/-- How many of `n` bytes there are in front of a NUL. -/
def skipBytes : ℕ → List UInt8 → Exec ℕ
  | 0, _ => .ok 0
  | _+1, [] => .error .fault
  | n+1, c::s =>
    if c = 0 then .ok 0
    else do
      let k ← skipBytes n s
      .ok (k+1)

/-- `utf8_get_next_char`: how far it goes. -/
def utf8GetNextChar : List UInt8 → Exec ℕ
  | [] => .error .fault
  | c::s => do
    let k ← skipBytes (announced c) s
    .ok (k+1)

/-- What is written for a character. -/
def escapeChar (table : List ℕ) : List UInt8 → List UInt8
  | [c] =>
    if isCharEscaped table c then [37,hexChars.getD (c.toNat/16) 0,hexChars.getD (c.toNat%16) 0] else [c]
  | char => char

/-- Whether a character is counted in `n_escape`. -/
def countsEscape (table : List ℕ) : List UInt8 → Bool
  | [c] => isCharEscaped table c
  | _ => false

/-- A walk over the characters in front of `end`, which is `left` bytes away; it looks at one
character in any case. -/
def charLoop {α : Type} (turn : α → List UInt8 → α) : ℕ → List UInt8 → ℕ → α → Exec α
  | 0, _, _, _ => .error .fault
  | fuel+1, s, left, acc => do
    let k ← utf8GetNextChar s
    if k < left then charLoop turn fuel (s.drop k) (left-k) (turn acc (s.take k))
    else .ok (turn acc (s.take k))

/-- `isxdigit`. -/
def isxdigit (c : UInt8) : Bool := 48 ≤ c && c ≤ 57 || 65 ≤ c && c ≤ 70 || 97 ≤ c && c ≤ 102

/-- `hex2dec_tab` at a digit. -/
def hex2dec (c : UInt8) : ℕ :=
  if 48 ≤ c ∧ c ≤ 57 then c.toNat-48
  else if 65 ≤ c ∧ c ≤ 70 then c.toNat-55
  else if 97 ≤ c ∧ c ≤ 102 then c.toNat-87
  else 0

/-- `strpbrk (src->buf, "<>&\"")` and the characters that are replaced behind the one it finds. -/
def htmlStarts (c : UInt8) : Bool := c == 60 || c == 62 || c == 38 || c == 34

/-- The entity of a character. -/
def htmlEntity (c : UInt8) : List UInt8 :=
  if c = 60 then [38,108,116,59]
  else if c = 62 then [38,103,116,59]
  else if c = 38 then [38,97,109,112,59]
  else if c = 34 then [38,113,117,111,116,59]
  else if c = 35 then [38,35,51,53,59]
  else if c = 39 then [38,35,51,57,59]
  else [c]

/-- What a character adds to `extra`. -/
def htmlExtra (c : UInt8) : ℕ :=
  if c = 60 ∨ c = 62 then 3 else if c = 38 then 4 else if c = 34 then 5
  else if c = 35 ∨ c = 39 then 4 else 0

namespace Buffer

/-- `escape_with_table`; what `http2d_buffer_ensure_addlen` returns is not looked at. -/
def escapeWithTable (mem : Bool) (table : List ℕ) (b src : Buffer) : Exec (Ret × Buffer) :=
  if src.buf = [] then .ok (.error,b)
  else do
    let nEscape ← charLoop (fun n char => if countsEscape table char then cuint (n+1) else n)
      (src.len+1) src.buf src.len 0
    let b := (b.ensureAddlen mem (cuint (src.len+nEscape*3))).2
    let txt ← charLoop (fun txt char => txt ++ escapeChar table char) (src.len+1) src.buf src.len []
    let b ← b.write b.len (txt ++ [0])
    .ok (.ok,{b with len := cuint (b.len+(src.len+nEscape*2))})

/-- `http2d_buffer_escape_uri`. -/
def escapeUri (mem : Bool) (b src : Buffer) : Exec (Ret × Buffer) :=
  escapeWithTable mem escapeUriTable b src

/-- `http2d_buffer_escape_uri_delims`. -/
def escapeUriDelims (mem : Bool) (b src : Buffer) : Exec (Ret × Buffer) :=
  escapeWithTable mem escapeUriDelimsTable b src

/-- `http2d_buffer_escape_arg`. -/
def escapeArg (mem : Bool) (b src : Buffer) : Exec (Ret × Buffer) :=
  escapeWithTable mem escapeArgTable b src

/-- `http2d_buffer_add_escape_html`. -/
def addEscapeHtml (mem : Bool) (b src : Buffer) : Exec (Ret × Buffer) :=
  if src.buf = [] then .ok (.error,b)
  else do
    let last ← peekByte src.buf src.len
    let srcBuf := if last ≠ 0 then src.buf.set src.len 0 else src.buf
    let str := srcBuf.takeWhile (· ≠ 0)
    let front := str.takeWhile (!htmlStarts ·)
    let rest := str.dropWhile (!htmlStarts ·)
    if rest = [] then b.addText mem src.content
    else
      let extra := (rest.map htmlExtra).sum
      if cuint str.length ≠ src.len then .ok (.error,b)
      else granted (b.ensureAddlen mem (sizeT (src.len+extra+1))) fun b => do
        let b' ← b.write b.len (front ++ rest.flatMap htmlEntity)
        b'.setLen (cuint (b'.len+(src.len+extra : ℕ)))

/-- `http2d_buffer_escape_html`. -/
def escapeHtml (mem : Bool) (b src : Buffer) : Exec (Ret × Buffer) := b.clean.addEscapeHtml mem src

/-- The byte that an escape sequence at `src` stands for, if there is one; `c` is the first byte. -/
def escapeAt (blk : List UInt8) (src : ℕ) (c : UInt8) : Exec (Option UInt8) :=
  if c ≠ 37 then .ok none
  else do
    let c1 ← peekByte blk (src+1)
    if !isxdigit c1 then .ok none
    else do
      let c2 ← peekByte blk (src+2)
      .ok (if isxdigit c2 then some (UInt8.ofNat (hex2dec c1*16+hex2dec c2)) else none)

/-- The loop of `http2d_buffer_unescape_uri` on the block, between the reading position `src` and the
writing position `tgt`. The `int` that counts the bytes wraps. -/
def unescapeLoop : ℕ → List UInt8 → ℕ → ℕ → ℤ → Exec (List UInt8 × ℕ × ℤ)
  | 0, _, _, _, _ => .error .fault
  | fuel+1, blk, src, tgt, len => do
    let c ← peekByte blk src
    if c = 0 then .ok (blk,tgt,len)
    else do
      let escape ← escapeAt blk src c
      match escape with
      | none => unescapeLoop fuel (blk.set tgt c) (src+1) (tgt+1) len
      | some v =>
        unescapeLoop fuel (blk.set tgt (if v = 0 then 32 else v)) (src+3) (tgt+1) (cint (cuint (len-2)))

/-- `http2d_buffer_unescape_uri`. -/
def unescapeUri (b : Buffer) : Exec (Ret × Buffer) :=
  if b.buf = [] then .ok (.error,b)
  else do
    let last ← peekByte b.buf b.len
    let b := if last ≠ 0 then {b with buf := b.buf.set b.len 0} else b
    let str := b.buf.takeWhile (· ≠ 0)
    if !str.contains 37 then .ok (.ok,b)
    else do
      let pos := (str.takeWhile (· ≠ 37)).length
      let r ← unescapeLoop (b.buf.length+1) b.buf pos pos (cint b.len)
      .ok (.ok,{b with buf := r.1.set r.2.1 0, len := cuint r.2.2})

end Buffer

section Walk

/-- How many bytes follow the first one of a character, in front of a NUL. -/
def following (c : UInt8) (s : List UInt8) : ℕ := ((s.take (announced c)).takeWhile (· ≠ 0)).length

theorem following_le (c : UInt8) (s : List UInt8) : following c s ≤ s.length := by
  have h := (List.takeWhile_prefix (· ≠ 0) (l:=s.take (announced c))).length_le
  rw [List.length_take] at h
  exact h.trans (min_le_right _ _)

/-- The characters of a string, as `utf8_get_next_char` goes through it. -/
def utf8Chars : List UInt8 → List (List UInt8)
  | [] => []
  | c::s => (c::s.take (following c s))::utf8Chars (s.drop (following c s))
termination_by s => s.length
decreasing_by simp only [List.length_drop,List.length_cons]; omega

@[simp] theorem utf8Chars_nil : utf8Chars [] = [] := by rw [utf8Chars]

theorem utf8Chars_cons (c : UInt8) (s : List UInt8) :
    utf8Chars (c::s) = (c::s.take (following c s))::utf8Chars (s.drop (following c s)) := by
  rw [utf8Chars]

theorem utf8Chars_flatten (s : List UInt8) : (utf8Chars s).flatten = s := by
  induction s using utf8Chars.induct with
  | case1 => rw [utf8Chars_nil,List.flatten_nil]
  | case2 c s ih => rw [utf8Chars_cons,List.flatten_cons,ih,List.cons_append,List.take_append_drop]

theorem skipBytes_eq (n : ℕ) (s rest : List UInt8) :
    skipBytes n (s ++ 0::rest) = .ok ((s.take n).takeWhile (· ≠ 0)).length := by
  induction s generalizing n with
  | nil => cases n <;> simp [skipBytes]
  | cons c s ih =>
    cases n with
    | zero => rfl
    | succ n =>
      rw [List.cons_append,skipBytes,List.take_succ_cons]
      split_ifs with h0
      · simp [h0]
      · simp [ih,h0]

theorem utf8GetNextChar_eq (c : UInt8) (s rest : List UInt8) :
    utf8GetNextChar (c::(s ++ 0::rest)) = .ok (following c s+1) := by
  rw [utf8GetNextChar,skipBytes_eq]
  rfl

section Loop
variable {α : Type} (turn : α → List UInt8 → α)

/-- The walk over a terminated string takes its characters one after another. -/
theorem charLoop_eq {fuel : ℕ} {s : List UInt8} (hs : s ≠ []) (hfuel : s.length ≤ fuel)
    (rest : List UInt8) (acc : α) :
    charLoop turn fuel (s ++ 0::rest) s.length acc = .ok ((utf8Chars s).foldl turn acc) := by
  induction fuel generalizing s acc with
  | zero => exact absurd (List.length_eq_zero_iff.mp (by omega)) hs
  | succ fuel ih =>
    obtain ⟨c,s,rfl⟩ := List.exists_cons_of_ne_nil hs
    have hle := following_le c s
    have htake : (c::(s ++ 0::rest)).take (following c s+1) = c::s.take (following c s) := by
      rw [List.take_succ_cons,List.take_append_of_le_length hle]
    have hdrop : (c::(s ++ 0::rest)).drop (following c s+1) = s.drop (following c s) ++ 0::rest := by
      rw [List.drop_succ_cons,List.drop_append_of_le_length hle]
    have hleft : (c::s).length-(following c s+1) = (s.drop (following c s)).length := by
      rw [List.length_drop,List.length_cons]; omega
    rw [List.cons_append,charLoop,utf8GetNextChar_eq,ok_bind,htake,hdrop,hleft,utf8Chars_cons,
      List.foldl_cons]
    simp only [List.length_cons] at hfuel ⊢
    split_ifs with hlt
    · refine ih (fun h => ?_) (by rw [List.length_drop]; omega) _
      have := congrArg List.length h
      rw [List.length_drop,List.length_nil] at this
      omega
    · rw [List.drop_eq_nil_of_le (by omega),utf8Chars_nil,List.foldl_nil]

end Loop

section Text
variable (table : List ℕ) (s : List UInt8)

/-- The escaped string. -/
def escapeText : List UInt8 := (utf8Chars s).flatMap (escapeChar table)

/-- How many of its characters are escaped. -/
def escapeCount : ℕ := (utf8Chars s).countP (countsEscape table)

theorem escapeChar_length (char : List UInt8) :
    (escapeChar table char).length = char.length+2*(if countsEscape table char then 1 else 0) := by
  unfold escapeChar countsEscape
  split
  · split_ifs <;> simp
  · simp

theorem escapeText_length : (escapeText table s).length = s.length+2*escapeCount table s := by
  have h (chars : List (List UInt8)) : (chars.flatMap (escapeChar table)).length =
      chars.flatten.length+2*chars.countP (countsEscape table) := by
    induction chars with
    | nil => rfl
    | cons char chars ih =>
      rw [List.flatMap_cons,List.length_append,ih,escapeChar_length,List.flatten_cons,
        List.length_append,List.countP_cons]
      omega
  rw [escapeText,h,utf8Chars_flatten]
  rfl

theorem escapeCount_le : escapeCount table s ≤ s.length := by
  induction s using utf8Chars.induct with
  | case1 => simp [escapeCount]
  | case2 c s ih =>
    simp only [escapeCount,List.length_drop] at ih
    simp only [escapeCount,utf8Chars_cons,List.countP_cons,List.length_cons]
    have := following_le c s
    split_ifs <;> omega

theorem copyEscaped (txt : List UInt8) :
    (utf8Chars s).foldl (fun txt char => txt ++ escapeChar table char) txt =
      txt ++ escapeText table s := by
  rw [escapeText]
  induction utf8Chars s generalizing txt with
  | nil => simp
  | cons char chars ih => rw [List.foldl_cons,ih,List.flatMap_cons,List.append_assoc]

/-- A counter in a loop does not overflow while the count fits. -/
theorem foldl_count (p : List UInt8 → Bool) (chars : List (List UInt8)) (n : ℕ)
    (hn : n+chars.countP p < 2^32) :
    chars.foldl (fun n char => if p char then cuint (n+1) else n) n = n+chars.countP p := by
  induction chars generalizing n with
  | nil => rfl
  | cons char chars ih =>
    rw [List.countP_cons] at hn ⊢
    rw [List.foldl_cons]
    split_ifs at hn ⊢ with hc
    · have hnew : cuint ((n : ℤ)+1) = n+1 := cuint_succ (by omega)
      rw [hnew,ih _ (by omega)]
      omega
    · rw [ih _ (by omega)]
      rfl

/-- The counter does not overflow. -/
theorem countEscaped (hs : s.length < 2^32) :
    (utf8Chars s).foldl (fun n char => if countsEscape table char then cuint (n+1) else n) 0 =
      escapeCount table s := by
  have hle := escapeCount_le table s
  rw [foldl_count _ _ 0 (by rw [Nat.zero_add]; exact hle.trans_lt hs),Nat.zero_add]
  rfl

end Text

end Walk

section Html

/-- The string up to its first NUL, as the functions of `string.h` see it. -/
def cString (s : List UInt8) : List UInt8 := s.takeWhile (· ≠ 0)

theorem cString_terminated (s rest : List UInt8) :
    (s ++ 0::rest).takeWhile (· ≠ 0) = cString s := by
  rw [cString]
  induction s with
  | nil => rfl
  | cons c s ih =>
    rw [List.cons_append,List.takeWhile_cons,List.takeWhile_cons,ih]

theorem cString_eq {s : List UInt8} (h : 0 ∉ s) : cString s = s :=
  List.takeWhile_eq_self_iff.mpr fun c hc => by
    have : c ≠ 0 := fun h0 => h (h0 ▸ hc)
    simpa using this

theorem cString_nul (s : List UInt8) : 0 ∉ cString s := fun h => by
  simpa using List.mem_takeWhile_imp h

theorem cString_length {s : List UInt8} (h : (cString s).length = s.length) : 0 ∉ s := by
  have hself : cString s = s := (List.takeWhile_prefix _).eq_of_length h
  exact hself ▸ cString_nul s

/-- The string with its entities: from the first of the characters that start it. -/
def htmlText (s : List UInt8) : List UInt8 :=
  s.takeWhile (!htmlStarts ·) ++ (s.dropWhile (!htmlStarts ·)).flatMap htmlEntity

theorem htmlEntity_length (c : UInt8) : (htmlEntity c).length = htmlExtra c+1 := by
  unfold htmlEntity htmlExtra
  split_ifs <;> simp_all

theorem htmlText_length (s : List UInt8) :
    (htmlText s).length = s.length+((s.dropWhile (!htmlStarts ·)).map htmlExtra).sum := by
  have h (t : List UInt8) : (t.flatMap htmlEntity).length = t.length+(t.map htmlExtra).sum := by
    induction t with
    | nil => rfl
    | cons c t ih =>
      rw [List.flatMap_cons,List.length_append,ih,htmlEntity_length,List.map_cons,List.sum_cons,
        List.length_cons]
      omega
  have hsplit := congrArg List.length (List.takeWhile_append_dropWhile (p:=(!htmlStarts ·)) (l:=s))
  rw [List.length_append] at hsplit
  rw [htmlText,List.length_append,h]
  omega

theorem htmlText_length_le (s : List UInt8) : (htmlText s).length ≤ 6*s.length := by
  have hle (t : List UInt8) : (t.map htmlExtra).sum ≤ 5*t.length := by
    induction t with
    | nil => rfl
    | cons c t ih =>
      have hc : htmlExtra c ≤ 5 := by
        unfold htmlExtra
        split_ifs <;> omega
      rw [List.map_cons,List.sum_cons,List.length_cons]
      omega
  have := hle (s.dropWhile (!htmlStarts ·))
  have := (List.dropWhile_suffix (!htmlStarts ·) (l:=s)).length_le
  rw [htmlText_length]
  omega

theorem dropWhile_starts (s : List UInt8) :
    s.dropWhile (!htmlStarts ·) = [] ↔ s.any htmlStarts = false := by
  rw [List.dropWhile_eq_nil_iff,List.any_eq_false]
  simp

/-- A string is its own text exactly when nothing in it starts an entity. -/
theorem htmlText_eq_iff (s : List UInt8) : htmlText s = s ↔ s.any htmlStarts = false := by
  rw [← dropWhile_starts]
  constructor
  · intro h
    have hsum := htmlText_length s
    rw [h] at hsum
    cases hd : s.dropWhile (!htmlStarts ·) with
    | nil => rfl
    | cons c t =>
      have hc : htmlStarts c = true := by
        have := List.dropWhile_get_zero_not (!htmlStarts ·) s (by rw [hd]; simp)
        simpa [hd] using this
      have hpos : 0 < htmlExtra c := by
        simp only [htmlStarts,Bool.or_eq_true,beq_iff_eq] at hc
        unfold htmlExtra
        rcases hc with ((rfl | rfl) | rfl) | rfl <;> decide
      rw [hd,List.map_cons,List.sum_cons] at hsum
      omega
  · intro h
    have htake := List.takeWhile_append_dropWhile (p:=(!htmlStarts ·)) (l:=s)
    rw [h,List.append_nil] at htake
    rw [htmlText,h,htake,List.flatMap_nil,List.append_nil]

end Html

namespace Buffer

/-- The memory that `escape_with_table` asks for. -/
def escapeWant (table : List ℕ) (b : Buffer) (s : List UInt8) : ℕ :=
  b.len+cuint ((s.length+escapeCount table s*3 : ℕ))+1

/-- `escape_with_table` of a string that is not empty. -/
theorem escapeWithTable_eq {mem : Bool} {table : List ℕ} {b src : Buffer} (hb : b.Wf) (hsrc : src.Wf)
    (hne : src.content ≠ []) :
    b.escapeWithTable mem table src = (do
      let w ← (b.ensure mem (b.escapeWant table src.content)).2.write
        (b.ensure mem (b.escapeWant table src.content)).2.len (escapeText table src.content ++ [0])
      .ok (.ok,{w with len := cuint ((w.len+(escapeText table src.content).length : ℕ))})) := by
  have hbuf : src.buf ≠ [] := fun h => hne (by rw [content,h,List.take_nil])
  obtain ⟨rest,hrest⟩ := hsrc.block hbuf
  have hlen := content_length hsrc
  have hloop {α : Type} (turn : α → List UInt8 → α) (acc : α) :
      charLoop turn (src.len+1) src.buf src.len acc = .ok ((utf8Chars src.content).foldl turn acc) := by
    have := charLoop_eq turn hne (by omega : src.content.length ≤ src.len+1) rest acc
    rwa [← hrest,hlen] at this
  have haddlen : b.ensureAddlen mem (cuint (src.len+escapeCount table src.content*3)) =
      b.ensure mem (b.escapeWant table src.content) := by
    have hbl := hb.len_lt
    have hcast : ((src.content.length+escapeCount table src.content*3 : ℕ) : ℤ) =
        src.len+escapeCount table src.content*3 := by rw [hlen]; push_cast; rfl
    have := cuint_lt (src.len+escapeCount table src.content*3)
    rw [ensureAddlen_eq mem (by omega),escapeWant,hcast]
  have hnew (n : ℕ) : cuint ((n : ℤ)+(src.len+escapeCount table src.content*2)) =
      cuint ((n+(escapeText table src.content).length : ℕ)) := by
    rw [escapeText_length,hlen]
    congr 1
    push_cast
    ring
  simp only [escapeWithTable,if_neg hbuf,hloop,countEscaped table src.content (by rw [hlen]; exact hsrc.len_lt),
    copyEscaped,ok_bind,haddlen,List.nil_append,hnew]

section Html
variable {mem : Bool} {src : Buffer} (b : Buffer) (hsrc : src.Wf) (hbuf : src.buf ≠ [])
include hsrc hbuf

theorem html_block : peekByte src.buf src.len = .ok 0 ∧ src.buf.takeWhile (· ≠ 0) = cString src.content := by
  obtain ⟨rest,hrest⟩ := hsrc.block hbuf
  refine ⟨?_,by rw [hrest,cString_terminated]⟩
  rcases hsrc.shape with ⟨hnil,_⟩ | ⟨hlt,hnul⟩
  · exact absurd hnil hbuf
  · rw [peekByte_ok _ _ hlt,List.getD_eq_getElem?_getD,hnul]
    rfl

/-- Nothing is found that starts an entity. -/
theorem addEscapeHtml_plain (hno : (cString src.content).any htmlStarts = false) :
    b.addEscapeHtml mem src = b.addText mem src.content := by
  obtain ⟨hlast,hstr⟩ := html_block hsrc hbuf
  simp only [addEscapeHtml,if_neg hbuf,hlast,ok_bind,ne_eq,not_true_eq_false,if_false]
  simp only [ne_eq] at hstr
  rw [hstr,if_pos ((dropWhile_starts _).mpr hno)]

/-- A NUL in the string is found while the entities are counted. -/
theorem addEscapeHtml_nul (hsome : (cString src.content).any htmlStarts = true)
    (h0 : 0 ∈ src.content) : b.addEscapeHtml mem src = .ok (.error,b) := by
  obtain ⟨hlast,hstr⟩ := html_block hsrc hbuf
  have hle : (cString src.content).length ≤ src.len := by
    rw [← content_length hsrc]
    exact (List.takeWhile_prefix _).length_le
  have hlt := hsrc.len_lt
  have hne : cuint ((cString src.content).length : ℤ) ≠ src.len := by
    rw [cuint_natCast (by omega),← content_length hsrc]
    exact fun h => cString_length h h0
  have hstart : (cString src.content).dropWhile (!htmlStarts ·) ≠ [] := fun h => by
    rw [dropWhile_starts,hsome] at h
    cases h
  simp only [addEscapeHtml,if_neg hbuf,hlast,ok_bind,ne_eq,not_true_eq_false,if_false]
  simp only [ne_eq] at hstr
  rw [hstr,if_neg hstart,if_pos hne]

/-- The text with its entities is put behind the string. -/
theorem addEscapeHtml_entities (hlen : b.len < 2^32) (hsome : src.content.any htmlStarts = true)
    (h0 : 0 ∉ src.content) : b.addEscapeHtml mem src =
      granted (b.ensure mem (b.len+(htmlText src.content).length+2)) (·.append (htmlText src.content)) := by
  obtain ⟨hlast,hstr⟩ := html_block hsrc hbuf
  have hlt := hsrc.len_lt
  have hcl := content_length hsrc
  have hle := htmlText_length_le src.content
  have hsum := htmlText_length src.content
  have hstart : src.content.dropWhile (!htmlStarts ·) ≠ [] := fun h => by
    rw [dropWhile_starts,hsome] at h
    cases h
  have hwhole : cuint (src.content.length : ℤ) = src.len := by
    rw [hcl]
    exact cuint_natCast hlt
  simp only [addEscapeHtml,if_neg hbuf,hlast,ok_bind,ne_eq,not_true_eq_false,if_false]
  simp only [ne_eq] at hstr
  rw [hstr,cString_eq h0,if_neg hstart,if_neg (not_not.mpr hwhole)]
  have hwant : sizeT ((src.len : ℤ)+((src.content.dropWhile (!htmlStarts ·)).map htmlExtra).sum+1) =
      (htmlText src.content).length+1 := by
    rw [hsum,hcl]
    simp only [sizeT]
    omega
  rw [hwant,ensureAddlen_eq mem (by omega),← hcl,← hsum]
  rfl

end Html

end Buffer

end Http2d
