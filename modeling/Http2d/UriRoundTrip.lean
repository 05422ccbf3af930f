import Http2d.BufferEscape

/-! URI escaping and the way back.
Unescaping in place is the decoder of the string, at every length. What the escaping functions write for
a string of whole characters is read back as that string when the block that they write into has room. -/
namespace Http2d

open Bytes Buffer

section Unescape

/-- The value of two digits at the front. -/
def hexPair : List UInt8 → Option UInt8
  | c1::c2::_ =>
    if isxdigit c1 && isxdigit c2 then some (UInt8.ofNat (hex2dec c1*16+hex2dec c2)) else none
  | _ => none

/-- The unescaped string. -/
def unescapeText : List UInt8 → List UInt8
  | [] => []
  | c::s =>
    match if c = 37 then hexPair s else none with
    | none => c::unescapeText s
    | some v => (if v = 0 then 32 else v)::unescapeText (s.drop 2)
termination_by s => s.length
decreasing_by all_goals simp only [List.length_drop,List.length_cons]; omega

@[simp] theorem unescapeText_nil : unescapeText [] = [] := by rw [unescapeText]

theorem unescapeText_byte {c : UInt8} {s : List UInt8} (h : (if c = 37 then hexPair s else none) = none) :
    unescapeText (c::s) = c::unescapeText s := by rw [unescapeText,h]

theorem unescapeText_pair {c v : UInt8} {s : List UInt8}
    (h : (if c = 37 then hexPair s else none) = some v) :
    unescapeText (c::s) = (if v = 0 then 32 else v)::unescapeText (s.drop 2) := by rw [unescapeText,h]

theorem hexPair_length {s : List UInt8} {v : UInt8} (h : hexPair s = some v) : 2 ≤ s.length := by
  unfold hexPair at h
  split at h
  · simp
  · cases h

theorem unescapeText_length_le (s : List UInt8) : (unescapeText s).length ≤ s.length := by
  induction s using unescapeText.induct with
  | case1 => simp
  | case2 c s h ih =>
    rw [unescapeText_byte h,List.length_cons,List.length_cons]
    omega
  | case3 c s v h ih =>
    rw [List.length_drop] at ih
    rw [unescapeText_pair h,List.length_cons,List.length_cons]
    omega

/-- Bytes that are no percent signs stay. -/
theorem unescapeText_plain {t : List UInt8} (ht : ∀ c ∈ t, c ≠ 37) (s : List UInt8) :
    unescapeText (t ++ s) = t ++ unescapeText s := by
  induction t with
  | nil => rfl
  | cons c t ih =>
    have hc : c ≠ 37 := ht c List.mem_cons_self
    rw [List.cons_append,unescapeText_byte (if_neg hc),ih fun c hc => ht c (List.mem_cons_of_mem _ hc),
      List.cons_append]

/-- What the loop finds at a byte that has the string `s` behind it. -/
theorem escapeAt_eq {blk s rest : List UInt8} {src : ℕ} {c : UInt8}
    (h : blk.drop (src+1) = s ++ 0::rest) :
    escapeAt blk src c = .ok (if c = 37 then hexPair s else none) := by
  unfold escapeAt
  by_cases hc : c = 37
  swap
  · rw [if_pos hc,if_neg hc]
  rw [if_neg (not_not.mpr hc),if_pos hc]
  have hz : isxdigit 0 = false := by decide
  cases s with
  | nil =>
    have h1 := (peekByte_drop h).1
    push_cast at h1
    simp [h1,hz,hexPair]
  | cons c1 s =>
    obtain ⟨h1,hrest,_⟩ := peekByte_drop h
    have hnext : ∃ c2 t, blk.drop (src+1+1) = c2::t ∧
        (isxdigit c1 = true → hexPair (c1::s) =
          if isxdigit c2 then some (UInt8.ofNat (hex2dec c1*16+hex2dec c2)) else none) := by
      cases s with
      | nil => exact ⟨0,rest,hrest,fun _ => by simp [hexPair,hz]⟩
      | cons c2 s => exact ⟨c2,s ++ 0::rest,hrest,fun hx => by simp [hexPair,hx]⟩
    obtain ⟨c2,t,ht,hpair⟩ := hnext
    have h2 := (peekByte_drop ht).1
    push_cast at h1 h2
    rw [add_assoc,one_add_one_eq_two] at h2
    rw [h1,ok_bind]
    cases hx : isxdigit c1 with
    | false =>
      have hnone : hexPair (c1::s) = none := by cases s <;> simp [hexPair,hx]
      rw [hnone]
      rfl
    | true =>
      simp only [Bool.not_true,Bool.false_eq_true,if_false,h2,ok_bind]
      rw [hpair hx]

/-- What the loop leaves when it puts `out` at `tgt` and its count of the bytes ends as `count`. -/
def LoopLeaves (blk : List UInt8) (tgt : ℕ) (out : List UInt8) (count : ℕ)
    (result : Exec (List UInt8 × ℕ × ℤ)) : Prop :=
  ∃ blk' len, result = .ok (blk',tgt+out.length,len) ∧ cuint len = count ∧
    blk'.take (tgt+out.length) = blk.take tgt ++ out ∧ blk'.length = blk.length

/-- A byte in front of what the rest of the loop puts out. -/
theorem LoopLeaves.cons {blk out : List UInt8} {tgt count : ℕ} {v : UInt8}
    {result : Exec (List UInt8 × ℕ × ℤ)} (htgt : tgt < blk.length)
    (h : LoopLeaves (blk.set tgt v) (tgt+1) out count result) : LoopLeaves blk tgt (v::out) count result := by
  obtain ⟨blk',len,heq,hcount,htake,hlen⟩ := h
  have hnew : tgt+(v::out).length = tgt+1+out.length := by
    rw [List.length_cons]
    omega
  refine ⟨blk',len,by rw [hnew,heq],hcount,?_,by rw [hlen,List.length_set]⟩
  rw [hnew,htake,take_set_next htgt,List.append_assoc]
  rfl

/-- One turn of the loop, at a byte of the string. -/
theorem unescapeLoop_turn {blk y rest : List UInt8} {src : ℕ} {c : UInt8} (fuel tgt : ℕ) (len : ℤ)
    (hdrop : blk.drop src = c::(y ++ 0::rest)) (hc : c ≠ 0) : unescapeLoop (fuel+1) blk src tgt len =
      (match if c = 37 then hexPair y else none with
      | none => unescapeLoop fuel (blk.set tgt c) (src+1) (tgt+1) len
      | some v =>
        unescapeLoop fuel (blk.set tgt (if v = 0 then 32 else v)) (src+3) (tgt+1) (cint (cuint (len-2)))) := by
  obtain ⟨hpeek,hnext,_⟩ := peekByte_drop hdrop
  simp only [unescapeLoop,hpeek,ok_bind,if_neg hc]
  rewrite [escapeAt_eq (c:=c) hnext,ok_bind]
  cases (if c = 37 then hexPair y else none) <;> rfl

/-- A count that has wrapped goes on like the one that has not. -/
theorem cuint_wrapped_sub (n k : ℤ) : cuint (cint (cuint n)-k) = cuint (n-k) := by
  have hlt := cuint_lt n
  rw [cint,Nat.mod_eq_of_lt hlt]
  unfold cuint at hlt ⊢
  split_ifs <;> omega

/-- The loop unescapes a terminated string. -/
theorem unescapeLoop_eq {fuel : ℕ} {y blk rest : List UInt8} {src tgt : ℕ} {len : ℤ}
    (hdrop : blk.drop src = y ++ 0::rest) (hnul : 0 ∉ y) (hle : tgt ≤ src) (hfuel : y.length < fuel) :
    LoopLeaves blk tgt (unescapeText y) (cuint (len-(y.length-(unescapeText y).length)))
      (unescapeLoop fuel blk src tgt len) := by
  induction fuel generalizing y blk src tgt len with
  | zero => omega
  | succ fuel ih =>
    cases y with
    | nil =>
      have h0 := (peekByte_drop hdrop).1
      have heq : unescapeLoop (fuel+1) blk src tgt len = .ok (blk,tgt,len) := by
        simp only [unescapeLoop,h0,ok_bind,if_true]
      have hsame : len-(([] : List UInt8).length-(unescapeText []).length) = len := by simp
      rw [hsame,unescapeText_nil,LoopLeaves]
      exact ⟨blk,len,heq,rfl,(List.append_nil _).symm,rfl⟩
    | cons c y =>
      rw [List.cons_append] at hdrop
      obtain ⟨_,hnext,hlt⟩ := peekByte_drop hdrop
      have hset (v : UInt8) (k : ℕ) : (blk.set tgt v).drop (src+1+k) = (y ++ 0::rest).drop k := by
        rw [List.drop_set_of_lt (by omega),← hnext,List.drop_drop]
      have hmem {k : ℕ} : 0 ∉ y.drop k := fun h => hnul (List.mem_cons_of_mem _ (List.mem_of_mem_drop h))
      rw [List.length_cons] at hfuel
      rw [unescapeLoop_turn fuel tgt len hdrop fun h => hnul (h ▸ List.mem_cons_self)]
      cases hp : (if c = 37 then hexPair y else none) with
      | none =>
        have hsame : len-(((c::y).length : ℕ)-((unescapeText (c::y)).length : ℕ)) =
            len-(y.length-(unescapeText y).length) := by
          rw [unescapeText_byte hp,List.length_cons,List.length_cons]; push_cast; ring
        rw [hsame,unescapeText_byte hp]
        exact (ih (hset c 0) (hmem (k:=0)) (by omega) (by omega)).cons (by omega)
      | some v =>
        have h2 : 2 ≤ y.length := by
          split_ifs at hp
          exact hexPair_length hp
        have hyl : (y.drop 2).length+2 = y.length := by rw [List.length_drop]; omega
        have hsame : len-(((c::y).length : ℕ)-((unescapeText (c::y)).length : ℕ)) =
            len-2-((y.drop 2).length-(unescapeText (y.drop 2)).length) := by
          rw [unescapeText_pair hp,List.length_cons,List.length_cons,← hyl]; push_cast; ring
        have hrest : (blk.set tgt (if v = 0 then 32 else v)).drop (src+3) = y.drop 2 ++ 0::rest := by
          rw [← List.drop_append_of_le_length h2]
          exact hset _ 2
        rw [hsame,unescapeText_pair hp,← cuint_wrapped_sub]
        exact (ih hrest hmem (by omega) (by omega)).cons (by omega)

section Unescaping
variable {b : Buffer} {y rest : List UInt8} (hblk : b.buf = y ++ 0::rest) (hlen : b.len = y.length) (hnul : 0 ∉ y)
include hblk hlen hnul

/-- The terminator is there, so the search for a percent sign is one in the string. -/
theorem unescapeUri_search : b.unescapeUri = if !y.contains 37 then .ok (.ok,b) else
    (unescapeLoop (b.buf.length+1) b.buf (y.takeWhile (· ≠ 37)).length (y.takeWhile (· ≠ 37)).length
      (cint b.len) >>= fun r => .ok (.ok,{b with buf := r.1.set r.2.1 0, len := cuint r.2.2})) := by
  have hne : b.buf ≠ [] := by rw [hblk]; simp
  have hlast : peekByte b.buf b.len = .ok 0 :=
    (peekByte_drop (t:=rest) (by rw [hblk,hlen,List.drop_left])).1
  have hstr : b.buf.takeWhile (· ≠ 0) = y := by rw [hblk,cString_terminated,cString_eq hnul]
  simp only [unescapeUri,if_neg hne,hlast,ok_bind,ne_eq,not_true_eq_false,if_false]
  simp only [ne_eq] at hstr
  rw [hstr]

/-- Without a percent sign the buffer stays as it is. -/
theorem unescapeUri_plain (hpct : y.contains 37 = false) : b.unescapeUri = .ok (.ok,b) := by
  rw [unescapeUri_search hblk hlen hnul,hpct]
  rfl

/-- Otherwise the loop begins at the first one. -/
theorem unescapeUri_percent (hpct : y.contains 37 = true) : b.unescapeUri =
    (unescapeLoop (b.buf.length+1) b.buf (y.takeWhile (· ≠ 37)).length (y.takeWhile (· ≠ 37)).length
      (cint b.len) >>= fun r => .ok (.ok,{b with buf := r.1.set r.2.1 0, len := cuint r.2.2})) := by
  rw [unescapeUri_search hblk hlen hnul,hpct]
  rfl

end Unescaping

/-- `http2d_buffer_unescape_uri` of a terminated string. -/
theorem unescapeUri_spec {b : Buffer} {y rest : List UInt8} (hblk : b.buf = y ++ 0::rest)
    (hlen : b.len = y.length) (hlt : y.length < 2^32) (hnul : 0 ∉ y) :
    ∃ d, b.unescapeUri = .ok (.ok,d) ∧ d.content = unescapeText y ∧ d.len = (unescapeText y).length := by
  have hle := unescapeText_length_le y
  by_cases hpct : y.contains 37 = true
  swap
  · have hplain : unescapeText y = y := by
      have h : ∀ c ∈ y, c ≠ 37 := fun c hc h37 => hpct (by rw [← h37]; simpa using hc)
      simpa using unescapeText_plain h []
    exact ⟨b,unescapeUri_plain hblk hlen hnul (Bool.eq_false_of_not_eq_true hpct),
      by rw [hplain,content,hblk,hlen,List.take_left],by rw [hplain,hlen]⟩
  obtain ⟨front,hfront⟩ : ∃ front, front = y.takeWhile (· ≠ 37) := ⟨_,rfl⟩
  obtain ⟨back,hback⟩ : ∃ back, back = y.dropWhile (· ≠ 37) := ⟨_,rfl⟩
  have hsplit : y = front ++ back := by rw [hfront,hback,List.takeWhile_append_dropWhile]
  have hplain : ∀ c ∈ front, c ≠ 37 := fun c hc => by
    rw [hfront] at hc
    simpa using List.mem_takeWhile_imp hc
  have hu : unescapeText y = front ++ unescapeText back := by rw [hsplit,unescapeText_plain hplain]
  have hsum : front.length+back.length = y.length := by rw [hsplit,List.length_append]
  have hul : (unescapeText y).length = front.length+(unescapeText back).length := by
    rw [hu,List.length_append]
  have hnew : cuint (cint b.len-(back.length-(unescapeText back).length)) = (unescapeText y).length := by
    rw [← cuint_natCast (by omega : b.len < 2^32),cuint_wrapped_sub]
    have hint : (b.len : ℤ)-(back.length-(unescapeText back).length) = (unescapeText y).length := by omega
    rw [hint,cuint_natCast (by omega)]
  have hdrop : b.buf.drop front.length = back ++ 0::rest := by
    rw [hblk,hsplit,List.append_assoc,List.drop_left]
  have hleaves : LoopLeaves b.buf front.length (unescapeText back)
      (cuint (cint b.len-(back.length-(unescapeText back).length)))
      (unescapeLoop (b.buf.length+1) b.buf front.length front.length (cint b.len)) :=
    unescapeLoop_eq hdrop (fun h => hnul (hsplit ▸ List.mem_append_right _ h)) le_rfl
      (by rw [hblk,List.length_append]; omega)
  obtain ⟨blk',len,hloop,hcount,htake,_⟩ := hleaves
  rw [hnew] at hcount
  rw [unescapeUri_percent hblk hlen hnul hpct,← hfront,hloop]
  refine ⟨_,rfl,?_,hcount⟩
  simp only [content]
  rw [hcount,List.take_set_of_le (by omega),hul,htake,hu]
  congr 1
  rw [hblk,hsplit,List.append_assoc,List.take_left]

theorem unescapeText_ne_zero {s : List UInt8} (hnul : 0 ∉ s) : 0 ∉ unescapeText s := by
  induction s using unescapeText.induct with
  | case1 => simp
  | case2 c s h ih =>
    rw [List.mem_cons,not_or] at hnul
    rw [unescapeText_byte h,List.mem_cons,not_or]
    exact ⟨hnul.1,ih hnul.2⟩
  | case3 c s v h ih =>
    rw [List.mem_cons,not_or] at hnul
    rw [unescapeText_pair h,List.mem_cons,not_or]
    refine ⟨?_,ih fun h0 => hnul.2 (List.mem_of_mem_drop h0)⟩
    split_ifs with hv
    · decide
    · exact fun h0 => hv h0.symm

/-- The buffer becomes the unescaped string; only a buffer without memory is refused. -/
def Unescapes (b : Buffer) : Prop :=
  ∃ d, b.unescapeUri = .ok (if b.buf = [] then .error else .ok,d) ∧ d.content = unescapeText b.content ∧
    d.len = (unescapeText b.content).length ∧ 0 ∉ d.content

/-- Unescaping in place is the reference decoder. -/
theorem unescapes_content {b : Buffer} (hb : b.Wf) (hnul : 0 ∉ b.content) : Unescapes b := by
  by_cases hbuf : b.buf = []
  · have hnil : b.content = [] := by rw [content,hbuf,List.take_nil]
    have hlen : b.len = 0 := by rw [← content_length hb,hnil,List.length_nil]
    refine ⟨b,by rw [unescapeUri,if_pos hbuf,if_pos hbuf],?_,?_,hnul⟩
    · rw [hnil,unescapeText_nil]
    · rw [hnil,unescapeText_nil,hlen,List.length_nil]
  · obtain ⟨rest,hrest⟩ := hb.block hbuf
    have hlen := content_length hb
    obtain ⟨d,hd,hcont,hdl⟩ := unescapeUri_spec hrest hlen.symm (by rw [hlen]; exact hb.len_lt) hnul
    exact ⟨d,by rw [hd,if_neg hbuf],hcont,hdl,hcont ▸ unescapeText_ne_zero hnul⟩

/-- A whole sequence, a truncated one behind it, and one of a NUL: `%41%4%00`. -/
theorem unescapes_content_truncated : Unescapes (holding [37,52,49,37,52,37,48,48]) :=
  unescapes_content (holding_wf (by decide)) (by decide)

end Unescape

section Characters

/-- A string of whole characters. -/
def IsUtf8 (s : List UInt8) : Prop := ∃ chars : List Char, s = chars.flatMap String.utf8EncodeChar

theorem announced_lead : (∀ n < 128, announced (UInt8.ofNat n) = 0) ∧
    (∀ n < 32, announced (UInt8.ofNat (n+0xc0)) = 1) ∧
    (∀ n < 16, announced (UInt8.ofNat (n+0xe0)) = 2) ∧
    ∀ n < 8, announced (UInt8.ofNat (n+0xf0)) = 3 := by decide

/-- The first byte of a character announces the others, and none of several bytes is an ASCII
character. -/
theorem utf8EncodeChar_shape (c : Char) : ∃ lead tail, String.utf8EncodeChar c = lead::tail ∧
    announced lead = tail.length ∧ (∀ t ∈ tail, 128 ≤ t.toNat) ∧ (tail ≠ [] → 128 ≤ lead.toNat) := by
  obtain ⟨h1,h2,h3,h4⟩ := announced_lead
  have hbyte (n : ℕ) : (UInt8.ofNat n).toNat = n % 256 := UInt8.toNat_ofNat'
  unfold String.utf8EncodeChar
  simp only
  split_ifs with ha hb hc
  · exact ⟨_,[],rfl,h1 _ (by omega),by simp,by simp⟩
  · refine ⟨_,[_],rfl,h2 _ (by omega),?_,fun _ => ?_⟩
    · simp only [List.mem_cons,List.not_mem_nil,or_false,forall_eq,hbyte]
      omega
    · rw [hbyte]; omega
  · refine ⟨_,[_,_],rfl,h3 _ (by omega),?_,fun _ => ?_⟩
    · simp only [List.mem_cons,List.not_mem_nil,or_false,forall_eq_or_imp,forall_eq,hbyte]
      omega
    · rw [hbyte]; omega
  · refine ⟨_,[_,_,_],rfl,h4 _ (by omega),?_,fun _ => ?_⟩
    · simp only [List.mem_cons,List.not_mem_nil,or_false,forall_eq_or_imp,forall_eq,hbyte]
      omega
    · rw [hbyte]; omega

/-- `utf8_get_next_char` goes from character to character. -/
theorem utf8Chars_encoded (chars : List Char) :
    utf8Chars (chars.flatMap String.utf8EncodeChar) = chars.map String.utf8EncodeChar := by
  induction chars with
  | nil => simp
  | cons c chars ih =>
    obtain ⟨lead,tail,henc,hann,htail,_⟩ := utf8EncodeChar_shape c
    have hf : following lead (tail ++ chars.flatMap String.utf8EncodeChar) = tail.length := by
      rw [following,hann,List.take_left,List.takeWhile_eq_self_iff.mpr]
      intro t ht
      have := htail t ht
      have : t ≠ 0 := fun h => by rw [h] at this; exact absurd this (by decide)
      simpa using this
    rw [List.flatMap_cons,List.map_cons,henc,List.cons_append,utf8Chars_cons,hf,List.take_left,
      List.drop_left,ih]

end Characters

section RoundTrip
variable {table : List ℕ}

theorem hexChars_digits : ∀ n < 256, isxdigit (hexChars.getD (n/16) 0) = true ∧
    isxdigit (hexChars.getD (n%16) 0) = true ∧ hexChars.getD (n/16) 0 ≠ 0 ∧ hexChars.getD (n%16) 0 ≠ 0 ∧
    hex2dec (hexChars.getD (n/16) 0)*16+hex2dec (hexChars.getD (n%16) 0) = n := by
  decide +kernel

/-- A byte's two digits are read back as the byte. -/
theorem hexPair_escaped (c : UInt8) (s : List UInt8) :
    hexPair (hexChars.getD (c.toNat/16) 0::hexChars.getD (c.toNat%16) 0::s) = some c := by
  obtain ⟨h1,h2,_,_,hval⟩ := hexChars_digits c.toNat c.toNat_lt
  simp only [hexPair,h1,h2,hval,Bool.and_self,if_true,UInt8.ofNat_toNat]

/-- What is written for a character is read back as the character. -/
theorem unescapeText_escapeChar (hpct : isCharEscaped table 37 = true) {c : Char}
    (hnul : 0 ∉ String.utf8EncodeChar c) (s : List UInt8) :
    unescapeText (escapeChar table (String.utf8EncodeChar c) ++ s) =
      String.utf8EncodeChar c ++ unescapeText s := by
  obtain ⟨lead,tail,henc,_,htail,hlead⟩ := utf8EncodeChar_shape c
  rw [henc] at hnul ⊢
  cases tail with
  | nil =>
    have h0 : lead ≠ 0 := fun h => hnul (h ▸ List.mem_cons_self)
    simp only [escapeChar]
    split_ifs with hesc
    · rw [List.cons_append,List.cons_append,List.cons_append,List.nil_append,
        unescapeText_pair ((if_pos rfl).trans (hexPair_escaped lead s)),if_neg h0]
      rfl
    · refine unescapeText_plain (fun d hd => ?_) s
      rw [List.mem_singleton.mp hd]
      exact fun h => hesc (h ▸ hpct)
  | cons t tail =>
    refine unescapeText_plain (fun d hd => ?_) s
    have hhigh : 128 ≤ d.toNat := by
      rcases List.mem_cons.mp hd with rfl | hmem
      · exact hlead (by simp)
      · exact htail d hmem
    exact fun h => absurd (h ▸ hhigh) (by decide)

theorem unescapeText_escapeText (hpct : isCharEscaped table 37 = true) {x : List UInt8} (hx : IsUtf8 x)
    (hnul : 0 ∉ x) : unescapeText (escapeText table x) = x := by
  obtain ⟨chars,rfl⟩ := hx
  rw [escapeText,utf8Chars_encoded]
  induction chars with
  | nil => simp
  | cons c chars ih =>
    rw [List.flatMap_cons,List.mem_append,not_or] at hnul
    rw [List.map_cons,List.flatMap_cons,List.flatMap_cons,unescapeText_escapeChar hpct hnul.1,ih hnul.2]

theorem escapeText_ne_zero {x : List UInt8} (hnul : 0 ∉ x) : 0 ∉ escapeText table x := by
  intro h
  obtain ⟨char,hchar,h0⟩ := List.mem_flatMap.mp h
  have hmem : ∀ d ∈ char, d ≠ 0 := fun d hd hz => hnul (by
    rw [← utf8Chars_flatten x]
    exact List.mem_flatten.mpr ⟨char,hchar,hz ▸ hd⟩)
  unfold escapeChar at h0
  split at h0
  · rename_i c
    obtain ⟨_,_,hhi,hlo,_⟩ := hexChars_digits c.toNat c.toNat_lt
    have hc := hmem c List.mem_cons_self
    split_ifs at h0
    · simp only [List.mem_cons,List.not_mem_nil,or_false] at h0
      rcases h0 with h0 | h0 | h0
      · exact absurd h0 (by decide)
      · exact hhi h0.symm
      · exact hlo h0.symm
    · exact hc (List.mem_singleton.mp h0).symm
  · exact hmem 0 h0 rfl

end RoundTrip

/-- The functions that escape. -/
inductive Escaper
  | uri | uriDelims | arg

namespace Escaper

def table : Escaper → List ℕ
  | .uri => escapeUriTable
  | .uriDelims => escapeUriDelimsTable
  | .arg => escapeArgTable

/-- The call, when there is memory. -/
def run (f : Escaper) (b src : Buffer) : Exec (Ret × Buffer) :=
  match f with
  | .uri => b.escapeUri true src
  | .uriDelims => b.escapeUriDelims true src
  | .arg => b.escapeArg true src

theorem run_eq (f : Escaper) (b src : Buffer) : f.run b src = b.escapeWithTable true f.table src := by
  cases f <;> rfl

/-- The escaped string is unescaped to the one it came from. -/
def RoundTrips (f : Escaper) (b src : Buffer) : Prop :=
  ∃ e d, f.run b src = .ok (.ok,e) ∧ e.unescapeUri = .ok (.ok,d) ∧ d.content = src.content

/-- The condition on the sizes, for a string with `n` characters that are escaped: the block that is
asked for has room for the `2*n` bytes more. -/
def Fits (f : Escaper) (b src : Buffer) : Prop :=
  let n := escapeCount f.table src.content
  src.len+2*n < max b.size (cuint (src.len+3*n)+1)

section
variable {f : Escaper} {b src : Buffer}

theorem fits_iff (hempty : b.len = 0) (hsrc : src.Wf) : f.Fits b src ↔
    (escapeText f.table src.content).length < ensuredSize true b (b.escapeWant f.table src.content) := by
  have hlen := content_length hsrc
  obtain ⟨n,hn⟩ : ∃ n, n = escapeCount f.table src.content := ⟨_,rfl⟩
  have hwant : b.escapeWant f.table src.content = cuint (src.len+3*n)+1 := by
    rw [escapeWant,hempty,hlen,← hn,Nat.zero_add]
    congr 2
    push_cast
    ring
  have hlt := cuint_lt ((src.len : ℤ)+3*n)
  rw [escapeText_length,hlen,hwant,ensuredSize_granted (by omega),Fits,← hn]

/-- The block that the escaping leaves. -/
theorem run_block (hb : b.Wf) (hempty : b.len = 0) (hsrc : src.Wf) (hne : src.content ≠ [])
    (hfit : (escapeText f.table src.content).length <
      ensuredSize true b (b.escapeWant f.table src.content)) :
    ∃ e rest, f.run b src = .ok (.ok,e) ∧ e.buf = escapeText f.table src.content ++ 0::rest ∧
      e.len = (escapeText f.table src.content).length ∧ e.len < 2^32 := by
  obtain ⟨hgb,hgl,hcont⟩ := ensure_block true hb (b.escapeWant f.table src.content)
  rw [hempty] at hgl
  rw [content_nil hempty] at hcont
  have hmax : ensuredSize true b (b.escapeWant f.table src.content) < 2^32+1 := by
    refine ensuredSize_lt (hb.size_lt.trans (by decide)) ?_
    have := cuint_lt ((src.content.length+escapeCount f.table src.content*3 : ℕ) : ℤ)
    rw [escapeWant,hempty]
    omega
  obtain ⟨hw,hf⟩ := terminated_filled (g:=(b.ensure true (b.escapeWant f.table src.content)).2)
    (escapeText f.table src.content) (by omega)
  rw [hcont,List.nil_append] at hf
  have hlen : (b.ensure true (b.escapeWant f.table src.content)).2.len+
      (escapeText f.table src.content).length < 2^32 := by omega
  obtain ⟨rest,hrest⟩ := block_of_ended hf.ended
  rw [hf.content_eq] at hrest
  refine ⟨_,rest,?_,hrest,hf.len_eq,hlen⟩
  rw [run_eq,escapeWithTable_eq hb hsrc hne,hw,ok_bind]
  simp only
  rw [cuint_natCast hlen]

theorem run_fits (hb : b.Wf) (hempty : b.len = 0) (hsrc : src.Wf) (hne : src.content ≠ [])
    {r : Ret × Buffer} (h : f.run b src = .ok r) : (escapeText f.table src.content).length <
      ensuredSize true b (b.escapeWant f.table src.content) := by
  obtain ⟨hgb,hgl,_⟩ := ensure_block true hb (b.escapeWant f.table src.content)
  rw [run_eq,escapeWithTable_eq hb hsrc hne] at h
  obtain ⟨w,hw,_⟩ := bind_ok_inv h
  have := (write_inv hw).1
  simp only [List.length_append,List.length_singleton] at this
  omega

theorem table_facts (f : Escaper) : isCharEscaped f.table 37 = true := by cases f <;> decide

/-- Escaping and unescaping give the string back when the sizes fit. -/
theorem roundTrips_of_fits (hb : b.Wf) (hempty : b.len = 0) (hsrc : src.Wf) (hutf8 : IsUtf8 src.content)
    (hne : src.content ≠ []) (hnul : 0 ∉ src.content) (h : f.Fits b src) : f.RoundTrips b src := by
  obtain ⟨e,rest,hrun,hblk,hel,hlt⟩ := run_block hb hempty hsrc hne ((fits_iff hempty hsrc).mp h)
  obtain ⟨d,hd,hcont,_⟩ := unescapeUri_spec hblk hel (by omega) (escapeText_ne_zero hnul)
  exact ⟨e,d,hrun,hd,hcont.trans (unescapeText_escapeText f.table_facts hutf8 hnul)⟩

/-- When the sizes do not fit, the string is not given back. -/
theorem fits_of_roundTrips (hb : b.Wf) (hempty : b.len = 0) (hsrc : src.Wf) (hne : src.content ≠ [])
    (h : f.RoundTrips b src) : f.Fits b src := by
  obtain ⟨e,d,hrun,_,_⟩ := h
  exact (fits_iff hempty hsrc).mpr (run_fits hb hempty hsrc hne hrun)

/-- The round trip of a string of whole characters, decided by the sizes. -/
theorem roundTrips_iff (hb : b.Wf) (hempty : b.len = 0) (hsrc : src.Wf) (hutf8 : IsUtf8 src.content)
    (hne : src.content ≠ []) (hnul : 0 ∉ src.content) : f.RoundTrips b src ↔ f.Fits b src :=
  ⟨fits_of_roundTrips hb hempty hsrc hne,roundTrips_of_fits hb hempty hsrc hutf8 hne hnul⟩

end

/-- A percent sign and a character of two bytes. -/
theorem roundTrips_iff_percent : Escaper.uri.RoundTrips init (holding [37,195,169]) ↔
    Escaper.uri.Fits init (holding [37,195,169]) :=
  roundTrips_iff init_wf rfl (holding_wf (by decide)) ⟨[Char.ofNat 37,Char.ofNat 233],by decide⟩
    (by decide) (by decide)

theorem percents_encoded (n : ℕ) :
    List.replicate n 37 = (List.replicate n (Char.ofNat 37)).flatMap String.utf8EncodeChar := by
  induction n with
  | zero => rfl
  | succ n ih => rw [List.replicate_succ,List.replicate_succ,List.flatMap_cons,← ih]; rfl

theorem percents_count (n : ℕ) : escapeCount escapeUriTable (List.replicate n 37) = n := by
  rw [escapeCount,percents_encoded,utf8Chars_encoded,List.map_replicate,List.countP_replicate,
    if_pos (by decide)]

/-- `2^30` percent signs: with the three bytes for each of them the sum passes `2^32`. -/
theorem not_roundTrips_percents : ¬ Escaper.uri.RoundTrips init (holding (List.replicate (2^30) 37)) := by
  intro h
  have hlen : (List.replicate (2^30) (37 : UInt8)).length = 2^30 := List.length_replicate
  have hroom := fits_of_roundTrips init_wf rfl (holding_wf (by rw [hlen]; decide))
    (by rw [content_holding,← List.length_pos_iff,hlen]; decide) h
  rw [Fits,content_holding,table,percents_count] at hroom
  have hn : (holding (List.replicate (2^30) 37)).len = 2^30 := hlen
  have hsum : (((2^30 : ℕ) : ℤ)+3*((2^30 : ℕ) : ℤ)) = 2^32 := by norm_num
  rw [hn,hsum] at hroom
  exact absurd hroom (by decide)

end Escaper

end Http2d
