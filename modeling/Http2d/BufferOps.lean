import Http2d.Buffer

/-! The operations of `http2d_buffer_t` that allocate, and the ones that cut.
`mem` tells whether the allocator grants the request of a call. An `int` that overflows has no
value; the call is then at fault like one that leaves its memory. -/
namespace Http2d

open Bytes

/-- The value of an `int` expression. -/
def intValue (n : ℤ) : Exec ℤ := if -2^31 ≤ n ∧ n < 2^31 then .ok n else .error .fault

theorem intValue_ok {n : ℤ} (h : -2^31 ≤ n) (h' : n < 2^31) : intValue n = .ok n := if_pos ⟨h,h'⟩

theorem intValue_fault {n : ℤ} (h : 2^31 ≤ n) : intValue n = .error .fault := by
  rw [intValue,if_neg (by omega)]

/-- The numbers that are values of an `int`. -/
def IsInt (n : ℤ) : Prop := -2^31 ≤ n ∧ n < 2^31

theorem intValue_eq {n : ℤ} (h : IsInt n) : intValue n = .ok n := if_pos h

theorem intValue_not {n : ℤ} (h : ¬ IsInt n) : intValue n = .error .fault := if_neg h

theorem cint_isInt {n : ℕ} : IsInt (cint n) := by
  unfold IsInt cint
  split_ifs <;> omega

/-- `realloc` with an allocator that may have no memory. -/
def reallocIf (mem : Bool) (blk : List UInt8) (size : ℕ) : Option (List UInt8) :=
  if mem then realloc blk size else none

/-- `TO_HEX`. -/
def toHex (c : ℕ) : UInt8 := if 9 < c then UInt8.ofNat (c+97-10) else UInt8.ofNat (c+48)

/-- `IOS_NUMBUF`. -/
def iosNumbuf : ℕ := 64

/-- The loop that puts the digits of a number in front of `acc`; `i` bytes of the array are left. -/
def putDigits (base : ℕ) : ℕ → ℕ → List UInt8 → Exec (ℕ × List UInt8)
  | 0, _, _ => .error .fault
  | i+1, n, acc =>
    if n/base = 0 then .ok (i,toHex (n%base)::acc) else putDigits base i (n/base) (toHex (n%base)::acc)

namespace Buffer

section Memory
variable (mem : Bool) (b : Buffer)

/-- `realloc_inc_bufsize`. -/
def reallocInc (incsize : ℕ) : Ret × Buffer :=
  let newsize := sizeT (b.size+incsize+reallocExtraSize+1)
  match reallocIf mem b.buf newsize with
  | none => (.nomem,b)
  | some blk => (.ok,{b with buf := blk, size := cuint newsize})

/-- `realloc_new_bufsize`. -/
def reallocNew (newsize : ℕ) : Ret × Buffer :=
  let newsize := sizeT (newsize+reallocExtraSize+1)
  match reallocIf mem b.buf newsize with
  | none => (.nomem,b)
  | some blk => (.ok,{b with buf := blk, size := cuint newsize})

/-- `http2d_buffer_ensure_size`; `malloc` is a `realloc` of a NULL block. -/
def ensure (size : ℕ) : Ret × Buffer :=
  if size ≤ b.size then (.ok,b)
  else
    match reallocIf mem b.buf size with
    | none => (.nomem,b)
    | some blk => (.ok,{b with buf := blk, size := cuint size})

/-- `http2d_buffer_ensure_addlen`. -/
def ensureAddlen (addlen : ℕ) : Ret × Buffer :=
  if sizeT (b.len+addlen) < b.size then (.ok,b) else b.ensure mem (sizeT (b.len+addlen+1))

/-- What `http2d_buffer_add` and `http2d_buffer_prepend` do first. -/
def room (n : ℕ) : Ret × Buffer :=
  let available := cuint ((b.size : ℤ)-b.len)
  if available < sizeT (n+1) then b.reallocInc mem (sizeT (n-cint available)) else (.ok,b)

end Memory

/-- Text copied behind the string, its length added and the string terminated. -/
def append (b : Buffer) (txt : List UInt8) : Exec Buffer := do
  let b ← b.write b.len txt
  b.setLen (cuint (b.len+txt.length))

section Growing
variable (mem : Bool) (b : Buffer)

/-- What is done with the memory, when there is some. -/
def granted (r : Ret × Buffer) (use : Buffer → Exec Buffer) : Exec (Ret × Buffer) :=
  match r with
  | (.ok,b) => do
    let b ← use b
    .ok (.ok,b)
  | (_,b) => .ok (.nomem,b)

/-- `http2d_buffer_add` of a text that is an object of its own. -/
def addText (txt : List UInt8) : Exec (Ret × Buffer) :=
  if txt.length = 0 then .ok (.ok,b) else granted (b.room mem txt.length) (·.append txt)

/-- `http2d_buffer_add_char`. -/
def addChar (c : UInt8) : Exec (Ret × Buffer) :=
  granted (if cuint (b.len+1) < b.size then (.ok,b) else b.reallocInc mem 1) (·.append [c])

/-- `http2d_buffer_add_char_n`. -/
def addCharN (c : UInt8) (num : Int32) : Exec (Ret × Buffer) :=
  let free := cint (cuint ((b.size : ℤ)-b.len))
  if num.toInt ≤ 0 then .ok (.ok,b)
  else do
    let want ← intValue (num.toInt+1)
    if free < want then do
      let inc ← intValue (num.toInt-free)
      granted (b.reallocInc mem (sizeT inc)) (·.append (List.replicate num.toInt.toNat c))
    else granted (.ok,b) (·.append (List.replicate num.toInt.toNat c))

/-- `http2d_buffer_prepend` of a text that is an object of its own. -/
def prependText (txt : List UInt8) : Exec (Ret × Buffer) :=
  granted (b.room mem txt.length) fun b => do
    let b ← b.write txt.length b.content
    let b ← b.write 0 txt
    b.setLen (cuint (b.len+txt.length))

/-- `http2d_buffer_insert` of a text that is an object of its own; what `http2d_buffer_ensure_size`
returns is not looked at. -/
def insert (txt : List UInt8) (pos : ℕ) : Exec (Ret × Buffer) := do
  let b := (b.ensure mem (sizeT (b.len+txt.length+1))).2
  let tail ← peek b.buf pos (sizeT ((b.len : ℤ)-pos))
  let b ← b.write (pos+txt.length) tail
  let b ← b.write pos txt
  let b ← b.setLen (cuint (b.len+txt.length))
  .ok (.ok,b)

/-- The end of the number writers: `strcpy` of the text behind the string. -/
def addNumber (txt : List UInt8) : Exec (Ret × Buffer) :=
  let newlen := cint (cuint (b.len+txt.length))
  granted (if b.size ≤ cuint newlen then b.reallocNew mem (sizeT newlen) else (.ok,b)) fun b => do
    let b ← b.write b.len (txt ++ [0])
    .ok {b with len := cuint newlen}

/-- An unsigned number in some base. -/
def addUnsigned (base : ℕ) (n : UInt64) : Exec (Ret × Buffer) := do
  let digits ← putDigits base (iosNumbuf-1) n.toNat []
  b.addNumber mem digits.2

/-- A signed decimal number; the sign is set in any case. -/
def addSigned (n : Int64) : Exec (Ret × Buffer) := do
  let ulNum := if n.toInt < 0 then sizeT (-(sizeT n.toInt : ℤ)) else sizeT n.toInt
  let digits ← putDigits 10 (iosNumbuf-1) ulNum []
  if digits.1 = 0 then .error .fault
  else b.addNumber mem (if n.toInt < 0 then 45::digits.2 else digits.2)

/-- `http2d_buffer_add_long10`. -/
def addLong10 (n : Int64) : Exec (Ret × Buffer) := b.addSigned mem n

/-- `http2d_buffer_add_llong10`. -/
def addLlong10 (n : Int64) : Exec (Ret × Buffer) := b.addSigned mem n

/-- `http2d_buffer_add_ulong10`. -/
def addUlong10 (n : UInt64) : Exec (Ret × Buffer) := b.addUnsigned mem 10 n

/-- `http2d_buffer_add_ullong10`. -/
def addUllong10 (n : UInt64) : Exec (Ret × Buffer) := b.addUnsigned mem 10 n

/-- `http2d_buffer_add_ulong16`. -/
def addUlong16 (n : UInt64) : Exec (Ret × Buffer) := b.addUnsigned mem 16 n

/-- `http2d_buffer_add_ullong16`. -/
def addUllong16 (n : UInt64) : Exec (Ret × Buffer) := b.addUnsigned mem 16 n

/-- `http2d_buffer_add` of the first `n` bytes of the own block: once the block was reallocated the
pointer to them dangles. -/
def addSelf (n : ℕ) : Exec (Ret × Buffer) :=
  let available := cuint ((b.size : ℤ)-b.len)
  if n = 0 then .ok (.ok,b)
  else if available < sizeT (n+1) then
    match b.reallocInc mem (sizeT (n-cint available)) with
    | (.ok,_) => .error .fault
    | (_,b) => .ok (.nomem,b)
  else do
    let txt ← peek b.buf 0 n
    granted (.ok,b) (·.append txt)

end Growing

/-- The loop of `http2d_buffer_multiply`; `mem` answers its requests one after another, and what
`http2d_buffer_add` returns is not looked at. -/
def multiplyLoop (n : ℕ) : ℕ → (ℕ → Bool) → Buffer → Exec Buffer
  | 0, _, b => .ok b
  | i+1, mem, b => do
    let b ← b.addSelf (mem 0) n
    multiplyLoop n i (fun k => mem (k+1)) b.2

/-- `http2d_buffer_multiply`. -/
def multiply (mem : ℕ → Bool) (b : Buffer) (num : Int32) : Exec (Ret × Buffer) := do
  let initialSize := cint b.len
  let b := (b.ensure (mem 0) (cuint (b.len*num.toInt+1))).2
  let b ← multiplyLoop (sizeT initialSize) num.toInt.toNat (fun k => mem (k+1)) b
  .ok (.ok,b)

/-- The two digits of every byte. -/
def hexText (txt : List UInt8) : List UInt8 :=
  txt.flatMap fun c => [toHex (c.toNat/16),toHex (c.toNat%16)]

/-- `http2d_buffer_encode_hex`; what `http2d_buffer_ensure_size` returns is not looked at. -/
def encodeHex (mem : Bool) (buf encoded : Buffer) : Exec (Ret × Buffer) := do
  let encoded := (encoded.ensure mem (cuint (buf.len*2+1))).2.clean
  let txt ← peek buf.buf 0 buf.len
  let encoded ← encoded.write 0 (hexText txt ++ [0])
  .ok (.ok,{encoded with len := cuint (buf.len*2)})

/-- `http2d_buffer_drop_ending`. -/
def dropEnding (b : Buffer) (numChars : ℕ) : Exec (Ret × Buffer) :=
  if b.buf = [] then .ok (.ok,b)
  else do
    let b ← b.setLen (b.len-min numChars b.len)
    .ok (.ok,b)

/-- `http2d_buffer_remove_chunk`. -/
def removeChunk (b : Buffer) (start len : ℕ) : Exec (Ret × Buffer) :=
  if len = b.len then .ok (.ok,b.clean)
  else do
    let tail ← peek b.buf (start+len) (sizeT ((b.len : ℤ)-(start+len)+1))
    let b ← b.write start tail
    .ok (.ok,{b with len := cuint ((b.len : ℤ)-len)})

/-- The block of `b` with `n` more bytes behind it. -/
def extend (b : Buffer) (n : ℕ) : Buffer :=
  ⟨b.buf ++ List.replicate n 0,cuint ((b.buf.length+n : ℕ)),b.len⟩

section Extend
variable {b : Buffer}

@[simp] theorem extend_len (n : ℕ) : (b.extend n).len = b.len := rfl
@[simp] theorem extend_length (n : ℕ) : (b.extend n).buf.length = b.buf.length+n := by simp [extend]

theorem extend_size {n : ℕ} (h : b.buf.length+n < 2^32) :
    (b.extend n).size = (b.extend n).buf.length := by
  rw [extend_length]
  exact cuint_natCast h

theorem extend_content (h : b.len ≤ b.buf.length) (n : ℕ) : (b.extend n).content = b.content :=
  List.take_append_of_le_length h

end Extend

/-- `b` is `g` after the string `bs` was put into its block. -/
structure Filled (g b : Buffer) (bs : List UInt8) : Prop where
  content_eq : b.content = bs
  len_eq : b.len = bs.length
  size_eq : b.size = g.size
  fits : b.len < g.buf.length
  length_eq : b.buf.length = g.buf.length
  ended : b.buf[b.len]? = some 0

theorem Filled.wf {g b : Buffer} {bs : List UInt8} (h : Filled g b bs) (hsize : g.size = g.buf.length)
    (hlt : g.size < 2^32) : b.Wf :=
  ⟨by rw [h.size_eq,hsize,h.length_eq],h.size_eq.trans_lt hlt,Or.inr ⟨h.length_eq ▸ h.fits,h.ended⟩⟩

/-- The block of a terminated buffer is its string, a NUL and what lies behind. -/
theorem block_of_ended {b : Buffer} (h : b.buf[b.len]? = some 0) :
    ∃ rest, b.buf = b.content ++ 0::rest := by
  obtain ⟨hlt,hget⟩ := List.getElem?_eq_some_iff.mp h
  exact ⟨b.buf.drop (b.len+1),by rw [content,← hget,List.getElem_cons_drop,List.take_append_drop]⟩

theorem Wf.block {b : Buffer} (h : b.Wf) (hne : b.buf ≠ []) : ∃ rest, b.buf = b.content ++ 0::rest :=
  block_of_ended (h.shape.resolve_left fun hnil => hne hnil.1).2

/-- What is cut out of the string, and what stays in the block behind the shorter string. -/
theorem removeChunk_eq {b : Buffer} {x y z rest : List UInt8} (hblk : b.buf = x ++ y ++ z ++ 0::rest)
    (hlen : b.len = (x ++ y ++ z).length) (hlt : b.len < 2^32) :
    b.removeChunk x.length y.length = .ok (.ok,
      {b with buf := x ++ z ++ 0::b.buf.drop ((x ++ z).length+1), len := (x ++ z).length}) := by
  simp only [List.length_append] at hlen
  rw [List.length_append]
  unfold removeChunk
  split_ifs with hall
  · obtain rfl : x = [] := List.length_eq_zero_iff.mp (by omega)
    obtain rfl : z = [] := List.length_eq_zero_iff.mp (by omega)
    rw [clean]
    cases hb : b.buf with
    | nil => simp [hb] at hblk
    | cons c t => rfl
  · have hcount : sizeT ((b.len : ℤ)-(x.length+y.length : ℕ)+1) = (z ++ [0]).length := by
      simp only [sizeT,List.length_append,List.length_singleton]
      omega
    have hdrop : b.buf.drop (x.length+y.length) = (z ++ [0]) ++ rest := by
      rw [hblk,← List.length_append,List.append_assoc,List.drop_left,List.append_assoc]
      rfl
    have hpeek := peek_drop (by rw [hblk]; simp only [List.length_append]; omega) hdrop
    have hw : b.write x.length (z ++ [0]) = .ok {b with buf := overwrite b.buf x.length (z ++ [0])} :=
      write_ok (by rw [hblk]; simp only [List.length_append,List.length_cons,List.length_nil]; omega)
    have hnew : cuint ((b.len : ℤ)-y.length) = x.length+z.length := by
      rw [cuint_sub (by omega) hlt]
      omega
    have hfront : b.buf.take x.length = x := by
      rw [hblk,List.append_assoc,List.append_assoc,List.take_left]
    push_cast at hcount hpeek
    simp only [hcount,hpeek,ok_bind,hw,hnew]
    rw [overwrite,hfront,List.length_append,List.length_singleton,← List.append_assoc x z,
      List.append_assoc (x ++ z)]
    rfl

theorem removeChunk_spec {b : Buffer} (h : b.Wf) {x y z : List UInt8} (hcont : b.content = x ++ y ++ z) :
    ∃ b', b.removeChunk x.length y.length = .ok (.ok,b') ∧ b'.Wf ∧ b'.content = x ++ z ∧
      b'.size = b.size := by
  have hlen : b.len = (x ++ y ++ z).length := by rw [← hcont,content_length h]
  rcases h.shape with ⟨_,h0⟩ | ⟨_,hnul⟩
  · have hnil : x ++ y ++ z = [] := List.length_eq_zero_iff.mp (hlen.symm.trans h0)
    obtain ⟨rfl,rfl,rfl⟩ : x = [] ∧ y = [] ∧ z = [] := by simpa using hnil
    exact ⟨b.clean,if_pos h0.symm,clean_wf h,clean_content b,rfl⟩
  obtain ⟨rest,hblk⟩ := block_of_ended hnul
  rw [hcont] at hblk
  have hfit : (x ++ z).length+1 ≤ b.buf.length := by
    rw [hblk]
    simp only [List.length_append,List.length_cons]
    omega
  refine ⟨_,removeChunk_eq hblk hlen h.len_lt,⟨?_,h.size_lt,Or.inr ⟨?_,?_⟩⟩,List.take_left,rfl⟩
  · simp only [h.size_eq,List.length_append,List.length_cons,List.length_drop] at hfit ⊢
    omega
  · simp only [List.length_append,List.length_cons]
    omega
  · rw [List.getElem?_append_right le_rfl,Nat.sub_self]
    rfl

section Blocks
variable {g : Buffer}

theorem write_inv {b' : Buffer} {off : ℕ} {txt : List UInt8} (h : g.write off txt = .ok b') :
    off+txt.length ≤ g.buf.length ∧ b' = {g with buf := overwrite g.buf off txt} := by
  unfold write at h
  split_ifs at h with hc
  exact ⟨hc,(Except.ok.inj h).symm⟩

theorem setLen_inv {b' : Buffer} {n : ℕ} (h : g.setLen n = .ok b') :
    n < g.buf.length ∧ b' = {g with buf := g.buf.set n 0, len := n} := by
  unfold setLen at h
  split_ifs at h with hc
  exact ⟨hc,(Except.ok.inj h).symm⟩

theorem setLen_filled (blk bs : List UInt8) (hblk : blk.length = g.buf.length)
    (hfront : blk.take bs.length = bs) (hfit : bs.length < g.buf.length) :
    ∃ b, ({g with buf := blk} : Buffer).setLen bs.length = .ok b ∧ Filled g b bs := by
  have hin : bs.length < blk.length := by omega
  refine ⟨_,if_pos hin,?_,rfl,rfl,hfit,by simp [hblk],by simp [hin]⟩
  simp only [content]
  rw [List.take_set_of_le (le_refl _),hfront]

theorem setLen_len {b' : Buffer} {n : ℕ} (h : g.setLen n = .ok b') : b'.len = n := by
  rw [(setLen_inv h).2]

/-- A text copied behind the string together with its terminator. -/
theorem terminated_filled (txt : List UInt8) (hfit : g.len+txt.length < g.buf.length) :
    g.write g.len (txt ++ [0]) = .ok {g with buf := overwrite g.buf g.len (txt ++ [0])} ∧
      Filled g {g with buf := overwrite g.buf g.len (txt ++ [0]), len := g.len+txt.length}
        (g.content ++ txt) := by
  have hroom : g.len+(txt ++ [0]).length ≤ g.buf.length := by simp; omega
  have hgl : g.content.length = g.len := by rw [content,List.length_take]; omega
  obtain ⟨hfront,hend⟩ := overwrite_terminated _ _ _ hfit
  exact ⟨write_ok hroom,hfront,by simp [hgl],rfl,hfit,overwrite_length hroom,hend⟩

theorem append_filled (txt : List UInt8) (hfit : g.len+txt.length < g.buf.length)
    (hlen : g.len+txt.length < 2^32) : ∃ b, g.append txt = .ok b ∧ Filled g b (g.content ++ txt) := by
  have hgl : g.content.length = g.len := by rw [content,List.length_take]; omega
  have hbs : (g.content ++ txt).length = g.len+txt.length := by rw [List.length_append,hgl]
  have hnew : cuint ((g.len : ℤ)+txt.length) = (g.content ++ txt).length := by
    rw [hbs,cuint_add hlen]
  obtain ⟨b,hb,hf⟩ := setLen_filled (g:=g) (overwrite g.buf g.len txt) (g.content ++ txt)
    (overwrite_length (by omega)) (by rw [hbs,take_overwrite (by omega),content]) (by omega)
  exact ⟨b,by simpa [append,write_ok (by omega : g.len+txt.length ≤ g.buf.length),hnew] using hb,hf⟩

theorem prepend_filled (txt : List UInt8) (hfit : g.len+txt.length < g.buf.length)
    (hlen : g.len+txt.length < 2^32) :
    ∃ b, (do
        let b ← g.write txt.length g.content
        let b ← b.write 0 txt
        b.setLen (cuint (b.len+txt.length))) = .ok b ∧ Filled g b (txt ++ g.content) := by
  have hgl : g.content.length = g.len := by rw [content,List.length_take]; omega
  have hbs : (txt ++ g.content).length = g.len+txt.length := by rw [List.length_append,hgl]; omega
  have hml : (overwrite g.buf txt.length g.content).length = g.buf.length :=
    overwrite_length (by omega)
  have hmoved : g.write txt.length g.content =
      .ok {g with buf := overwrite g.buf txt.length g.content} := write_ok (by omega)
  have hcopied : ({g with buf := overwrite g.buf txt.length g.content} : Buffer).write 0 txt =
      .ok {g with buf := overwrite (overwrite g.buf txt.length g.content) 0 txt} :=
    write_ok (by simp only [hml]; omega)
  have hnew : cuint ((g.len : ℤ)+txt.length) = (txt ++ g.content).length := by
    rw [hbs,cuint_add hlen]
  have hfront := overwrite_front g.buf txt g.content (by omega)
  obtain ⟨b,hb,hf⟩ := setLen_filled (g:=g)
    (overwrite (overwrite g.buf txt.length g.content) 0 txt) (txt ++ g.content)
    (by rw [overwrite_length (by omega),hml]) (by rw [hfront]; exact List.take_left) (by omega)
  exact ⟨b,by simpa only [hmoved,ok_bind,hcopied,hnew] using hb,hf⟩

theorem insert_filled (txt : List UInt8) (pos : ℕ) (hpos : pos ≤ g.len)
    (hfit : g.len+txt.length < g.buf.length) (hlen : g.len+txt.length < 2^32) :
    ∃ b, (do
        let tail ← peek g.buf pos (sizeT ((g.len : ℤ)-pos))
        let b ← g.write (pos+txt.length) tail
        let b ← b.write pos txt
        b.setLen (cuint (b.len+txt.length))) = .ok b ∧
      Filled g b (g.content.take pos ++ txt ++ g.content.drop pos) := by
  have hgl : g.content.length = g.len := by rw [content,List.length_take]; omega
  have hcount : sizeT ((g.len : ℤ)-pos) = g.len-pos := sizeT_sub hpos (by omega)
  have htail : slice g.buf pos (g.len-pos) = g.content.drop pos := by
    rw [content,slice,List.drop_take]
  have htl : (g.content.drop pos).length = g.len-pos := by rw [List.length_drop,hgl]
  have hbs : (g.content.take pos ++ txt ++ g.content.drop pos).length = g.len+txt.length := by
    simp only [List.length_append,List.length_take,htl,hgl]
    omega
  obtain ⟨blk,hblk⟩ : ∃ blk, blk = overwrite g.buf (pos+txt.length) (g.content.drop pos) := ⟨_,rfl⟩
  have hml : blk.length = g.buf.length := by rw [hblk,overwrite_length (by omega)]
  have hmoved : g.write (pos+txt.length) (g.content.drop pos) = .ok {g with buf := blk} := by
    rw [hblk,write_ok (by omega)]
  have hcopied : ({g with buf := blk} : Buffer).write pos txt =
      .ok {g with buf := overwrite blk pos txt} := write_ok (by simp only [hml]; omega)
  have hnew : cuint ((g.len : ℤ)+txt.length) =
      (g.content.take pos ++ txt ++ g.content.drop pos).length := by
    rw [hbs,cuint_add hlen]
  have hgap := overwrite_gap g.buf txt (g.content.drop pos) pos (by omega)
  have hfront : g.buf.take pos = g.content.take pos := by
    rw [content,List.take_take,min_eq_left (by omega)]
  obtain ⟨b,hb,hf⟩ := setLen_filled (g:=g) (overwrite blk pos txt)
    (g.content.take pos ++ txt ++ g.content.drop pos) (by rw [overwrite_length (by omega),hml])
    (by rw [hblk,hgap,hfront]; exact List.take_left) (by omega)
  refine ⟨b,?_,hf⟩
  simpa only [hcount,peek_ok g.buf pos (g.len-pos) (by omega),ok_bind,htail,hmoved,hcopied,hnew] using hb

theorem insert_eq (mem : Bool) (b : Buffer) (txt : List UInt8) (pos : ℕ) :
    b.insert mem txt pos = (do
        let tail ← peek (b.ensure mem (sizeT ((b.len : ℤ)+txt.length+1))).2.buf pos
          (sizeT (((b.ensure mem (sizeT ((b.len : ℤ)+txt.length+1))).2.len : ℤ)-pos))
        let b ← (b.ensure mem (sizeT ((b.len : ℤ)+txt.length+1))).2.write (pos+txt.length) tail
        let b ← b.write pos txt
        b.setLen (cuint (b.len+txt.length))) >>= fun b => .ok (.ok,b) := by
  simp only [insert,bind_assoc]

end Blocks

section Requests
variable {mem : Bool} {b : Buffer}

/-- The allocator refuses, or the request is larger than any object. -/
def Refused (mem : Bool) (size : ℕ) : Prop := mem = false ∨ 2^63 ≤ size

instance (mem : Bool) (size : ℕ) : Decidable (Refused mem size) :=
  inferInstanceAs (Decidable (mem = false ∨ 2^63 ≤ size))

theorem not_refused {size : ℕ} (h : size < 2^63) : ¬ Refused true size :=
  not_or.mpr ⟨by decide,not_le.mpr h⟩

variable (mem) in
theorem reallocIf_cases {blk : List UInt8} {size : ℕ} (h : blk.length ≤ size) :
    Refused mem size ∧ reallocIf mem blk size = none ∨
    ¬ Refused mem size ∧
      reallocIf mem blk size = some (blk ++ List.replicate (size-blk.length) 0) := by
  by_cases hr : Refused mem size
  · refine Or.inl ⟨hr,?_⟩
    rcases hr with rfl | hlarge
    · rfl
    · simp only [reallocIf,realloc,if_neg (not_lt.mpr hlarge),ite_self]
  · refine Or.inr ⟨hr,?_⟩
    obtain ⟨hmem,hsmall⟩ := not_or.mp hr
    rw [reallocIf,if_pos (by simpa using hmem),realloc_eq _ _ h (not_le.mp hsmall)]

variable (mem) in
theorem reallocInc_cases (h : b.size = b.buf.length) {inc : ℕ} (hinc : b.size+inc+17 < 2^64) :
    Refused mem (b.size+inc+17) ∧ b.reallocInc mem inc = (.nomem,b) ∨
    ¬ Refused mem (b.size+inc+17) ∧ b.reallocInc mem inc = (.ok,b.extend (inc+17)) := by
  have hnew : sizeT ((b.size : ℤ)+inc+reallocExtraSize+1) = b.size+inc+17 := sizeT_natCast hinc
  have hlen : b.size+inc+17-b.buf.length = inc+17 := by omega
  rcases reallocIf_cases mem (by omega : b.buf.length ≤ b.size+inc+17) with ⟨hr,heq⟩ | ⟨hr,heq⟩
  · exact Or.inl ⟨hr,by simp only [reallocInc,hnew,heq]⟩
  · refine Or.inr ⟨hr,?_⟩
    simp only [reallocInc,hnew,heq,hlen,extend]
    rw [show b.size+inc+17 = b.buf.length+(inc+17) by omega]

variable (mem) in
theorem reallocNew_cases (h : b.size = b.buf.length) {n : ℕ} (hle : b.size ≤ n+17)
    (hn : n+17 < 2^64) :
    Refused mem (n+17) ∧ b.reallocNew mem n = (.nomem,b) ∨
    ¬ Refused mem (n+17) ∧ b.reallocNew mem n = (.ok,b.extend (n+17-b.size)) := by
  have hnew : sizeT ((n : ℤ)+reallocExtraSize+1) = n+17 := sizeT_natCast hn
  rcases reallocIf_cases mem (by omega : b.buf.length ≤ n+17) with ⟨hr,heq⟩ | ⟨hr,heq⟩
  · exact Or.inl ⟨hr,by simp only [reallocNew,hnew,heq]⟩
  · refine Or.inr ⟨hr,?_⟩
    simp only [reallocNew,hnew,heq,extend,h]
    rw [show b.buf.length+(n+17-b.buf.length) = n+17 by omega]

variable (mem) in
theorem ensure_cases (h : b.size = b.buf.length) (n : ℕ) :
    n ≤ b.size ∧ b.ensure mem n = (.ok,b) ∨
    b.size < n ∧ Refused mem n ∧ b.ensure mem n = (.nomem,b) ∨
    b.size < n ∧ ¬ Refused mem n ∧ b.ensure mem n = (.ok,b.extend (n-b.size)) := by
  by_cases hfit : n ≤ b.size
  · exact Or.inl ⟨hfit,by rw [ensure,if_pos hfit]⟩
  refine Or.inr ?_
  rcases reallocIf_cases mem (by omega : b.buf.length ≤ n) with ⟨hr,heq⟩ | ⟨hr,heq⟩
  · exact Or.inl ⟨not_le.mp hfit,hr,by simp only [ensure,if_neg hfit,heq]⟩
  · refine Or.inr ⟨not_le.mp hfit,hr,?_⟩
    rw [ensure,if_neg hfit]
    simp only [heq,extend,h]
    rw [show b.buf.length+(n-b.buf.length) = n by omega]

theorem ensureAddlen_eq (mem : Bool) {b : Buffer} {n : ℕ} (h : b.len+n+1 < 2^64) :
    b.ensureAddlen mem n = b.ensure mem (b.len+n+1) := by
  have h1 : sizeT ((b.len : ℤ)+n) = b.len+n := sizeT_add (by omega)
  have h2 : sizeT ((b.len : ℤ)+n+1) = b.len+n+1 := sizeT_add_succ (by omega)
  rw [ensureAddlen,h1,h2]
  split_ifs with hfit
  · rw [ensure,if_pos (by omega)]
  · rfl

/-- The size of the block after `http2d_buffer_ensure_size`. -/
def ensuredSize (mem : Bool) (b : Buffer) (n : ℕ) : ℕ :=
  if n ≤ b.size ∨ Refused mem n then b.size else n

theorem ensuredSize_lt {n m : ℕ} (hb : b.size < m) (hn : n < m) : ensuredSize mem b n < m := by
  unfold ensuredSize
  split_ifs
  · exact hb
  · exact hn

theorem ensuredSize_granted {n : ℕ} (h : n < 2^63) : ensuredSize true b n = max b.size n := by
  unfold ensuredSize
  split_ifs with hkeep
  · rw [max_eq_left (hkeep.resolve_right (not_refused h))]
  · rw [max_eq_right (not_le.mp (not_or.mp hkeep).1).le]

variable (mem) in
/-- Granted or not, the block keeps the string. -/
theorem ensure_block (h : b.Wf) (n : ℕ) :
    (b.ensure mem n).2.buf.length = ensuredSize mem b n ∧ (b.ensure mem n).2.len = b.len ∧
      (b.ensure mem n).2.content = b.content := by
  have hsz := h.size_eq
  rcases ensure_cases mem hsz n with ⟨hfit,heq⟩ | ⟨_,hr,heq⟩ | ⟨hlt,hr,heq⟩
  · exact ⟨by rw [heq,ensuredSize,if_pos (Or.inl hfit),hsz],by rw [heq],by rw [heq]⟩
  · exact ⟨by rw [heq,ensuredSize,if_pos (Or.inr hr),hsz],by rw [heq],by rw [heq]⟩
  · refine ⟨?_,by rw [heq]; rfl,by rw [heq]; exact extend_content h.len_le _⟩
    rw [heq,ensuredSize,if_neg (not_or.mpr ⟨not_le.mpr hlt,hr⟩),extend_length]
    omega

theorem extend_wf (h : b.Wf) (hne : b.buf ≠ []) {n : ℕ} (hlt : b.buf.length+n < 2^32) :
    (b.extend n).Wf := by
  obtain ⟨hin,hend⟩ := h.shape.resolve_left fun hnil => hne hnil.1
  have hsize : (b.extend n).size = b.buf.length+n := cuint_natCast hlt
  refine ⟨extend_size hlt,hsize.trans_lt hlt,Or.inr ⟨?_,?_⟩⟩
  · rw [extend_length,extend_len]
    omega
  · rw [extend_len,extend,List.getElem?_append_left hin,hend]

variable (mem) in
theorem ensure_wf (h : b.Wf) (hne : b.buf ≠ []) {n : ℕ} (hlt : n < 2^32) : (b.ensure mem n).2.Wf := by
  have hsz := h.size_eq
  rcases ensure_cases mem hsz n with ⟨_,heq⟩ | ⟨_,_,heq⟩ | ⟨_,_,heq⟩
  · rwa [heq]
  · rwa [heq]
  · rw [heq]
    exact extend_wf h hne (by omega)

/-- How much `room` asks for: the free space is taken as an `int`. -/
def shortBy (b : Buffer) (n : ℕ) : ℕ :=
  if b.size-b.len < 2^31 then n-(b.size-b.len) else n+2^32-(b.size-b.len)

variable (mem) in
theorem room_cases (h : b.Wf) {n : ℕ} (hn : n < 2^63) :
    n < b.size-b.len ∧ b.room mem n = (.ok,b) ∨
    b.size-b.len ≤ n ∧ Refused mem (b.size+b.shortBy n+17) ∧ b.room mem n = (.nomem,b) ∨
    b.size-b.len ≤ n ∧ ¬ Refused mem (b.size+b.shortBy n+17) ∧
      b.room mem n = (.ok,b.extend (b.shortBy n+17)) := by
  have hsz := h.size_eq
  have hslt := h.size_lt
  have hle := h.len_le
  have havail : cuint ((b.size : ℤ)-b.len) = b.size-b.len := cuint_sub (by omega) hslt
  have hwant : sizeT ((n : ℤ)+1) = n+1 := sizeT_succ (by omega)
  have hshort (hge : b.size-b.len ≤ n) : sizeT ((n : ℤ)-cint (b.size-b.len)) = b.shortBy n := by
    have hm : (b.size-b.len) % 2^32 = b.size-b.len := Nat.mod_eq_of_lt (by omega)
    rw [cint,hm,shortBy]
    split_ifs <;> simp only [sizeT] <;> omega
  by_cases hfit : n < b.size-b.len
  · refine Or.inl ⟨hfit,?_⟩
    simp only [room,havail,hwant]
    rw [if_neg (by omega)]
  · have hge := not_lt.mp hfit
    have heq : b.room mem n = b.reallocInc mem (b.shortBy n) := by
      simp only [room,havail,hwant]
      rw [if_pos (by omega),hshort hge]
    have hsmall : b.size+b.shortBy n+17 < 2^64 := by
      unfold shortBy
      split_ifs <;> omega
    rw [heq]
    rcases reallocInc_cases mem hsz hsmall with ⟨hr,hval⟩ | ⟨hr,hval⟩
    · exact Or.inr (Or.inl ⟨hge,hr,hval⟩)
    · exact Or.inr (Or.inr ⟨hge,hr,hval⟩)

theorem hexText_length (x : List UInt8) : (hexText x).length = 2*x.length := by
  rw [hexText]
  induction x with
  | nil => rfl
  | cons c x ih => rw [List.flatMap_cons,List.length_append,ih]; simp; omega

section Hex
variable {src : Buffer} (hb : b.Wf) (hsrc : src.Wf)
include hb hsrc

variable (mem) in
/-- The encoder writes its text and a terminator to the front of the block that it has after the request. -/
theorem encodeHex_eq : ∃ g : Buffer, g.len = 0 ∧ g.content = [] ∧
    g.buf.length = ensuredSize mem b (cuint (src.len*2+1)) ∧ src.encodeHex mem b = (do
      let w ← g.write 0 (hexText src.content ++ [0])
      .ok (.ok,{w with len := cuint (src.len*2)})) := by
  have hpeek : peek src.buf 0 src.len = .ok src.content :=
    peek_ok src.buf 0 src.len (by have := hsrc.len_le; omega)
  refine ⟨(b.ensure mem (cuint (src.len*2+1))).2.clean,clean_len _,clean_content _,?_,?_⟩
  · rw [clean,List.length_set,(ensure_block mem hb _).1]
  · simp only [encodeHex,hpeek,ok_bind]

theorem encodeHex_fits {r : Ret × Buffer} (h : src.encodeHex mem b = .ok r) :
    2*src.len < ensuredSize mem b (cuint (src.len*2+1)) := by
  obtain ⟨g,_,_,hgb,heq⟩ := encodeHex_eq mem hb hsrc
  rw [heq] at h
  obtain ⟨w,hw,_⟩ := bind_ok_inv h
  have hroom := (write_inv hw).1
  rw [List.length_append,List.length_singleton,hexText_length,content_length hsrc] at hroom
  omega

theorem encodeHex_filled (hfit : 2*src.len < ensuredSize mem b (cuint (src.len*2+1))) :
    ∃ g c, src.encodeHex mem b = .ok (.ok,c) ∧ Filled g c (hexText src.content) := by
  obtain ⟨g,hgl,hgc,hgb,heq⟩ := encodeHex_eq mem hb hsrc
  have hlen : (hexText src.content).length = 2*src.len := by rw [hexText_length,content_length hsrc]
  have hmax : ensuredSize mem b (cuint (src.len*2+1)) < 2^32 := ensuredSize_lt hb.size_lt (cuint_lt _)
  obtain ⟨hw,hf⟩ := terminated_filled (g:=g) (hexText src.content) (by omega)
  have hnew : cuint ((src.len : ℤ)*2) = g.len+(hexText src.content).length := by simp only [cuint]; omega
  rw [hgl] at hw
  rw [hgc,List.nil_append] at hf
  refine ⟨g,_,?_,hf⟩
  rw [heq,hw,ok_bind,hnew,← hgl]

end Hex

end Requests

end Buffer

end Http2d
