import Http2d.Common

/-! `http2d_buffer_t` at the level of its memory block.
The block is kept apart from the length in use, because the connection code also looks at bytes
behind the length. A reallocation succeeds for every size an object can have; the bytes it adds
are unspecified in C and are zero here. -/
namespace Http2d

open Bytes

/-- `http2d_buffer_t`: the memory block (empty when `buf` is NULL), its recorded size and the
length of the string in it. -/
structure Buffer where
  buf : List UInt8
  size : ℕ
  len : ℕ
  deriving DecidableEq, Repr

/-- `REALLOC_EXTRA_SIZE`. -/
def reallocExtraSize : ℕ := 16

/-- `realloc`: no object is larger than `PTRDIFF_MAX`. -/
def realloc (blk : List UInt8) (size : ℕ) : Option (List UInt8) :=
  if size < 2^63 then some (blk.take size ++ List.replicate (size-blk.length) 0) else none

theorem realloc_eq (blk : List UInt8) (size : ℕ) (h : blk.length ≤ size) (hs : size < 2^63) :
    realloc blk size = some (blk ++ List.replicate (size-blk.length) 0) := by
  rw [realloc,if_pos hs,List.take_of_length_le h]

namespace Buffer

def init : Buffer := ⟨[],0,0⟩

def isEmpty (b : Buffer) : Bool := b.len == 0

/-- The string that the buffer holds. -/
def content (b : Buffer) : List UInt8 := b.buf.take b.len

/-- A buffer that was just allocated for `bs` and its terminator. -/
def holding (bs : List UInt8) : Buffer := ⟨bs ++ [0],bs.length+1,bs.length⟩

/-- The recorded size is the size of the block, and the string in it is terminated. -/
structure Wf (b : Buffer) : Prop where
  size_eq : b.size = b.buf.length
  size_lt : b.size < 2^32
  shape : b.buf = [] ∧ b.len = 0 ∨ b.len < b.buf.length ∧ b.buf[b.len]? = some 0

instance (b : Buffer) : Decidable b.Wf :=
  decidable_of_iff (b.size = b.buf.length ∧ b.size < 2^32 ∧
      (b.buf = [] ∧ b.len = 0 ∨ b.len < b.buf.length ∧ b.buf[b.len]? = some 0))
    ⟨fun h => ⟨h.1,h.2.1,h.2.2⟩,fun h => ⟨h.size_eq,h.size_lt,h.shape⟩⟩

theorem Wf.len_le {b : Buffer} (h : b.Wf) : b.len ≤ b.buf.length := by
  rcases h.shape with ⟨_,h0⟩ | ⟨hlt,_⟩ <;> omega

/-- A buffer without a block holds nothing. -/
theorem Wf.len_of_nil {b : Buffer} (h : b.Wf) (hnil : b.buf = []) : b.len = 0 := by
  have hle := h.len_le
  rw [hnil,List.length_nil] at hle
  exact Nat.le_zero.mp hle

theorem Wf.buf_ne_nil {b : Buffer} (h : b.Wf) (hpos : 0 < b.len) : b.buf ≠ [] :=
  fun hnil => hpos.ne' (h.len_of_nil hnil)

theorem Wf.len_lt {b : Buffer} (h : b.Wf) : b.len < 2^32 := by
  have := h.len_le
  have := h.size_eq
  have := h.size_lt
  omega

theorem Wf.len_lt_length {b : Buffer} (h : b.Wf) (hne : 0 < b.len) : b.len < b.buf.length := by
  rcases h.shape with ⟨_,h0⟩ | ⟨hlt,_⟩ <;> omega

theorem init_wf : init.Wf := ⟨rfl,by decide,Or.inl ⟨rfl,rfl⟩⟩

theorem holding_wf {bs : List UInt8} (h : bs.length+1 < 2^32) : (holding bs).Wf := by
  refine ⟨by simp [holding],h,Or.inr ⟨by simp [holding],by simp [holding]⟩⟩

@[simp] theorem content_holding (bs : List UInt8) : (holding bs).content = bs := by
  simp [content,holding]

theorem content_length {b : Buffer} (h : b.Wf) : b.content.length = b.len := by
  simp [content,h.len_le]

theorem content_nil {b : Buffer} (h : b.len = 0) : b.content = [] := by simp [content,h]

/-- `http2d_buffer_clean`. -/
def clean (b : Buffer) : Buffer := {b with buf := b.buf.set 0 0, len := 0}

@[simp] theorem clean_len (b : Buffer) : b.clean.len = 0 := rfl
@[simp] theorem clean_content (b : Buffer) : b.clean.content = [] := rfl

theorem clean_wf {b : Buffer} (h : b.Wf) : b.clean.Wf := by
  refine ⟨by simp [clean,h.size_eq],h.size_lt,?_⟩
  cases hb : b.buf with
  | nil => simp [clean,hb]
  | cons x xs => simp [clean,hb]

/-- `http2d_buffer_move_to_begin`: drop the first `pos` bytes, terminator included in the move. -/
def moveToBegin (b : Buffer) (pos : ℕ) : Buffer :=
  if b.len ≤ pos then b.clean
  else {b with buf := overwrite b.buf 0 (slice b.buf pos (b.len-pos+1)), len := b.len-pos}

@[simp] theorem moveToBegin_len (b : Buffer) (pos : ℕ) : (b.moveToBegin pos).len = b.len-pos := by
  unfold moveToBegin
  split_ifs with h
  · simp [h]
  · rfl

/-- Nothing is moved by a move of no bytes. -/
theorem moveToBegin_zero {b : Buffer} (h : 0 < b.len) : b.moveToBegin 0 = b := by
  have hbuf : overwrite b.buf 0 (slice b.buf 0 (b.len+1)) = b.buf := by
    simp only [overwrite,slice,List.drop_zero,List.take_zero,List.nil_append,Nat.zero_add,
      List.length_take]
    rcases Nat.le_total (b.len+1) b.buf.length with hle | hle
    · rw [min_eq_left hle,List.take_append_drop]
    · rw [min_eq_right hle,List.take_of_length_le hle,List.drop_length,List.append_nil]
  rw [moveToBegin,if_neg (by omega),Nat.sub_zero,hbuf]

theorem moveToBegin_wf {b : Buffer} (h : b.Wf) (pos : ℕ) : (b.moveToBegin pos).Wf := by
  unfold moveToBegin
  split_ifs with hp
  · exact clean_wf h
  · rcases h.shape with ⟨_,h0⟩ | ⟨hlt,hnul⟩
    · omega
    have hsl : (slice b.buf pos (b.len-pos+1)).length = b.len-pos+1 := slice_length (by omega)
    have hlen : (overwrite b.buf 0 (slice b.buf pos (b.len-pos+1))).length = b.buf.length :=
      overwrite_length (by omega)
    refine ⟨by simpa [hlen] using h.size_eq,h.size_lt,Or.inr ⟨by simp only [hlen]; omega,?_⟩⟩
    have hlast : (slice b.buf pos (b.len-pos+1))[b.len-pos]? = some 0 := by
      rw [slice,List.getElem?_take_of_lt (by omega),List.getElem?_drop]
      rwa [show pos+(b.len-pos) = b.len by omega]
    simp only [overwrite,List.take_zero,List.nil_append]
    rw [List.getElem?_append_left (by omega)]
    exact hlast

theorem moveToBegin_content {b : Buffer} (h : b.Wf) (pos : ℕ) :
    (b.moveToBegin pos).content = b.content.drop pos := by
  unfold moveToBegin
  split_ifs with hp
  · simp [content,hp]
  · have := h.len_lt_length (by omega)
    have hsl : (slice b.buf pos (b.len-pos+1)).length = b.len-pos+1 := slice_length (by omega)
    simp only [content,overwrite,List.take_zero,List.nil_append]
    rw [List.take_append_of_le_length (by omega),slice,List.take_take,List.drop_take]
    congr 1
    omega

/-- `realloc_inc_bufsize`. -/
def reallocIncBufsize (b : Buffer) (incsize : ℕ) : Ret × Buffer :=
  let newsize := sizeT (b.size+incsize+reallocExtraSize+1)
  match realloc b.buf newsize with
  | none => (.nomem,b)
  | some blk => (.ok,{b with buf := blk, size := cuint newsize})

/-- Copy `txt` to offset `off` of the block. -/
def write (b : Buffer) (off : ℕ) (txt : List UInt8) : Exec Buffer :=
  if off+txt.length ≤ b.buf.length then .ok {b with buf := overwrite b.buf off txt}
  else .error .fault

/-- Set the length and terminate the string there. -/
def setLen (b : Buffer) (len : ℕ) : Exec Buffer :=
  if len < b.buf.length then .ok {b with buf := b.buf.set len 0, len := len} else .error .fault

theorem write_ok {b : Buffer} {off : ℕ} {txt : List UInt8} (h : off+txt.length ≤ b.buf.length) :
    b.write off txt = .ok {b with buf := overwrite b.buf off txt} := if_pos h

/-- Inside the block the string ends where its length says. -/
theorem setLen_spec (b : Buffer) (len : ℕ) (hsize : b.size = b.buf.length) (hlt : b.size < 2^32)
    (hlen : len < b.buf.length) :
    ∃ b', b.setLen len = .ok b' ∧ b'.Wf ∧ b'.len = len ∧ b'.size = b.size ∧
      b'.content = b.buf.take len := by
  refine ⟨_,if_pos hlen,⟨by simp [hsize],hlt,Or.inr ⟨by simp [hlen],by simp [hlen]⟩⟩,rfl,rfl,?_⟩
  simp only [content]
  rw [List.take_set_of_le (le_refl _)]

/-- Text copied behind the string becomes its end. -/
theorem write_setLen_spec (b : Buffer) (txt : List UInt8) (hsize : b.size = b.buf.length)
    (hlt : b.size < 2^32) (hfit : b.len+txt.length < b.buf.length) :
    ∃ w b', b.write b.len txt = .ok w ∧ w.len = b.len ∧ w.setLen (b.len+txt.length) = .ok b' ∧
      b'.Wf ∧ b'.len = b.len+txt.length ∧ b'.size = b.size ∧ b'.content = b.content ++ txt := by
  have hl : (overwrite b.buf b.len txt).length = b.buf.length := overwrite_length (by omega)
  obtain ⟨b',hset,hwf,hlen,hsize',hcont⟩ := setLen_spec {b with buf := overwrite b.buf b.len txt}
    (b.len+txt.length) (by simp [hl,hsize]) hlt (by simp [hl]; omega)
  refine ⟨_,b',write_ok (by omega),rfl,hset,hwf,hlen,hsize',?_⟩
  rw [hcont]
  exact take_overwrite (by omega)

/-- What `http2d_buffer_add` and `http2d_buffer_prepend` do first: get memory for `n` more bytes
and the terminator. -/
def makeRoom (b : Buffer) (n : ℕ) : Ret × Buffer :=
  let available := cuint ((b.size : ℤ)-b.len)
  if available < sizeT (n+1) then reallocIncBufsize b (sizeT (n-cint available)) else (.ok,b)

/-- `http2d_buffer_add` of the `size` bytes at `off` of an object. -/
def add (b : Buffer) (obj : List UInt8) (off : ℤ) (size : ℕ) : Exec (Ret × Buffer) :=
  if size = 0 then .ok (.ok,b)
  else
    match b.makeRoom size with
    | (.ok,b) => do
      let txt ← peek obj off size
      let b ← b.write b.len txt
      let b ← b.setLen (cuint (b.len+size))
      .ok (.ok,b)
    | (_,b) => .ok (.nomem,b)

/-- `http2d_buffer_add` of a string that is an object of its own. -/
def addStr (b : Buffer) (txt : List UInt8) : Exec (Ret × Buffer) := b.add txt 0 txt.length

/-- `http2d_buffer_prepend`. -/
def prepend (b : Buffer) (txt : List UInt8) : Exec (Ret × Buffer) :=
  match b.makeRoom txt.length with
  | (.ok,b) => do
    let b ← b.write txt.length b.content
    let b ← b.write 0 txt
    let b ← b.setLen (cuint (b.len+txt.length))
    .ok (.ok,b)
  | (_,b) => .ok (.nomem,b)

/-- `http2d_buffer_ensure_size`. -/
def ensureSize (b : Buffer) (size : ℕ) : Ret × Buffer :=
  if size ≤ b.size then (.ok,b)
  else
    match realloc b.buf size with
    | none => (.nomem,b)
    | some blk => (.ok,{b with buf := blk, size := cuint size})

/-- `http2d_socket_read_buf`, for a `recv` that delivers `data`; none means that nothing arrived. -/
def socketReadBuf (b : Buffer) (count : ℕ) (data : List UInt8) : Exec (Ret × Buffer) :=
  let (ret,b) := b.ensureSize (sizeT (b.len+count+2))
  if ret.code < Ret.ok.code then .ok (ret,b)
  else if data.length = 0 then .ok (.ok,b)
  else do
    let b ← b.write b.len data
    let b ← b.setLen (cuint (b.len+data.length))
    .ok (.ok,b)

/-- Growing the buffer keeps the block's bytes in front. -/
theorem reallocIncBufsize_spec {b : Buffer} (h : b.Wf) {inc : ℕ} (hlt : b.size+inc+17 < 2^32) :
    reallocIncBufsize b (sizeT inc) =
      (.ok,⟨b.buf ++ List.replicate (inc+17) 0,b.size+inc+17,b.len⟩) := by
  have hinc : sizeT inc = inc := sizeT_natCast (by omega)
  have hnew : sizeT ((b.size : ℤ)+inc+reallocExtraSize+1) = b.size+inc+17 :=
    sizeT_natCast (n:=b.size+inc+17) (by omega)
  have hsz := h.size_eq
  have hc : cuint ((b.size+inc+17 : ℕ) : ℤ) = b.size+inc+17 := cuint_natCast hlt
  have hrep : b.size+inc+17-b.buf.length = inc+17 := by omega
  simp only [reallocIncBufsize,hinc,hnew,realloc_eq b.buf (b.size+inc+17)
    (by omega) (by omega),hc,hrep]

/-- A block that holds the string of `b` and has room for `n` more bytes and the terminator. -/
structure RoomFor (b : Buffer) (n : ℕ) (g : Buffer) : Prop where
  len_eq : g.len = b.len
  content_eq : g.content = b.content
  size_eq : g.size = g.buf.length
  size_lt : g.size < 2^32
  room : b.len+n < g.buf.length
  size_le : g.size ≤ max b.size (b.len+n+17)

/-- The free space is taken as an `int`; below that range the request is exact. -/
theorem makeRoom_spec {b : Buffer} (h : b.Wf) {n : ℕ} (hlen : b.len+n+17 < 2^32)
    (hint : min (b.size-b.len) n < 2^31) : ∃ g, b.makeRoom n = (.ok,g) ∧ RoomFor b n g := by
  have hsz := h.size_eq
  have hslt := h.size_lt
  have hle := h.len_le
  have havail : cuint ((b.size : ℤ)-b.len) = b.size-b.len := cuint_sub (by omega) hslt
  have hwant : sizeT ((n : ℤ)+1) = n+1 := sizeT_succ (by omega)
  simp only [makeRoom,havail,hwant]
  by_cases hroom : b.size-b.len < n+1
  · rw [if_pos hroom,cint_of_lt (by omega),show (n : ℤ)-(b.size-b.len : ℕ) = (n-(b.size-b.len) : ℕ)
      by omega,reallocIncBufsize_spec h (by omega)]
    refine ⟨_,rfl,rfl,?_,?_,?_,?_,?_⟩
    · simp only [content]
      rw [List.take_append_of_le_length (by omega)]
    · simp [hsz]; omega
    · simp only; omega
    · simp; omega
    · simp only; omega
  · rw [if_neg hroom]
    exact ⟨b,rfl,rfl,rfl,hsz,hslt,by omega,le_max_left _ _⟩

/-- Appending keeps the buffer well formed and appends to the string. -/
theorem add_spec {b : Buffer} (h : b.Wf) {obj : List UInt8} {off size : ℕ}
    (hsrc : off+size ≤ obj.length) (hlen : b.len+size+17 < 2^32)
    (hint : min (b.size-b.len) size < 2^31) :
    ∃ b', b.add obj off size = .ok (.ok,b') ∧ b'.Wf ∧ b'.content = b.content ++ slice obj off size ∧
      b'.len = b.len+size ∧ b'.size ≤ max b.size (b'.len+17) := by
  by_cases h0 : size = 0
  · exact ⟨b,by simp [add,h0],h,by simp [h0,slice],by omega,le_max_left _ _⟩
  obtain ⟨g,hg,hr⟩ := makeRoom_spec h hlen hint
  have hgl := hr.len_eq
  have hroom := hr.room
  have hsl : (slice obj off size).length = size := slice_length hsrc
  have hnew : cuint ((g.len : ℤ)+size) = g.len+size := cuint_add (by omega)
  obtain ⟨w,b',hw,hwl,hset,hwf,hlen',hsize',hcont⟩ := write_setLen_spec g
    (slice obj off size) hr.size_eq hr.size_lt (by omega)
  rw [hsl] at hset hlen'
  refine ⟨b',?_,hwf,by rw [hcont,hr.content_eq],by omega,by rw [hsize',hlen',hgl]; exact hr.size_le⟩
  simp [add,h0,hg,peek_ok _ _ _ hsrc,hw,hwl,hnew,hset]

theorem addStr_spec {b : Buffer} (h : b.Wf) (txt : List UInt8) (hlen : b.len+txt.length+17 < 2^32)
    (hint : min (b.size-b.len) txt.length < 2^31) :
    ∃ b', b.addStr txt = .ok (.ok,b') ∧ b'.Wf ∧ b'.content = b.content ++ txt ∧
      b'.len = b.len+txt.length ∧ b'.size ≤ max b.size (b'.len+17) := by
  have hsl : slice txt 0 txt.length = txt := by simp [slice]
  have := add_spec h (by omega : 0+txt.length ≤ txt.length) hlen hint
  rwa [hsl] at this

theorem overwrite_front (blk txt front : List UInt8) (hfit : txt.length+front.length ≤ blk.length) :
    overwrite (overwrite blk txt.length front) 0 txt =
      txt ++ front ++ blk.drop (txt.length+front.length) := by
  have htake : (blk.take txt.length).length = txt.length := by simp; omega
  have hdrop : (overwrite blk txt.length front).drop txt.length =
      front ++ blk.drop (txt.length+front.length) := by
    rw [overwrite,List.append_assoc]
    exact List.drop_left' htake
  rw [overwrite,List.take_zero,List.nil_append,Nat.zero_add,hdrop,List.append_assoc]

/-- Prepending keeps the buffer well formed and puts the text in front of the string. -/
theorem prepend_spec {b : Buffer} (h : b.Wf) (txt : List UInt8) (hlen : b.len+txt.length+17 < 2^32)
    (hint : min (b.size-b.len) txt.length < 2^31) :
    ∃ b', b.prepend txt = .ok (.ok,b') ∧ b'.Wf ∧ b'.content = txt ++ b.content ∧
      b'.len = b.len+txt.length ∧ b'.size ≤ max b.size (b'.len+17) := by
  obtain ⟨g,hg,hr⟩ := makeRoom_spec h hlen hint
  have hgl := hr.len_eq
  have hroom := hr.room
  have hsize := hr.size_eq
  have hcl : g.content.length = g.len := by simp [content]; omega
  have hnew : cuint ((g.len : ℤ)+txt.length) = g.len+txt.length := cuint_add (by omega)
  have hml : (overwrite g.buf txt.length g.content).length = g.buf.length :=
    overwrite_length (by omega)
  have hfront := overwrite_front g.buf txt g.content (by omega)
  have hmoved : g.write txt.length g.content =
      .ok {g with buf := overwrite g.buf txt.length g.content} := write_ok (by omega)
  have hcopied : ({g with buf := overwrite g.buf txt.length g.content} : Buffer).write 0 txt =
      .ok {g with buf := txt ++ g.content ++ g.buf.drop (txt.length+g.content.length)} := by
    rw [write_ok (by simp only [hml]; omega)]
    simp only [hfront]
  have hblk : (txt ++ g.content ++ g.buf.drop (txt.length+g.content.length)).length =
      g.buf.length := by
    simp only [List.length_append,List.length_drop]
    omega
  obtain ⟨b',hset,hwf,hlen',hsize',hcont⟩ := setLen_spec
    {g with buf := txt ++ g.content ++ g.buf.drop (txt.length+g.content.length)}
    (g.len+txt.length) (hr.size_eq.trans hblk.symm) hr.size_lt (by simp only [hblk]; omega)
  refine ⟨b',by simp only [prepend,hg,hmoved,ok_bind,hcopied,hnew,hset],hwf,?_,by omega,?_⟩
  · rw [hcont,← hr.content_eq]
    exact List.take_left' (by simp [hcl]; omega)
  · rw [hsize',hlen']
    show g.size ≤ max b.size (g.len+txt.length+17)
    rw [hgl]
    exact hr.size_le

/-- After `http2d_buffer_ensure_size` the block has the size that was asked for. -/
theorem ensureSize_spec {b : Buffer} (h : b.Wf) (size : ℕ) (hpos : 0 < size) (hlt : size < 2^32) :
    ∃ g, b.ensureSize size = (.ok,g) ∧ g.Wf ∧ g.content = b.content ∧ g.len = b.len ∧
      size ≤ g.size ∧ g.size ≤ max b.size size := by
  have hsz := h.size_eq
  have hle := h.len_le
  unfold ensureSize
  by_cases hfit : size ≤ b.size
  · exact ⟨b,if_pos hfit,h,rfl,rfl,hfit,le_max_left _ _⟩
  have hblk : (b.buf ++ List.replicate (size-b.buf.length) (0 : UInt8)).length = size := by
    simp; omega
  rw [if_neg hfit,realloc_eq _ _ (by omega) (by omega)]
  simp only [cuint_natCast hlt]
  refine ⟨_,rfl,⟨hblk.symm,hlt,Or.inr ⟨by simp only [hblk]; omega,?_⟩⟩,?_,rfl,le_refl _,
    le_max_right _ _⟩
  · rcases h.shape with ⟨hnil,h0⟩ | ⟨hin,hnul⟩
    · simp [hnil,h0,hpos]
    · simp only
      rw [List.getElem?_append_left hin,hnul]
  · simp only [content]
    rw [List.take_append_of_le_length hle]

/-- Reading from the socket appends what arrived. -/
theorem socketReadBuf_spec {b : Buffer} (h : b.Wf) {count : ℕ} {data : List UInt8}
    (hcount : data.length ≤ count) (hlen : b.len+count+2 < 2^32) :
    ∃ b', b.socketReadBuf count data = .ok (.ok,b') ∧ b'.Wf ∧ b'.content = b.content ++ data ∧
      b'.len = b.len+data.length ∧ b'.size ≤ max b.size (b.len+count+2) := by
  have hwant : sizeT ((b.len : ℤ)+count+2) = b.len+count+2 := by simp only [sizeT]; omega
  obtain ⟨g,hg,hwf,hcont,hgl,hroom,hsize⟩ := ensureSize_spec h (b.len+count+2) (by omega) hlen
  simp only [socketReadBuf,hwant,hg]
  rw [if_neg (by decide)]
  by_cases h0 : data.length = 0
  · have hd : data = [] := List.length_eq_zero_iff.mp h0
    exact ⟨g,by simp [h0],hwf,by simp [hd,hcont],by omega,hsize⟩
  have hgsz := hwf.size_eq
  have hnew : cuint ((g.len : ℤ)+data.length) = g.len+data.length := cuint_add (by omega)
  obtain ⟨w,b',hw,hwl,hset,hwf',hlen',hsize',hcont'⟩ := write_setLen_spec g data
    hgsz hwf.size_lt (by omega)
  exact ⟨b',by simp [h0,hw,hwl,hnew,hset],hwf',by rw [hcont',hcont],by omega,by omega⟩

end Buffer
end Http2d
