import Http2d.BufferOps

/-! Growing a buffer at the limits of its 32-bit fields.
The operations are those of the other modules with the allocator as a parameter, and here it grants a
request of any size. -/
namespace Http2d

open Bytes

/-- What an allocator makes of a block and a size. -/
abbrev Allocator := List UInt8 → ℕ → Option (List UInt8)

/-- An allocator with memory for every request. -/
def grantAny : Allocator := fun blk size => some (blk.take size ++ List.replicate (size-blk.length) 0)

namespace Buffer

section Growth
variable (alloc : Allocator) (b : Buffer)

/-- `realloc_inc_bufsize`. -/
def reallocIncWith (incsize : ℕ) : Ret × Buffer :=
  let newsize := sizeT (b.size+incsize+reallocExtraSize+1)
  match alloc b.buf newsize with
  | none => (.nomem,b)
  | some blk => (.ok,{b with buf := blk, size := cuint newsize})

/-- `http2d_buffer_ensure_size`. -/
def ensureWith (size : ℕ) : Ret × Buffer :=
  if size ≤ b.size then (.ok,b)
  else
    match alloc b.buf size with
    | none => (.nomem,b)
    | some blk => (.ok,{b with buf := blk, size := cuint size})

/-- What `http2d_buffer_add` and `http2d_buffer_prepend` do first. -/
def roomWith (n : ℕ) : Ret × Buffer :=
  let available := cuint ((b.size : ℤ)-b.len)
  if available < sizeT (n+1) then b.reallocIncWith alloc (sizeT (n-cint available)) else (.ok,b)

/-- `http2d_buffer_add`. -/
def addWith (txt : List UInt8) : Exec (Ret × Buffer) :=
  if txt.length = 0 then .ok (.ok,b) else granted (b.roomWith alloc txt.length) (·.append txt)

/-- What `http2d_buffer_prepend` does with the memory. -/
def prependUse (txt : List UInt8) (b : Buffer) : Exec Buffer := do
  let b ← b.write txt.length b.content
  let b ← b.write 0 txt
  b.setLen (cuint (b.len+txt.length))

/-- `http2d_buffer_prepend`. -/
def prependWith (txt : List UInt8) : Exec (Ret × Buffer) :=
  granted (b.roomWith alloc txt.length) (prependUse txt)

/-- What `http2d_buffer_insert` does with the memory. -/
def insertUse (txt : List UInt8) (pos : ℕ) (b : Buffer) : Exec Buffer := do
  let tail ← peek b.buf pos (sizeT ((b.len : ℤ)-pos))
  let b ← b.write (pos+txt.length) tail
  let b ← b.write pos txt
  b.setLen (cuint (b.len+txt.length))

/-- `http2d_buffer_insert`; what `http2d_buffer_ensure_size` returns is not looked at. -/
def insertWith (txt : List UInt8) (pos : ℕ) : Exec (Ret × Buffer) :=
  granted (.ok,(b.ensureWith alloc (sizeT (b.len+txt.length+1))).2) (insertUse txt pos)

/-- With the allocator of the other modules these are their operations. -/
theorem with_reallocIf (mem : Bool) (txt : List UInt8) (pos size : ℕ) :
    b.addWith (reallocIf mem) txt = b.addText mem txt ∧
    b.prependWith (reallocIf mem) txt = b.prependText mem txt ∧
    b.insertWith (reallocIf mem) txt pos = b.insert mem txt pos ∧
    b.ensureWith (reallocIf mem) size = b.ensure mem size :=
  ⟨rfl,rfl,(insert_eq mem b txt pos).symm,rfl⟩

end Growth

/-- A buffer with the block that its size says, and with its length in it. -/
structure Allotted (b : Buffer) : Prop where
  size_eq : b.size = b.buf.length
  size_lt : b.size < 2^32
  len_lt : b.len < b.size

/-- `n` more bytes are there, or the free space is an `int` and the new size a `cuint_t`. -/
def RoomFits (b : Buffer) (n : ℕ) : Prop :=
  n < b.size-b.len ∨ b.size-b.len < 2^31 ∧ b.len+n+17 < 2^32

end Buffer

/-- A call that may need more memory, with its text or its size. -/
inductive GrowCall
  | add (txt : List UInt8)
  | prepend (txt : List UInt8)
  | insert (txt : List UInt8) (pos : ℕ)
  | ensureSize (size : ℕ)
  deriving DecidableEq, Repr

namespace GrowCall

def run (alloc : Allocator) (b : Buffer) : GrowCall → Exec (Ret × Buffer)
  | .add txt => b.addWith alloc txt
  | .prepend txt => b.prependWith alloc txt
  | .insert txt pos => b.insertWith alloc txt pos
  | .ensureSize size => .ok (b.ensureWith alloc size)

/-- How much longer the string gets. -/
def added : GrowCall → ℕ
  | .add txt | .prepend txt | .insert txt _ => txt.length
  | .ensureSize _ => 0

/-- The arguments are values of a `size_t`. -/
def IsSized : GrowCall → Prop
  | .add txt | .prepend txt => txt.length < 2^64
  | .insert txt pos => txt.length < 2^64 ∧ pos < 2^64
  | .ensureSize size => size < 2^64

/-- No sum of the call leaves its type, and a position is one of the string. -/
def Fits (b : Buffer) : GrowCall → Prop
  | .add txt | .prepend txt => b.RoomFits txt.length
  | .insert txt pos => pos ≤ b.len ∧ b.len+txt.length+1 < 2^32
  | .ensureSize size => size < 2^32

end GrowCall

/-- The call fails and leaves the buffer alone, or the buffer has grown by `n` and knows its block. -/
def GrowsRight (b : Buffer) (n : ℕ) (r : Exec (Ret × Buffer)) : Prop :=
  ∃ ret b', r = .ok (ret,b') ∧
    (ret ≠ .ok ∧ b' = b ∨ b'.len = b.len+n ∧ b'.len < b'.size ∧ b'.size = b'.buf.length)

namespace Buffer

/-- The memory for `n` more bytes is there. -/
structure Ready (b : Buffer) (n : ℕ) (g : Buffer) : Prop where
  len_eq : g.len = b.len
  size_eq : g.size = g.buf.length
  size_lt : g.size < 2^32
  room : g.len+n < g.buf.length

/-- The recorded size is wrong, or the block is too small. -/
def Spoilt (g : Buffer) (n : ℕ) : Prop := g.size ≠ g.buf.length ∨ g.buf.length < g.len+n

section Room
variable {b g : Buffer} {n : ℕ} {txt : List UInt8}

theorem grantAny_length (blk : List UInt8) (size : ℕ) :
    ∃ blk', grantAny blk size = some blk' ∧ blk'.length = size := by
  refine ⟨_,rfl,?_⟩
  rw [List.length_append,List.length_take,List.length_replicate]
  omega

theorem reallocIncWith_any (b : Buffer) (inc : ℕ) : ∃ g, b.reallocIncWith grantAny inc = (.ok,g) ∧
    g.len = b.len ∧ g.buf.length = sizeT (b.size+inc+17) ∧ g.size = cuint g.buf.length := by
  obtain ⟨blk,hblk,hlen⟩ := grantAny_length b.buf (sizeT (b.size+inc+reallocExtraSize+1))
  refine ⟨⟨blk,cuint (sizeT (b.size+inc+reallocExtraSize+1)),b.len⟩,?_,rfl,?_,?_⟩
  · simp only [reallocIncWith,hblk]
  · rw [hlen]
    congr 1
  · rw [hlen]

theorem spoilt_of_wraps {k : ℕ} (hsize : g.size = cuint g.buf.length) (hn : g.len+n = k)
    (h : 2^32 ≤ g.buf.length ∨ g.buf.length < k) : Spoilt g n := by
  rcases h with hbig | hsmall
  · have hlt := cuint_lt g.buf.length
    rw [← hsize] at hlt
    exact Or.inl (hlt.trans_le hbig).ne
  · exact Or.inr (hn.symm ▸ hsmall)

/-- What is asked for when the free space is not enough. -/
theorem reallocInc_wanted {len free : ℕ} (hfree : free < 2^32) (hn : free ≤ n) (hlt : n < 2^64) :
    sizeT (((len+free : ℕ) : ℤ)+sizeT ((n : ℤ)-cint free)+17) =
      sizeT (if free < 2^31 then len+n+17 else len+n+17+2^32 : ℕ) := by
  have hm : free % 2^32 = free := Nat.mod_eq_of_lt hfree
  rw [cint,hm]
  split_ifs
  · rw [sizeT_sub hn hlt]
    congr 1
    omega
  · simp only [sizeT]
    omega

/-- Room is made right exactly when the free space is an `int` and the new size is a `cuint_t`. -/
theorem roomWith_any (hb : b.Allotted) (hn : n < 2^64) : ∃ g, b.roomWith grantAny n = (.ok,g) ∧
    (b.RoomFits n ∧ Ready b n g ∨ ¬ b.RoomFits n ∧ Spoilt g n) := by
  obtain ⟨hsize,hlt,hlen⟩ := hb
  obtain ⟨free,hfree⟩ : ∃ free, b.size = b.len+free := ⟨b.size-b.len,by omega⟩
  have havail : cuint ((b.size : ℤ)-b.len) = free := by
    rw [cuint_sub hlen.le hlt]
    omega
  have hfits : b.RoomFits n ↔ n < free ∨ free < 2^31 ∧ b.len+n+17 < 2^32 := by
    rw [RoomFits,hfree,Nat.add_sub_cancel_left]
  rw [hfits]
  simp only [roomWith,havail]
  by_cases henough : n < free
  · rw [sizeT_succ (by omega),if_neg (by omega)]
    exact ⟨b,rfl,Or.inl ⟨Or.inl henough,rfl,hsize,hlt,by omega⟩⟩
  · by_cases hlast : n+1 = 2^64
    · -- the sum that the free space is compared with is zero
      have hwant : sizeT ((n : ℤ)+1) = 0 := by
        rw [← Nat.cast_add_one,hlast]
        rfl
      rw [hwant,if_neg (Nat.not_lt_zero _)]
      exact ⟨b,rfl,Or.inr ⟨by omega,Or.inr (by omega)⟩⟩
    · obtain ⟨g,hg,hgl,hglen,hgsize⟩ := b.reallocIncWith_any (sizeT ((n : ℤ)-cint free))
      rw [sizeT_succ (by omega),if_pos (by omega)]
      refine ⟨g,hg,?_⟩
      rw [hfree,reallocInc_wanted (by omega) (not_lt.mp henough) hn] at hglen
      by_cases hright : free < 2^31 ∧ b.len+n+17 < 2^32
      · rw [if_pos hright.1,sizeT_natCast (by omega)] at hglen
        rw [hglen,cuint_natCast hright.2] at hgsize
        exact Or.inl ⟨Or.inr hright,hgl,hgsize.trans hglen.symm,hgsize ▸ hright.2,by omega⟩
      · refine Or.inr ⟨not_or.mpr ⟨henough,hright⟩,spoilt_of_wraps hgsize (by rw [hgl]) ?_⟩
        rw [hglen]
        exact (sizeT_wraps (by split_ifs <;> omega) (by split_ifs <;> omega)).imp_right And.right

/-- The block and its recorded size stay as they are. -/
theorem append_keeps {b' : Buffer} (h : g.append txt = .ok b') :
    b'.size = g.size ∧ b'.buf.length = g.buf.length ∧ g.len+txt.length ≤ g.buf.length := by
  obtain ⟨w,hw,hset⟩ := bind_ok_inv h
  obtain ⟨hroom,rfl⟩ := write_inv hw
  obtain ⟨-,rfl⟩ := setLen_inv hset
  exact ⟨rfl,by rw [List.length_set,overwrite_length hroom],hroom⟩

theorem prependUse_keeps {b' : Buffer} (hpos : 0 < txt.length) (h : prependUse txt g = .ok b') :
    b'.size = g.size ∧ b'.buf.length = g.buf.length ∧ g.len+txt.length ≤ g.buf.length := by
  obtain ⟨w,hw,h⟩ := bind_ok_inv h
  obtain ⟨v,hv,hset⟩ := bind_ok_inv h
  obtain ⟨hroom,rfl⟩ := write_inv hw
  obtain ⟨hfront,rfl⟩ := write_inv hv
  obtain ⟨-,rfl⟩ := setLen_inv hset
  have hmoved := overwrite_length hroom
  refine ⟨rfl,?_,?_⟩
  · rw [List.length_set,overwrite_length hfront]
    exact hmoved
  · rw [content,List.length_take] at hroom
    omega

/-- With a position behind the string the count of the moved bytes is no count of a block's bytes. -/
theorem insertUse_keeps {b' : Buffer} {pos : ℕ} (hpos : pos < 2^64) (hlen : g.len < 2^32)
    (hblk : g.buf.length < 2^64) (h : insertUse txt pos g = .ok b') : pos ≤ g.len ∧
      b'.size = g.size ∧ b'.buf.length = g.buf.length ∧ g.len+txt.length ≤ g.buf.length := by
  obtain ⟨tail,htail,h⟩ := bind_ok_inv h
  obtain ⟨w,hw,h⟩ := bind_ok_inv h
  obtain ⟨v,hv,hset⟩ := bind_ok_inv h
  obtain ⟨-,hread,rfl⟩ := peek_inv htail
  obtain ⟨hroom,rfl⟩ := write_inv hw
  obtain ⟨hfront,rfl⟩ := write_inv hv
  obtain ⟨-,rfl⟩ := setLen_inv hset
  have hin : pos ≤ g.len := by
    by_contra hout
    have hcount : sizeT ((g.len : ℤ)-pos) = 2^64+g.len-pos := by simp only [sizeT]; omega
    omega
  have hcount : sizeT ((g.len : ℤ)-pos) = g.len-pos := sizeT_sub hin (by omega)
  have htail : (slice g.buf pos (g.len-pos)).length = g.len-pos := slice_length (by omega)
  have hmoved := overwrite_length hroom
  refine ⟨hin,rfl,?_,?_⟩
  · rw [List.length_set,overwrite_length hfront]
    exact hmoved
  · rw [Int.toNat_natCast,hcount,htail] at hroom
    omega

theorem ensureWith_any (hb : b.Allotted) (size : ℕ) : ∃ g, b.ensureWith grantAny size = (.ok,g) ∧
    g.len = b.len ∧ g.buf.length = max b.size size ∧ g.size = cuint g.buf.length := by
  unfold ensureWith
  by_cases hfit : size ≤ b.size
  · rw [if_pos hfit]
    refine ⟨b,rfl,rfl,?_,?_⟩
    · rw [max_eq_left hfit,hb.size_eq]
    · rw [← hb.size_eq,cuint_natCast hb.size_lt]
  · obtain ⟨blk,hblk,hlen⟩ := grantAny_length b.buf size
    rw [if_neg hfit]
    refine ⟨⟨blk,cuint size,b.len⟩,by simp only [hblk],rfl,?_,?_⟩
    · rw [max_eq_right (not_le.mp hfit).le]
      exact hlen
    · rw [hlen]

/-- What `http2d_buffer_insert` asks for is enough exactly when it is a `cuint_t`. -/
theorem ensureWith_insert (hb : b.Allotted) :
    ∃ g, b.ensureWith grantAny (sizeT ((b.len : ℤ)+n+1)) = (.ok,g) ∧
      g.buf.length < 2^64 ∧ g.len = b.len ∧
      (b.len+n+1 < 2^32 ∧ Ready b n g ∨ ¬ b.len+n+1 < 2^32 ∧ Spoilt g n) := by
  obtain ⟨hsize,hlt,hlen⟩ := hb
  obtain ⟨g,hg,hgl,hglen,hgsize⟩ := ensureWith_any ⟨hsize,hlt,hlen⟩ (sizeT ((b.len : ℤ)+n+1))
  have hbig : b.size < 2^64 := hlt.trans (by norm_num)
  refine ⟨g,hg,by rw [hglen]; exact max_lt hbig (sizeT_lt _),hgl,?_⟩
  by_cases hfits : b.len+n+1 < 2^32
  · rw [sizeT_add_succ (by omega)] at hglen
    have hnew : g.buf.length < 2^32 := hglen ▸ max_lt hlt hfits
    rw [cuint_natCast hnew] at hgsize
    refine Or.inl ⟨hfits,hgl,hgsize,hgsize ▸ hnew,?_⟩
    rw [hglen,hgl]
    exact lt_max_of_lt_right (Nat.lt_succ_self _)
  · refine Or.inr ⟨hfits,spoilt_of_wraps hgsize (by rw [hgl]) ?_⟩
    have hwraps : 2^32 ≤ sizeT ((b.len : ℤ)+n+1) ∨ 2^64 ≤ b.len+n+1 ∧ sizeT ((b.len : ℤ)+n+1) < b.len+n :=
      sizeT_wraps (n:=b.len+n+1) (not_lt.mp hfits) (by omega)
    rw [hglen]
    rcases hwraps with hlarge | ⟨hover,hsmall⟩
    · exact Or.inl (le_max_of_le_right hlarge)
    · refine Or.inr (max_lt ?_ hsmall)
      omega

/-- A buffer whose string was put into the memory that was made ready. -/
theorem growsRight_of_filled {b' : Buffer} {bs : List UInt8} {use : Buffer → Exec Buffer} (hg : Ready b n g)
    (huse : use g = .ok b') (hf : Filled g b' bs) (hbs : bs.length = b.len+n) :
    GrowsRight b n (granted (.ok,g) use) := by
  have hlen := hf.len_eq
  have hsize := hf.size_eq
  have hblk := hf.length_eq
  have hready := hg.size_eq
  have hroom := hg.room
  have hgl := hg.len_eq
  exact ⟨.ok,b',by rw [granted,huse]; rfl,Or.inr ⟨by omega,by omega,by omega⟩⟩

/-- What was spoilt stays so. -/
theorem not_growsRight {m : ℕ} {use : Buffer → Exec Buffer} (hg : Spoilt g n)
    (hkeeps : ∀ b', use g = .ok b' →
      b'.size = g.size ∧ b'.buf.length = g.buf.length ∧ g.len+n ≤ g.buf.length) :
    ¬ GrowsRight b m (granted (.ok,g) use) := by
  rintro ⟨ret,b',hrun,hright⟩
  obtain ⟨c,huse,hc⟩ := bind_ok_inv hrun
  obtain ⟨rfl,rfl⟩ := Prod.mk.inj (Except.ok.inj hc)
  obtain ⟨hsize,hblk,hroom⟩ := hkeeps c huse
  rcases hright with ⟨hret,-⟩ | ⟨-,-,hknown⟩
  · exact hret rfl
  · rcases hg with hg | hg
    · exact hg (by omega)
    · omega

theorem content_of_ready (hg : Ready b n g) : g.content.length = b.len := by
  have hroom := hg.room
  have hgl := hg.len_eq
  rw [content,List.length_take]
  omega

end Room

section Calls
variable {b : Buffer} {txt : List UInt8} {pos size : ℕ}

theorem addWith_iff (hb : b.Allotted) (hn : txt.length < 2^64) :
    GrowsRight b txt.length (b.addWith grantAny txt) ↔ RoomFits b txt.length := by
  have hlen := hb.len_lt
  unfold addWith
  by_cases hempty : txt.length = 0
  · rw [if_pos hempty]
    exact iff_of_true ⟨.ok,b,rfl,Or.inr ⟨by omega,hlen,hb.size_eq⟩⟩ (Or.inl (by omega))
  · obtain ⟨g,hroom,hcase⟩ := roomWith_any hb hn
    rw [if_neg hempty,hroom]
    rcases hcase with ⟨hfits,hready⟩ | ⟨hfits,hspoilt⟩
    · have hlt := hready.size_lt
      have hsize := hready.size_eq
      have hin := hready.room
      obtain ⟨b',huse,hf⟩ := append_filled txt hin (by omega)
      refine iff_of_true (growsRight_of_filled hready huse hf ?_) hfits
      rw [List.length_append,content_of_ready hready]
    · exact iff_of_false (not_growsRight hspoilt fun b' => append_keeps) hfits

theorem prependWith_iff (hb : b.Allotted) (hn : txt.length < 2^64) :
    GrowsRight b txt.length (b.prependWith grantAny txt) ↔ RoomFits b txt.length := by
  have hlen := hb.len_lt
  obtain ⟨g,hroom,hcase⟩ := roomWith_any hb hn
  rw [prependWith,hroom]
  rcases hcase with ⟨hfits,hready⟩ | ⟨hfits,hspoilt⟩
  · have hlt := hready.size_lt
    have hsize := hready.size_eq
    have hin := hready.room
    obtain ⟨b',huse,hf⟩ := prepend_filled txt hin (by omega)
    refine iff_of_true (growsRight_of_filled hready huse hf ?_) hfits
    rw [List.length_append,content_of_ready hready,Nat.add_comm]
  · have hpos : 0 < txt.length := by
      by_contra hzero
      exact hfits (Or.inl (by omega))
    exact iff_of_false (not_growsRight hspoilt fun b' => prependUse_keeps hpos) hfits

theorem insertWith_iff (hb : b.Allotted) (hp : pos < 2^64) :
    GrowsRight b txt.length (b.insertWith grantAny txt pos) ↔ pos ≤ b.len ∧ b.len+txt.length+1 < 2^32 := by
  obtain ⟨g,hg,hblk,hgl,hcase⟩ := ensureWith_insert hb
  have hshort : g.len < 2^32 := by
    have := hb.len_lt
    have := hb.size_lt
    omega
  rw [insertWith,hg]
  by_cases hpos : pos ≤ b.len
  · rcases hcase with ⟨hfits,hready⟩ | ⟨hfits,hspoilt⟩
    · have hlt := hready.size_lt
      have hsize := hready.size_eq
      have hin := hready.room
      have hcont := content_of_ready hready
      obtain ⟨b',huse,hf⟩ := insert_filled txt pos (by omega) hin (by omega)
      refine iff_of_true (growsRight_of_filled hready huse hf ?_) ⟨hpos,hfits⟩
      rw [List.length_append,List.length_append,List.length_take,List.length_drop,hcont]
      omega
    · exact iff_of_false (not_growsRight hspoilt fun b' h => (insertUse_keeps hp hshort hblk h).2)
        fun h => hfits h.2
  · refine iff_of_false ?_ fun h => hpos h.1
    rintro ⟨ret,b',hrun,-⟩
    obtain ⟨c,huse,-⟩ := bind_ok_inv hrun
    have := (insertUse_keeps hp hshort hblk huse).1
    omega

theorem ensureWith_iff (hb : b.Allotted) :
    GrowsRight b 0 (.ok (b.ensureWith grantAny size)) ↔ size < 2^32 := by
  have hlen := hb.len_lt
  have hlt := hb.size_lt
  obtain ⟨g,hg,hgl,hglen,hgsize⟩ := ensureWith_any hb size
  rw [hg]
  by_cases hfits : size < 2^32
  · rw [cuint_natCast (by omega)] at hgsize
    exact iff_of_true ⟨.ok,g,rfl,Or.inr ⟨by omega,by omega,hgsize⟩⟩ hfits
  · refine iff_of_false ?_ hfits
    rintro ⟨ret,b',hrun,hright⟩
    obtain ⟨rfl,rfl⟩ := Prod.mk.inj (Except.ok.inj hrun)
    rcases hright with ⟨hret,-⟩ | ⟨-,-,hknown⟩
    · exact hret rfl
    · have := cuint_lt g.buf.length
      omega

end Calls

end Buffer

/-- Each operation does what it says exactly when its sums fit in the fields of the buffer. -/
theorem grows_right_iff {b : Buffer} (hb : b.Allotted) (c : GrowCall) (hc : c.IsSized) :
    GrowsRight b c.added (c.run grantAny b) ↔ c.Fits b := by
  cases c with
  | add txt => exact Buffer.addWith_iff hb hc
  | prepend txt => exact Buffer.prependWith_iff hb hc
  | insert txt pos => exact Buffer.insertWith_iff hb hc.2
  | ensureSize size => exact Buffer.ensureWith_iff hb

theorem grows_right_small : GrowsRight ⟨[0],1,0⟩ 2 ((GrowCall.insert [1,2] 0).run grantAny ⟨[0],1,0⟩) ↔
    (GrowCall.insert [1,2] 0).Fits ⟨[0],1,0⟩ :=
  grows_right_iff ⟨rfl,by decide,by decide⟩ (.insert [1,2] 0) ⟨by decide,by decide⟩

/-- A text of 2^32-17 bytes is added to an empty buffer: the block gets 2^32 bytes, and the recorded size is
zero. -/
theorem not_grows_right_wrapped : Buffer.Allotted ⟨[0],1,0⟩ ∧
    (GrowCall.add (List.replicate (2^32-17) 97)).IsSized ∧
    ¬ GrowsRight ⟨[0],1,0⟩ (2^32-17) ((GrowCall.add (List.replicate (2^32-17) 97)).run grantAny ⟨[0],1,0⟩) := by
  have hb : Buffer.Allotted ⟨[0],1,0⟩ := ⟨rfl,by decide,by decide⟩
  have hlen : (List.replicate (2^32-17) (97 : UInt8)).length = 2^32-17 := List.length_replicate
  have hsized : (List.replicate (2^32-17) (97 : UInt8)).length < 2^64 := by
    rw [hlen]
    norm_num
  have hiff := Buffer.addWith_iff hb hsized
  rw [hlen] at hiff
  refine ⟨hb,hsized,fun h => ?_⟩
  have hfits := hiff.mp h
  simp only [Buffer.RoomFits] at hfits
  omega

end Http2d
