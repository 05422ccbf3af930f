import Http2d.Library.Transition
import Http2d.BufferOps

/-! Buffers refine byte strings.
Every operation does to the string in the buffer what the corresponding operation does to a list of
bytes, while the total length stays below `2^31`. Only the `int` arithmetic of
`http2d_buffer_add_char_n` stands in the way. -/
namespace Http2d

open Bytes Transition

/-- The text of a number in some base. -/
def digitsText (base n : ℕ) : List UInt8 := (Nat.toDigits base n).map fun c => UInt8.ofNat c.toNat

/-- The text of a signed decimal number. -/
def signedText (n : ℤ) : List UInt8 := if n < 0 then 45::digitsText 10 n.natAbs else digitsText 10 n.natAbs

/-- The calls that change a buffer. -/
inductive BufferOp
  | add (txt : List UInt8)
  | addChar (c : UInt8)
  | addCharN (c : UInt8) (num : Int32)
  | prepend (txt : List UInt8)
  | insert (txt : List UInt8) (pos : ℕ)
  | moveToBegin (pos : ℕ)
  | dropEnding (numChars : ℕ)
  | removeChunk (start len : ℕ)
  | clean
  | addLong10 (n : Int64)
  | addLlong10 (n : Int64)
  | addUlong10 (n : UInt64)
  | addUllong10 (n : UInt64)
  | addUlong16 (n : UInt64)
  | addUllong16 (n : UInt64)

namespace BufferOp

/-- The call on a buffer, with an allocator that has memory. -/
def exec (b : Buffer) : BufferOp → Exec (Ret × Buffer)
  | .add txt => b.addText true txt
  | .addChar c => b.addChar true c
  | .addCharN c num => b.addCharN true c num
  | .prepend txt => b.prependText true txt
  | .insert txt pos => b.insert true txt pos
  | .moveToBegin pos => .ok (.ok,b.moveToBegin pos)
  | .dropEnding numChars => b.dropEnding numChars
  | .removeChunk start len => b.removeChunk start len
  | .clean => .ok (.ok,b.clean)
  | .addLong10 n => b.addLong10 true n
  | .addLlong10 n => b.addLlong10 true n
  | .addUlong10 n => b.addUlong10 true n
  | .addUllong10 n => b.addUllong10 true n
  | .addUlong16 n => b.addUlong16 true n
  | .addUllong16 n => b.addUllong16 true n

/-- The same operation on a list of bytes. -/
def onList (bs : List UInt8) : BufferOp → List UInt8
  | .add txt => bs ++ txt
  | .addChar c => bs ++ [c]
  | .addCharN c num => bs ++ List.replicate num.toInt.toNat c
  | .prepend txt => txt ++ bs
  | .insert txt pos => bs.take pos ++ txt ++ bs.drop pos
  | .moveToBegin pos => bs.drop pos
  | .dropEnding numChars => bs.take (bs.length-numChars)
  | .removeChunk start len => bs.take start ++ bs.drop (start+len)
  | .clean => []
  | .addLong10 n => bs ++ signedText n.toInt
  | .addLlong10 n => bs ++ signedText n.toInt
  | .addUlong10 n => bs ++ digitsText 10 n.toNat
  | .addUllong10 n => bs ++ digitsText 10 n.toNat
  | .addUlong16 n => bs ++ digitsText 16 n.toNat
  | .addUllong16 n => bs ++ digitsText 16 n.toNat

/-- The position and the range lie within the content. -/
def InRange (bs : List UInt8) : BufferOp → Prop
  | .insert _ pos => pos ≤ bs.length
  | .removeChunk start len => start+len ≤ bs.length
  | _ => True

/-- A call within the bounds: its range is one of the content and the total stays below `2^31`. -/
def Admissible (bs : List UInt8) (op : BufferOp) : Prop :=
  op.InRange bs ∧ (op.onList bs).length < 2^31

/-- The condition on one call: `http2d_buffer_add_char_n` can take one character more and the free
space of the block as an `int`. -/
def Tame (b : Buffer) : BufferOp → Prop
  | .addCharN _ num => 0 < num.toInt → num.toInt+1 < 2^31 ∧ b.size-b.len < 2^31
  | _ => True

end BufferOp

section Digits

theorem toHex_digit : ∀ c : Fin 16, toHex c = UInt8.ofNat (Nat.digitChar c).toNat := by decide

theorem digitsText_step {base n : ℕ} (hbase : 1 < base) (h16 : base ≤ 16) (hn : n/base ≠ 0) :
    digitsText base n = digitsText base (n/base) ++ [toHex (n%base)] := by
  have hlt : n%base < base := Nat.mod_lt _ (by omega)
  have hdigit := toHex_digit ⟨n%base,by omega⟩
  have hsplit : Nat.toDigits base n = Nat.toDigits base (n/base) ++ [Nat.digitChar (n%base)] := by
    have := Nat.toDigits_append_toDigits (b:=base) (n:=n/base) (d:=n%base) hbase
      (Nat.pos_of_ne_zero hn) hlt
    rw [Nat.toDigits_of_lt_base hlt,Nat.div_add_mod] at this
    exact this.symm
  rw [digitsText,hsplit,List.map_append,hdigit]
  rfl

theorem digitsText_small {base n : ℕ} (hbase : 1 < base) (h16 : base ≤ 16) (hn : n/base = 0) :
    digitsText base n = [toHex (n%base)] := by
  have hlt : n < base := by
    rcases (Nat.div_eq_zero_iff).mp hn with h | h
    · omega
    · exact h
  have hdigit := toHex_digit ⟨n,by omega⟩
  rw [digitsText,Nat.toDigits_of_lt_base hlt,Nat.mod_eq_of_lt hlt,hdigit]
  rfl

/-- The loop gives the digits of the number and uses at most `k` bytes of the array. -/
theorem putDigits_spec {base : ℕ} (hbase : 1 < base) (h16 : base ≤ 16) {k n : ℕ} (hn : n < base^(k+1))
    {i : ℕ} (hi : k < i) (acc : List UInt8) :
    ∃ j, putDigits base i n acc = .ok (j,digitsText base n ++ acc) ∧ i ≤ j+(k+1) := by
  induction k generalizing n i acc with
  | zero =>
    obtain ⟨i,rfl⟩ : ∃ m, i = m+1 := ⟨i-1,by omega⟩
    have h0 : n/base = 0 := Nat.div_eq_of_lt (by simpa using hn)
    exact ⟨i,by rw [putDigits,if_pos h0,digitsText_small hbase h16 h0]; rfl,by omega⟩
  | succ k ih =>
    obtain ⟨i,rfl⟩ : ∃ m, i = m+1 := ⟨i-1,by omega⟩
    by_cases h0 : n/base = 0
    · exact ⟨i,by rw [putDigits,if_pos h0,digitsText_small hbase h16 h0]; rfl,by omega⟩
    · have hdiv : n/base < base^(k+1) := Nat.div_lt_of_lt_mul (by rw [← pow_succ']; exact hn)
      obtain ⟨j,hj,hle⟩ := ih hdiv (by omega : k < i) (toHex (n%base)::acc)
      refine ⟨j,?_,by omega⟩
      rw [putDigits,if_neg h0,hj,digitsText_step hbase h16 h0,List.append_assoc]
      rfl

end Digits

/-- No block grows beyond this size while the strings stay below `2^31`. -/
def sizeLimit : ℕ := 2^31+18

theorem cuint_cint {n : ℕ} (h : n < 2^32) : cuint (cint n) = n := by
  rw [cint]
  split_ifs <;> simp only [cuint] <;> omega

namespace Buffer

variable {mem : Bool} {b : Buffer} {txt : List UInt8}

/-- The recorded size is that of the block, and the string lies in it. In a block that was granted
just now nothing ends it yet. -/
structure Sized (b : Buffer) : Prop where
  size_eq : b.size = b.buf.length
  size_lt : b.size < 2^32
  len_le : b.len ≤ b.buf.length

theorem Wf.sized (h : b.Wf) : b.Sized := ⟨h.size_eq,h.size_lt,h.len_le⟩

/-- The block for the longer string: the new length is an `int` on its way. -/
def numberBlock (mem : Bool) (b : Buffer) (n : ℕ) : Ret × Buffer :=
  let newlen := cint (cuint (b.len+n))
  if b.size ≤ cuint newlen then b.reallocNew mem (sizeT newlen) else (.ok,b)

theorem addNumber_eq (mem : Bool) (b : Buffer) (txt : List UInt8) : b.addNumber mem txt =
    granted (b.numberBlock mem txt.length) (fun g => do
      let g ← g.write g.len (txt ++ [0])
      .ok {g with len := cuint (cint (cuint (b.len+txt.length)))}) := rfl

/-- The new string fits in the block, or the block can grow to a size that is an `int`. -/
def NumberFits (mem : Bool) (b : Buffer) (n : ℕ) : Prop :=
  b.len+n < b.size ∨ mem = true ∧ b.len+n < 2^31

theorem numberBlock_ok (hb : b.Sized) {n : ℕ} (h : NumberFits mem b n) : ∃ g,
    b.numberBlock mem n = (.ok,g) ∧ g.len = b.len ∧ g.content = b.content ∧ g.size = g.buf.length ∧
      g.size < 2^32 ∧ b.len+n < g.buf.length ∧ (g.size = b.size ∨ g.size = b.len+n+17) := by
  have hsz := hb.size_eq
  have hslt := hb.size_lt
  have hN : b.len+n < 2^32 := by
    rcases h with h | h
    · omega
    · omega
  have hnew : cuint (cint (cuint (b.len+n : ℕ))) = b.len+n := by
    rw [cuint_natCast hN,cuint_cint hN]
  unfold numberBlock
  push_cast at hnew
  simp only [hnew]
  by_cases hgrow : b.size ≤ b.len+n
  · obtain ⟨hmem,hint⟩ := h.resolve_left (not_lt.mpr hgrow)
    have hsize : sizeT (cint (cuint (b.len+n))) = b.len+n := by
      have : cuint ((b.len : ℤ)+n) = b.len+n := cuint_add (by omega)
      rw [this,cint_of_lt hint,sizeT_natCast (by omega)]
    rw [if_pos hgrow,hsize]
    rcases reallocNew_cases mem hsz (by omega : b.size ≤ b.len+n+17) (by omega) with ⟨hr,_⟩ | ⟨_,heq⟩
    · exact absurd hr (hmem ▸ not_refused (by omega))
    · have hsize : (b.extend (b.len+n+17-b.size)).size = b.len+n+17 := by
        rw [extend_size (by omega),extend_length]
        omega
      refine ⟨_,heq,rfl,extend_content hb.len_le _,extend_size (by omega),by omega,?_,Or.inr hsize⟩
      rw [extend_length]
      omega
  · rw [if_neg hgrow]
    exact ⟨b,rfl,rfl,rfl,hsz,hslt,by omega,Or.inl rfl⟩

/-- The text and its terminator are copied behind the string. -/
theorem addNumber_spec (hb : b.Sized) (h : NumberFits mem b txt.length) : ∃ c,
    b.addNumber mem txt = .ok (.ok,c) ∧ c.Wf ∧ c.content = b.content ++ txt ∧
      c.len = b.len+txt.length ∧ (c.size = b.size ∨ c.size = b.len+txt.length+17) := by
  obtain ⟨g,hg,hgl,hcont,hgs,hglt,hroom,hsize⟩ := numberBlock_ok hb h
  have hN : b.len+txt.length < 2^32 := by omega
  have hnew : cuint (cint (cuint (b.len+txt.length))) = b.len+txt.length := by
    have : cuint ((b.len : ℤ)+txt.length) = b.len+txt.length := cuint_add (by omega)
    rw [this,cuint_cint hN]
  obtain ⟨hw,hf⟩ := terminated_filled (g:=g) txt (by omega)
  refine ⟨_,?_,hf.wf hgs hglt,hf.content_eq.trans (by rw [hcont]),by rw [hgl],hsize⟩
  rw [addNumber_eq,hg,granted,hw]
  simp only [ok_bind,hnew,hgl]

end Buffer

/-- The buffer holds the string `bs` in a block of bounded size. -/
structure Keeps (b : Buffer) (bs : List UInt8) : Prop where
  wf : b.Wf
  content_eq : b.content = bs
  size_le : b.size ≤ sizeLimit

/-- The call succeeds and leaves the string `bs`. -/
def Yields (x : Exec (Ret × Buffer)) (bs : List UInt8) : Prop := ∃ b, x = .ok (.ok,b) ∧ Keeps b bs

namespace Keeps

open Buffer

variable {b : Buffer} {bs : List UInt8}

theorem init : Keeps Buffer.init [] := ⟨init_wf,rfl,by decide⟩

theorem len_eq (h : Keeps b bs) : b.len = bs.length := by rw [← h.content_eq,content_length h.wf]

theorem of_filled {g b : Buffer} (h : Filled g b bs) (hsize : g.size = g.buf.length)
    (hle : g.size ≤ sizeLimit) : Keeps b bs :=
  ⟨h.wf hsize (by simp only [sizeLimit] at hle; omega),h.content_eq,h.size_eq.trans_le hle⟩

/-- A text that fits behind the string in the block that was granted. -/
theorem append_yields {g : Buffer} {txt : List UInt8} (hcont : g.content = bs)
    (hsize : g.size = g.buf.length) (hle : g.size ≤ sizeLimit)
    (hfit : g.len+txt.length < g.buf.length) :
    Yields (granted (.ok,g) (·.append txt)) (bs ++ txt) := by
  have hlt := hle
  simp only [sizeLimit] at hlt
  obtain ⟨b',hb,hf⟩ := append_filled txt hfit (by omega)
  exact ⟨b',by simp [granted,hb],of_filled (hcont ▸ hf) hsize hle⟩

/-- The block with more bytes behind it. -/
theorem extend (h : Keeps b bs) {n : ℕ} (hn : b.size+n ≤ sizeLimit) :
    (b.extend n).content = bs ∧ (b.extend n).size = (b.extend n).buf.length ∧
      (b.extend n).buf.length = b.size+n := by
  have hsz := h.wf.size_eq
  simp only [sizeLimit] at hn
  exact ⟨(extend_content h.wf.len_le n).trans h.content_eq,extend_size (by omega),
    by rw [extend_length,hsz]⟩

/-- The block that `room` grants for `n` more bytes. -/
theorem room_granted (h : Keeps b bs) {n : ℕ} (hlen : bs.length+n < 2^31) :
    ∃ g, b.room true n = (.ok,g) ∧ g.len = b.len ∧ g.content = bs ∧ g.size = g.buf.length ∧
      g.len+n < g.buf.length ∧ g.size ≤ sizeLimit := by
  have hbl := h.len_eq
  have hle := h.wf.len_le
  have hsz := h.wf.size_eq
  have hs := h.size_le
  rcases room_cases true h.wf (by omega : n < 2^63) with ⟨hfit,heq⟩ | ⟨_,hr,_⟩ | ⟨hge,_,heq⟩
  · exact ⟨b,heq,rfl,h.content_eq,hsz,by omega,hs⟩
  · have hsmall : b.size+b.shortBy n+17 < 2^63 := by
      simp only [sizeLimit] at hs
      unfold shortBy
      split_ifs <;> omega
    exact absurd hr (not_refused hsmall)
  · have hshort : b.shortBy n = n-(b.size-b.len) := by
      rw [shortBy,if_pos (by omega)]
    rw [hshort] at heq
    obtain ⟨hcont,hgs,hgl⟩ := h.extend (n:=n-(b.size-b.len)+17) (by simp only [sizeLimit]; omega)
    exact ⟨_,heq,rfl,hcont,hgs,by rw [hgl,extend_len]; omega,
      by rw [hgs,hgl]; simp only [sizeLimit]; omega⟩

theorem addText (h : Keeps b bs) {txt : List UInt8} (hlen : bs.length+txt.length < 2^31) :
    Yields (b.addText true txt) (bs ++ txt) := by
  unfold Buffer.addText
  split_ifs with h0
  · have hnil : txt = [] := List.length_eq_zero_iff.mp h0
    exact ⟨b,rfl,by simpa [hnil] using h⟩
  · obtain ⟨g,hg,hgl,hcont,hgs,hfit,hle⟩ := h.room_granted hlen
    rw [hg]
    exact append_yields hcont hgs hle hfit

/-- The block after a request of `inc` bytes more. -/
theorem reallocInc_granted (h : Keeps b bs) {inc : ℕ} (hinc : b.size+inc+17 ≤ sizeLimit) :
    ∃ g, b.reallocInc true inc = (.ok,g) ∧ g.len = b.len ∧ g.content = bs ∧
      g.size = g.buf.length ∧ g.buf.length = b.size+inc+17 := by
  have hle := hinc
  simp only [sizeLimit] at hle
  rcases reallocInc_cases true h.wf.size_eq (by omega : b.size+inc+17 < 2^64) with
    ⟨hr,_⟩ | ⟨_,heq⟩
  · exact absurd hr (not_refused (by omega))
  · obtain ⟨hcont,hgs,hgl⟩ := h.extend (n:=inc+17) (by omega)
    exact ⟨_,heq,rfl,hcont,hgs,by rw [hgl]; omega⟩

theorem addChar (h : Keeps b bs) (c : UInt8) (hlen : bs.length+1 < 2^31) :
    Yields (b.addChar true c) (bs ++ [c]) := by
  have hbl := h.len_eq
  have hle := h.wf.len_le
  have hsz := h.wf.size_eq
  have hs := h.size_le
  have hnew : cuint ((b.len : ℤ)+1) = b.len+1 := cuint_succ (by omega)
  unfold Buffer.addChar
  rw [hnew]
  split_ifs with hfast
  · exact append_yields h.content_eq hsz hs (by simp; omega)
  · have hmax : b.size+1+17 ≤ sizeLimit := by simp only [sizeLimit]; omega
    obtain ⟨g,hg,hgl,hcont,hgs,hgb⟩ := h.reallocInc_granted hmax
    rw [hg]
    exact append_yields hcont hgs (by omega) (by simp; omega)

/-- While the sums fit in an `int`, the memory is counted right. -/
theorem addCharN (h : Keeps b bs) (c : UInt8) (num : Int32)
    (hlen : bs.length+num.toInt.toNat < 2^31)
    (htame : 0 < num.toInt → num.toInt+1 < 2^31 ∧ b.size-b.len < 2^31) :
    Yields (b.addCharN true c num) (bs ++ List.replicate num.toInt.toNat c) := by
  have hbl := h.len_eq
  have hle := h.wf.len_le
  have hsz := h.wf.size_eq
  have hs := h.size_le
  unfold Buffer.addCharN
  simp only
  split_ifs with hpos
  · have h0 : num.toInt.toNat = 0 := by omega
    exact ⟨b,rfl,by simpa [h0] using h⟩
  obtain ⟨hnum,hfree⟩ := htame (by omega)
  obtain ⟨n,hn⟩ : ∃ n : ℕ, num.toInt = n := ⟨num.toInt.toNat,by omega⟩
  have hfr : cint (cuint ((b.size : ℤ)-b.len)) = (b.size-b.len : ℕ) := by
    rw [cuint_sub (by omega) h.wf.size_lt,cint_of_lt hfree]
  rw [hn] at hnum hlen hpos ⊢
  rw [hfr,intValue_ok (by omega) hnum,ok_bind,Int.toNat_natCast]
  split_ifs with hshort
  · rw [intValue_ok (by omega) (by omega),ok_bind]
    have hinc : sizeT ((n : ℤ)-(b.size-b.len : ℕ)) = n-(b.size-b.len) := by
      simp only [sizeT]; omega
    have hmax : b.size+(n-(b.size-b.len))+17 ≤ sizeLimit := by simp only [sizeLimit]; omega
    obtain ⟨g,hg,hgl,hcont,hgs,hgb⟩ := h.reallocInc_granted hmax
    rw [hinc,hg]
    exact append_yields hcont hgs (by omega) (by simp; omega)
  · exact append_yields h.content_eq hsz hs (by simp; omega)

theorem prependText (h : Keeps b bs) {txt : List UInt8} (hlen : bs.length+txt.length < 2^31) :
    Yields (b.prependText true txt) (txt ++ bs) := by
  have hbl := h.len_eq
  obtain ⟨g,hg,hgl,hcont,hgs,hfit,hle⟩ := h.room_granted hlen
  obtain ⟨b',hb,hf⟩ := prepend_filled txt hfit (by omega)
  refine ⟨b',?_,of_filled (hcont ▸ hf) hgs hle⟩
  simp only [Buffer.prependText,hg,granted]
  rw [hb,ok_bind]

/-- The block after `http2d_buffer_ensure_size`. -/
theorem ensure_granted (h : Keeps b bs) {n : ℕ} (hn : n ≤ sizeLimit) :
    ∃ g, b.ensure true n = (.ok,g) ∧ g.len = b.len ∧ g.content = bs ∧ g.size = g.buf.length ∧
      n ≤ g.buf.length ∧ g.size ≤ sizeLimit := by
  have hsz := h.wf.size_eq
  have hs := h.size_le
  rcases ensure_cases true hsz n with ⟨hfit,heq⟩ | ⟨_,hr,_⟩ | ⟨hlt,_,heq⟩
  · exact ⟨b,heq,rfl,h.content_eq,hsz,by omega,hs⟩
  · simp only [sizeLimit] at hn
    exact absurd hr (not_refused (by omega))
  · obtain ⟨hcont,hgs,hgl⟩ := h.extend (n:=n-b.size) (by omega)
    exact ⟨_,heq,rfl,hcont,hgs,by omega,by omega⟩

theorem insert (h : Keeps b bs) {txt : List UInt8} {pos : ℕ} (hpos : pos ≤ bs.length)
    (hlen : bs.length+txt.length < 2^31) :
    Yields (b.insert true txt pos) (bs.take pos ++ txt ++ bs.drop pos) := by
  have hbl := h.len_eq
  have hwant : sizeT ((b.len : ℤ)+txt.length+1) = b.len+txt.length+1 := sizeT_add_succ (by omega)
  obtain ⟨g,hg,hgl,hcont,hgs,hfit,hle⟩ := h.ensure_granted (n:=b.len+txt.length+1)
    (by simp only [sizeLimit]; omega)
  obtain ⟨b',hb,hf⟩ := insert_filled (g:=g) txt pos (by omega) (by omega) (by omega)
  refine ⟨b',?_,of_filled (hcont ▸ hf) hgs hle⟩
  rw [Buffer.insert_eq,hwant,hg,hb,ok_bind]

theorem addNumber (h : Keeps b bs) {txt : List UInt8} (hlen : bs.length+txt.length < 2^31) :
    Yields (b.addNumber true txt) (bs ++ txt) := by
  have hbl := h.len_eq
  have hs := h.size_le
  have hfits : NumberFits true b txt.length := Or.inr ⟨rfl,by omega⟩
  obtain ⟨c,hcall,hwf,hcont,-,hsize⟩ := addNumber_spec h.wf.sized hfits
  refine ⟨c,hcall,hwf,hcont.trans (by rw [h.content_eq]),?_⟩
  rcases hsize with hsize | hsize
  · omega
  · rw [hsize]
    simp only [sizeLimit]
    omega

theorem addUnsigned (h : Keeps b bs) {base : ℕ} {k : ℕ} (hbase : 1 < base) (h16 : base ≤ 16)
    (hk : 2^64 ≤ base^(k+1)) (hi : k < iosNumbuf-1) {n : UInt64}
    (hlen : (bs ++ digitsText base n.toNat).length < 2^31) :
    Yields (b.addUnsigned true base n) (bs ++ digitsText base n.toNat) := by
  obtain ⟨j,hj,_⟩ := putDigits_spec hbase h16 (n.toNat_lt.trans_le hk) hi []
  rw [List.append_nil] at hj
  simp only [Buffer.addUnsigned,hj,ok_bind]
  rw [List.length_append] at hlen
  exact h.addNumber hlen

theorem addSigned (h : Keeps b bs) {n : Int64} (hlen : (bs ++ signedText n.toInt).length < 2^31) :
    Yields (b.addSigned true n) (bs ++ signedText n.toInt) := by
  have hlo := n.le_toInt
  have hhi := n.toInt_lt
  have hnat : (if n.toInt < 0 then sizeT (-(sizeT n.toInt : ℤ)) else sizeT n.toInt) = n.toInt.natAbs := by
    split_ifs <;> simp only [sizeT] <;> omega
  obtain ⟨j,hj,hle⟩ := putDigits_spec (k:=19) (by decide) (by decide)
    (by omega : n.toInt.natAbs < 10^20) (by decide : 19 < iosNumbuf-1) []
  rw [List.append_nil] at hj
  have hj0 : j ≠ 0 := by
    simp only [iosNumbuf] at hle
    omega
  simp only [Buffer.addSigned,hnat,hj,ok_bind,if_neg hj0]
  rw [List.length_append] at hlen
  unfold signedText at hlen ⊢
  split_ifs at hlen ⊢
  · exact h.addNumber hlen
  · exact h.addNumber hlen

theorem dropEnding (h : Keeps b bs) (n : ℕ) : Yields (b.dropEnding n) (bs.take (bs.length-n)) := by
  have hbl := h.len_eq
  have hs := h.size_le
  unfold Buffer.dropEnding
  split_ifs with hnil
  · have h0 : b.len = 0 := by
      have := h.wf.len_le
      rw [hnil] at this
      simpa using this
    have hbs : bs = [] := List.length_eq_zero_iff.mp (by omega)
    exact ⟨b,rfl,by simpa [hbs] using h⟩
  · have hin : b.len < b.buf.length := by
      rcases h.wf.shape with ⟨hb,_⟩ | ⟨hlt,_⟩
      · exact absurd hb hnil
      · exact hlt
    obtain ⟨b',hset,hwf,_,hsize,hcont⟩ := setLen_spec b (b.len-min n b.len) h.wf.size_eq
      h.wf.size_lt (by omega)
    refine ⟨b',by simp [hset],hwf,?_,hsize.trans_le hs⟩
    rw [hcont,← h.content_eq,content,List.take_take,← content,content_length h.wf]
    congr 1
    omega

theorem removeChunk (h : Keeps b bs) {start len : ℕ} (hrange : start+len ≤ bs.length) :
    Yields (b.removeChunk start len) (bs.take start ++ bs.drop (start+len)) := by
  have hx : (bs.take start).length = start := by rw [List.length_take]; omega
  have hy : ((bs.drop start).take len).length = len := by
    rw [List.length_take,List.length_drop]
    omega
  have hcut : b.content = bs.take start ++ (bs.drop start).take len ++ bs.drop (start+len) := by
    rw [List.append_assoc,← List.drop_drop,List.take_append_drop,List.take_append_drop,h.content_eq]
  obtain ⟨b',hcall,hwf,hcont,hsize⟩ := removeChunk_spec h.wf hcut
  rw [hx,hy] at hcall
  exact ⟨b',hcall,hwf,hcont,hsize.trans_le h.size_le⟩

theorem clean (h : Keeps b bs) : Keeps b.clean [] := ⟨clean_wf h.wf,clean_content b,h.size_le⟩

theorem moveToBegin (h : Keeps b bs) (pos : ℕ) : Keeps (b.moveToBegin pos) (bs.drop pos) := by
  refine ⟨moveToBegin_wf h.wf pos,by rw [moveToBegin_content h.wf,h.content_eq],?_⟩
  unfold Buffer.moveToBegin
  split_ifs
  · exact h.size_le
  · exact h.size_le

/-- Every call within the bounds does to the string what it does to the list. -/
theorem exec (h : Keeps b bs) {op : BufferOp} (hadm : op.Admissible bs) (htame : op.Tame b) :
    Yields (op.exec b) (op.onList bs) := by
  obtain ⟨hrange,hlen⟩ := hadm
  have hsum {txt : List UInt8} (hl : (bs ++ txt).length < 2^31) : bs.length+txt.length < 2^31 := by
    rwa [List.length_append] at hl
  cases op with
  | add txt => exact h.addText (hsum hlen)
  | addChar c => exact h.addChar c (hsum hlen)
  | addCharN c num => exact h.addCharN c num (by simpa [BufferOp.onList] using hlen) htame
  | prepend txt => exact h.prependText (by simpa [BufferOp.onList,Nat.add_comm] using hlen)
  | insert txt pos =>
    have hpos : pos ≤ bs.length := hrange
    simp only [BufferOp.onList,List.length_append,List.length_take,List.length_drop] at hlen
    exact h.insert hpos (by omega)
  | moveToBegin pos => exact ⟨_,rfl,h.moveToBegin pos⟩
  | dropEnding numChars => exact h.dropEnding numChars
  | removeChunk start len => exact h.removeChunk hrange
  | clean => exact ⟨_,rfl,h.clean⟩
  | addLong10 n => exact h.addSigned hlen
  | addLlong10 n => exact h.addSigned hlen
  | addUlong10 n => exact h.addUnsigned (k:=19) (by decide) (by decide) (by decide) (by decide) hlen
  | addUllong10 n => exact h.addUnsigned (k:=19) (by decide) (by decide) (by decide) (by decide) hlen
  | addUlong16 n => exact h.addUnsigned (k:=15) (by decide) (by decide) (by decide) (by decide) hlen
  | addUllong16 n => exact h.addUnsigned (k:=15) (by decide) (by decide) (by decide) (by decide) hlen

end Keeps

/-- A buffer and the list of bytes that is driven by the same calls. -/
structure Driven where
  buffer : Buffer
  bytes : List UInt8

namespace Driven

def init : Driven := ⟨Buffer.init,[]⟩

/-- One call on both; none when it does not return a success. -/
def step (s : Driven) (op : BufferOp) : Option Driven :=
  match op.exec s.buffer with
  | .ok (.ok,b) => some ⟨b,op.onList s.bytes⟩
  | _ => none

/-- The content is the list; without a block the buffer is empty, and else the string ends inside the
block with a NUL. -/
structure Agrees (s : Driven) : Prop where
  content : s.buffer.content = s.bytes
  shape : s.buffer.buf = [] ∧ s.buffer.len = 0 ∧ s.buffer.size = 0 ∨
    s.buffer.len < s.buffer.size ∧ s.buffer.size ≤ s.buffer.buf.length ∧
      s.buffer.buf[s.buffer.len]? = some 0

theorem agrees_of_keeps {s : Driven} (h : Keeps s.buffer s.bytes) : s.Agrees := by
  refine ⟨h.content_eq,?_⟩
  have hsz := h.wf.size_eq
  rcases h.wf.shape with ⟨hnil,h0⟩ | ⟨hlt,hnul⟩
  · exact Or.inl ⟨hnil,h0,by rw [hsz,hnil]; rfl⟩
  · exact Or.inr ⟨by omega,by omega,hnul⟩

/-- The calls that are within the bounds. -/
def Admissible (s : Driven) (op : BufferOp) : Prop := op.Admissible s.bytes

/-- The condition on the calls of a run. -/
def Tame (s : Driven) (op : BufferOp) : Prop := op.Tame s.buffer

/-- Every run of calls within the bounds that meet the condition goes through, and its result
agrees. -/
theorem run_agrees {ops : List BufferOp} (hadm : Guarded step Admissible init ops)
    (htame : Guarded step Tame init ops) : ∃ t, run step init ops = some t ∧ t.Agrees := by
  obtain ⟨t,ht,hkeep⟩ := guarded_run_exists (fun s op => Admissible s op ∧ Tame s op)
    (fun s => Keeps s.buffer s.bytes) (fun s op hs hg => by
      obtain ⟨b,hb,hk⟩ := hs.exec hg.1 hg.2
      exact ⟨⟨b,op.onList s.bytes⟩,by simp [step,hb],hk⟩) Keeps.init (hadm.and htame)
  exact ⟨t,ht,agrees_of_keeps hkeep⟩

/-- Characters, a text put between them, a number and a cut. -/
def edits : List BufferOp := [.addCharN 97 3,.insert [98] 1,.addUlong10 7,.dropEnding 1]

theorem run_agrees_edits : ∃ t, run step init edits = some t ∧ t.Agrees := by
  refine run_agrees ⟨⟨trivial,by decide⟩,fun s hs => ?_⟩
    ⟨fun _ => ⟨by decide,by decide⟩,fun s hs => ⟨trivial,fun s hs => ⟨trivial,fun s hs => ⟨trivial,fun _ _ => trivial⟩⟩⟩⟩
  cases hs
  refine ⟨⟨show 1 ≤ _ by decide,by decide⟩,fun s hs => ?_⟩
  cases hs
  refine ⟨⟨trivial,by decide⟩,fun s hs => ?_⟩
  cases hs
  exact ⟨⟨trivial,by decide⟩,fun _ _ => trivial⟩

/-- As many characters as an `int` can count. -/
def mostChars : List BufferOp := [.addCharN 120 2147483647]

theorem not_run_agrees_mostChars :
    Guarded step Admissible init mostChars ∧ ¬ ∃ t, run step init mostChars = some t ∧ t.Agrees := by
  have hnum : (2147483647 : Int32).toInt = 2147483647 := by decide
  refine ⟨⟨⟨trivial,?_⟩,fun _ _ => trivial⟩,?_⟩
  · simp only [BufferOp.onList,hnum,init,List.nil_append,List.length_replicate]
    decide
  · rintro ⟨t,ht,_⟩
    have hfault : Buffer.init.addCharN true 120 2147483647 = .error .fault := by
      simp only [Buffer.addCharN,hnum,intValue]
      rfl
    simp [mostChars,run,step,BufferOp.exec,init,hfault] at ht

end Driven

end Http2d
