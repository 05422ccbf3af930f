import Http2d.NameValue

/-! Which inflated blocks are read inside their bounds.
A block that decodes is read inside its bounds as long as the lengths of its first pair are
positive as integers of 32 bits; a block that does not decode is accepted all the same. -/
namespace Http2d

open Bytes PairBlock

/-- `n` bytes at `off` are part of the string of the buffer. -/
def Buffer.Inside (b : Buffer) (off n : ℤ) : Prop := 0 ≤ off ∧ 0 ≤ n ∧ off+n ≤ b.len

/-- The four-byte lengths that were read for a call, and the two ranges that it passes on. -/
def AddCall.Inside (c : AddCall) (b : Buffer) : Prop :=
  b.Inside (c.key-4) 4 ∧ b.Inside (c.val-4) 4 ∧ b.Inside c.key c.keyLen ∧ b.Inside c.val c.valLen

/-- `read_name_value` returns, reads and passes on nothing outside the inflated string, and
refuses a string that holds fewer bytes than its count and lengths say. -/
def ReadsInside (tmp : Buffer) (hdr : Header) : Prop :=
  ∃ ret hdr' calls, readNameValue (.ok,tmp) hdr = .ok (ret,hdr',calls) ∧ tmp.Inside 0 4 ∧
    (∀ c ∈ calls, c.Inside tmp) ∧ (decode 4 tmp.content = none → ret = .error)

/-- The string holds all the bytes that its count and lengths say, and the lengths of its first
pair are below 2^31. -/
def DecodesShort (bs : List UInt8) : Prop :=
  ∃ pairs rest, decode 4 bs = some (pairs,rest) ∧
    ∀ p ∈ pairs.head?, p.1.length < 2^31 ∧ p.2.length < 2^31

/-- Inside the string the block and the string agree. -/
theorem Buffer.Wf.slice_content {b : Buffer} {off n : ℕ} (h : off+n ≤ b.len) :
    slice b.buf off n = slice b.content off n :=
  slice_eq_of_take_eq (m:=b.len) (by simp [content]) h

theorem cint_natCast_nonneg {n : ℕ} (hn : n < 2^32) (h : 0 ≤ cint n) : n < 2^31 := by
  by_contra hge
  exact absurd (cint_neg (by omega) hn) (by omega)

/-- The lengths of the first pair, as the code reads them from a block that decodes. -/
theorem readLengths_first {tmp : Buffer} (h : tmp.Wf) {p : Pair} {rest : List UInt8}
    (hp : decodePair 4 (tmp.content.drop 4) = some (p,rest)) (hk : p.1.length < 2^31) :
    readLengths tmp.buf 4 =
        .ok ⟨8,p.1.length,8+p.1.length+4,cint p.2.length⟩ ∧
      12+p.1.length+p.2.length ≤ tmp.len ∧ slice tmp.buf 8 p.1.length = p.1 ∧
      slice tmp.buf (8+p.1.length+4) p.2.length = p.2 := by
  have hcl : tmp.content.length = tmp.len := Buffer.content_length h
  have hle := h.len_le
  have hlen := decodePair_length hp
  rw [List.length_drop] at hlen
  have hfit : 12+p.1.length+p.2.length ≤ tmp.len := by omega
  obtain ⟨h₁,h₂,h₃,h₄⟩ := decodePair_parts hp
  rw [slice_drop,← Buffer.Wf.slice_content (by omega)] at h₂ h₃ h₄
  have h₁' : beNat (slice tmp.buf 4 4) = p.1.length := by
    rw [Buffer.Wf.slice_content (by omega)]
    exact h₁
  have hoff₃ : 4+(4+p.1.length) = 8+p.1.length := by omega
  have hoff₄ : 4+(4+p.1.length+4) = 8+p.1.length+4 := by omega
  rw [hoff₃] at h₃
  rw [hoff₄] at h₄
  refine ⟨?_,hfit,h₂,h₄⟩
  have hpk₁ := peek_ok tmp.buf 4 4 (by omega)
  have hpk₂ := peek_ok tmp.buf (8+p.1.length) 4 (by omega)
  push_cast at hpk₁ hpk₂
  have hsum : (4 : ℤ)+4 = 8 := by norm_num
  simp only [readLengths,hpk₁,ok_bind,h₁',cint_of_lt hk,hsum,hpk₂,h₃]

theorem readLengths_key {obj : List UInt8} {c : AddCall} (h : readLengths obj 4 = .ok c) :
    c.keyLen = cint (beNat (slice obj 4 4)) := by
  obtain ⟨k,hk,h⟩ := bind_ok_inv h
  obtain ⟨v,hv,h⟩ := bind_ok_inv h
  obtain ⟨_,_,rfl⟩ := peek_inv hk
  rw [← Except.ok.inj h]
  rfl

/-- The loop makes one turn for each pair of a block that decodes. -/
theorem readNameValue_loop {tmp : Buffer} (h : tmp.Wf) (hdr : Header) {pairs : List Pair}
    {rest : List UInt8} (hdec : decode 4 tmp.content = some (pairs,rest)) :
    readNameValue (.ok,tmp) hdr = nameValueLoop tmp.buf pairs.length hdr [] := by
  have hcl : tmp.content.length = tmp.len := Buffer.content_length h
  have hlt := h.len_lt
  have hle := h.len_le
  obtain ⟨hcount,hbytes⟩ := decode_count hdec
  have htake : beNat (slice tmp.buf 0 4) = pairs.length := by
    rw [Buffer.Wf.slice_content (by omega)]
    exact hcount
  have hpk := peek_ok tmp.buf 0 4 (by omega)
  push_cast at hpk
  simp only [readNameValue,ne_eq,not_true_eq_false,if_false,hpk,ok_bind,htake]
  rw [cint_of_lt (by omega),Int.toNat_natCast]

/-- A block that decodes and whose first pair is short is read to its end. -/
theorem readNameValue_short {tmp : Buffer} {hdr : Header} (h : tmp.Wf) (hhdr : hdr.Wf)
    (hdec : DecodesShort tmp.content) :
    ∃ hdr' calls, readNameValue (.ok,tmp) hdr = .ok (.ok,hdr',calls) ∧ tmp.Inside 0 4 ∧
      ∀ c ∈ calls, c.Inside tmp := by
  have hcl : tmp.content.length = tmp.len := Buffer.content_length h
  have hle := h.len_le
  obtain ⟨pairs,rest,hdec,hshort⟩ := hdec
  have hread := readNameValue_loop h hdr hdec
  have hbytes := (decode_count hdec).2
  have h4 : tmp.Inside 0 4 := ⟨by omega,by omega,by omega⟩
  cases pairs with
  | nil => exact ⟨hdr,[],hread,h4,by simp⟩
  | cons p ps =>
    obtain ⟨bs',hp⟩ := decode_first hdec
    obtain ⟨hk,hv⟩ := hshort p (by simp)
    obtain ⟨hfirst,hfit,_,_⟩ := readLengths_first h hp hk
    rw [cint_of_lt hv] at hfirst
    obtain ⟨hdr',hloop,_⟩ := nameValueLoop_returns hfirst (by omega) hk hv (ps.length+1) hhdr []
    refine ⟨hdr',_,hread.trans hloop,h4,fun c hc => ?_⟩
    rw [List.nil_append] at hc
    rw [List.eq_of_mem_replicate hc]
    simp only [AddCall.Inside,Buffer.Inside]
    omega

/-- The block is read inside its bounds if and only if it decodes and its first pair is short. -/
theorem readsInside_iff {tmp : Buffer} {hdr : Header} (h : tmp.Wf) (hhdr : hdr.Wf) :
    ReadsInside tmp hdr ↔ DecodesShort tmp.content := by
  have hcl : tmp.content.length = tmp.len := Buffer.content_length h
  have hlt := h.len_lt
  have hle := h.len_le
  constructor
  · rintro ⟨ret,hdr',calls,hread,h4,hcalls,hbad⟩
    have hret := readNameValue_ret hread
    cases hdec : decode 4 tmp.content with
    | none => exact absurd (hret.symm.trans (hbad hdec)) (by decide)
    | some out =>
      obtain ⟨pairs,rest⟩ := out
      refine ⟨pairs,rest,hdec,?_⟩
      cases pairs with
      | nil => simp
      | cons p ps =>
        obtain ⟨bs',hp⟩ := decode_first hdec
        rw [readNameValue_loop h hdr hdec] at hread
        rcases (nameValueLoop_log hread).2 with ⟨h0,_⟩ | ⟨c,hc,rfl⟩
        · cases h0
        obtain ⟨_,_,hkey,hval⟩ := hcalls c (by simp)
        obtain ⟨hk₁,_⟩ := decodePair_parts hp
        have hlen := decodePair_length hp
        rw [List.length_drop] at hlen
        have hk : p.1.length < 2^31 := by
          have hsl : slice tmp.buf 4 4 = (tmp.content.drop 4).take 4 :=
            Buffer.Wf.slice_content (by omega)
          have hnn := hkey.2.1
          rw [readLengths_key hc,hsl,hk₁] at hnn
          exact cint_natCast_nonneg (by omega) hnn
        obtain ⟨hfirst,hfit,_⟩ := readLengths_first h hp hk
        rw [hfirst] at hc
        cases hc
        have hv : p.2.length < 2^31 := cint_natCast_nonneg (by omega) hval.2.1
        simpa using ⟨hk,hv⟩
  · intro hdec
    obtain ⟨hdr',calls,hread,h4,hcalls⟩ := readNameValue_short h hhdr hdec
    refine ⟨.ok,hdr',calls,hread,h4,hcalls,fun hnone => ?_⟩
    obtain ⟨pairs,rest,hsome,_⟩ := hdec
    rw [hsome] at hnone
    cases hnone

/-- A block with the pair `:path`, `/`. -/
def pathBlock : List UInt8 := encode 4 [([58,112,97,116,104],[47])]

theorem readsInside_iff_pathBlock : ReadsInside (Buffer.holding pathBlock) Header.init ↔
    DecodesShort (Buffer.holding pathBlock).content :=
  readsInside_iff (Buffer.holding_wf (by decide)) Header.init_wf

/-- A block that announces one pair and holds nothing else: its lengths are read behind its
end. -/
theorem readsInside_fails : ¬ ReadsInside (Buffer.holding [0,0,0,1]) Header.init := by
  rintro ⟨ret,hdr',calls,hread,_⟩
  have hfault : readNameValue (.ok,Buffer.holding [0,0,0,1]) Header.init = .error .fault := rfl
  rw [hfault] at hread
  cases hread

end Http2d
