import Http2d.Md5
import Http2d.Sha1
import Http2d.Base64
import Http2d.BufferFailure

/-! The digests of a buffer: raw, in hexadecimal digits in place of the text, and in base64.
What the allocations return is not looked at; the writes go to whatever block there is. -/
namespace Http2d
namespace Buffer

open Bytes Md5 Sha1

/-- Write `txt` and its terminator over the string of `b`. -/
def replaceText (b : Buffer) (txt : List UInt8) : Exec (Ret × Buffer) := do
  let w ← b.write 0 (txt ++ [0])
  .ok (.ok,{w with len := txt.length})

/-- `MD5Init`, `MD5Update` and `MD5Final` on the text of a buffer; the context is on the stack. -/
def md5Of (ctx : MD5Context) (b : Buffer) : Exec (List UInt8) := do
  let txt ← peek b.buf 0 b.len
  let ctx ← md5Update (md5Init ctx) txt
  let (digest,_) ← md5Final ctx
  .ok digest

/-- `sha_init`, `sha_update` and `sha_final` on the text of a buffer; its length is passed as an
`int`. -/
def sha1Of (info : ShaInfo) (b : Buffer) : Exec (List UInt8) := do
  let info ← shaUpdate (shaInit info) b.buf (cint b.len)
  let (digest,_) ← shaFinal info
  .ok digest

/-- A digest is written as `text` of it to a buffer that was asked to have `size` bytes. -/
def digestInto (digest : Exec (List UInt8)) (text : List UInt8 → List UInt8) (size : ℕ) (mem : Bool)
    (target : Buffer) : Exec (Ret × Buffer) := do
  let digest ← digest
  (target.ensure mem size).2.replaceText (text digest)

/-- `http2d_buffer_encode_md5_digest`. -/
def encodeMd5Digest (mem : Bool) (ctx : MD5Context) (buf : Buffer) : Exec (Ret × Buffer) :=
  digestInto (md5Of ctx buf) hexText 34 mem buf

/-- `http2d_buffer_encode_md5`. -/
def encodeMd5 (mem : Bool) (ctx : MD5Context) (buf encoded : Buffer) : Exec (Ret × Buffer) :=
  digestInto (md5Of ctx buf) id 17 mem encoded

/-- `http2d_buffer_encode_sha1`. -/
def encodeSha1 (mem : Bool) (info : ShaInfo) (buf encoded : Buffer) : Exec (Ret × Buffer) :=
  digestInto (sha1Of info buf) id 21 mem encoded

/-- `http2d_buffer_encode_sha1_digest`. -/
def encodeSha1Digest (mem : Bool) (info : ShaInfo) (buf : Buffer) : Exec (Ret × Buffer) :=
  digestInto (sha1Of info buf) hexText 41 mem buf

/-- `http2d_buffer_encode_sha1_base64`: what the calls return is not looked at. Both buffers come
back, `buf` first. -/
def encodeSha1Base64 (mem : ℕ → Bool) (info : ShaInfo) (buf encoded : Buffer) :
    Exec (Ret × Buffer × Buffer) := do
  let encoded := (encoded.ensure (mem 0) 41).2.clean
  let (_,encoded) ← encodeSha1 (mem 1) info buf encoded
  let (_,buf) ← encoded.encodeBase64 (mem 2) buf
  let (_,encoded) ← encoded.clean.addText (mem 3) buf.content
  .ok (.ok,buf,encoded)

variable {b buf encoded : Buffer}

/-- A text that has room replaces the string; one that has none is written behind the block. -/
theorem replaceText_spec (txt : List UInt8) (hsize : b.size = b.buf.length) (hlt : b.size < 2^32) :
    (txt.length < b.buf.length → ∃ b', b.replaceText txt = .ok (.ok,b') ∧ b'.Wf ∧
      b'.content = txt ∧ b'.size = b.size) ∧
    (b.buf.length ≤ txt.length → b.replaceText txt = .error .fault) := by
  refine ⟨fun hfit => ?_,fun hno => ?_⟩
  · obtain ⟨hw,hf⟩ := terminated_filled (g:={b with len := 0}) txt (by simpa using hfit)
    have hrun : b.replaceText txt =
        .ok (.ok,⟨overwrite b.buf 0 (txt ++ [0]),b.size,txt.length⟩) := by
      rw [replaceText,write_ok (by simpa using hfit)]
      rfl
    rw [Nat.zero_add] at hf
    exact ⟨_,hrun,hf.wf hsize hlt,by simpa [content] using hf.content_eq,rfl⟩
  · rw [replaceText,write,if_neg (by simpa using hno)]
    rfl

theorem md5Of_eq {ctx : MD5Context} (hctx : ctx.inp.length = 64) (hb : b.Wf) :
    md5Of ctx b = .ok (md5 b.content) := by
  have hlen := content_length hb
  have hlt := hb.len_lt
  have hpeek : peek b.buf 0 b.len = .ok b.content :=
    peek_ok b.buf 0 b.len (by have := hb.len_le; omega)
  obtain ⟨ctx₁,hrun,h₁⟩ := md5Update_spec (md5Init_represents hctx) b.content (by omega)
  obtain ⟨ctx₂,hfinal⟩ := md5Final_spec h₁
  rw [md5Of,hpeek,ok_bind,hrun,ok_bind,hfinal]
  rfl

theorem sha1Of_eq {info : ShaInfo} (hinfo : info.data.length = 64) (hb : b.Wf) (h : b.len < 2^31) :
    sha1Of info b = .ok (sha1 b.content) := by
  have hlen := content_length hb
  have hblk : b.content ++ b.buf.drop b.len = b.buf := List.take_append_drop b.len b.buf
  obtain ⟨info₁,hrun,h₁⟩ := shaUpdate_spec (shaInit_represents hinfo) b.content
    (b.buf.drop b.len) (by omega)
  obtain ⟨info₂,hfinal⟩ := shaFinal_spec h₁
  rw [hblk,hlen] at hrun
  rw [sha1Of,cint_of_lt h,hrun,ok_bind,hfinal]
  rfl

/-- A text of `2^31` bytes has a negative length. -/
theorem sha1Of_fault {info : ShaInfo} (hinfo : info.data.length = 64) (hb : b.Wf)
    (h : 2^31 ≤ b.len) : sha1Of info b = .error .fault := by
  have hlt := hb.len_lt
  have hneg := cint_neg h hlt
  have hint : -2^31 ≤ cint b.len := (cint_isInt (n:=b.len)).1
  have hsmall : b.buf.length < 2^63 := by
    have := hb.size_eq
    have := hb.size_lt
    omega
  rw [sha1Of,shaUpdate_neg (shaInit_represents hinfo) hsmall hneg hint,error_bind]

/-- There is room for the text when the allocation is granted or the block has it already. -/
theorem digestInto_spec {digest : Exec (List UInt8)} {d : List UInt8} (text : List UInt8 → List UInt8)
    (size : ℕ) (mem : Bool) (hd : digest = .ok d) (hbs : b.size = b.buf.length)
    (hbl : b.size < 2^32) (hsize : (text d).length < size) (hlt : size < 2^32) :
    (mem = true ∨ (text d).length < b.size →
      ∃ b', digestInto digest text size mem b = .ok (.ok,b') ∧ b'.Wf ∧ b'.content = text d ∧
        b.size ≤ b'.size) ∧
    (mem = false → b.size ≤ (text d).length →
      digestInto digest text size mem b = .error .fault) := by
  rw [digestInto,hd,ok_bind]
  rcases ensure_cases mem hbs size with ⟨hfit,heq⟩ | ⟨hgrow,hr,heq⟩ | ⟨hgrow,hr,heq⟩
  · obtain ⟨hok,_⟩ := replaceText_spec (text d) hbs hbl
    rw [heq]
    refine ⟨fun _ => ?_,fun _ hno => by omega⟩
    obtain ⟨b',hrun,hwf,hcont,hsz⟩ := hok (by omega)
    exact ⟨b',hrun,hwf,hcont,hsz.ge⟩
  · obtain ⟨hok,hno⟩ := replaceText_spec (text d) hbs hbl
    rw [heq]
    refine ⟨fun hmem => ?_,fun _ hfull => hno (by omega)⟩
    have hfalse : mem ≠ true := by
      rintro rfl
      exact not_refused (by omega : size < 2^63) hr
    obtain ⟨b',hrun,hwf,hcont,hsz⟩ := hok (by have := hmem.resolve_left hfalse; omega)
    exact ⟨b',hrun,hwf,hcont,hsz.ge⟩
  · have hgs : (b.extend (size-b.size)).size = (b.extend (size-b.size)).buf.length :=
      extend_size (by omega)
    have hgl : (b.extend (size-b.size)).buf.length = size := by rw [extend_length]; omega
    obtain ⟨hok,_⟩ := replaceText_spec (text d) hgs (by omega)
    rw [heq]
    refine ⟨fun _ => ?_,fun hmem _ => absurd (Or.inl hmem) hr⟩
    obtain ⟨b',hrun,hwf,hcont,hsz⟩ := hok (by omega)
    exact ⟨b',hrun,hwf,hcont,by omega⟩

theorem words_bytes_length (w : Md5.Words) : w.bytes.length = 16 := by
  simp [Md5.Words.bytes]

theorem md5_length (m : List UInt8) : (md5 m).length = 16 := words_bytes_length _

theorem sha1_length (m : List UInt8) : (sha1 m).length = 20 := by
  simp [sha1,Sha1.Words.bytes]

end Buffer

open Bytes Md5 Sha1 Buffer

/-- The calls that leave a digest in a buffer. -/
inductive DigestCall
  | md5Digest | md5 | sha1 | sha1Digest
  deriving DecidableEq, Repr

namespace DigestCall

/-- The call on the two buffers; the contexts are what the stack holds. -/
def run (c : DigestCall) (mem : Bool) (ctx : MD5Context) (info : ShaInfo) (buf encoded : Buffer) :
    Exec (Ret × Buffer) :=
  match c with
  | .md5Digest => encodeMd5Digest mem ctx buf
  | .md5 => encodeMd5 mem ctx buf encoded
  | .sha1 => encodeSha1 mem info buf encoded
  | .sha1Digest => encodeSha1Digest mem info buf

/-- The buffer that the call writes to. -/
def target (c : DigestCall) (buf encoded : Buffer) : Buffer :=
  match c with
  | .md5Digest | .sha1Digest => buf
  | .md5 | .sha1 => encoded

/-- What it should leave there of the text `m`. -/
def text (c : DigestCall) (m : List UInt8) : List UInt8 :=
  match c with
  | .md5Digest => hexText (Md5.md5 m)
  | .md5 => Md5.md5 m
  | .sha1 => Sha1.sha1 m
  | .sha1Digest => hexText (Sha1.sha1 m)

/-- The texts whose length the call can take. -/
def Takes (c : DigestCall) (buf : Buffer) : Prop :=
  match c with
  | .md5Digest | .md5 => True
  | .sha1 | .sha1Digest => buf.len < 2^31

variable {mem : Bool} {ctx : MD5Context} {info : ShaInfo} {buf encoded : Buffer}

/-- A call leaves the digest of the text, in its form, when it takes the length and its allocation
is granted or was not needed; without the memory it writes behind the block. -/
theorem run_spec (c : DigestCall) (hbuf : buf.Wf) (henc : encoded.Wf) (hctx : ctx.inp.length = 64)
    (hinfo : info.data.length = 64) :
    (c.Takes buf ∧ (mem = true ∨ (c.text buf.content).length < (c.target buf encoded).size) →
      ∃ b', c.run mem ctx info buf encoded = .ok (.ok,b') ∧ b'.Wf ∧
        b'.content = c.text buf.content) ∧
    (¬ (c.Takes buf ∧ (mem = true ∨ (c.text buf.content).length < (c.target buf encoded).size)) →
      c.run mem ctx info buf encoded = .error .fault) := by
  have hmd5 := md5Of_eq hctx hbuf
  have hcase {x : Exec (Ret × Buffer)} {t : Buffer} {txt : List UInt8} {P : Prop}
      (hno : ¬ P → x = .error .fault)
      (h : P → (mem = true ∨ txt.length < t.size →
          ∃ b', x = .ok (.ok,b') ∧ b'.Wf ∧ b'.content = txt ∧ t.size ≤ b'.size) ∧
        (mem = false → t.size ≤ txt.length → x = .error .fault)) :
      (P ∧ (mem = true ∨ txt.length < t.size) → ∃ b', x = .ok (.ok,b') ∧ b'.Wf ∧ b'.content = txt) ∧
        (¬ (P ∧ (mem = true ∨ txt.length < t.size)) → x = .error .fault) := by
    constructor
    · rintro ⟨hp,hroom⟩
      obtain ⟨b',hrun,hwf,hcont,_⟩ := (h hp).1 hroom
      exact ⟨b',hrun,hwf,hcont⟩
    · intro hnot
      by_cases hp : P
      · have hroom := not_or.mp fun hor => hnot ⟨hp,hor⟩
        exact (h hp).2 (Bool.eq_false_of_not_eq_true hroom.1) (not_lt.mp hroom.2)
      · exact hno hp
  have hsha (text : List UInt8 → List UInt8) (size : ℕ) (t : Buffer) (h : ¬ buf.len < 2^31) :
      digestInto (sha1Of info buf) text size mem t = .error .fault := by
    rw [digestInto,sha1Of_fault hinfo hbuf (not_lt.mp h),error_bind]
  cases c with
  | md5Digest =>
    exact hcase (fun h => absurd trivial h) fun _ => digestInto_spec hexText 34 mem hmd5
      hbuf.size_eq hbuf.size_lt (by rw [hexText_length,md5_length]; decide) (by decide)
  | md5 =>
    exact hcase (fun h => absurd trivial h) fun _ => digestInto_spec id 17 mem hmd5
      henc.size_eq henc.size_lt (by rw [id,md5_length]; decide) (by decide)
  | sha1 =>
    exact hcase (hsha id 21 encoded) fun h => digestInto_spec id 21 mem
      (sha1Of_eq hinfo hbuf h) henc.size_eq henc.size_lt (by rw [id,sha1_length]; decide) (by decide)
  | sha1Digest =>
    exact hcase (hsha hexText 41 buf) fun h => digestInto_spec hexText 41 mem
      (sha1Of_eq hinfo hbuf h) hbuf.size_eq hbuf.size_lt
      (by rw [hexText_length,sha1_length]; decide) (by decide)

theorem run_spec_holding : ∃ b', DigestCall.sha1.run true ⟨⟨0,0,0,0⟩,0,0,List.replicate 64 0⟩
      ⟨⟨0,0,0,0,0⟩,0,0,List.replicate 64 0,0⟩ (holding [97]) Buffer.init = .ok (.ok,b') ∧ b'.Wf ∧
    b'.content = DigestCall.sha1.text (holding [97]).content :=
  (run_spec .sha1 (holding_wf (by decide)) init_wf (by decide) (by decide)).1
    ⟨by simp [Takes,holding],Or.inl rfl⟩

end DigestCall

namespace Buffer

variable {mem : ℕ → Bool} {info : ShaInfo} {buf encoded : Buffer}

/-- With the memory, `encoded` gets the base64 text of the digest. When the memory for the
base64 text is refused the call still succeeds, and `encoded` gets the text itself. -/
theorem encodeSha1Base64_spec (hbuf : buf.Wf) (henc : encoded.Wf) (hinfo : info.data.length = 64)
    (hlen : buf.len < 2^31) (hmem : mem 0 = true) (hmem' : mem 3 = true) :
    ∃ buf' encoded', encodeSha1Base64 mem info buf encoded = .ok (.ok,buf',encoded') ∧
      buf'.content = encoded'.content ∧
      encoded'.content =
        if mem 2 = true ∨ 32 < buf.size then encodeText (sha1 buf.content) else buf.content := by
  have hbl := content_length hbuf
  have hbs := hbuf.size_lt
  -- the block that the digest is written to
  obtain ⟨hs,h41,hlt⟩ : (encoded.ensure (mem 0) 41).2.clean.size =
        (encoded.ensure (mem 0) 41).2.clean.buf.length ∧
      41 ≤ (encoded.ensure (mem 0) 41).2.clean.size ∧
      (encoded.ensure (mem 0) 41).2.clean.size < 2^32 := by
    have hes := henc.size_eq
    have hel := henc.size_lt
    simp only [clean,List.length_set]
    rcases ensure_cases (mem 0) hes 41 with ⟨hfit,heq⟩ | ⟨_,hr,_⟩ | ⟨hgrow,_,heq⟩
    · exact heq ▸ ⟨hes,hfit,hel⟩
    · rw [hmem] at hr
      exact absurd hr (not_refused (by decide))
    · rw [heq]
      refine ⟨extend_size (by omega),?_,?_⟩ <;> rw [extend_size (by omega),extend_length] <;> omega
  rw [encodeSha1Base64]
  generalize (encoded.ensure (mem 0) 41).2.clean = e₀ at hs h41 hlt
  dsimp only
  obtain ⟨e₁,hrun₁,hwf₁,hcont₁,hsize₁⟩ := (digestInto_spec id 21 (mem 1)
    (sha1Of_eq hinfo hbuf hlen) hs hlt (by rw [id,sha1_length]; decide) (by decide)).1
    (Or.inr (by rw [id,sha1_length]; omega))
  have hlen₁ : e₁.len = 20 := by rw [← content_length hwf₁,hcont₁,id,sha1_length]
  have hpeek : peek e₁.buf 0 20 = .ok (sha1 buf.content) := by
    have hok := peek_ok e₁.buf 0 20 (by have := hwf₁.len_le; omega)
    rw [slice,List.drop_zero,← hlen₁,← content,hcont₁] at hok
    rw [← hlen₁]
    exact hok
  have htext : (encodeText (sha1 buf.content)).length = 28 := by
    rw [encodeText_length,sha1_length]
  rw [encodeSha1,hrun₁,ok_bind]
  dsimp only
  have hwant : cuint (((e₁.len : ℤ)+4)*4)/3+1 = 33 := by rw [hlen₁]; rfl
  obtain ⟨r,buf',hrun₂,hcont₂,hlt₂⟩ : ∃ r buf', e₁.encodeBase64 (mem 2) buf = .ok (r,buf') ∧
      buf'.content = (if mem 2 = true ∨ 32 < buf.size then encodeText (sha1 buf.content)
        else buf.content) ∧ buf'.content.length < 2^31 := by
    rw [encodeBase64,hwant]
    have hgrant {g : Buffer} (hgs : g.size = g.buf.length) (hgl : g.size < 2^32)
        (hg : 33 ≤ g.buf.length) : ∃ buf', (do
          let txt ← peek e₁.buf 0 e₁.len
          let w ← g.clean.write 0 (encodeText txt ++ [0])
          .ok (Ret.ok,{w with len := cuint (encodeText txt).length})) = .ok (.ok,buf') ∧
        buf'.content = encodeText (sha1 buf.content) := by
      obtain ⟨buf',hrun,_,hcont,_⟩ := (replaceText_spec (b:=g.clean) (encodeText (sha1 buf.content))
        (by simpa [clean] using hgs) hgl).1 (by simp only [clean,List.length_set]; omega)
      rw [hlen₁,hpeek,ok_bind,cuint_natCast (by omega)]
      exact ⟨buf',hrun,hcont⟩
    rcases ensure_cases (mem 2) hbuf.size_eq 33 with ⟨hfit,heq⟩ | ⟨hgrow,hr,heq⟩ | ⟨hgrow,hr,heq⟩
    · obtain ⟨buf',hrun,hcont⟩ := hgrant hbuf.size_eq hbs (hbuf.size_eq ▸ hfit)
      rw [heq,if_pos (Or.inr (by omega : 32 < buf.size))]
      exact ⟨_,buf',hrun,hcont,by rw [hcont,htext]; decide⟩
    · have hno : ¬ (mem 2 = true ∨ 32 < buf.size) := by
        rintro (h | h)
        · rw [h] at hr
          exact absurd hr (not_refused (by decide))
        · omega
      rw [heq,if_neg hno]
      exact ⟨_,buf,rfl,rfl,hbl ▸ hlen⟩
    · obtain ⟨buf',hrun,hcont⟩ := hgrant (g:=buf.extend (33-buf.size))
        (extend_size (by have := hbuf.size_eq; omega))
        (by rw [extend_size (by have := hbuf.size_eq; omega),extend_length]
            have := hbuf.size_eq
            omega)
        (by rw [extend_length]; have := hbuf.size_eq; omega)
      have hyes : mem 2 = true := by
        by_contra h
        exact hr (Or.inl (Bool.eq_false_of_not_eq_true h))
      rw [heq,if_pos (Or.inl hyes)]
      exact ⟨_,buf',hrun,hcont,by rw [hcont,htext]; decide⟩
  have hadd : e₁.clean.len+buf'.content.length < 2^32 := by rw [clean_len]; omega
  obtain ⟨e₂,hrun₃,hcont₃,_⟩ := Atomic.addText_done (clean_wf hwf₁) hadd (Or.inr (Or.inr hmem'))
  rw [clean_content,List.nil_append] at hcont₃
  rw [hrun₂,ok_bind]
  dsimp only
  rw [hrun₃,ok_bind]
  exact ⟨buf',e₂,rfl,hcont₃.symm,hcont₃.trans hcont₂⟩

theorem encodeSha1Base64_spec_refused :
    ∃ buf' encoded', encodeSha1Base64 (fun n => n ≠ 2) ⟨⟨0,0,0,0,0⟩,0,0,List.replicate 64 0,0⟩
        (holding [97]) init = .ok (.ok,buf',encoded') ∧ buf'.content = encoded'.content ∧
      encoded'.content = if decide ((2 : ℕ) ≠ 2) = true ∨ 32 < (holding [97]).size then
        encodeText (sha1 (holding [97]).content) else (holding [97]).content :=
  encodeSha1Base64_spec (holding_wf (by decide)) init_wf (by decide) (by decide) (by decide)
    (by decide)

end Buffer
end Http2d
