import Http2d.Header
import Http2d.Library.PairBlock

/-! A SPDY request and the header block of its reply.
The block is built in a buffer: the pairs are appended one by one, and the count is put in front
at the end. -/
namespace Http2d

open Bytes PairBlock

/-- `http2d_request_spdy_phase_t`. -/
inductive RequestPhase
  | nothing | processHeader | setupRequest | init | readingPost | addHeaders | stepping
  deriving DecidableEq, Repr

/-- `http2d_request_spdy_t`: `header` is the parsed header of the request, `headerBuf` and
`headerNum` are the block of its reply. -/
structure RequestSpdy where
  phase : RequestPhase
  header : Header
  headerBuf : Buffer
  headerNum : ℕ

/-- `http2d_request_spdy_new`. -/
def RequestSpdy.new : RequestSpdy := ⟨.nothing,Header.init,Buffer.init,0⟩

/-- `req_spdy_header_add`; the results of the four additions are not looked at. -/
def reqSpdyHeaderAdd (req : RequestSpdy) (key val : List UInt8) : Exec RequestSpdy := do
  let (_,b) ← req.headerBuf.addStr (beBytes 4 key.length)
  let (_,b) ← b.addStr key
  let (_,b) ← b.addStr (beBytes 4 val.length)
  let (_,b) ← b.addStr val
  .ok {req with headerBuf := b, headerNum := req.headerNum+1}

/-- How `req_spdy_header_finish` begins: the leading header number. -/
def reqSpdyHeaderCount (req : RequestSpdy) : Exec RequestSpdy := do
  let (_,b) ← req.headerBuf.prepend (beBytes 4 req.headerNum)
  .ok {req with headerBuf := b}

/-- One `req_spdy_header_add` after another. -/
def addPairs (req : RequestSpdy) : List Pair → Exec RequestSpdy
  | [] => .ok req
  | p::ps => do
    let req ← reqSpdyHeaderAdd req p.1 p.2
    addPairs req ps

/-- A buffer that only ever grew by what was put into it. -/
def Buffer.Tight (b : Buffer) : Prop := b.Wf ∧ b.size ≤ b.len+17

theorem Buffer.init_tight : Buffer.init.Tight := ⟨Buffer.init_wf,by decide⟩

theorem Buffer.Tight.addStr {b : Buffer} (h : b.Tight) (txt : List UInt8)
    (hlen : b.len+txt.length+17 < 2^32) :
    ∃ b', b.addStr txt = .ok (.ok,b') ∧ b'.Tight ∧ b'.content = b.content ++ txt ∧
      b'.len = b.len+txt.length := by
  obtain ⟨hwf,hsize⟩ := h
  obtain ⟨b',hb,hwf',hcont,hlen',hsize'⟩ := Buffer.addStr_spec hwf txt hlen (by omega)
  exact ⟨b',hb,⟨hwf',by omega⟩,hcont,hlen'⟩

/-- A pair is appended to the block as its two fields. -/
theorem reqSpdyHeaderAdd_spec {req : RequestSpdy} (h : req.headerBuf.Tight) (key val : List UInt8)
    (hlen : req.headerBuf.len+8+key.length+val.length+17 < 2^32) :
    ∃ req', reqSpdyHeaderAdd req key val = .ok req' ∧ req'.headerBuf.Tight ∧
      req'.headerBuf.content = req.headerBuf.content ++ encodePair 4 (key,val) ∧
      req'.headerBuf.len = req.headerBuf.len+8+key.length+val.length ∧
      req'.headerNum = req.headerNum+1 := by
  obtain ⟨b₁,h₁,ht₁,hc₁,hl₁⟩ := h.addStr (beBytes 4 key.length) (by simp; omega)
  rw [beBytes_length] at hl₁
  obtain ⟨b₂,h₂,ht₂,hc₂,hl₂⟩ := ht₁.addStr key (by omega)
  obtain ⟨b₃,h₃,ht₃,hc₃,hl₃⟩ := ht₂.addStr (beBytes 4 val.length) (by simp; omega)
  rw [beBytes_length] at hl₃
  obtain ⟨b₄,h₄,ht₄,hc₄,hl₄⟩ := ht₃.addStr val (by omega)
  have hreq : reqSpdyHeaderAdd req key val =
      .ok {req with headerBuf := b₄, headerNum := req.headerNum+1} := by
    simp only [reqSpdyHeaderAdd,h₁,h₂,h₃,h₄,ok_bind]
  refine ⟨_,hreq,ht₄,?_,by show b₄.len = _; omega,rfl⟩
  simp [hc₄,hc₃,hc₂,hc₁,encodePair,encodeField]

theorem addPairs_spec {req : RequestSpdy} (h : req.headerBuf.Tight) (ps : List Pair)
    (hlen : req.headerBuf.len+(ps.flatMap (encodePair 4)).length+17 < 2^32) :
    ∃ req', addPairs req ps = .ok req' ∧ req'.headerBuf.Tight ∧
      req'.headerBuf.content = req.headerBuf.content ++ ps.flatMap (encodePair 4) ∧
      req'.headerBuf.len = req.headerBuf.len+(ps.flatMap (encodePair 4)).length ∧
      req'.headerNum = req.headerNum+ps.length := by
  induction ps generalizing req with
  | nil => exact ⟨req,rfl,h,by simp,by simp,by simp⟩
  | cons p ps ih =>
    have hp : (encodePair 4 p).length = 8+p.1.length+p.2.length := by
      simp [encodePair,encodeField_length]; omega
    simp only [List.flatMap_cons,List.length_append,hp] at hlen ⊢
    obtain ⟨r₁,h₁,ht₁,hc₁,hl₁,hn₁⟩ := reqSpdyHeaderAdd_spec h p.1 p.2 (by omega)
    obtain ⟨r₂,h₂,ht₂,hc₂,hl₂,hn₂⟩ := ih ht₁ (by omega)
    refine ⟨r₂,by simp only [addPairs,h₁,ok_bind,h₂],ht₂,?_,by omega,?_⟩
    · simp [hc₂,hc₁]
    · simp only [hn₂,hn₁,List.length_cons]; omega

/-- The finished block is the encoding of the pairs that were added. -/
theorem headerBlock_content (req : RequestSpdy) (hbuf : req.headerBuf = Buffer.init)
    (hnum : req.headerNum = 0) (ps : List Pair) (hlen : (encode 4 ps).length+17 < 2^32) :
    ∃ req₁ req₂, addPairs req ps = .ok req₁ ∧ reqSpdyHeaderCount req₁ = .ok req₂ ∧
      req₂.headerBuf.Wf ∧ req₂.headerBuf.content = encode 4 ps := by
  have hlen' : (encode 4 ps).length = 4+(ps.flatMap (encodePair 4)).length := by simp [encode]
  have h0 : req.headerBuf.len = 0 := by rw [hbuf]; rfl
  have htight : req.headerBuf.Tight := hbuf ▸ Buffer.init_tight
  obtain ⟨r₁,h₁,⟨hwf,hsize⟩,hc₁,hl₁,hn₁⟩ := addPairs_spec htight ps (by omega)
  obtain ⟨b,hb,hwf',hcont,_⟩ := Buffer.prepend_spec hwf (beBytes 4 r₁.headerNum)
    (by simp; omega) (by omega)
  refine ⟨r₁,{r₁ with headerBuf := b},h₁,by simp only [reqSpdyHeaderCount,hb,ok_bind],hwf',?_⟩
  have hcount : r₁.headerNum = ps.length := by rw [hn₁,hnum,Nat.zero_add]
  simp only [hcont,hc₁,hcount,hbuf,encode]
  rfl

end Http2d
