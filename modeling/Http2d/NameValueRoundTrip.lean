import Http2d.NameValueBounds
import Http2d.RequestSpdy

/-! Writing a header block and reading it back.
The writer is the encoder of the block format. The reader makes one call for each pair, but each
of them for the first pair. -/
namespace Http2d

open Bytes PairBlock

instance (name : List UInt8) (f : HeaderField) : Decidable (IsPseudo name f) :=
  inferInstanceAs (Decidable (_ = _))

theorem IsPseudo.unique {name : List UInt8} {f g : HeaderField} (hf : IsPseudo name f)
    (hg : IsPseudo name g) : f = g := by
  have h : f.name = g.name := (List.cons.inj (hf.symm.trans hg)).2
  revert h
  cases f <;> cases g <;> decide

/-- The call passes exactly the name and the value of the pair. -/
def AddCall.Passes (c : AddCall) (obj : List UInt8) (p : Pair) : Prop :=
  c.keyLen = p.1.length ∧ slice obj c.key.toNat p.1.length = p.1 ∧
    c.valLen = p.2.length ∧ slice obj c.val.toNat p.2.length = p.2

/-- The last value that the pairs give for a field. -/
def lastValue (ps : List Pair) (f : HeaderField) : Option (List UInt8) :=
  (ps.filter fun p => IsPseudo p.1 f).getLast?.map (·.2)

/-- Reading makes one call for each pair in order, with that pair, and every field ends with the
last value given for it. -/
def DecodesTo (tmp : Buffer) (hdr : Header) (ps : List Pair) : Prop :=
  ∃ hdr' calls, readNameValue (.ok,tmp) hdr = .ok (.ok,hdr',calls) ∧
    List.Forall₂ (fun c p => c.Passes tmp.buf p) calls ps ∧
    ∀ f v, lastValue ps f = some v → (hdr' f).content = v

/-- All pairs are the same, and their value is shorter than 2^31. -/
def AllAlike (ps : List Pair) : Prop := ∀ p ∈ ps, p.2.length < 2^31 ∧ ∀ q ∈ ps, q = p

theorem forall_of_forall₂_replicate {α β : Type} {R : α → β → Prop} {n : ℕ} {a : α} {bs : List β}
    (h : List.Forall₂ R (List.replicate n a) bs) : ∀ b ∈ bs, R a b := by
  induction bs generalizing n with
  | nil => simp
  | cons b bs ih =>
    cases n with
    | zero => cases h
    | succ n =>
      rw [List.replicate_succ,List.forall₂_cons] at h
      simpa using ⟨h.1,ih h.2⟩

theorem forall₂_replicate {α β : Type} {R : α → β → Prop} {a : α} {bs : List β}
    (h : ∀ b ∈ bs, R a b) : List.Forall₂ R (List.replicate bs.length a) bs := by
  induction bs with
  | nil => exact .nil
  | cons b bs ih =>
    rw [List.length_cons,List.replicate_succ]
    exact .cons (h b (by simp)) (ih fun c hc => h c (by simp [hc]))

theorem cint_lt (n : ℕ) : cint n < 2^31 := by
  unfold cint
  split_ifs <;> omega

theorem readLengths_valLen {obj : List UInt8} {c : AddCall} (h : readLengths obj 4 = .ok c) :
    c.valLen < 2^31 := by
  obtain ⟨k,_,h⟩ := bind_ok_inv h
  obtain ⟨v,_,h⟩ := bind_ok_inv h
  rw [← Except.ok.inj h]
  exact cint_lt _

/-- A loop over a pair with a pseudo-header sets its field, whatever the fields held before. -/
theorem nameValueLoop_sets {obj : List UInt8} {k v : ℕ} {f : HeaderField}
    (hread : readLengths obj 4 = .ok ⟨8,k,8+k+4,v⟩) (hfit : 12+k+v ≤ obj.length) (hk : k < 2^31)
    (hv : v < 2^31) (hname : IsPseudo (slice obj 8 k) f) (n : ℕ) {hdr : Header} (hhdr : hdr.Wf)
    (calls : List AddCall) :
    ∃ hdr', nameValueLoop obj n hdr calls =
        .ok (.ok,hdr',calls ++ List.replicate n ⟨8,k,8+k+4,v⟩) ∧ hdr'.Wf ∧
      ((hdr f).content = slice obj (8+k+4) v ∨ 0 < n → (hdr' f).content = slice obj (8+k+4) v) := by
  induction n generalizing hdr calls with
  | zero => exact ⟨hdr,by simp [nameValueLoop],hhdr,by simp⟩
  | succ n ih =>
    obtain ⟨hdr₁,hadd,hwf,hset,_⟩ := headerAddHeader_pseudo obj 8 k (8+k+4) v hhdr
      (by omega) hk (by omega) hv hname
    push_cast at hadd
    obtain ⟨hdr₂,hrec,hwf₂,hset₂⟩ := ih hwf (calls ++ [⟨8,k,8+k+4,v⟩])
    refine ⟨hdr₂,?_,hwf₂,fun _ => hset₂ (Or.inl hset)⟩
    rw [nameValueLoop,hread,ok_bind]
    simp only [hadd,ok_bind,ne_eq,not_true_eq_false,if_false,hrec]
    rw [List.append_assoc]
    rfl

/-- An encoded block of less than 4 GiB decodes. -/
theorem decode_encode_of_lt {ps : List Pair} (hlen : (encode 4 ps).length+17 < 2^32) :
    decode 4 (encode 4 ps) = some (ps,[]) := by
  obtain ⟨hcount,hfit⟩ := flatMap_encodePair_length (w:=4) ps
  simp only [encode,List.length_append,beBytes_length] at hlen
  have h := decode_encode (w:=4) ps [] (by omega) fun p hp => by
    have := hfit p hp
    rw [encodePair_length] at this
    omega
  rwa [List.append_nil] at h

theorem IsPseudo.length_lt {name : List UInt8} {f : HeaderField} (h : IsPseudo name f) :
    name.length < 2^31 := by
  have hl := congrArg List.length h
  have hf := f.name_length
  simp only [List.length_map,List.length_cons] at hl
  omega

/-- The block that was written reads back as the pairs if and only if they are all alike. -/
theorem decodesTo_iff {ps : List Pair} {req₁ req₂ : RequestSpdy} {tmp : Buffer} {hdr : Header}
    (hnames : ∀ p ∈ ps, ∃ f, IsPseudo p.1 f) (hlen : (encode 4 ps).length+17 < 2^32)
    (hadd : addPairs RequestSpdy.new ps = .ok req₁) (hcount : reqSpdyHeaderCount req₁ = .ok req₂)
    (htmp : tmp.Wf) (hcont : tmp.content = req₂.headerBuf.content) (hhdr : hdr.Wf) :
    DecodesTo tmp hdr ps ↔ AllAlike ps := by
  have hblock : tmp.content = encode 4 ps := by
    obtain ⟨r₁,r₂,h₁,h₂,_,hc⟩ := headerBlock_content RequestSpdy.new rfl rfl ps hlen
    rw [hadd] at h₁
    cases h₁
    rw [hcount] at h₂
    cases h₂
    rw [hcont,hc]
  have hdec : decode 4 tmp.content = some (ps,[]) := hblock ▸ decode_encode_of_lt hlen
  have hcl : tmp.content.length = tmp.len := Buffer.content_length htmp
  have hle := htmp.len_le
  have hread := readNameValue_loop htmp hdr hdec
  constructor
  · rintro ⟨hdr',calls,hreads,hcalls,_⟩
    rw [hread] at hreads
    rcases (nameValueLoop_log hreads).2 with ⟨h0,rfl⟩ | ⟨c,hc,rfl⟩
    · cases hcalls
      simp [AllAlike]
    · have hall := forall_of_forall₂_replicate hcalls
      intro p hp
      obtain ⟨hk,hks,hv,hvs⟩ := hall p hp
      refine ⟨by have := readLengths_valLen hc; omega,fun q hq => ?_⟩
      obtain ⟨hk',hks',hv',hvs'⟩ := hall q hq
      have h1 : q.1.length = p.1.length := by omega
      have h2 : q.2.length = p.2.length := by omega
      rw [h1] at hks'
      rw [h2] at hvs'
      exact Prod.ext (hks'.symm.trans hks) (hvs'.symm.trans hvs)
  · intro halike
    cases ps with
    | nil => exact ⟨hdr,[],hread,.nil,by simp [lastValue]⟩
    | cons p ps =>
      obtain ⟨hv,hsame⟩ := halike p (by simp)
      obtain ⟨f,hf⟩ := hnames p (by simp)
      obtain ⟨bs',hp⟩ := decode_first hdec
      obtain ⟨hfirst,hfit,hkey,hval⟩ := readLengths_first htmp hp hf.length_lt
      rw [cint_of_lt hv] at hfirst
      obtain ⟨hdr',hloop,_,hset⟩ := nameValueLoop_sets hfirst (by omega) hf.length_lt hv
        (by rwa [hkey]) (p::ps).length hhdr []
      have hpass : AddCall.Passes ⟨8,p.1.length,8+p.1.length+4,p.2.length⟩ tmp.buf p :=
        ⟨rfl,hkey,rfl,hval⟩
      refine ⟨hdr',_,hread.trans hloop,?_,fun g w hw => ?_⟩
      · rw [List.nil_append]
        refine forall₂_replicate fun q hq => ?_
        rw [hsame q hq]
        exact hpass
      · obtain ⟨r,hr,rfl⟩ := Option.map_eq_some_iff.mp hw
        obtain ⟨hmem,hg⟩ := List.mem_filter.mp (List.mem_of_getLast? hr)
        obtain rfl := hsame r hmem
        rw [hf.unique (of_decide_eq_true hg)] at hset
        rw [hset (Or.inr (Nat.succ_pos _)),hval]

/-- The pairs `:host`, `a` and `:HOST`, `a`. -/
def hostPairs : List Pair := [([58,104,111,115,116],[97]),([58,72,79,83,84],[97])]

theorem decodesTo_iff_hostPairs : ∃ req₁ req₂, addPairs RequestSpdy.new hostPairs = .ok req₁ ∧
    reqSpdyHeaderCount req₁ = .ok req₂ ∧
    (DecodesTo (Buffer.holding req₂.headerBuf.content) Header.init hostPairs ↔
      AllAlike hostPairs) := by
  obtain ⟨req₁,req₂,h₁,h₂,_,hcont⟩ := headerBlock_content RequestSpdy.new rfl rfl
    hostPairs (by decide)
  have hnames : ∀ p ∈ hostPairs, IsPseudo p.1 .host := by decide
  exact ⟨req₁,req₂,h₁,h₂,decodesTo_iff (fun p hp => ⟨.host,hnames p hp⟩) (by decide) h₁ h₂
    (Buffer.holding_wf (by rw [hcont]; decide)) (Buffer.content_holding _) Header.init_wf⟩

/-- Of `:path`, `/` and `:method`, `GET` the reader passes on the path twice. -/
theorem decodesTo_fails : ¬ DecodesTo
    (Buffer.holding (encode 4 [([58,112,97,116,104],[47]),([58,109,101,116,104,111,100],[71,69,84])]))
    Header.init [([58,112,97,116,104],[47]),([58,109,101,116,104,111,100],[71,69,84])] := by
  rintro ⟨hdr',calls,hread,hcalls,_⟩
  have hlog : ∃ hdr', readNameValue (.ok,Buffer.holding (encode 4
      [([58,112,97,116,104],[47]),([58,109,101,116,104,111,100],[71,69,84])])) Header.init =
      .ok (.ok,hdr',[⟨8,5,17,1⟩,⟨8,5,17,1⟩]) := ⟨_,rfl⟩
  obtain ⟨_,hlog⟩ := hlog
  rw [hlog] at hread
  cases hread
  have h := (List.forall₂_cons.mp (List.forall₂_cons.mp hcalls).2).1.1
  exact absurd h (by decide)

end Http2d
