import Http2d.Common
import Http2d.Library.WhileLoop
import Http2d.Library.ZlibStored

/-! The compression of header blocks.
`packed` and `unpacked` are the strings that the buffers of the callers hold, and `http2d_buffer_add`
puts a text behind them. zlib is a parameter. -/
namespace Http2d

open WhileLoop Zlib

/-- `SPDY_ZLIB_CHUNK`. -/
def spdyZlibChunk : ℕ := 16384

section Calls
variable (z : Impl)

/-- The variables of the loop in `http2d_spdy_zlib_deflate`: the stream, what is left of its input
and `packed`. -/
structure Packing where
  zst : z.D
  nextIn : List UInt8
  packed : List UInt8

/-- One turn of the loop; the array has `size` bytes. -/
def deflateTurn (size : ℕ) (s : Packing z) : Turn (Packing z) (Ret × z.D × List UInt8) :=
  let r := z.deflate s.zst s.nextIn size
  let availOut := size-r.out.length
  match r.code with
  | .ok =>
    if availOut = 0 then .again ⟨r.state,s.nextIn.drop r.taken,s.packed ++ r.out⟩
    else .stop (.ok,r.state,s.packed ++ r.out)
  | .streamEnd =>
    if availOut = 0 then .again ⟨z.deflateEnd r.state,s.nextIn.drop r.taken,s.packed ++ r.out⟩
    else .stop (.ok,z.deflateEnd r.state,s.packed ++ r.out)
  | _ => .stop (.error,r.state,s.packed)

/-- `http2d_spdy_zlib_deflate` returns. -/
def Deflates (zst : z.D) (buf packed : List UInt8) (result : Ret × z.D × List UInt8) : Prop :=
  ∃ fuel, WhileLoop.run (deflateTurn z buf.length) fuel ⟨zst,buf,packed⟩ = some result

/-- The variables of the loop in `http2d_spdy_zlib_inflate`. -/
structure Unpacking where
  zst : z.I
  nextIn : List UInt8
  unpacked : List UInt8

/-- One turn of the loop. -/
def inflateTurn (dictionary : List UInt8) (s : Unpacking z) :
    Turn (Unpacking z) (Ret × z.I × List UInt8) :=
  let r := z.inflate s.zst s.nextIn spdyZlibChunk
  let nextIn := s.nextIn.drop r.taken
  match r.code with
  | .ok =>
    if nextIn = [] then .stop (.ok,r.state,s.unpacked ++ r.out)
    else .again ⟨r.state,nextIn,s.unpacked ++ r.out⟩
  | .streamEnd => .stop (.ok,r.state,s.unpacked)
  | .needDict =>
    let r2 := z.inflateSetDictionary r.state dictionary
    if r2.1 = .ok then .again ⟨r2.2,nextIn,s.unpacked⟩ else .stop (.error,r2.2,s.unpacked)
  | .bufError => .stop (.error,z.inflateEnd r.state,s.unpacked)
  | .dataError => .stop (.error,z.inflateEnd r.state,s.unpacked)
  | .streamError => .stop (.error,z.inflateEnd r.state,s.unpacked)
  | _ => .stop (.error,r.state,s.unpacked)

/-- `http2d_spdy_zlib_inflate` returns. -/
def Inflates (dictionary : List UInt8) (zst : z.I) (buf : List UInt8) (pos : ℕ) (unpacked : List UInt8)
    (result : Ret × z.I × List UInt8) : Prop :=
  ∃ fuel, WhileLoop.run (inflateTurn z dictionary) fuel ⟨zst,buf.drop pos,unpacked⟩ = some result

/-- The blocks are compressed one after another on one stream, and `outs` is what each call adds. -/
def DeflatesAll : z.D → List (List UInt8) → List (List UInt8) → Prop
  | _, [], outs => outs = []
  | zst, block::blocks, outs => ∃ out outs' zst', outs = out::outs' ∧
      (∀ packed, Deflates z zst block packed (.ok,zst',packed ++ out)) ∧ DeflatesAll zst' blocks outs'

/-- The outputs are decompressed one after another on the stream of the peer, each from some position
of a buffer to its end, and each call adds the block. -/
def InflatesAll (dictionary : List UInt8) : z.I → List (List UInt8) → List (List UInt8) → Prop
  | _, [], blocks => blocks = []
  | zst, out::outs, blocks => ∃ block blocks' zst', blocks = block::blocks' ∧
      (∀ front unpacked, Inflates z dictionary zst (front ++ out) front.length unpacked
        (.ok,zst',unpacked ++ block)) ∧ InflatesAll dictionary zst' outs blocks'

/-- What is compressed is decompressed again. -/
def ZlibRoundTrips (dictionary : List UInt8) (blocks : List (List UInt8)) : Prop :=
  ∃ outs, DeflatesAll z z.deflateStart blocks outs ∧ InflatesAll z dictionary z.inflateStart outs blocks

variable {z}

theorem deflateTurn_full {size : ℕ} {s : Packing z} (hok : (z.deflate s.zst s.nextIn size).code = .ok)
    (hfull : (z.deflate s.zst s.nextIn size).out.length = size) :
    deflateTurn z size s = .again ⟨(z.deflate s.zst s.nextIn size).state,
      s.nextIn.drop (z.deflate s.zst s.nextIn size).taken,
      s.packed ++ (z.deflate s.zst s.nextIn size).out⟩ := by
  simp only [deflateTurn,hok]
  rw [if_pos (by omega)]

end Calls

section Documented
variable {z : Impl} {dictionary : List UInt8} (c : Contract z dictionary)

/-- One call compresses the block, when the array has more than six bytes. -/
theorem deflate_run {size : ℕ} (hsize : 6 < size) (s : Packing z) (hin : s.nextIn ≠ [] ∨ c.unfinished s.zst) :
    ∃ fuel zst' out, (∀ packed, WhileLoop.run (deflateTurn z size) fuel ⟨s.zst,s.nextIn,packed⟩ =
        some (.ok,zst',packed ++ out)) ∧
      c.gave zst' = c.gave s.zst ++ out ∧ c.fed zst' = c.fed s.zst ++ s.nextIn ∧
      c.plain (c.gave zst') = c.fed zst' ∧ c.Flushed zst' := by
  obtain ⟨n,hn⟩ : ∃ n, c.left s.zst s.nextIn = n := ⟨_,rfl⟩
  induction n using Nat.strong_induction_on generalizing s with
  | _ n ih =>
    obtain ⟨htaken,hout,hfed,hgave⟩ := c.deflate_io s.zst s.nextIn size
    have hok := c.deflate_ok s.zst s.nextIn size (by omega) hin
    by_cases hfull : (z.deflate s.zst s.nextIn size).out.length = size
    · have hlt := c.deflate_progress _ _ _ hok hsize hfull
      obtain ⟨fuel,zst',out,hrun,hg,hf,hp⟩ := ih _ (hn ▸ hlt)
        ⟨(z.deflate s.zst s.nextIn size).state,s.nextIn.drop (z.deflate s.zst s.nextIn size).taken,[]⟩
        (Or.inr (c.deflate_unfinished _ _ _ hok hfull)) rfl
      refine ⟨fuel+1,zst',(z.deflate s.zst s.nextIn size).out ++ out,fun packed => ?_,
        by rw [hg,hgave,List.append_assoc],?_,hp⟩
      · rw [run_again (deflateTurn_full (s:=⟨s.zst,s.nextIn,packed⟩) hok hfull),hrun,List.append_assoc]
      · rw [hf,hfed,List.append_assoc,List.take_append_drop]
    · obtain ⟨hall,hplain⟩ := c.deflate_flushed _ _ _ hok (by omega)
      refine ⟨1,_,_,fun packed => ?_,hgave,by rw [hfed,hall,List.take_length],hplain,
        _,_,_,rfl,hok,by omega⟩
      have hturn : deflateTurn z size ⟨s.zst,s.nextIn,packed⟩ =
          .stop (.ok,(z.deflate s.zst s.nextIn size).state,
            packed ++ (z.deflate s.zst s.nextIn size).out) := by
        simp only [deflateTurn,hok]
        rw [if_neg (by omega)]
      exact run_stop hturn 0

/-- The receiver in the middle of one block: what it read and has to read is `whole`, and it has put
out `part` of the block behind `before`. -/
structure Receives (whole before part : List UInt8) (s : Unpacking z) : Prop where
  got_eq : c.got s.zst ++ s.nextIn = whole
  put_eq : c.put s.zst = before ++ part
  more : s.nextIn ≠ []
  notWants : ¬ c.wantsDict s.zst

section Receiving
variable {whole before block part : List UInt8} {s : Unpacking z} {d : z.D}

/-- A turn that makes progress takes input or adds to the part. -/
theorem receive_ok (h : Receives c whole before part s) (hd : c.gave d = whole) (hfl : c.Flushed d)
    (hplain : c.plain whole = before ++ block)
    (hsize : block.length ≤ spdyZlibChunk ∨ c.HoldsBack)
    (hok : (z.inflate s.zst s.nextIn spdyZlibChunk).code = .ok) :
    part ++ (z.inflate s.zst s.nextIn spdyZlibChunk).out <+: block ∧
    (s.nextIn.drop (z.inflate s.zst s.nextIn spdyZlibChunk).taken = [] →
      part ++ (z.inflate s.zst s.nextIn spdyZlibChunk).out = block ∧
        c.got (z.inflate s.zst s.nextIn spdyZlibChunk).state = whole) ∧
    (s.nextIn.drop (z.inflate s.zst s.nextIn spdyZlibChunk).taken ≠ [] → ∀ unpacked,
      Receives c whole before (part ++ (z.inflate s.zst s.nextIn spdyZlibChunk).out)
        ⟨(z.inflate s.zst s.nextIn spdyZlibChunk).state,
          s.nextIn.drop (z.inflate s.zst s.nextIn spdyZlibChunk).taken,unpacked⟩) := by
  obtain ⟨htaken,hout,hgot,hput⟩ := c.inflate_io s.zst s.nextIn spdyZlibChunk
  have hsound := c.inflate_sound s.zst s.nextIn spdyZlibChunk
  obtain ⟨r,hr⟩ : ∃ r, r = z.inflate s.zst s.nextIn spdyZlibChunk := ⟨_,rfl⟩
  have hall := c.inflate_all s.zst s.nextIn spdyZlibChunk hok
  have hstays := c.inflate_notWants s.zst s.nextIn spdyZlibChunk hok
  rw [← hr] at htaken hout hgot hput hsound hok hall hstays ⊢
  have hrest : c.got r.state ++ s.nextIn.drop r.taken = whole := by
    rw [hgot,List.append_assoc,List.take_append_drop,h.got_eq]
  have hbelow : c.plain (c.got r.state) <+: before ++ block := by
    rw [← hplain,← hrest]
    exact c.plain_mono _ _
  have hput' : c.put r.state = before ++ (part ++ r.out) := by
    rw [hput,h.put_eq,List.append_assoc]
  have hpart : part ++ r.out <+: block := by
    have := hsound.trans hbelow
    rw [hput'] at this
    exact (List.prefix_append_right_inj before).mp this
  refine ⟨hpart,fun hdone => ?_,fun hmore unpacked => ⟨hrest,hput',hmore,hstays⟩⟩
  have hwhole : c.got r.state = whole := by rw [← hrest,hdone,List.append_nil]
  have hlen : r.taken = s.nextIn.length := by
    have := congrArg List.length hdone
    rw [List.length_drop,List.length_nil] at this
    omega
  have hfinish (heq : c.put r.state = c.plain (c.got r.state)) : part ++ r.out = block := by
    rw [hwhole,hplain,hput'] at heq
    exact List.append_cancel_left heq
  refine ⟨?_,hwhole⟩
  by_cases hroom : r.out.length < spdyZlibChunk
  · exact hfinish (hall hroom)
  · rcases hsize with hsmall | hback
    · refine hpart.eq_of_length ?_
      have hle := hpart.length_le
      rw [List.length_append] at hle ⊢
      omega
    · have := hback d hfl s.zst s.nextIn spdyZlibChunk (h.got_eq.trans hd.symm) (hr ▸ hok) (hr ▸ hlen)
      rw [← hr] at this
      exact hfinish this

/-- One call decompresses the rest of the block. -/
theorem inflate_run (h : Receives c whole before part s) (hd : c.gave d = whole)
    (hfl : c.Flushed d) (hplain : c.plain whole = before ++ block) (hne : before ++ block ≠ []) (hpart : part <+: block)
    (hsize : block.length ≤ spdyZlibChunk ∨ c.HoldsBack) :
    ∃ fuel zst' out, (∀ unpacked, WhileLoop.run (inflateTurn z dictionary) fuel ⟨s.zst,s.nextIn,unpacked⟩ =
        some (.ok,zst',unpacked ++ out)) ∧
      part ++ out = block ∧ c.got zst' = whole ∧ c.put zst' = before ++ block ∧ ¬ c.wantsDict zst' := by
  obtain ⟨k,hk,hset⟩ : ∃ k, k ≤ 1 ∧ (k = 0 → c.dictSet s.zst) := ⟨1,le_rfl,fun h => by cases h⟩
  obtain ⟨n,hn⟩ : ∃ n, s.nextIn.length+(block.length-part.length)+k = n := ⟨_,rfl⟩
  induction n using Nat.strong_induction_on generalizing s part k with
  | _ n ih =>
    obtain ⟨htaken,hout,hgot,hput⟩ := c.inflate_io s.zst s.nextIn spdyZlibChunk
    obtain ⟨r,hr⟩ : ∃ r, r = z.inflate s.zst s.nextIn spdyZlibChunk := ⟨_,rfl⟩
    have hcode := c.inflate_code s.zst s.nextIn spdyZlibChunk d
      (h.got_eq.trans hd.symm ▸ List.prefix_refl _) h.more (by decide) h.notWants
    rw [← hr] at htaken hout hgot hput hcode
    rcases hcode with hok | hdict
    · obtain ⟨hpart',hdone,hmore⟩ := receive_ok c h hd hfl hplain hsize (hr ▸ hok)
      have hprog := c.inflate_progress s.zst s.nextIn spdyZlibChunk (hr ▸ hok)
      have hkeep := c.inflate_dictSet s.zst s.nextIn spdyZlibChunk
      have hstays := c.inflate_notWants s.zst s.nextIn spdyZlibChunk (hr ▸ hok)
      rw [← hr] at hpart' hdone hmore hprog hkeep hstays
      by_cases hend : s.nextIn.drop r.taken = []
      · obtain ⟨hblock,hwhole⟩ := hdone hend
        refine ⟨1,r.state,r.out,fun unpacked => run_stop ?_ 0,hblock,hwhole,?_,hstays⟩
        · simp only [inflateTurn,← hr,hok]
          rw [if_pos hend]
        · rw [hput,h.put_eq,List.append_assoc,hblock]
      · have hlt : r.taken < s.nextIn.length := by
          by_contra hge
          exact hend (List.drop_eq_nil_of_le (not_lt.mp hge))
        have hle := hpart'.length_le
        rw [List.length_append] at hle
        have hless : (s.nextIn.drop r.taken).length+(block.length-(part ++ r.out).length)+k < n := by
          rw [List.length_append,List.length_drop]
          rcases hprog with hpos | hne'
          · omega
          · have := List.length_pos_iff.mpr hne'
            omega
        obtain ⟨fuel,zst',out,hrun,hblock,hg,hp,hw⟩ := ih _ hless (s:=⟨r.state,s.nextIn.drop r.taken,[]⟩)
          (hmore hend []) hpart' k hk (fun h0 => hkeep (hset h0)) rfl
        refine ⟨fuel+1,zst',r.out ++ out,fun unpacked => ?_,by rw [← List.append_assoc,hblock],hg,hp,hw⟩
        have hturn : inflateTurn z dictionary ⟨s.zst,s.nextIn,unpacked⟩ =
            .again ⟨r.state,s.nextIn.drop r.taken,unpacked ++ r.out⟩ := by
          simp only [inflateTurn,← hr,hok]
          rw [if_neg hend]
        rw [run_again hturn,hrun,List.append_assoc]
    · obtain ⟨hnone,hnil,hwants,hunset⟩ := c.inflate_needDict s.zst s.nextIn spdyZlibChunk (hr ▸ hdict)
      rw [← hr] at hnone hnil hwants
      obtain ⟨hsetok,hsetd,hnot,hsg,hsp⟩ := c.setDictionary r.state hwants
      have hk1 : k = 1 := by
        by_contra hne1
        exact hunset (hset (by omega))
      have hrest : c.got r.state ++ s.nextIn.drop r.taken = whole := by
        rw [hgot,List.append_assoc,List.take_append_drop,h.got_eq]
      have hend : s.nextIn.drop r.taken ≠ [] := fun hend => hne (by
        rw [hend,List.append_nil] at hrest
        rw [← hplain,← hrest,hnil])
      have hless : (s.nextIn.drop r.taken).length+(block.length-part.length)+0 < n := by
        rw [List.length_drop]
        omega
      obtain ⟨fuel,zst',out,hrun,hblock,hg,hp,hw⟩ := ih _ hless
        (s:=⟨(z.inflateSetDictionary r.state dictionary).2,s.nextIn.drop r.taken,[]⟩)
        ⟨by rw [hsg,hrest],by rw [hsp,hput,hnone,List.append_nil,h.put_eq],hend,hnot⟩ hpart 0 (by decide)
        (fun _ => hsetd) rfl
      refine ⟨fuel+1,zst',out,fun unpacked => ?_,hblock,hg,hp,hw⟩
      have hturn : inflateTurn z dictionary ⟨s.zst,s.nextIn,unpacked⟩ =
          .again ⟨(z.inflateSetDictionary r.state dictionary).2,s.nextIn.drop r.taken,unpacked⟩ := by
        simp only [inflateTurn,← hr,hdict,hsetok,if_true]
      rw [run_again hturn,hrun]

end Receiving

/-- Between two blocks the streams agree on what went from one to the other, and the receiver has
put out all of it. -/
structure InStep (d : z.D) (i : z.I) : Prop where
  got_eq : c.got i = c.gave d
  put_eq : c.put i = c.fed d
  plain_eq : c.plain (c.gave d) = c.fed d
  notWants : ¬ c.wantsDict i

theorem start_inStep : InStep c z.deflateStart z.inflateStart := by
  obtain ⟨hfed,hgave⟩ := c.deflate_start
  obtain ⟨hgot,hput,hwants⟩ := c.inflate_start
  exact ⟨hgot.trans hgave.symm,hput.trans hfed.symm,by rw [hgave,hfed,c.plain_nil],hwants⟩

/-- One block goes from one stream to the other. -/
theorem InStep.block {c : Contract z dictionary} {d : z.D} {i : z.I} (h : InStep c d i)
    {block : List UInt8} (hmin : 6 < block.length)
    (hmax : block.length ≤ spdyZlibChunk ∨ c.HoldsBack) :
    ∃ d' i' out, (∀ packed, Deflates z d block packed (.ok,d',packed ++ out)) ∧
      (∀ front unpacked, Inflates z dictionary i (front ++ out) front.length unpacked
        (.ok,i',unpacked ++ block)) ∧ InStep c d' i' := by
  have hne : block ≠ [] := List.length_pos_iff.mp (by omega)
  obtain ⟨fuel,d',out,hrun,hgave,hfed,hplain,hflushed⟩ := deflate_run c hmin ⟨d,block,[]⟩ (.inl hne)
  dsimp only at hrun hgave hfed
  have hout : out ≠ [] := by
    rintro rfl
    rw [hgave,hfed,List.append_nil,h.plain_eq] at hplain
    exact hne (List.self_eq_append_right.mp hplain)
  obtain ⟨fuel',i',part,hrun',hpart,hgot,hput,hwants⟩ := inflate_run c
    (s:=⟨i,out,[]⟩) ⟨by rw [h.got_eq,hgave],by rw [h.put_eq,List.append_nil],hout,h.notWants⟩
    rfl hflushed (hplain.trans hfed) (by simp [hne]) List.nil_prefix hmax
  rw [List.nil_append] at hpart
  subst hpart
  refine ⟨d',i',out,fun packed => ⟨fuel,hrun packed⟩,fun front unpacked => ⟨fuel',?_⟩,
    ⟨hgot,hput.trans hfed.symm,hplain,hwants⟩⟩
  rw [List.drop_left]
  exact hrun' unpacked

theorem InStep.blocks {c : Contract z dictionary} {d : z.D} {i : z.I} (h : InStep c d i)
    {blocks : List (List UInt8)}
    (hsize : ∀ block ∈ blocks, 6 < block.length ∧ (block.length ≤ spdyZlibChunk ∨ c.HoldsBack)) :
    ∃ outs, DeflatesAll z d blocks outs ∧ InflatesAll z dictionary i outs blocks := by
  induction blocks generalizing d i with
  | nil => exact ⟨[],rfl,rfl⟩
  | cons block blocks ih =>
    obtain ⟨hmin,hmax⟩ := hsize block (List.mem_cons_self ..)
    obtain ⟨d',i',out,hdeflates,hinflates,h'⟩ := h.block hmin hmax
    obtain ⟨outs,hout,hin⟩ := ih h' fun b hb => hsize b (List.mem_cons_of_mem _ hb)
    exact ⟨out::outs,⟨out,outs,d',rfl,hdeflates,hout⟩,⟨block,blocks,i',rfl,hinflates,hin⟩⟩

/-- Every sequence of blocks comes back, if each has more than the six bytes that the flush marker
can take, and not more than one chunk where `inflate` may read ahead of its output. -/
theorem zlibRoundTrips_of_sizes {blocks : List (List UInt8)}
    (h : ∀ block ∈ blocks, 6 < block.length ∧ (block.length ≤ spdyZlibChunk ∨ c.HoldsBack)) :
    ZlibRoundTrips z dictionary blocks := (start_inStep c).blocks h

end Documented

section Sequences
variable {z : Impl} {dictionary block : List UInt8}

theorem DeflatesAll.call {d : z.D} {blocks outs : List (List UInt8)} (h : DeflatesAll z d blocks outs)
    (hblock : block ∈ blocks) : ∃ d₁ d₂ out, Deflates z d₁ block [] (.ok,d₂,out) := by
  induction blocks generalizing d outs with
  | nil => cases hblock
  | cons b blocks ih =>
    obtain ⟨out,outs',d',-,hrun,hrest⟩ := h
    rcases List.mem_cons.mp hblock with rfl | hmem
    · exact ⟨d,d',out,hrun []⟩
    · exact ih hrest hmem

theorem InflatesAll.call {i : z.I} {outs blocks : List (List UInt8)}
    (h : InflatesAll z dictionary i outs blocks) (hblock : block ∈ blocks) :
    ∃ i₁ i₂ out, Inflates z dictionary i₁ out 0 [] (.ok,i₂,block) := by
  induction outs generalizing i blocks with
  | nil =>
    rw [h] at hblock
    cases hblock
  | cons out outs ih =>
    obtain ⟨b,blocks',i',rfl,hrun,hrest⟩ := h
    rcases List.mem_cons.mp hblock with rfl | hmem
    · exact ⟨i,i',out,hrun [] []⟩
    · exact ih hrest hmem

end Sequences

section Stored
variable {m : Marker} {dictionary block packed : List UInt8}

/-- The array that is too short for a marker is full after every call. -/
theorem not_deflates_small {d : StoredDeflater} (hne : block ≠ []) (hsize : block.length ≤ m.val.length)
    (result : Ret × StoredDeflater × List UInt8) :
    ¬ Deflates (storedImpl m dictionary) d block packed result := by
  rintro ⟨fuel,hrun⟩
  have hpos := List.length_pos_iff.mpr hne
  refine not_terminates_of_invariant
    (fun s => s.nextIn ≠ [] ∨ s.zst.unfinished = true) (fun s hs => ?_) (Or.inl hne) ⟨fuel,result,hrun⟩
  have hok : (s.zst.deflate m s.nextIn block.length).code = .ok := StoredDeflater.deflate_ok hpos hs
  have hfull := StoredDeflater.deflate_full hok hsize
  exact ⟨_,deflateTurn_full hok hfull,.inr (StoredDeflater.deflate_unfinished hok hfull)⟩

/-- A turn of the stored blocks either ends the call, with at most one chunk, or has only set the
dictionary. -/
theorem stored_turn {s : Unpacking (storedImpl m dictionary)} :
    (∃ ret i unpacked, inflateTurn _ dictionary s = .stop (ret,i,unpacked) ∧
        (ret = .ok → unpacked.length ≤ s.unpacked.length+spdyZlibChunk)) ∨
      ∃ s', inflateTurn _ dictionary s = .again s' ∧ s'.unpacked = s.unpacked := by
  have h := StoredInflater.inflate_outcome s.zst s.nextIn spdyZlibChunk
  obtain ⟨r,hr⟩ : ∃ r, r = (storedImpl m dictionary).inflate s.zst s.nextIn spdyZlibChunk := ⟨_,rfl⟩
  change StoredInflater.Outcome _ _ _ ((storedImpl m dictionary).inflate _ _ _) at h
  rw [← hr] at h
  simp only [inflateTurn,← hr]
  cases h with
  | idle => exact .inl ⟨_,_,_,rfl,fun h => by cases h⟩
  | asks s' n =>
    have hset : ((storedImpl m dictionary).inflateSetDictionary s' dictionary).1 = .ok :=
      congrArg Prod.fst s'.setDictionary_same
    exact .inr ⟨_,if_pos hset,rfl⟩
  | header s' n _ _ hn =>
    have hdone : s.nextIn.drop n = [] := List.drop_eq_nil_of_le hn.ge
    exact .inl ⟨_,_,_,if_pos hdone,fun _ => by simp⟩
  | blocks s' =>
    exact .inl ⟨_,_,_,if_pos (by simp),fun _ => by simp⟩

/-- Everything is read at once, and so one chunk is all that is put out. -/
theorem inflates_stored_length {i i' : StoredInflater} {buf unpacked unpacked' : List UInt8} {pos : ℕ}
    (h : Inflates (storedImpl m dictionary) dictionary i buf pos unpacked (.ok,i',unpacked')) :
    unpacked'.length ≤ unpacked.length+spdyZlibChunk := by
  obtain ⟨fuel,hrun⟩ := h
  obtain ⟨s,hs⟩ : ∃ s : Unpacking (storedImpl m dictionary), s = ⟨i,buf.drop pos,unpacked⟩ := ⟨_,rfl⟩
  rw [← hs] at hrun
  have hlen : s.unpacked = unpacked := by rw [hs]
  clear hs
  induction fuel generalizing s with
  | zero => cases hrun
  | succ fuel ih =>
    rcases stored_turn (s:=s) with ⟨ret,i₁,out,hturn,hout⟩ | ⟨s',hturn,hkeep⟩
    · simp only [run_stop hturn,Option.some_inj,Prod.mk.injEq] at hrun
      obtain ⟨rfl,-,rfl⟩ := hrun
      exact hlen ▸ hout rfl
    · rw [run_again hturn] at hrun
      exact ih s' hrun (hkeep.trans hlen)

end Stored

/-- What the manual promises is enough for a sequence of blocks if and only if each has more than the
six bytes that a flush marker can take, and not more than one chunk. -/
theorem zlibRoundTrips_iff (dictionary : List UInt8) {blocks : List (List UInt8)}
    (hne : ∀ block ∈ blocks, block ≠ []) :
    (∀ (z : Impl) (_ : Contract z dictionary), ZlibRoundTrips z dictionary blocks) ↔
      ∀ block ∈ blocks, 6 < block.length ∧ block.length ≤ spdyZlibChunk := by
  constructor
  · intro hall block hblock
    constructor
    · by_contra hsmall
      obtain ⟨outs,hout,-⟩ := hall _ (storedContract longMarker dictionary)
      obtain ⟨d,d',out,hrun⟩ := hout.call hblock
      exact not_deflates_small (m:=longMarker) (hne block hblock) (not_lt.mp hsmall) _ hrun
    · obtain ⟨outs,-,hin⟩ := hall _ (storedContract shortMarker dictionary)
      obtain ⟨i,i',out,hrun⟩ := hin.call hblock
      simpa using inflates_stored_length hrun
  · intro hsize z c
    exact zlibRoundTrips_of_sizes c fun block hblock => (hsize block hblock).imp_right .inl

/-- Three blocks of incompressible bytes. -/
theorem zlibRoundTrips_iff_three : ZlibRoundTrips (storedImpl shortMarker []) []
    (List.replicate 3 ((List.range 16).map fun n => UInt8.ofNat (200+n))) := by
  refine (zlibRoundTrips_iff [] ?_).mpr ?_ _ (storedContract shortMarker [])
  · intro block hblock
    rw [List.eq_of_mem_replicate hblock]
    decide
  · intro block hblock
    rw [List.eq_of_mem_replicate hblock]
    decide

/-- zlib may be so that a block of one byte is never compressed to its end. -/
theorem not_zlibRoundTrips_byte : ¬ ∀ (z : Impl) (dictionary : List UInt8)
    (_ : Contract z dictionary) (blocks : List (List UInt8)), (∀ block ∈ blocks, block ≠ []) →
      ZlibRoundTrips z dictionary blocks := by
  intro hall
  obtain ⟨outs,⟨out,outs',zst',-,hrun,-⟩,-⟩ :=
    hall _ [] (storedContract shortMarker []) [[120]] (by decide)
  exact not_deflates_small (m:=shortMarker) (by decide) (by decide) _ (hrun [])

end Http2d
