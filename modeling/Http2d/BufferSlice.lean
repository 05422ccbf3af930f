import Http2d.BufferFailure

/-! `http2d_buffer_add_buffer_slice`.
The positions are signed: they count from the front or, below zero, from the end. -/
namespace Http2d

open Bytes Buffer

/-- `HTTP2D_BUF_SLIDE_NONE`, which is `INT_MIN`. -/
def bufSlideNone : ℤ := -2^31

/-- The value of a `ssize_t` expression. -/
def ssizeValue (n : ℤ) : Exec ℤ := if -2^63 ≤ n ∧ n < 2^63 then .ok n else .error .fault

/-- `pos_end`; with none the call is over. -/
def posEnd (len : ℕ) (stop : ℤ) : Exec (Option ℤ) :=
  if stop = bufSlideNone then .ok (some len)
  else if 0 < stop then .ok (some stop)
  else do
    let back ← ssizeValue (-stop)
    .ok (if len < back then some (len-back) else none)

/-- `pos_begin`. -/
def posBegin (len : ℕ) (start : ℤ) : Exec ℤ :=
  if start = bufSlideNone then .ok 0
  else if 0 ≤ start then .ok (if len < start then len else start)
  else do
    let back ← ssizeValue (-start)
    .ok (if back < len then len-start else 0)

/-- The positions that are left by the sanity check, if there are any. -/
def slicePositions (len : ℕ) (start stop : ℤ) : Exec (Option (ℤ × ℤ)) := do
  let e ← posEnd len stop
  match e with
  | none => .ok none
  | some e => do
    let s ← posBegin len start
    .ok (if s < 0 ∨ e < 0 ∨ len < e ∨ e < s then none else some (s,e))

/-- `http2d_buffer_add_buffer_slice`. -/
def Buffer.addBufferSlice (mem : Bool) (b src : Buffer) (start stop : Int64) : Exec (Ret × Buffer) :=
  if src.isEmpty then .ok (.ok,b)
  else do
    let r ← slicePositions src.len start.toInt stop.toInt
    match r with
    | none => .ok (.ok,b)
    | some (s,e) => do
      let txt ← peek src.buf s (e-s).toNat
      b.addText mem txt

section Meaning

/-- Where a slice begins: positions below zero count from the end, and all are clamped. -/
def sliceFrom (len : ℕ) (start : ℤ) : ℕ :=
  if start = bufSlideNone then 0
  else if 0 ≤ start then min start.toNat len
  else len-(-start).toNat

/-- Where it ends. -/
def sliceTo (len : ℕ) (stop : ℤ) : ℕ :=
  if stop = bufSlideNone then len
  else if 0 ≤ stop then min stop.toNat len
  else len-(-stop).toNat

/-- The bytes of `[start:stop]`. -/
def sliceOf (s : List UInt8) (start stop : ℤ) : List UInt8 :=
  (s.take (sliceTo s.length stop)).drop (sliceFrom s.length start)

theorem sliceTo_le (len : ℕ) (stop : ℤ) : sliceTo len stop ≤ len := by
  unfold sliceTo
  split_ifs <;> omega

theorem sliceOf_length (s : List UInt8) (start stop : ℤ) :
    (sliceOf s start stop).length = sliceTo s.length stop-sliceFrom s.length start := by
  have := sliceTo_le s.length stop
  rw [sliceOf,List.length_drop,List.length_take]
  omega

theorem sliceOf_eq_nil_iff (s : List UInt8) (start stop : ℤ) :
    sliceOf s start stop = [] ↔ sliceTo s.length stop ≤ sliceFrom s.length start := by
  rw [← List.length_eq_zero_iff,sliceOf_length]
  omega

/-- What the code makes of the end as it should: only ends from the front, inside the string. -/
def EndExact (len : ℕ) (stop : ℤ) : Prop := stop = bufSlideNone ∨ 0 < stop ∧ stop ≤ len

/-- What the code makes of the beginning as it should: none of the last `len-1` positions. -/
def BeginExact (len : ℕ) (start : ℤ) : Prop := start = bufSlideNone ∨ 0 ≤ start ∨ start ≤ -len

/-- No position is negated that has no negative. -/
def NegatesFit (len : ℕ) (start stop : ℤ) : Prop :=
  stop ≠ -2^63 ∧ (start = -2^63 → stop ≠ bufSlideNone ∧ stop ≤ 0 ∧ -stop ≤ len)

variable {len : ℕ} {start stop : ℤ}

theorem posEnd_exact (h : EndExact len stop) : posEnd len stop = .ok (some (sliceTo len stop : ℤ)) := by
  unfold posEnd sliceTo
  rcases h with h | ⟨hpos,hle⟩
  · rw [if_pos h,if_pos h]
  · have hne : stop ≠ bufSlideNone := by unfold bufSlideNone; omega
    rw [if_neg hne,if_pos hpos,if_neg hne,if_pos hpos.le,show (min stop.toNat len : ℕ) = stop by omega]

theorem posBegin_exact (h : BeginExact len start) (hfit : start ≠ -2^63) (hlow : -2^63 ≤ start) :
    posBegin len start = .ok (sliceFrom len start : ℤ) := by
  unfold posBegin sliceFrom ssizeValue
  by_cases hnone : start = bufSlideNone
  · rw [if_pos hnone,if_pos hnone]
    rfl
  rw [if_neg hnone,if_neg hnone]
  by_cases hpos : 0 ≤ start
  · rw [if_pos hpos,if_pos hpos]
    congr 1
    split_ifs <;> omega
  · have hback : start ≤ -len := (h.resolve_left hnone).resolve_left hpos
    rw [if_neg hpos,if_neg hpos,if_pos (by omega),ok_bind]
    congr 1
    split_ifs <;> omega

variable (len) in
/-- The last positions are taken for positions behind the string. -/
theorem posBegin_other (hfit : start ≠ -2^63) (hlow : -2^63 ≤ start) :
    ∃ s, posBegin len start = .ok s ∧ (BeginExact len start ∨ len < s) := by
  unfold posBegin ssizeValue BeginExact
  by_cases hnone : start = bufSlideNone
  · exact ⟨0,if_pos hnone,Or.inl (Or.inl hnone)⟩
  rw [if_neg hnone]
  by_cases hpos : 0 ≤ start
  · exact ⟨_,if_pos hpos,Or.inl (Or.inr (Or.inl hpos))⟩
  rw [if_neg hpos,if_pos (by omega),ok_bind]
  refine ⟨_,rfl,?_⟩
  split_ifs with hback
  · exact Or.inr (by omega)
  · exact Or.inl (Or.inr (Or.inr (by omega)))

/-- Without the negatives there is no position. -/
theorem slicePositions_fault (hfit : ¬ NegatesFit len start stop) :
    slicePositions len start stop = .error .fault := by
  unfold NegatesFit at hfit
  by_cases hstop : stop = -2^63
  · rw [slicePositions,posEnd,hstop,if_neg (by decide),if_neg (by decide)]
    rfl
  obtain ⟨hstart,hgoes⟩ : start = -2^63 ∧ ¬ (stop ≠ bufSlideNone ∧ stop ≤ 0 ∧ -stop ≤ len) := by tauto
  have hbegin : posBegin len start = .error .fault := by
    rw [posBegin,hstart,if_neg (by decide),if_neg (by decide)]
    rfl
  obtain ⟨e,he⟩ | hover : (∃ e, posEnd len stop = .ok (some e)) ∨ posEnd len stop = .error .fault := by
    unfold posEnd ssizeValue
    split_ifs with h1 h2 h3
    · exact Or.inl ⟨_,rfl⟩
    · exact Or.inl ⟨_,rfl⟩
    · exact Or.inl ⟨_,by rw [ok_bind,if_pos (by omega)]⟩
    · exact Or.inr rfl
  · rw [slicePositions,he,ok_bind]
    simp only [hbegin]
    rfl
  · rw [slicePositions,hover]
    rfl

/-- Positions that the code treats as it should. -/
theorem slicePositions_exact (he : EndExact len stop) (hs : BeginExact len start)
    (hfit : NegatesFit len start stop) (hlow : -2^63 ≤ start) : slicePositions len start stop =
      .ok (if sliceTo len stop < sliceFrom len start then none
        else some ((sliceFrom len start : ℤ),(sliceTo len stop : ℤ))) := by
  have hle := sliceTo_le len stop
  have hnot : start ≠ -2^63 := fun h => by
    obtain ⟨hne,hpos,_⟩ := hfit.2 h
    rcases he with he | he
    · exact hne he
    · omega
  rw [slicePositions,posEnd_exact he,ok_bind]
  simp only [posBegin_exact hs hnot hlow,ok_bind]
  congr 1
  split_ifs <;> first | rfl | omega

/-- All the others are taken for an empty range. -/
theorem slicePositions_none (hex : ¬ (EndExact len stop ∧ BeginExact len start))
    (hfit : NegatesFit len start stop) (hlow : -2^63 ≤ start) (hlow' : -2^63 ≤ stop) :
    slicePositions len start stop = .ok none := by
  obtain ⟨hstop,hstart⟩ := hfit
  have hend : posEnd len stop = .ok none ∨ ∃ e, posEnd len stop = .ok (some e) ∧
      (e < 0 ∨ len < e ∨ EndExact len stop ∧ e ≤ len) ∧
      ¬ (stop ≠ bufSlideNone ∧ stop ≤ 0 ∧ -stop ≤ len) := by
    unfold posEnd ssizeValue EndExact
    split_ifs with h1 h2 h3
    · exact Or.inr ⟨_,rfl,by tauto,by tauto⟩
    · exact Or.inr ⟨_,rfl,by omega,by omega⟩
    · rw [ok_bind]
      split_ifs with hback
      · exact Or.inr ⟨_,rfl,by omega,by omega⟩
      · exact Or.inl rfl
    · omega
  rcases hend with hend | ⟨e,hend,hcase,hgoes⟩
  · rw [slicePositions,hend]
    rfl
  have hnot : start ≠ -2^63 := fun h => hgoes (hstart h)
  obtain ⟨s,hs,hbegin⟩ := posBegin_other len hnot hlow
  rw [slicePositions,hend,ok_bind]
  simp only [hs,ok_bind]
  rw [if_pos]
  rcases hcase with h | h | ⟨hee,hle⟩
  · exact Or.inr (Or.inl h)
  · exact Or.inr (Or.inr (Or.inl h))
  · have := hbegin.resolve_left fun h => hex ⟨hee,h⟩
    omega

theorem slicePositions_within {s e : ℤ} (h : slicePositions len start stop = .ok (some (s,e))) :
    0 ≤ s ∧ s ≤ e ∧ e ≤ len := by
  obtain ⟨r,_,h⟩ := bind_ok_inv h
  cases r with
  | none => cases h
  | some e' =>
    obtain ⟨s',_,h⟩ := bind_ok_inv h
    have h := Except.ok.inj h
    split_ifs at h with hout
    cases h
    omega

end Meaning

namespace Buffer
variable {mem : Bool} {b src : Buffer} {start stop : Int64}

/-- The slice is appended, and what is read is part of the source. -/
def AppendsSlice (mem : Bool) (b src : Buffer) (start stop : Int64) : Prop :=
  Atomic b (b.content ++ sliceOf src.content start.toInt stop.toInt)
    (b.addBufferSlice mem src start stop) ∧
  ∀ s e, slicePositions src.len start.toInt stop.toInt = .ok (some (s,e)) → 0 ≤ s ∧ s ≤ e ∧ e ≤ src.len

/-- The condition on the positions: a slice that has bytes ends inside the string, counted from the
front, and does not begin at one of the last positions, counted from the end. -/
def SliceSafe (len : ℕ) (start stop : ℤ) : Prop :=
  len = 0 ∨ NegatesFit len start stop ∧
    (sliceTo len stop ≤ sliceFrom len start ∨ EndExact len stop ∧ BeginExact len start)

theorem int64_bounds (n : Int64) : -2^63 ≤ n.toInt ∧ n.toInt < 2^63 := ⟨n.le_toInt,n.toInt_lt⟩

/-- The call with positions that are found. -/
theorem addBufferSlice_some {s e : ℕ} (hne : 0 < src.len) (hse : s ≤ e) (hsrc : src.Wf) (he : e ≤ src.len)
    (h : slicePositions src.len start.toInt stop.toInt = .ok (some ((s : ℤ),(e : ℤ)))) :
    b.addBufferSlice mem src start stop = b.addText mem ((src.content.take e).drop s) := by
  have hle := hsrc.len_le
  have hslice : slice src.buf s (e-s) = (src.content.take e).drop s := by
    rw [content,List.take_take,min_eq_left he,slice,List.drop_take]
  have hcount : ((e : ℤ)-s).toNat = e-s := by omega
  have hempty : ¬ src.isEmpty = true := by simp only [isEmpty,beq_iff_eq]; omega
  rw [addBufferSlice,if_neg hempty,h,ok_bind]
  simp only [hcount]
  rw [peek_ok _ _ _ (by omega),ok_bind,hslice]

/-- A call that leaves the buffer has appended nothing. -/
theorem Atomic.same_iff (hb : b.Wf) {txt : List UInt8} :
    Atomic b (b.content ++ txt) (.ok (.ok,b)) ↔ txt = [] := by
  rw [Atomic.ok_iff,List.self_eq_append_right]
  refine ⟨fun h => h.1,fun h => ⟨h,?_⟩⟩
  rw [h,List.append_nil,content_length hb]

/-- A slice is appended exactly when its positions are safe and its length can be counted. -/
theorem appendsSlice_iff (hb : b.Wf) (hsrc : src.Wf) : AppendsSlice mem b src start stop ↔
    SliceSafe src.len start.toInt stop.toInt ∧
      GrowOp.GrowSafe mem b (sliceOf src.content start.toInt stop.toInt).length := by
  have hcl := content_length hsrc
  have hlt := hb.len_lt
  have hslt := hsrc.len_lt
  obtain ⟨hlow,_⟩ := int64_bounds start
  obtain ⟨hlow',_⟩ := int64_bounds stop
  refine (and_iff_left fun s e h => slicePositions_within h).trans ?_
  -- Nothing is appended: that is right when the slice is empty.
  have hnothing (hcall : b.addBufferSlice mem src start stop = .ok (.ok,b)) :
      Atomic b (b.content ++ sliceOf src.content start.toInt stop.toInt)
          (b.addBufferSlice mem src start stop) ↔
        sliceOf src.content start.toInt stop.toInt = [] := by
    rw [hcall]
    exact Atomic.same_iff hb
  have hgrow (hnil : sliceOf src.content start.toInt stop.toInt = []) :
      GrowOp.GrowSafe mem b (sliceOf src.content start.toInt stop.toInt).length := by
    rw [hnil]
    exact Or.inl hlt
  have hempty := sliceOf_eq_nil_iff src.content start.toInt stop.toInt
  rw [hcl] at hempty
  by_cases h0 : src.len = 0
  · have hnil : sliceOf src.content start.toInt stop.toInt = [] := by
      rw [content_nil h0,sliceOf,List.take_nil,List.drop_nil]
    have hcall : b.addBufferSlice mem src start stop = .ok (.ok,b) := by
      rw [addBufferSlice,if_pos (by rw [isEmpty,h0]; rfl)]
    exact iff_of_true ((hnothing hcall).mpr hnil) ⟨Or.inl h0,hgrow hnil⟩
  rw [SliceSafe,or_iff_right h0]
  have hsome : ¬ src.isEmpty = true := by simpa only [isEmpty,beq_iff_eq] using h0
  by_cases hfit : NegatesFit src.len start.toInt stop.toInt
  swap
  · rw [addBufferSlice,if_neg hsome,slicePositions_fault hfit]
    exact iff_of_false Atomic.not_fault fun h => hfit h.1.1
  rw [and_iff_right hfit]
  by_cases hex : EndExact src.len stop.toInt ∧ BeginExact src.len start.toInt
  · rw [and_iff_right (Or.inr hex)]
    have hpos := slicePositions_exact hex.1 hex.2 hfit hlow
    by_cases hgap : sliceTo src.len stop.toInt < sliceFrom src.len start.toInt
    · rw [if_pos hgap] at hpos
      have hnil := hempty.mpr hgap.le
      have hcall : b.addBufferSlice mem src start stop = .ok (.ok,b) := by
        rw [addBufferSlice,if_neg hsome,hpos,ok_bind]
      exact iff_of_true ((hnothing hcall).mpr hnil) (hgrow hnil)
    · rw [if_neg hgap] at hpos
      have hlen := sliceOf_length src.content start.toInt stop.toInt
      have hto := sliceTo_le src.len stop.toInt
      rw [hcl] at hlen
      rw [addBufferSlice_some (by omega) (not_lt.mp hgap) hsrc hto hpos]
      rw [← hcl,← sliceOf]
      exact Atomic.addText hb (by omega)
  · have hpos := slicePositions_none hex hfit hlow hlow'
    have hcall : b.addBufferSlice mem src start stop = .ok (.ok,b) := by
      rw [addBufferSlice,if_neg hsome,hpos,ok_bind]
    rw [hnothing hcall,or_iff_left hex,hempty]
    exact ⟨fun h => ⟨h,hgrow (hempty.mpr h)⟩,fun h => h.1⟩

theorem appendsSlice_iff_holding : AppendsSlice true (holding [97]) (holding [98,99,100]) 1 3 ↔
    SliceSafe (holding [98,99,100]).len (1 : Int64).toInt (3 : Int64).toInt ∧ GrowOp.GrowSafe true (holding [97])
      (sliceOf (holding [98,99,100]).content (1 : Int64).toInt (3 : Int64).toInt).length :=
  appendsSlice_iff (holding_wf (by decide)) (holding_wf (by decide))

/-- `[:-1]` of three bytes appends none of them. -/
theorem not_appendsSlice_last :
    ¬ AppendsSlice true init (holding [97,98,99]) (Int64.ofInt bufSlideNone) (-1) := by
  rintro ⟨⟨r,d,h,hd⟩,_⟩
  have hcall : init.addBufferSlice true (holding [97,98,99]) (Int64.ofInt bufSlideNone) (-1) =
      .ok (.ok,init) := by rfl
  rw [hcall] at h
  cases h
  rcases hd with ⟨_,hd,_⟩ | ⟨hr,_⟩
  · exact absurd hd (by decide)
  · cases hr

end Buffer

end Http2d
