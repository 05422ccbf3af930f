import Http2d.BufferRefinement

/-! The number writers of `http2d_buffer_t`.
The digits are written backwards into an array of their own, and the text is copied behind the
string. The array always suffices; the length of the result is an `int`, and is not always that. -/
namespace Http2d

open Bytes

/-- The value of a digit. -/
def digitValue (c : UInt8) : ℕ := if c.toNat < 58 then c.toNat-48 else c.toNat-87

/-- The value of a text of digits. -/
def numeralValue (base : ℕ) (txt : List UInt8) : ℕ := txt.foldl (fun v c => v*base+digitValue c) 0

/-- The canonical numeral of `n`. -/
structure IsNumeral (base n : ℕ) (txt : List UInt8) : Prop where
  ne_nil : txt ≠ []
  digits : ∀ c ∈ txt, ∃ d < base, c = toHex d
  value : numeralValue base txt = n
  leading : txt.head? = some 48 → txt = [48]

/-- The canonical numeral of an integer has a sign when it is negative. -/
def IsIntNumeral (base : ℕ) (z : ℤ) (txt : List UInt8) : Prop :=
  if z < 0 then ∃ ds, txt = 45::ds ∧ IsNumeral base z.natAbs ds else IsNumeral base z.natAbs txt

theorem digitValue_toHex : ∀ d : Fin 16, digitValue (toHex d) = d := by decide

theorem digitsText_isNumeral {base : ℕ} (hbase : 1 < base) (h16 : base ≤ 16) (n : ℕ) :
    IsNumeral base n (digitsText base n) := by
  induction n using Nat.strong_induction_on with
  | _ n ih =>
    have hlt : n%base < base := Nat.mod_lt _ (by omega)
    have hval := digitValue_toHex ⟨n%base,by omega⟩
    by_cases h0 : n/base = 0
    · have hmod : n%base = n := by
        have := Nat.div_add_mod n base
        rwa [h0,Nat.mul_zero,Nat.zero_add] at this
      rw [digitsText_small hbase h16 h0]
      refine ⟨by simp,fun c hc => ⟨n%base,hlt,List.mem_singleton.mp hc⟩,?_,fun h => ?_⟩
      · simp only [numeralValue,List.foldl_cons,List.foldl_nil,hval]
        omega
      · rw [List.head?_cons,Option.some.injEq] at h
        rw [h]
    · have hstep := ih (n/base) (Nat.div_lt_self (by
        by_contra hn
        rw [Nat.eq_zero_of_not_pos hn,Nat.zero_div] at h0
        exact h0 rfl) hbase)
      rw [digitsText_step hbase h16 h0]
      refine ⟨by simp,fun c hc => ?_,?_,fun h => ?_⟩
      · rcases List.mem_append.mp hc with hc | hc
        · exact hstep.digits c hc
        · exact ⟨n%base,hlt,List.mem_singleton.mp hc⟩
      · have hfront := hstep.value
        rw [numeralValue] at hfront ⊢
        rw [List.foldl_append,hfront,List.foldl_cons,List.foldl_nil,hval]
        exact Nat.div_add_mod' n base
      · -- a leading zero in front of more digits would be the whole front
        rw [List.head?_append_of_ne_nil _ hstep.ne_nil] at h
        have hvalue := hstep.value
        rw [hstep.leading h] at hvalue
        have hzero : numeralValue base [48] = 0 := by simp [numeralValue,digitValue]
        exact absurd (hvalue.symm.trans hzero) h0

theorem digitsText_length_le {base n k : ℕ} (hbase : 1 < base) (hn : n < base^(k+1)) :
    (digitsText base n).length ≤ k+1 := by
  rw [digitsText,List.length_map]
  exact (Nat.length_toDigits_le_iff hbase (Nat.succ_pos k)).mpr hn

theorem realloc_length {blk blk' : List UInt8} {size : ℕ} (h : realloc blk size = some blk') :
    size < 2^63 ∧ blk'.length = size := by
  unfold realloc at h
  split_ifs at h with hsize
  refine ⟨hsize,?_⟩
  rw [← Option.some.inj h,List.length_append,List.length_take,List.length_replicate]
  omega

namespace Buffer

variable {mem : Bool} {b c g : Buffer} {txt : List UInt8}

/-- A call that returns `ret_ok` had its memory. -/
theorem granted_inv {r : Ret × Buffer} {use : Buffer → Exec Buffer} (h : granted r use = .ok (.ok,c)) :
    ∃ g, r = (.ok,g) ∧ use g = .ok c := by
  obtain ⟨ret,g⟩ := r
  by_cases hret : ret = .ok
  · subst hret
    obtain ⟨d,hd,hc⟩ := bind_ok_inv h
    cases hc
    exact ⟨g,rfl,hd⟩
  · cases ret <;> first | exact absurd rfl hret | cases h

theorem reallocNew_inv {n : ℕ} (h : b.reallocNew mem n = (.ok,g)) :
    mem = true ∧ sizeT (n+17 : ℕ) < 2^63 ∧ g.buf.length = sizeT (n+17 : ℕ) ∧ g.len = b.len := by
  cases mem with
  | false => simp [reallocNew,reallocIf] at h
  | true =>
    have hnew : sizeT ((n : ℤ)+reallocExtraSize+1) = sizeT (n+17 : ℕ) := by
      rw [reallocExtraSize]
      push_cast
      rfl
    simp only [reallocNew,hnew,reallocIf,if_true] at h
    generalize sizeT (n+17 : ℕ) = size at h ⊢
    cases hr : realloc b.buf size with
    | none => simp [hr] at h
    | some blk =>
      simp only [hr,Prod.mk.injEq,true_and] at h
      obtain ⟨hsmall,hlen⟩ := realloc_length hr
      rw [← h]
      exact ⟨rfl,hsmall,hlen,rfl⟩

/-- When the numeral is written, its block had room for it. -/
theorem addNumber_room (h : b.addNumber mem txt = .ok (.ok,c)) :
    ∃ g, b.numberBlock mem txt.length = (.ok,g) ∧ g.len+txt.length < g.buf.length := by
  obtain ⟨g,hg,hd⟩ := granted_inv ((addNumber_eq mem b txt).symm.trans h)
  obtain ⟨e,he,_⟩ := bind_ok_inv hd
  have hroom := (write_inv he).1
  rw [List.length_append,List.length_singleton] at hroom
  exact ⟨g,hg,by omega⟩

theorem numberFits_of_room (hb : b.Sized) {n : ℕ} (hn : n < 64) (h : b.numberBlock mem n = (.ok,g))
    (hroom : g.len+n < g.buf.length) : NumberFits mem b n := by
  have hlen : b.len < 2^32 := hb.len_le.trans_lt (hb.size_eq ▸ hb.size_lt)
  simp only [numberBlock] at h
  split_ifs at h with hgrow
  · obtain ⟨hmem,hsmall,hblk,hgl⟩ := reallocNew_inv h
    refine Or.inr ⟨hmem,?_⟩
    rw [hblk,hgl] at hroom
    simp only [cint] at hroom hsmall
    split_ifs at hroom hsmall <;> simp only [sizeT,cuint] at * <;> omega
  · obtain rfl := (Prod.mk.inj h).2
    exact Or.inl (hb.size_eq ▸ hroom)

end Buffer

/-- The number writers, each with its argument. -/
inductive NumberOp
  | addLong10 (n : Int64)
  | addLlong10 (n : Int64)
  | addUlong10 (n : UInt64)
  | addUllong10 (n : UInt64)
  | addUlong16 (n : UInt64)
  | addUllong16 (n : UInt64)

namespace NumberOp

def exec (mem : Bool) (b : Buffer) : NumberOp → Exec (Ret × Buffer)
  | addLong10 n => b.addLong10 mem n
  | addLlong10 n => b.addLlong10 mem n
  | addUlong10 n => b.addUlong10 mem n
  | addUllong10 n => b.addUllong10 mem n
  | addUlong16 n => b.addUlong16 mem n
  | addUllong16 n => b.addUllong16 mem n

def base : NumberOp → ℕ
  | addLong10 _ | addLlong10 _ | addUlong10 _ | addUllong10 _ => 10
  | addUlong16 _ | addUllong16 _ => 16

def value : NumberOp → ℤ
  | addLong10 n | addLlong10 n => n.toInt
  | addUlong10 n | addUllong10 n | addUlong16 n | addUllong16 n => n.toNat

/-- The text of the number. -/
def text (op : NumberOp) : List UInt8 :=
  if op.value < 0 then 45::digitsText op.base op.value.natAbs else digitsText op.base op.value.natAbs

/-- The digits and the sign in front of them have their places in the array. -/
def ScratchSafe (op : NumberOp) : Prop := ∃ i ds,
  putDigits op.base (iosNumbuf-1) op.value.natAbs [] = .ok (i,ds) ∧ 0 < i

/-- The call appends the canonical numeral and nothing else. -/
def Renders (mem : Bool) (b : Buffer) (op : NumberOp) : Prop := ∃ c txt,
  op.exec mem b = .ok (.ok,c) ∧ IsIntNumeral op.base op.value txt ∧ c.Wf ∧
    c.content = b.content ++ txt ∧ c.len = b.len+txt.length

theorem base_bounds (op : NumberOp) : 1 < op.base ∧ op.base ≤ 16 := by
  cases op <;> simp [base]

theorem text_isNumeral (op : NumberOp) : IsIntNumeral op.base op.value op.text := by
  unfold IsIntNumeral text
  split_ifs
  · exact ⟨_,rfl,digitsText_isNumeral op.base_bounds.1 op.base_bounds.2 _⟩
  · exact digitsText_isNumeral op.base_bounds.1 op.base_bounds.2 _

section Writing
variable {mem : Bool} {b : Buffer} {op : NumberOp}

theorem natAbs_lt (op : NumberOp) : op.value.natAbs < 2^64 := by
  cases op with
  | addLong10 n | addLlong10 n =>
    have := n.le_toInt
    have := n.toInt_lt
    simp only [value]
    omega
  | addUlong10 n | addUllong10 n | addUlong16 n | addUllong16 n =>
    have := n.toNat_lt
    simp only [value]
    omega

/-- The digits of any value leave most of the array free. -/
theorem digits_fit (op : NumberOp) : ∃ i,
    putDigits op.base (iosNumbuf-1) op.value.natAbs [] = .ok (i,digitsText op.base op.value.natAbs) ∧
      iosNumbuf-1 ≤ i+20 ∧ (digitsText op.base op.value.natAbs).length ≤ 20 := by
  obtain ⟨hbase,h16⟩ := op.base_bounds
  have hlt : op.value.natAbs < op.base^(19+1) := by
    refine op.natAbs_lt.trans ?_
    cases op <;> simp only [base] <;> decide
  obtain ⟨i,hi,hle⟩ := putDigits_spec hbase h16 hlt (by decide : 19 < iosNumbuf-1) []
  rw [List.append_nil] at hi
  exact ⟨i,hi,hle,digitsText_length_le hbase hlt⟩

theorem scratchSafe (op : NumberOp) : op.ScratchSafe := by
  obtain ⟨i,hi,hle,_⟩ := op.digits_fit
  exact ⟨i,_,hi,by simp only [iosNumbuf] at hle; omega⟩

theorem text_length (op : NumberOp) : op.text.length < 64 := by
  obtain ⟨_,_,_,hlen⟩ := op.digits_fit
  unfold text
  split_ifs
  · rw [List.length_cons]
    omega
  · omega

/-- Each writer copies its text to the buffer. -/
theorem exec_eq (mem : Bool) (b : Buffer) (op : NumberOp) : op.exec mem b = b.addNumber mem op.text := by
  obtain ⟨i,hi,hle,_⟩ := op.digits_fit
  have hi0 : i ≠ 0 := by simp only [iosNumbuf] at hle; omega
  have hunsigned (base : ℕ) (n : UInt64) (h : putDigits base (iosNumbuf-1) n.toNat [] =
      .ok (i,digitsText base n.toNat)) :
      b.addUnsigned mem base n = b.addNumber mem (digitsText base n.toNat) := by
    rw [Buffer.addUnsigned,h,ok_bind]
  have hsigned (n : Int64) (h : putDigits 10 (iosNumbuf-1) n.toInt.natAbs [] =
      .ok (i,digitsText 10 n.toInt.natAbs)) : b.addSigned mem n = b.addNumber mem
        (if n.toInt < 0 then 45::digitsText 10 n.toInt.natAbs else digitsText 10 n.toInt.natAbs) := by
    have hlo := n.le_toInt
    have hhi := n.toInt_lt
    -- negating the unsigned value gives the absolute value, of the smallest number too
    have hnat : (if n.toInt < 0 then sizeT (-(sizeT n.toInt : ℤ)) else sizeT n.toInt) =
        n.toInt.natAbs := by
      split_ifs <;> simp only [sizeT] <;> omega
    rw [Buffer.addSigned]
    simp only [hnat,h,ok_bind,if_neg hi0]
  have hnonneg (n : UInt64) : ¬ (n.toNat : ℤ) < 0 := by omega
  cases op with
  | addLong10 n | addLlong10 n => exact hsigned n hi
  | addUlong10 n | addUllong10 n =>
    rw [text,value,if_neg (hnonneg n)]
    exact hunsigned 10 n hi
  | addUlong16 n | addUllong16 n =>
    rw [text,value,if_neg (hnonneg n)]
    exact hunsigned 16 n hi

theorem Renders.fits (hb : b.Wf) (h : op.Renders mem b) : b.NumberFits mem op.text.length := by
  obtain ⟨c,_,hcall,_⟩ := h
  rw [exec_eq] at hcall
  obtain ⟨g,hg,hroom⟩ := Buffer.addNumber_room hcall
  exact Buffer.numberFits_of_room hb.sized op.text_length hg hroom

end Writing

/-- A number is written exactly when its text fits in the block, or the block can grow and the new
length is an `int`. The array of the digits is never left. -/
theorem renders_iff {mem : Bool} {b : Buffer} (hb : b.Wf) (op : NumberOp) :
    op.ScratchSafe ∧ (op.Renders mem b ↔ b.NumberFits mem op.text.length) := by
  refine ⟨op.scratchSafe,fun h => h.fits hb,fun h => ?_⟩
  obtain ⟨c,hcall,hwf,hcont,hlen,-⟩ := Buffer.addNumber_spec hb.sized h
  exact ⟨c,op.text,(exec_eq mem b op).trans hcall,op.text_isNumeral,hwf,hcont,hlen⟩

theorem renders_iff_init : (addLong10 (-5)).ScratchSafe ∧
    ((addLong10 (-5)).Renders true .init ↔ Buffer.init.NumberFits true (addLong10 (-5)).text.length) :=
  renders_iff Buffer.init_wf _

/-- One digit behind a full block of `2^31` bytes: the new length is a negative `int`, and is asked
for as a size. -/
theorem not_renders_full : (Buffer.holding (List.replicate (2^31-1) 97)).Wf ∧
    ¬ (addUlong10 0).Renders true (Buffer.holding (List.replicate (2^31-1) 97)) := by
  have hwf : (Buffer.holding (List.replicate (2^31-1) 97)).Wf :=
    Buffer.holding_wf (by rw [List.length_replicate]; norm_num)
  refine ⟨hwf,fun h => ?_⟩
  have htext : (addUlong10 0).text.length = 1 := by decide
  have hfits := h.fits hwf
  simp only [htext,Buffer.NumberFits,Buffer.holding,List.length_replicate] at hfits
  omega

end NumberOp

end Http2d
