import Http2d.NumberText

/-! Sizes for readers: `http2d_buffer_add_fsize`.
A size is scaled down by 1024 until three digits are left, and each scaling drops what was left over
before. One rule rounds to tenths of the unit, another one to whole units. What a reader takes from the
bytes is a number and a unit, and their product is close to the size. -/
namespace Http2d

open Bytes Buffer

/-- `ord`. -/
def fsizeOrd : List UInt8 := [75,77,71,84,80,69,0]

/-- What is printed in front of the unit: `"%d.%d"` or `"%3d"`. -/
inductive FsizeNumber
  | tenths (size remain : ℕ)
  | whole (size : ℕ)
  deriving DecidableEq

namespace FsizeNumber

def text : FsizeNumber → List UInt8
  | tenths size remain => digitsText 10 size ++ 46::digitsText 10 remain
  | whole size => (digitsText 10 size).leftpad 3 32

/-- The number, counted in tenths. -/
def inTenths : FsizeNumber → ℕ
  | tenths size remain => 10*size+remain
  | whole size => 10*size

/-- How far the number may be from what it stands for, as a part of the unit. -/
def tolerance : FsizeNumber → ℚ
  | tenths _ _ => 5/100+1/1024
  | whole _ => 1/2+1/1024

end FsizeNumber

/-- The end of the loop: `size` units, and `remain` of the 1024 parts of the next one. -/
def fsizeNumber (size remain : ℕ) : FsizeNumber :=
  if size < 9 ∨ size = 9 ∧ remain < 973 then
    let remain := (remain*5+256)/512
    if 10 ≤ remain then .tenths (size+1) 0 else .tenths size remain
  else if 512 ≤ remain then .whole (size+1) else .whole size

/-- The loop; `o` is the index in `ord`. -/
def fsizeLoop (size o : ℕ) : FsizeNumber × ℕ :=
  let remain := size%1024
  if 973 ≤ size/1024 then fsizeLoop (size/1024) (o+1) else (fsizeNumber (size/1024) remain,o)
termination_by size
decreasing_by omega

section Scaling
variable {size size' : ℕ}

/-- The loop stops at the first scaling that leaves less than 973. -/
theorem fsizeLoop_spec (h : 973 ≤ size) (o : ℕ) : ∃ k,
    fsizeLoop size o = (fsizeNumber (size/1024^k/1024) (size/1024^k%1024),o+k) ∧
      size/1024^k/1024 < 973 ∧ 973 ≤ size/1024^k := by
  induction size, o using fsizeLoop.induct with
  | case1 size o hmore ih =>
    obtain ⟨k,hloop,hstop,hfrom⟩ := ih hmore
    have hscale : size/1024/1024^k = size/1024^(k+1) := by rw [Nat.div_div_eq_div_mul,← pow_succ']
    rw [hscale] at hloop hstop hfrom
    refine ⟨k+1,?_,hstop,hfrom⟩
    rw [fsizeLoop,if_pos hmore,hloop,Nat.add_assoc,Nat.add_comm 1 k]
  | case2 size o hless =>
    refine ⟨0,?_,by simpa using hless,by simpa using h⟩
    rw [fsizeLoop,if_neg hless]
    simp

theorem inTenths_bounds {q r : ℕ} (hq : q < 973) (hm : 973 ≤ q*1024+r) :
    10 ≤ (fsizeNumber q r).inTenths ∧ (fsizeNumber q r).inTenths ≤ 9730 := by
  simp only [fsizeNumber]
  split_ifs <;> simp only [FsizeNumber.inTenths] <;> omega

/-- More is never rounded to less. -/
theorem inTenths_mono {q r q' r' : ℕ} (hr : r < 1024) (hr' : r' < 1024)
    (hle : q*1024+r ≤ q'*1024+r') : (fsizeNumber q r).inTenths ≤ (fsizeNumber q' r').inTenths := by
  simp only [fsizeNumber]
  split_ifs <;> simp only [FsizeNumber.inTenths] <;> omega

/-- Rounding is off by half a tenth, or by half a unit; a unit has 1024 parts. -/
theorem inTenths_close {q r : ℕ} (hr : r < 1024) :
    |((fsizeNumber q r).inTenths*1024 : ℤ)-10*(q*1024+r)| ≤
      match fsizeNumber q r with
      | .tenths _ _ => 512
      | .whole _ => 5120 := by
  rw [abs_le]
  simp only [fsizeNumber]
  split_ifs <;> simp only [FsizeNumber.inTenths] <;> push_cast <;> constructor <;> omega

end Scaling

/-- What is worked out for a size, as a number; the bytes of its text are read as it. -/
def printedSize (size : ℕ) : ℚ :=
  if size < 973 then size
  else (fsizeLoop size 0).1.inTenths/10*1024^((fsizeLoop size 0).2+1)

/-- How far it may be from the size; sizes below 973 are printed as they are. -/
def sizeTolerance (size : ℕ) : ℚ :=
  if size < 973 then 0 else (fsizeLoop size 0).1.tolerance*1024^((fsizeLoop size 0).2+1)

/-- What is printed for a size. -/
def fsizeText (size : ℕ) : Exec (List UInt8) :=
  if size < 973 then .ok (digitsText 10 size)
  else do
    let (number,o) := fsizeLoop size 0
    let unit ← peekByte fsizeOrd o
    .ok (number.text ++ [unit])

section Accuracy
variable {size size' : ℕ}

theorem unit_lt (h : 973 ≤ size) (hsize : size < 2^63) : (fsizeLoop size 0).2 < 6 := by
  obtain ⟨k,hloop,_,hfrom⟩ := fsizeLoop_spec h 0
  rw [hloop,Nat.zero_add]
  by_contra hk
  have hpow : 1024^6 ≤ 1024^k := Nat.pow_le_pow_right (by decide) (not_lt.mp hk)
  have hmul := (Nat.le_div_iff_mul_le (by positivity)).mp hfrom
  omega

/-- A size is its scaled part and less than one of its units. -/
theorem scaled_bounds (size k : ℕ) : (size/1024^k : ℕ)*1024^k ≤ (size : ℚ) ∧
    (size : ℚ) ≤ (size/1024^k : ℕ)*1024^k+1024^k := by
  have hdiv := Nat.div_add_mod size (1024^k)
  have hmod := Nat.mod_lt size (by positivity : 0 < 1024^k)
  constructor
  · exact_mod_cast Nat.div_mul_le_self size (1024^k)
  · have hle : size ≤ size/1024^k*1024^k+1024^k := by rw [Nat.mul_comm]; omega
    exact_mod_cast hle

theorem printed_close (size : ℕ) : |printedSize size-size| ≤ sizeTolerance size := by
  unfold printedSize sizeTolerance
  split_ifs with hsmall
  · simp
  obtain ⟨k,hloop,_,_⟩ := fsizeLoop_spec (not_lt.mp hsmall) 0
  rw [hloop]
  obtain ⟨hlo,hhi⟩ := scaled_bounds size k
  have hsplit := Nat.div_add_mod' (size/1024^k) 1024
  have hclose := inTenths_close (q:=size/1024^k/1024) (Nat.mod_lt (size/1024^k) (by decide : 1024 > 0))
  generalize size/1024^k/1024 = q at hsplit hclose ⊢
  generalize size/1024^k%1024 = r at hsplit hclose ⊢
  rw [← hsplit] at hlo hhi
  have hV : (0 : ℚ) < 1024^k := by positivity
  have hparts : ((1024 : ℚ)^(0+k+1)) = 1024*1024^k := by rw [Nat.zero_add,pow_succ']
  push_cast at hlo hhi
  -- the difference in parts of the unit, and what the last scaling dropped
  have hbound (e : ℤ) (he : |((fsizeNumber q r).inTenths*1024 : ℤ)-10*(q*1024+r)| ≤ e) :
      |((fsizeNumber q r).inTenths : ℚ)/10*(1024*1024^k)-size| ≤ (e/10240+1/1024)*(1024*1024^k) := by
    obtain ⟨h1,h2⟩ := abs_le.mp he
    have h1' : -(e : ℚ) ≤ (fsizeNumber q r).inTenths*1024-10*(q*1024+r) := by exact_mod_cast h1
    have h2' : ((fsizeNumber q r).inTenths : ℚ)*1024-10*(q*1024+r) ≤ e := by exact_mod_cast h2
    have h1V := mul_le_mul_of_nonneg_right h1' hV.le
    have h2V := mul_le_mul_of_nonneg_right h2' hV.le
    rw [abs_le]
    constructor
    · linarith
    · linarith
  rw [hparts]
  cases hn : fsizeNumber q r with
  | tenths w t =>
    rw [hn] at hclose hbound
    exact (hbound 512 hclose).trans_eq (by norm_num [FsizeNumber.tolerance])
  | whole w =>
    rw [hn] at hclose hbound
    exact (hbound 5120 hclose).trans_eq (by norm_num [FsizeNumber.tolerance])

theorem printed_mono (hle : size ≤ size') : printedSize size ≤ printedSize size' := by
  unfold printedSize
  by_cases hsmall' : size' < 973
  · rw [if_pos hsmall',if_pos (by omega)]
    exact_mod_cast hle
  obtain ⟨k',hloop',hstop',hfrom'⟩ := fsizeLoop_spec (not_lt.mp hsmall') 0
  have hm' := (Nat.div_add_mod' (size'/1024^k') 1024).symm
  obtain ⟨hlow',_⟩ := inTenths_bounds hstop' (hm' ▸ hfrom')
  rw [if_neg hsmall',hloop']
  by_cases hsmall : size < 973
  · -- anything with a unit is at least one of it
    have hone : (1024 : ℚ) ≤ 1024^(0+k'+1) := le_self_pow₀ (by norm_num) (by omega)
    have hten : (10 : ℚ) ≤ (fsizeNumber (size'/1024^k'/1024) (size'/1024^k'%1024)).inTenths := by
      exact_mod_cast hlow'
    have hsize : (size : ℚ) < 973 := by exact_mod_cast hsmall
    rw [if_pos hsmall]
    nlinarith
  obtain ⟨k,hloop,hstop,hfrom⟩ := fsizeLoop_spec (not_lt.mp hsmall) 0
  have hm := (Nat.div_add_mod' (size/1024^k) 1024).symm
  obtain ⟨_,hhigh⟩ := inTenths_bounds hstop (hm ▸ hfrom)
  rw [if_neg hsmall,hloop]
  rcases lt_trichotomy k k' with hk | rfl | hk
  · have hstep : (1024 : ℚ)*1024^(0+k+1) ≤ 1024^(0+k'+1) := by
      rw [← pow_succ']
      exact pow_le_pow_right₀ (by norm_num) (by omega)
    have hV : (0 : ℚ) < 1024^(0+k+1) := by positivity
    have hten : (10 : ℚ) ≤ (fsizeNumber (size'/1024^k'/1024) (size'/1024^k'%1024)).inTenths := by
      exact_mod_cast hlow'
    have hmax : ((fsizeNumber (size/1024^k/1024) (size/1024^k%1024)).inTenths : ℚ) ≤ 9730 := by
      exact_mod_cast hhigh
    calc ((fsizeNumber (size/1024^k/1024) (size/1024^k%1024)).inTenths : ℚ)/10*1024^(0+k+1)
        ≤ 973*1024^(0+k+1) := by nlinarith
      _ ≤ 1*1024^(0+k'+1) := by nlinarith
      _ ≤ _ := by
        refine mul_le_mul_of_nonneg_right ?_ (by positivity)
        linarith
  · have hdiv := Nat.div_le_div_right (c:=1024^k) hle
    have hmono := inTenths_mono (Nat.mod_lt (size/1024^k) (by decide : 1024 > 0))
      (Nat.mod_lt (size'/1024^k) (by decide : 1024 > 0)) (hm ▸ hm' ▸ hdiv)
    refine mul_le_mul_of_nonneg_right ?_ (by positivity)
    exact div_le_div_of_nonneg_right (by exact_mod_cast hmono) (by norm_num)
  · -- the smaller size is not scaled further down than the larger one
    exfalso
    have hpow : 1024^(k'+1) ≤ 1024^k := Nat.pow_le_pow_right (by decide) hk
    have h1 : size/1024^k ≤ size/1024^(k'+1) := Nat.div_le_div_left hpow (by positivity)
    have h2 : size/1024^(k'+1) ≤ size'/1024^(k'+1) := Nat.div_le_div_right hle
    rw [Nat.div_div_eq_div_mul,← pow_succ] at hstop'
    omega

end Accuracy

namespace Buffer

/-- `vsnprintf` of a text into the `size` bytes behind the string. -/
def vsnprintf (b : Buffer) (size : ℕ) (txt : List UInt8) : Exec Buffer :=
  b.write b.len (txt.take (size-1) ++ [0])

/-- `http2d_buffer_add_va_fixed`, for a format that gives the text. -/
def addVaFixed (b : Buffer) (txt : List UInt8) : Exec (Ret × Buffer) :=
  let size := cint (cuint ((b.size : ℤ)-b.len))
  if size < 1 then .ok (.error,b)
  else do
    let b ← b.vsnprintf size.toNat txt
    if size ≤ txt.length then .ok (.error,b) else .ok (.ok,{b with len := cuint (b.len+txt.length)})

/-- `http2d_buffer_add_fsize`. -/
def addFsize (mem : Bool) (b : Buffer) (size : ℕ) : Exec (Ret × Buffer) :=
  match b.ensure mem (cuint (b.len+8)) with
  | (.ok,b) =>
    if size < 973 then b.addUlong10 mem (UInt64.ofNat size)
    else do
      let (number,o) := fsizeLoop size 0
      let unit ← peekByte fsizeOrd o
      b.addVaFixed (number.text ++ [unit])
  | (ret,b) => .ok (ret,b)

section Printing
variable {mem : Bool} {b c g : Buffer} {txt : List UInt8}

theorem free_eq (hb : b.Sized) : cuint ((b.size : ℤ)-b.len) = b.size-b.len ∧ b.size-b.len < 2^32 := by
  have hsz := hb.size_eq
  have hlt := hb.size_lt
  have hle := hb.len_le
  exact ⟨cuint_sub (by omega) hlt,by omega⟩

/-- The text is added when it fits in the free space, taken as an `int`. -/
theorem addVaFixed_ok (hb : b.Sized) (hint : b.size-b.len < 2^31) (hfit : txt.length < b.size-b.len) :
    ∃ c, b.addVaFixed txt = .ok (.ok,c) ∧ Filled b c (b.content ++ txt) := by
  obtain ⟨hfree,_⟩ := free_eq hb
  have hsz := hb.size_eq
  have hlt := hb.size_lt
  have htake : txt.take (((b.size-b.len : ℕ) : ℤ).toNat-1) = txt := List.take_of_length_le (by omega)
  have hnew : cuint ((b.len : ℤ)+txt.length) = b.len+txt.length := cuint_add (by omega)
  obtain ⟨hw,hf⟩ := terminated_filled (g:=b) txt (by omega)
  refine ⟨_,?_,hf⟩
  simp only [addVaFixed,hfree,cint_of_lt hint,vsnprintf,htake,hw,ok_bind]
  rw [if_neg (by omega),if_neg (by omega),hnew]

theorem addVaFixed_inv (hb : b.Sized) (h : b.addVaFixed txt = .ok (.ok,c)) :
    c.content = b.content ++ txt ∧ c.len = b.len+txt.length := by
  obtain ⟨hfree,hlt⟩ := free_eq hb
  have hint : b.size-b.len < 2^31 ∧ txt.length < b.size-b.len := by
    simp only [addVaFixed,hfree] at h
    split_ifs at h with hneg hlong
    · cases h
    · obtain ⟨d,_,hd⟩ := bind_ok_inv h
      cases hd
    · by_cases hint : b.size-b.len < 2^31
      · rw [cint_of_lt hint] at hlong
        omega
      · have := cint_neg (not_lt.mp hint) hlt
        omega
  obtain ⟨d,hd,hf⟩ := addVaFixed_ok hb hint.1 hint.2
  rw [hd] at h
  cases h
  refine ⟨hf.content_eq,hf.len_eq.trans ?_⟩
  rw [List.length_append,content,List.length_take,min_eq_left hb.len_le]

/-- Granted or not, the string stays in the block. -/
theorem ensure_sized (mem : Bool) (hb : b.Wf) {n : ℕ} (hn : n < 2^32) :
    (b.ensure mem n).2.Sized ∧ (b.ensure mem n).2.len = b.len ∧
      (b.ensure mem n).2.content = b.content := by
  have hsz := hb.size_eq
  have hslt := hb.size_lt
  have hle := hb.len_le
  obtain ⟨_,hlen,hcont⟩ := ensure_block mem hb n
  refine ⟨?_,hlen,hcont⟩
  rcases ensure_cases mem hsz n with ⟨_,heq⟩ | ⟨_,_,heq⟩ | ⟨_,_,heq⟩
  · exact heq ▸ hb.sized
  · exact heq ▸ hb.sized
  · rw [heq]
    refine ⟨extend_size (by omega),?_,?_⟩
    · rw [extend_size (by omega),extend_length]
      omega
    · rw [extend_length,extend_len]
      omega

end Printing

end Buffer

section Sizes
variable {mem : Bool} {b c : Buffer} {size : ℕ}

/-- A number below 973 as `http2d_buffer_add_ulong10` writes it. -/
theorem addUlong10_eq (mem : Bool) (b : Buffer) (h : size < 973) :
    b.addUlong10 mem (UInt64.ofNat size) = b.addNumber mem (digitsText 10 size) := by
  have hnat : (UInt64.ofNat size).toNat = size := UInt64.toNat_ofNat_of_lt' (h.trans (by decide))
  have hop := NumberOp.exec_eq mem b (.addUlong10 (UInt64.ofNat size))
  have htext : (NumberOp.addUlong10 (UInt64.ofNat size)).text = digitsText 10 size := by
    simp only [NumberOp.text,NumberOp.value,NumberOp.base,hnat]
    rw [if_neg (by omega),Int.natAbs_natCast]
  rw [htext] at hop
  exact hop

theorem fsizeText_ok (hsize : size < 2^63) : ∃ txt, fsizeText size = .ok txt := by
  unfold fsizeText
  split_ifs with hsmall
  · exact ⟨_,rfl⟩
  · have hunit := unit_lt (not_lt.mp hsmall) hsize
    have hord := peekByte_ok fsizeOrd (fsizeLoop size 0).2 (by rw [fsizeOrd]; simp; omega)
    simp only [hord,ok_bind]
    exact ⟨_,rfl⟩

/-- All that the writer prints is the text of the size. -/
theorem addFsize_inv (hb : b.Wf) {txt : List UInt8} (htxt : fsizeText size = .ok txt)
    (h : b.addFsize mem size = .ok (.ok,c)) : c.content = b.content ++ txt ∧ c.len = b.len+txt.length := by
  obtain ⟨hsized,hlen,hcont⟩ := Buffer.ensure_sized mem hb (cuint_lt ((b.len : ℤ)+8))
  rw [Buffer.addFsize] at h
  generalize b.ensure mem (cuint (b.len+8)) = r at h hsized hlen hcont
  obtain ⟨ret,g⟩ := r
  obtain rfl : ret = .ok := by cases ret <;> first | rfl | cases h
  dsimp only at h hsized hlen hcont
  rw [← hlen,← hcont]
  rw [fsizeText] at htxt
  split_ifs at h htxt with hsmall
  · cases htxt
    rw [addUlong10_eq mem g hsmall] at h
    obtain ⟨f,hf,hroom⟩ := Buffer.addNumber_room h
    have hdigits := digitsText_length_le (by decide) (by omega : size < 10^(2+1))
    obtain ⟨d,hd,_,hcont,hlen,-⟩ := Buffer.addNumber_spec hsized
      (Buffer.numberFits_of_room hsized (by omega) hf hroom)
    rw [hd] at h
    cases h
    exact ⟨hcont,hlen⟩
  · obtain ⟨unit,hunit,hcall⟩ := bind_ok_inv h
    obtain ⟨unit',hunit',hend⟩ := bind_ok_inv htxt
    rw [hunit] at hunit'
    cases hunit'
    cases hend
    exact Buffer.addVaFixed_inv hsized hcall

/-- Three characters are in front of the unit. -/
theorem fsizeNumber_text_length {q : ℕ} (hq : q < 973) (r : ℕ) : (fsizeNumber q r).text.length ≤ 3 := by
  have hdigit {n : ℕ} (hn : n < 10) : (digitsText 10 n).length ≤ 1 :=
    digitsText_length_le (k:=0) (by decide) (by omega)
  have htenths {w t : ℕ} (hw : w < 10) (ht : t < 10) : (FsizeNumber.tenths w t).text.length ≤ 3 := by
    have := hdigit hw
    have := hdigit ht
    simp only [FsizeNumber.text,List.length_append,List.length_cons]
    omega
  have hwhole {w : ℕ} (hw : w < 1000) : (FsizeNumber.whole w).text.length ≤ 3 := by
    have := digitsText_length_le (by decide) (by omega : w < 10^(2+1))
    rw [FsizeNumber.text,List.length_leftpad]
    omega
  simp only [fsizeNumber]
  split_ifs
  · exact htenths (by omega) (by decide)
  · exact htenths (by omega) (by omega)
  · exact hwhole (by omega)
  · exact hwhole (by omega)

/-- With memory and a block of an ordinary size every size is printed. -/
theorem addFsize_ok (hb : b.Wf) (hsize : size < 2^63) (hlen : b.len+8 < 2^31) (hfree : b.size-b.len < 2^31) :
    ∃ c, b.addFsize true size = .ok (.ok,c) := by
  have hwant : cuint ((b.len : ℤ)+8) = b.len+8 := by simp only [cuint]; omega
  have hsz := hb.size_eq
  obtain ⟨hsized,hgl,_⟩ := Buffer.ensure_sized true hb (by omega : b.len+8 < 2^32)
  obtain ⟨hblk,_,_⟩ := Buffer.ensure_block true hb (b.len+8)
  rw [Buffer.ensuredSize_granted (by omega)] at hblk
  have hret : (b.ensure true (b.len+8)).1 = .ok := by
    rcases Buffer.ensure_cases true hsz (b.len+8) with ⟨_,heq⟩ | ⟨_,hr,_⟩ | ⟨_,_,heq⟩
    · rw [heq]
    · exact absurd hr (Buffer.not_refused (by omega))
    · rw [heq]
  rw [Buffer.addFsize,hwant]
  generalize b.ensure true (b.len+8) = r at *
  obtain ⟨ret,g⟩ := r
  dsimp only at hsized hgl hblk hret ⊢
  subst hret
  have hgs := hsized.size_eq
  dsimp only
  split_ifs with hsmall
  · have hdigits := digitsText_length_le (by decide) (by omega : size < 10^(2+1))
    have hfits : NumberFits true g (digitsText 10 size).length := Or.inr ⟨rfl,by omega⟩
    obtain ⟨c,hc,_⟩ := Buffer.addNumber_spec hsized hfits
    exact ⟨c,(addUlong10_eq true g hsmall).trans hc⟩
  · obtain ⟨k,hloop,hstop,_⟩ := fsizeLoop_spec (not_lt.mp hsmall) 0
    have hunit := unit_lt (not_lt.mp hsmall) hsize
    have hord := peekByte_ok fsizeOrd (fsizeLoop size 0).2 (by rw [fsizeOrd]; simp; omega)
    have htext := fsizeNumber_text_length hstop (size/1024^k%1024)
    rw [hloop] at hord ⊢
    dsimp only at hord ⊢
    rw [hord,ok_bind]
    have hfit : ((fsizeNumber (size/1024^k/1024) (size/1024^k%1024)).text ++
        [fsizeOrd.getD (0+k) 0]).length < g.size-g.len := by
      rw [List.length_append,List.length_singleton]
      omega
    obtain ⟨c,hc,_⟩ := Buffer.addVaFixed_ok hsized (by omega) hfit
    exact ⟨c,hc⟩

end Sizes

/-- What a reader takes from a text: a number in tenths, whether a tenth is written, and the power of
1024 that the unit is. -/
structure SizeReading where
  inTenths : ℕ
  tenth : Bool
  unit : ℕ
  deriving DecidableEq, Repr

namespace SizeReading

def value (r : SizeReading) : ℚ := r.inTenths/10*1024^r.unit

/-- How far the size may be away; without a unit it is exact. -/
def tolerance (r : SizeReading) : ℚ :=
  if r.unit = 0 then 0 else ((if r.tenth then 5/100 else 1/2)+1/1024)*1024^r.unit

end SizeReading

def isDecimal (c : UInt8) : Bool := 48 ≤ c.toNat && c.toNat < 58

/-- The unit behind the number: nothing, or one of the letters K, M, G, T, P and E. -/
def readUnit : List UInt8 → Option ℕ
  | [] => some 0
  | [c] => ([75,77,71,84,80,69].idxOf? c).map (·+1)
  | _ => none

/-- What is behind the whole part: a point and a digit or nothing, and the unit. -/
def readPlaces (whole : ℕ) : List UInt8 → Option SizeReading
  | 46::d::rest =>
    if isDecimal d then (readUnit rest).map fun unit => ⟨10*whole+digitValue d,true,unit⟩ else none
  | rest => (readUnit rest).map fun unit => ⟨10*whole,false,unit⟩

/-- A size as it is read from its text, with blanks in front. -/
def readSize (txt : List UInt8) : Option SizeReading :=
  let txt := txt.dropWhile (· = 32)
  let digits := txt.takeWhile isDecimal
  if digits = [] then none else readPlaces (numeralValue 10 digits) (txt.dropWhile isDecimal)

section Reading
variable {size : ℕ} {txt : List UInt8}

theorem toHex_isDecimal : ∀ d : Fin 10, isDecimal (toHex d) = true ∧ toHex d ≠ 32 := by decide

theorem digitsText_isDecimal {n : ℕ} {c : UInt8} (hc : c ∈ digitsText 10 n) :
    isDecimal c = true ∧ c ≠ 32 := by
  obtain ⟨d,hd,rfl⟩ := (digitsText_isNumeral (by decide) (by decide) n).digits c hc
  exact toHex_isDecimal ⟨d,hd⟩

/-- The digits are read as their number, and the rest behind them. -/
theorem readSize_digits (k n : ℕ) (rest : List UInt8) (hrest : ∀ c ∈ rest.head?, isDecimal c = false) :
    readSize (List.replicate k 32 ++ (digitsText 10 n ++ rest)) = readPlaces n rest := by
  have hnum := digitsText_isNumeral (by decide : 1 < 10) (by decide) n
  have hblank : (List.replicate k 32 ++ (digitsText 10 n ++ rest)).dropWhile (· = 32) =
      digitsText 10 n ++ rest := by
    rw [List.dropWhile_append_of_pos fun c hc => by simp [List.eq_of_mem_replicate hc]]
    obtain ⟨c,ds,hds⟩ := List.exists_cons_of_ne_nil hnum.ne_nil
    have hc := (digitsText_isDecimal (hds ▸ List.mem_cons_self)).2
    rw [hds,List.cons_append,List.dropWhile_cons_of_neg (by simpa using hc)]
  have hdigits : ∀ c ∈ digitsText 10 n, isDecimal c = true := fun c hc => (digitsText_isDecimal hc).1
  have hstop : rest.takeWhile isDecimal = [] ∧ rest.dropWhile isDecimal = rest := by
    cases rest with
    | nil => exact ⟨rfl,rfl⟩
    | cons c rest =>
      have hc := hrest c rfl
      simp [hc]
  rw [readSize,hblank]
  simp only [List.takeWhile_append_of_pos hdigits,List.dropWhile_append_of_pos hdigits,hstop.1,hstop.2,
    List.append_nil,if_neg hnum.ne_nil,hnum.value]

theorem fsizeOrd_letter : ∀ o : Fin 6, readUnit [fsizeOrd.getD o 0] = some ((o : ℕ)+1) ∧
    isDecimal (fsizeOrd.getD o 0) = false ∧ fsizeOrd.getD o 0 ≠ 46 := by decide

/-- A number and a letter are read as what they were written for. -/
theorem readSize_number {q : ℕ} (r : ℕ) {o : ℕ} (ho : o < 6) :
    ∃ tenth, readSize ((fsizeNumber q r).text ++ [fsizeOrd.getD o 0]) =
        some ⟨(fsizeNumber q r).inTenths,tenth,o+1⟩ ∧
      (fsizeNumber q r).tolerance = (if tenth then 5/100 else 1/2)+1/1024 := by
  obtain ⟨hunit,hletter,hpoint⟩ := fsizeOrd_letter ⟨o,ho⟩
  dsimp only at hunit hletter hpoint
  have htenths {w t : ℕ} (ht : t < 10) : readSize ((FsizeNumber.tenths w t).text ++ [fsizeOrd.getD o 0]) =
      some ⟨(FsizeNumber.tenths w t).inTenths,true,o+1⟩ := by
    have hdigit : digitsText 10 t = [toHex t] := by
      rw [digitsText_small (by decide) (by decide) (Nat.div_eq_of_lt ht),Nat.mod_eq_of_lt ht]
    have hread := readSize_digits 0 w (46::toHex t::[fsizeOrd.getD o 0]) (by
      intro c hc
      cases hc
      decide)
    rw [List.replicate_zero,List.nil_append] at hread
    rw [FsizeNumber.text,hdigit,List.append_assoc,List.cons_append,List.singleton_append,hread,readPlaces,
      if_pos (toHex_isDecimal ⟨t,ht⟩).1,hunit,digitValue_toHex ⟨t,by omega⟩]
    rfl
  have hwhole (w : ℕ) : readSize ((FsizeNumber.whole w).text ++ [fsizeOrd.getD o 0]) =
      some ⟨(FsizeNumber.whole w).inTenths,false,o+1⟩ := by
    have hplaces : readPlaces w [fsizeOrd.getD o 0] = some ⟨10*w,false,o+1⟩ := by
      rw [readPlaces,hunit]
      · rfl
      · intro d rest h
        exact hpoint (List.cons.inj h).1
    rw [FsizeNumber.text,List.leftpad,List.append_assoc,readSize_digits _ w _ (by
      intro c hc
      cases hc
      exact hletter),hplaces]
    rfl
  simp only [fsizeNumber]
  split_ifs
  · exact ⟨true,htenths (by decide),rfl⟩
  · exact ⟨true,htenths (by omega),rfl⟩
  · exact ⟨false,hwhole _,rfl⟩
  · exact ⟨false,hwhole _,rfl⟩

/-- The bytes that are printed for a size are read as the number that was worked out for it. -/
theorem readSize_fsizeText (hsize : size < 2^63) (htxt : fsizeText size = .ok txt) :
    ∃ r, readSize txt = some r ∧ r.value = printedSize size ∧ r.tolerance = sizeTolerance size := by
  rw [fsizeText] at htxt
  rw [printedSize,sizeTolerance]
  split_ifs at htxt ⊢ with hsmall
  · cases htxt
    have hread := readSize_digits 0 size [] (by simp)
    rw [List.replicate_zero,List.nil_append,List.append_nil] at hread
    refine ⟨⟨10*size,false,0⟩,hread,?_,rfl⟩
    rw [SizeReading.value]
    push_cast
    ring
  · have hunit := unit_lt (not_lt.mp hsmall) hsize
    obtain ⟨k,hloop,_,_⟩ := fsizeLoop_spec (not_lt.mp hsmall) 0
    have hord := peekByte_ok fsizeOrd (fsizeLoop size 0).2 (by rw [fsizeOrd]; simp; omega)
    rw [hloop] at hunit hord htxt ⊢
    dsimp only at hunit hord htxt ⊢
    rw [hord] at htxt
    cases htxt
    obtain ⟨tenth,hread,htol⟩ := readSize_number (q:=size/1024^k/1024) (size/1024^k%1024) hunit
    exact ⟨_,hread,rfl,by rw [SizeReading.tolerance,if_neg (Nat.succ_ne_zero _),htol]⟩

/-- Of two sizes that are read from their texts the larger one is not read as less. -/
theorem reading_mono {size' : ℕ} {txt' : List UInt8} {r r' : SizeReading} (hsize : size < 2^63)
    (hsize' : size' < 2^63) (hle : size ≤ size') (htxt : fsizeText size = .ok txt)
    (htxt' : fsizeText size' = .ok txt') (hr : readSize txt = some r) (hr' : readSize txt' = some r') :
    r.value ≤ r'.value := by
  obtain ⟨x,hx,hv,_⟩ := readSize_fsizeText hsize htxt
  obtain ⟨x',hx',hv',_⟩ := readSize_fsizeText hsize' htxt'
  obtain rfl : x = r := Option.some.inj (hx.symm.trans hr)
  obtain rfl : x' = r' := Option.some.inj (hx'.symm.trans hr')
  rw [hv,hv']
  exact printed_mono hle

end Reading

/-- The index of the unit exists, and the bytes that are printed for a size are read as a number close
to it, which is not less than what is read for a smaller size. The text is all that is printed, and it
is printed when there is memory for a block of an ordinary size. -/
theorem fsize_faithful {size : ℕ} (hsize : size < 2^63) :
    (973 ≤ size → (fsizeLoop size 0).2 < 6) ∧
    ∃ txt r, fsizeText size = .ok txt ∧ readSize txt = some r ∧ |r.value-size| ≤ r.tolerance ∧
      (∀ size' < 2^63, size ≤ size' → ∃ txt' r', fsizeText size' = .ok txt' ∧ readSize txt' = some r' ∧
        r.value ≤ r'.value) ∧
      ∀ b : Buffer, b.Wf →
        (∀ mem c, b.addFsize mem size = .ok (.ok,c) →
          c.content = b.content ++ txt ∧ c.len = b.len+txt.length) ∧
        (b.len+8 < 2^31 → b.size-b.len < 2^31 → ∃ c, b.addFsize true size = .ok (.ok,c)) := by
  obtain ⟨txt,htxt⟩ := fsizeText_ok hsize
  obtain ⟨r,hr,hvalue,htol⟩ := readSize_fsizeText hsize htxt
  refine ⟨fun h => unit_lt h hsize,txt,r,htxt,hr,?_,fun size' hsize' hle => ?_,
    fun b hb => ⟨fun _ _ h => addFsize_inv hb htxt h,addFsize_ok hb hsize⟩⟩
  · rw [hvalue,htol]
    exact printed_close size
  · obtain ⟨txt',htxt'⟩ := fsizeText_ok hsize'
    obtain ⟨r',hr',_⟩ := readSize_fsizeText hsize' htxt'
    exact ⟨txt',r',htxt',hr',reading_mono hsize hsize' hle htxt htxt' hr hr'⟩

/-- The largest of the sizes. -/
theorem fsize_faithful_max : (973 ≤ 2^63-1 → (fsizeLoop (2^63-1) 0).2 < 6) ∧
    ∃ txt r, fsizeText (2^63-1) = .ok txt ∧ readSize txt = some r ∧
      |r.value-(2^63-1 : ℕ)| ≤ r.tolerance ∧
      (∀ size' < 2^63, 2^63-1 ≤ size' → ∃ txt' r', fsizeText size' = .ok txt' ∧ readSize txt' = some r' ∧
        r.value ≤ r'.value) ∧
      ∀ b : Buffer, b.Wf →
        (∀ mem c, b.addFsize mem (2^63-1) = .ok (.ok,c) →
          c.content = b.content ++ txt ∧ c.len = b.len+txt.length) ∧
        (b.len+8 < 2^31 → b.size-b.len < 2^31 → ∃ c, b.addFsize true (2^63-1) = .ok (.ok,c)) :=
  fsize_faithful (by norm_num)

end Http2d
