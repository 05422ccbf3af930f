import Http2d.SizeText

/-! The length of formatted text: `http2d_estimate_va_length` and `http2d_buffer_add_va_list`.
The estimator reads the format with rules of its own. What `vsnprintf` prints is stated on the pieces
of a format, and the two are compared piece by piece. -/
namespace Http2d

open Bytes Buffer

/-- What `va_arg` finds: an `int`, a `long` or a pointer, a string that may be NULL, and of a `double`
the whole part. -/
inductive VaArg
  | word (v : UInt32)
  | dword (v : UInt64)
  | str (s : Option (List UInt8))
  | double (whole : UInt64)

/-- `va_arg (ap, int)`. -/
def vaInt : List VaArg → Exec (ℤ × List VaArg)
  | .word v::ap => .ok (v.toInt32.toInt,ap)
  | _ => .error .fault

/-- `va_arg (ap, clong_t)`. -/
def vaLong : List VaArg → Exec (ℤ × List VaArg)
  | .dword v::ap => .ok (v.toInt64.toInt,ap)
  | _ => .error .fault

/-- `lflag ? va_arg (ap, clong_t) : va_arg (ap, int)`. -/
def vaSigned (lflag : Bool) (ap : List VaArg) : Exec (ℤ × List VaArg) :=
  if lflag then vaLong ap else vaInt ap

/-- What `ul` is assigned. -/
def vaUnsigned (lflag llflag : Bool) (ap : List VaArg) : Exec (ℕ × List VaArg) :=
  (if llflag then vaLong ap else vaSigned lflag ap).map fun r => (sizeT r.1,r.2)

/-- `LEN_NUM` divides as long as something is left. -/
def lenDigits (base n : ℕ) : ℕ :=
  if 1 < base ∧ n/base ≠ 0 then lenDigits base (n/base)+1 else 1
termination_by n
decreasing_by
  rename_i h
  exact Nat.div_lt_self (Nat.pos_of_ne_zero fun h0 => h.2 (by simp [h0])) h.1

/-- `LEN_NUM`. -/
def lenNum (base n : ℕ) : ℕ := lenDigits base n+1

/-- The signed conversions of the estimator: the sign and the digits. -/
def lenSigned (base : ℕ) (ll : ℤ) : Exec ℕ :=
  if ll < 0 then
    if ll = -2^63 then .error .fault else .ok (1+lenNum base (-ll).toNat)
  else .ok (lenNum base ll.toNat)

/-- Where the estimator is: in the text, or behind a `%`, perhaps within a width. -/
inductive EstimateMode
  | text
  | directive (lflag llflag : Bool) (width : Option ℕ)

/-- The signed value of a conversion and its length. -/
def estimateSigned (base : ℕ) (lflag : Bool) (len : ℕ) (ap : List VaArg) :
    Exec (EstimateMode × ℕ × List VaArg) := do
  let (ll,ap) ← vaSigned lflag ap
  let n ← lenSigned base ll
  .ok (.text,cuint (len+n),ap)

/-- The `switch` on a character behind a `%`. -/
def estimateSwitch (lflag llflag : Bool) (ch : UInt8) (len : ℕ) (ap : List VaArg) :
    Exec (EstimateMode × ℕ × List VaArg) :=
  if ch = 115 then
    match ap with
    | .str p::ap => .ok (.text,cuint (len+(p.getD [40,110,117,108,108,41]).length),ap)
    | _ => .error .fault
  else if ch = 100 then estimateSigned 10 lflag len ap
  else if ch = 108 then
    .ok (if lflag then .directive lflag true none else .directive true llflag none,len,ap)
  else if ch = 117 then do
    let (ul,ap) ← vaUnsigned lflag llflag ap
    .ok (.text,cuint (len+lenNum 10 ul),ap)
  else if ch = 48 then .ok (.directive lflag llflag none,len,ap)
  else if 49 ≤ ch ∧ ch ≤ 57 then .ok (.directive lflag llflag (some (ch.toNat-48)),len,ap)
  else if ch = 99 then do
    let (_,ap) ← vaInt ap
    .ok (.text,cuint (len+1),ap)
  else if ch = 111 then estimateSigned 8 lflag len ap
  else if ch = 102 then
    match ap with
    | .double whole::ap => .ok (.text,cuint (len+30+lenNum 10 whole.toNat),ap)
    | _ => .error .fault
  else if ch = 112 then estimateSigned 16 true (cuint (len+2)) ap
  else if ch = 120 then estimateSigned 16 lflag len ap
  else if ch = 37 then .ok (.text,cuint (len+3),ap)
  else .ok (.text,cuint (len+2),ap)

/-- The loop of `http2d_estimate_va_length`; the NUL behind a `%` is taken for a conversion. -/
def estimateFrom : List UInt8 → EstimateMode → ℕ → List VaArg → Exec ℤ
  | [], .text, len, _ => .ok (cint (cuint (len+1)))
  | [], .directive _ _ _, _, _ => .error .fault
  | ch::fmt, .text, len, ap =>
    if ch = 37 then estimateFrom fmt (.directive false false none) len ap
    else estimateFrom fmt .text (cuint (len+1)) ap
  | ch::fmt, .directive lflag llflag none, len, ap => do
    let (mode,len,ap) ← estimateSwitch lflag llflag ch len ap
    estimateFrom fmt mode len ap
  | ch::fmt, .directive lflag llflag (some width), len, ap =>
    if 48 ≤ ch ∧ ch ≤ 57 then
      estimateFrom fmt (.directive lflag llflag (some (cuint ((width*10+ch.toNat : ℤ)-48)))) len ap
    else do
      let (mode,len,ap) ← estimateSwitch lflag llflag ch (cuint (len+width)) ap
      estimateFrom fmt mode len ap

/-- `http2d_estimate_va_length`. -/
def estimateVaLength (fmt : List UInt8) (ap : List VaArg) : Exec ℤ := estimateFrom fmt .text 0 ap

/-- The end of `http2d_buffer_add_va_list`, for arguments that give the text `txt`. The path for a text
that does not fit formats it again from the arguments that are used up. -/
def Buffer.formatInto (b : Buffer) (txt : List UInt8) : Exec (Ret × Buffer) :=
  let size := cint (cuint ((b.size : ℤ)-b.len))
  if size < 1 then .ok (.error,b)
  else if 2^31 ≤ txt.length then .ok (.error,b)
  else do
    let b ← b.vsnprintf size.toNat txt
    if size ≤ txt.length then .error .fault else .ok (.ok,{b with len := cuint (b.len+txt.length)})

/-- `http2d_buffer_add_va_list`. -/
def Buffer.addVaList (mem : Bool) (b : Buffer) (fmt : List UInt8) (args : List VaArg)
    (txt : List UInt8) : Exec (Ret × Buffer) := do
  let estimation ← estimateVaLength fmt args
  if estimation < 0 then .ok (.error,b)
  else
    match b.ensure mem (cuint (b.len+estimation+2)) with
    | (.ok,b) => b.formatInto txt
    | (ret,b) => .ok (ret,b)

/-- An integer argument with the modifier that announces it. -/
inductive IntArg
  | int (v : UInt32)
  | long (v : UInt64)
  | llong (v : UInt64)

namespace IntArg

def modifier : IntArg → List UInt8
  | int _ => []
  | long _ => [108]
  | llong _ => [108,108]

def arg : IntArg → VaArg
  | int v => .word v
  | long v | llong v => .dword v

def unsigned : IntArg → ℕ
  | int v => v.toNat
  | long v | llong v => v.toNat

def signed : IntArg → ℤ
  | int v => v.toInt32.toInt
  | long v | llong v => v.toInt64.toInt

end IntArg

/-- A conversion with its argument. -/
inductive Directive
  | s (txt : {txt : List UInt8 // 0 ∉ txt})
  | d (v : IntArg)
  | u (v : IntArg)
  | x (v : IntArg)
  | o (v : IntArg)
  | c (v : UInt32)
  | p (v : UInt64)

/-- A piece of a format. A width has no leading zero; there is none when it is 0. -/
inductive FormatPiece
  | lit (ch : {ch : UInt8 // ch ≠ 0 ∧ ch ≠ 37})
  | percent
  | conv (zero : Bool) (width : ℕ) (dir : Directive)

namespace Directive

/-- The modifier and the conversion character. -/
def spec : Directive → List UInt8
  | s _ => [115]
  | d v => v.modifier ++ [100]
  | u v => v.modifier ++ [117]
  | x v => v.modifier ++ [120]
  | o v => v.modifier ++ [111]
  | c _ => [99]
  | p _ => [112]

def arg : Directive → VaArg
  | s txt => .str (some txt.1)
  | d v | u v | x v | o v => v.arg
  | c v => .word v
  | p v => .dword v

variable (null : List UInt8)

/-- What `vsnprintf` prints: what a zero flag leaves in front, and the rest. The text of the null
pointer is up to the library. -/
def parts : Directive → List UInt8 × List UInt8
  | s txt => ([],txt.1)
  | d v => if v.signed < 0 then ([45],digitsText 10 v.signed.natAbs) else ([],digitsText 10 v.signed.natAbs)
  | u v => ([],digitsText 10 v.unsigned)
  | x v => ([],digitsText 16 v.unsigned)
  | o v => ([],digitsText 8 v.unsigned)
  | c v => ([],[UInt8.ofNat v.toNat])
  | p v => if v = 0 then ([],null) else ([48,120],digitsText 16 v.toNat)

/-- Zeros fill only numbers. -/
def isNumber : Directive → Bool
  | s _ | c _ => false
  | d _ | u _ | x _ | o _ => true
  | p v => v ≠ 0

end Directive

namespace FormatPiece

variable (null : List UInt8)

/-- The piece in the format string. -/
def format : FormatPiece → List UInt8
  | lit ch => [ch.1]
  | percent => [37,37]
  | conv zero width dir =>
    37::((if zero then [48] else []) ++ ((if width = 0 then [] else digitsText 10 width) ++ dir.spec))

def args : FormatPiece → List VaArg
  | lit _ | percent => []
  | conv _ _ dir => [dir.arg]

/-- What `vsnprintf` prints for the piece. -/
def output : FormatPiece → List UInt8
  | lit ch => [ch.1]
  | percent => [37]
  | conv zero width dir =>
    let (front,rest) := dir.parts null
    if zero && dir.isNumber then front ++ rest.leftpad (width-front.length) 48
    else (front ++ rest).leftpad width 32

end FormatPiece

/-- The format string, the arguments and the text of pieces. -/
def formatOf (ps : List FormatPiece) : List UInt8 := ps.flatMap FormatPiece.format
def argsOf (ps : List FormatPiece) : List VaArg := ps.flatMap FormatPiece.args
def outputOf (null : List UInt8) (ps : List FormatPiece) : List UInt8 := ps.flatMap (FormatPiece.output null)

/-- What the estimator counts for a signed number: the sign, the digits and one more. -/
def signedCount (base : ℕ) (z : ℤ) : ℕ := (if z < 0 then 1 else 0)+((digitsText base z.natAbs).length+1)

namespace Directive

/-- What the estimator counts for a conversion, beside its width. -/
def counted : Directive → ℕ
  | s txt => txt.1.length
  | d v => signedCount 10 v.signed
  | u v => (digitsText 10 (sizeT v.signed)).length+1
  | x v => signedCount 16 v.signed
  | o v => signedCount 8 v.signed
  | c _ => 1
  | p v => 2+signedCount 16 v.toInt64.toInt

/-- The estimator does not have to negate the smallest number. -/
def negates : Directive → Bool
  | s _ | u _ | c _ => true
  | d v | x v | o v => v.signed ≠ -2^63
  | p v => v.toInt64.toInt ≠ -2^63

end Directive

section Scanning
variable {rest : List UInt8} {ap : List VaArg} {len : ℕ}

theorem lenDigits_eq {base : ℕ} (hbase : 1 < base) (h16 : base ≤ 16) (n : ℕ) :
    lenDigits base n = (digitsText base n).length := by
  induction n using lenDigits.induct base with
  | case1 n h ih =>
    rw [lenDigits,if_pos h,ih,digitsText_step hbase h16 h.2,List.length_append,List.length_singleton]
  | case2 n h =>
    have h0 : n/base = 0 := by
      by_contra hne
      exact h ⟨hbase,hne⟩
    rw [lenDigits,if_neg h,digitsText_small hbase h16 h0,List.length_singleton]

theorem lenSigned_eq {base : ℕ} (hbase : 1 < base) (h16 : base ≤ 16) (z : ℤ) :
    lenSigned base z = if z = -2^63 then .error .fault else .ok (signedCount base z) := by
  simp only [lenSigned,lenNum,lenDigits_eq hbase h16,signedCount]
  by_cases hneg : z < 0
  · have habs : (-z).toNat = z.natAbs := by omega
    simp only [if_pos hneg,habs]
  · have habs : z.toNat = z.natAbs := by omega
    rw [if_neg hneg,if_neg (by omega : ¬ z = -2^63),if_neg hneg,habs,Nat.zero_add]

theorem estimateSigned_eq {base : ℕ} (hbase : 1 < base) (h16 : base ≤ 16) (lflag : Bool) (z : ℤ)
    {ap' : List VaArg} (hap : vaSigned lflag ap' = .ok (z,ap)) : estimateSigned base lflag len ap' =
      if z = -2^63 then .error .fault else .ok (.text,cuint (len+signedCount base z),ap) := by
  rw [estimateSigned,hap]
  simp only [ok_bind,lenSigned_eq hbase h16]
  split_ifs <;> rfl

variable (rest ap len) in
/-- The modifiers set the flags, and the argument is read with its own size. -/
theorem estimateFrom_modifier (v : IntArg) (ch : UInt8) : ∃ lflag llflag,
    estimateFrom (v.modifier ++ ch::rest) (.directive false false none) len (v.arg::ap) =
      estimateFrom (ch::rest) (.directive lflag llflag none) len (v.arg::ap) ∧
    vaSigned lflag (v.arg::ap) = .ok (v.signed,ap) ∧
    vaUnsigned lflag llflag (v.arg::ap) = .ok (sizeT v.signed,ap) := by
  cases v with
  | int v => exact ⟨false,false,rfl,rfl,rfl⟩
  | long v => exact ⟨true,false,rfl,rfl,rfl⟩
  | llong v => exact ⟨true,true,rfl,rfl,rfl⟩

/-- The estimator behind the flag and the width of a conversion. -/
theorem estimateFrom_spec (dir : Directive) :
    estimateFrom (dir.spec ++ rest) (.directive false false none) len (dir.arg::ap) =
      if dir.negates then estimateFrom rest .text (cuint (len+dir.counted)) ap else .error .fault := by
  have hsigned (base : ℕ) (hbase : 1 < base) (h16 : base ≤ 16) (v : IntArg) (ch : UInt8)
      (hch : ∀ lflag llflag len ap, estimateSwitch lflag llflag ch len ap = estimateSigned base lflag len ap) :
      estimateFrom ((v.modifier ++ [ch]) ++ rest) (.directive false false none) len (v.arg::ap) =
        if decide (v.signed ≠ -2^63) then
          estimateFrom rest .text (cuint (len+signedCount base v.signed)) ap else .error .fault := by
    obtain ⟨lflag,llflag,hmod,harg,_⟩ := estimateFrom_modifier rest ap len v ch
    rw [List.append_assoc,List.singleton_append,hmod,estimateFrom,hch,
      estimateSigned_eq hbase h16 lflag v.signed harg]
    by_cases hmin : v.signed = -2^63
    · rw [if_pos hmin,if_neg (by simpa using hmin)]
      rfl
    · rw [if_neg hmin,if_pos (by simpa using hmin)]
      rfl
  cases dir with
  | s txt => rfl
  | d v => exact hsigned 10 (by decide) (by decide) v 100 fun _ _ _ _ => rfl
  | u v =>
    obtain ⟨lflag,llflag,hmod,_,hread⟩ := estimateFrom_modifier rest ap len v 117
    have hswitch : estimateSwitch lflag llflag 117 len (v.arg::ap) =
        vaUnsigned lflag llflag (v.arg::ap) >>= fun r => .ok (.text,cuint (len+lenNum 10 r.1),r.2) := rfl
    rw [Directive.spec,Directive.arg,List.append_assoc,List.singleton_append,hmod,estimateFrom,hswitch,
      hread]
    simp only [ok_bind,lenNum,lenDigits_eq (by decide : 1 < 10) (by decide : 10 ≤ 16)]
    rfl
  | x v => exact hsigned 16 (by decide) (by decide) v 120 fun _ _ _ _ => rfl
  | o v => exact hsigned 8 (by decide) (by decide) v 111 fun _ _ _ _ => rfl
  | c v => rfl
  | p v =>
    have hswitch : estimateSwitch false false 112 len (.dword v::ap) =
        estimateSigned 16 true (cuint (len+2)) (.dword v::ap) := rfl
    rw [Directive.spec,Directive.arg,List.singleton_append,estimateFrom,hswitch,
      estimateSigned_eq (by decide) (by decide) true v.toInt64.toInt rfl]
    have hsum : cuint ((cuint ((len : ℤ)+2) : ℤ)+signedCount 16 v.toInt64.toInt) =
        cuint (len+(2+signedCount 16 v.toInt64.toInt : ℕ)) := by
      simp only [cuint]; omega
    rw [hsum]
    by_cases hmin : v.toInt64.toInt = -2^63
    · rw [if_pos hmin,if_neg (by simpa [Directive.negates] using hmin)]
      rfl
    · rw [if_neg hmin,if_pos (by simpa [Directive.negates] using hmin)]
      rfl

theorem toHex_decimal : ∀ d : Fin 10, 48 ≤ toHex d ∧ toHex d ≤ 57 ∧ (toHex d).toNat = d+48 := by decide

/-- The digits of a number below ten. -/
theorem decimal_digit {c : UInt8} (h : ∃ d < 10, c = toHex d) :
    48 ≤ c ∧ c ≤ 57 ∧ c.toNat = digitValue c+48 := by
  obtain ⟨d,hd,rfl⟩ := h
  obtain ⟨hlo,hhi,hval⟩ := toHex_decimal ⟨d,hd⟩
  refine ⟨hlo,hhi,?_⟩
  rw [digitValue,hval,if_pos (by simp only; omega)]
  omega

/-- Further digits of a width. -/
theorem estimateFrom_digits {ds : List UInt8} (hds : ∀ c ∈ ds, ∃ d < 10, c = toHex d) (a : ℕ) :
    estimateFrom (ds ++ rest) (.directive false false (some (a%2^32))) len ap =
      estimateFrom rest (.directive false false
        (some (ds.foldl (fun v c => v*10+digitValue c) a%2^32))) len ap := by
  induction ds generalizing a with
  | nil => rfl
  | cons c ds ih =>
    obtain ⟨hlo,hhi,hval⟩ := decimal_digit (hds c (List.mem_cons_self ..))
    have hnext : cuint (((a%2^32*10+c.toNat : ℕ) : ℤ)-48) = (a*10+digitValue c)%2^32 := by
      rw [hval]
      simp only [cuint]
      omega
    rw [List.foldl_cons,← ih (fun x hx => hds x (List.mem_cons_of_mem _ hx)),List.cons_append,
      estimateFrom,if_pos ⟨hlo,hhi⟩,← hnext]
    push_cast
    rfl

/-- A width is read as it is written, as a `cuint_t`. -/
theorem estimateFrom_width {width : ℕ} (hpos : width ≠ 0) :
    estimateFrom (digitsText 10 width ++ rest) (.directive false false none) len ap =
      estimateFrom rest (.directive false false (some (width%2^32))) len ap := by
  have hnum := digitsText_isNumeral (by decide : 1 < 10) (by decide) width
  generalize digitsText 10 width = txt at hnum
  cases txt with
  | nil => exact absurd rfl hnum.ne_nil
  | cons c ds =>
    obtain ⟨hlo,hhi,hval⟩ := decimal_digit (hnum.digits c (List.mem_cons_self ..))
    have hvalue := hnum.value
    rw [numeralValue,List.foldl_cons,Nat.zero_mul,Nat.zero_add] at hvalue
    have hzero : c ≠ 48 := by
      rintro rfl
      have hone := hnum.leading rfl
      rw [(List.cons.inj hone).2] at hvalue
      exact hpos (hvalue.symm.trans (by decide))
    have hfirst : 49 ≤ c := by
      rw [UInt8.le_iff_toNat_le] at hlo ⊢
      have : c.toNat ≠ 48 := fun h => hzero (UInt8.toNat_inj.mp (h.trans (by decide)))
      have h48 : (48 : UInt8).toNat = 48 := rfl
      have h49 : (49 : UInt8).toNat = 49 := rfl
      omega
    have hne (k : UInt8) (hk : 57 < k) : c ≠ k := fun h => absurd (h ▸ hhi) (UInt8.not_le.mpr hk)
    have hswitch : estimateSwitch false false c len ap =
        .ok (.directive false false (some (digitValue c%2^32)),len,ap) := by
      have hdigit : c.toNat-48 = digitValue c%2^32 := by
        have := c.toNat_lt
        omega
      unfold estimateSwitch
      rw [if_neg (hne 115 (by decide)),if_neg (hne 100 (by decide)),if_neg (hne 108 (by decide)),
        if_neg (hne 117 (by decide)),if_neg hzero,if_pos ⟨hfirst,hhi⟩,hdigit]
    rw [List.cons_append,estimateFrom,hswitch]
    simp only [ok_bind]
    rw [estimateFrom_digits (fun x hx => hnum.digits x (List.mem_cons_of_mem _ hx)),hvalue]

/-- The character behind a width is a modifier or a conversion. -/
theorem estimateFrom_behind (dir : Directive) (width : ℕ) :
    estimateFrom (dir.spec ++ rest) (.directive false false (some width)) len ap =
      estimateFrom (dir.spec ++ rest) (.directive false false none) (cuint (len+width)) ap := by
  have hmod (v : IntArg) {ch : UInt8} (hch : ¬ (48 ≤ ch ∧ ch ≤ 57)) :
      estimateFrom (v.modifier ++ [ch] ++ rest) (.directive false false (some width)) len ap =
        estimateFrom (v.modifier ++ [ch] ++ rest) (.directive false false none) (cuint (len+width)) ap := by
    cases v with
    | int v => exact if_neg hch
    | long v | llong v => rfl
  cases dir with
  | s txt | c v | p v => rfl
  | d v | u v | x v | o v => exact hmod v (by decide)

end Scanning

namespace FormatPiece

/-- What the estimator counts for a piece. -/
def counted : FormatPiece → ℕ
  | lit _ => 1
  | percent => 3
  | conv _ width dir => width+dir.counted

def negates : FormatPiece → Bool
  | lit _ | percent => true
  | conv _ _ dir => dir.negates

variable {rest : List UInt8} {ap : List VaArg} {len : ℕ}

/-- The estimator counts a piece in front of the rest of the format. -/
theorem estimateFrom_piece (p : FormatPiece) :
    estimateFrom (p.format ++ rest) .text len (p.args ++ ap) =
      if p.negates then estimateFrom rest .text (cuint (len+p.counted)) ap else .error .fault := by
  cases p with
  | lit ch => exact if_neg ch.2.2
  | percent => rfl
  | conv zero width dir =>
    have hzero : estimateFrom (format (.conv zero width dir) ++ rest) .text len (args (.conv zero width dir) ++ ap) =
        estimateFrom ((if width = 0 then [] else digitsText 10 width) ++ (dir.spec ++ rest))
          (.directive false false none) len (dir.arg::ap) := by
      cases zero <;> simp [format,args,estimateFrom,estimateSwitch]
    have hwidth : estimateFrom ((if width = 0 then [] else digitsText 10 width) ++ (dir.spec ++ rest))
          (.directive false false none) len (dir.arg::ap) =
        estimateFrom (dir.spec ++ rest) (.directive false false none) (cuint (len+width)) (dir.arg::ap) ∨
        width = 0 := by
      by_cases h0 : width = 0
      · exact Or.inr h0
      · rw [if_neg h0,estimateFrom_width h0,estimateFrom_behind]
        refine Or.inl ?_
        congr 1
        simp only [cuint]
        omega
    rw [hzero]
    rcases hwidth with hwidth | h0
    · rw [hwidth,estimateFrom_spec]
      have hsum : cuint ((cuint ((len : ℤ)+width) : ℤ)+dir.counted) = cuint (len+(width+dir.counted : ℕ)) := by
        simp only [cuint]
        omega
      rw [hsum]
      rfl
    · rw [if_pos h0,List.nil_append,estimateFrom_spec,counted,h0,Nat.zero_add]
      rfl

/-- What is counted for all pieces. -/
def countedAll (ps : List FormatPiece) : ℕ := (ps.map counted).sum

theorem estimateFrom_pieces (ps : List FormatPiece) (len : ℕ) :
    estimateFrom (formatOf ps) .text (cuint len) (argsOf ps) =
      if ps.all negates then .ok (cint (cuint (len+countedAll ps+1))) else .error .fault := by
  induction ps generalizing len with
  | nil =>
    have hend : estimateFrom [] .text (cuint len) [] = .ok (cint (cuint (cuint len+1))) := rfl
    have hsum : cuint ((cuint (len : ℤ) : ℤ)+1) = cuint ((len : ℤ)+(0 : ℕ)+1) := by
      simp only [cuint]
      omega
    rw [hsum] at hend
    exact hend
  | cons p ps ih =>
    have hsum : cuint ((cuint (len : ℤ) : ℤ)+p.counted) = cuint (len+p.counted : ℕ) := by
      simp only [cuint]
      omega
    have htotal : (len : ℤ)+countedAll (p::ps)+1 = (len+p.counted : ℕ)+countedAll ps+1 := by
      simp only [countedAll,List.map_cons,List.sum_cons]
      push_cast
      ring
    rw [formatOf,argsOf,List.flatMap_cons,List.flatMap_cons,estimateFrom_piece,hsum,htotal,List.all_cons]
    by_cases hp : p.negates = true
    · rw [if_pos hp,hp,Bool.true_and]
      exact ih _
    · rw [if_neg hp,if_neg (by simp [hp])]

end FormatPiece

namespace Directive

/-- How much `vsnprintf` prints without a width. -/
def printed (null : List UInt8) (dir : Directive) : ℕ := (dir.parts null).1.length+(dir.parts null).2.length

end Directive

namespace FormatPiece

variable (null : List UInt8)

/-- What the estimator counts for a piece beyond what is printed. -/
def surplus : FormatPiece → ℤ
  | lit _ => 0
  | percent => 2
  | conv _ width dir => (width+dir.counted : ℕ)-max width (dir.printed null)

def surplusAll (ps : List FormatPiece) : ℤ := (ps.map (surplus null)).sum

theorem counted_eq (p : FormatPiece) : (p.counted : ℤ) = (p.output null).length+p.surplus null := by
  cases p with
  | lit ch => rfl
  | percent => rfl
  | conv zero width dir =>
    have hlen : (output null (.conv zero width dir)).length = max width (dir.printed null) := by
      obtain ⟨front,rest,hparts⟩ : ∃ front rest, dir.parts null = (front,rest) := ⟨_,_,rfl⟩
      simp only [output,Directive.printed,hparts]
      split_ifs
      · rw [List.length_append,List.length_leftpad]
        omega
      · rw [List.length_leftpad,List.length_append]
    rw [hlen,counted,surplus]
    ring

theorem countedAll_eq (ps : List FormatPiece) :
    (countedAll ps : ℤ) = (outputOf null ps).length+surplusAll null ps := by
  induction ps with
  | nil => rfl
  | cons p ps ih =>
    have hp := counted_eq null p
    simp only [countedAll,surplusAll,outputOf,List.map_cons,List.sum_cons,List.flatMap_cons,
      List.length_append,Nat.cast_add] at ih ⊢
    rw [hp,ih]
    ring

end FormatPiece

section Adding
variable {mem : Bool} {b c : Buffer} {txt : List UInt8}

/-- A number as an `int`. -/
theorem cint_cuint (n : ℤ) : ∃ j : ℤ, cint (cuint n) = n-j*2^32 ∧ IsInt (cint (cuint n)) := by
  have hval : ((cuint n : ℕ) : ℤ) = n-n/2^32*2^32 := by
    simp only [cuint]
    omega
  have hlt := cuint_lt n
  have hint := cint_isInt (n:=cuint n)
  unfold cint at hint ⊢
  rw [Nat.mod_eq_of_lt hlt] at hint ⊢
  split_ifs at hint ⊢ with hpos
  · exact ⟨n/2^32,hval,hint⟩
  · exact ⟨n/2^32+1,by rw [hval]; ring,hint⟩

variable (txt) in
theorem formatInto_iff (hb : b.Sized) : (∃ c, b.formatInto txt = .ok (.ok,c) ∧
      c.content = b.content ++ txt ∧ c.len = b.len+txt.length) ↔
    txt.length < b.size-b.len ∧ b.size-b.len < 2^31 := by
  obtain ⟨hfree,hlt⟩ := Buffer.free_eq hb
  have hsz := hb.size_eq
  have hslt := hb.size_lt
  simp only [Buffer.formatInto,hfree]
  constructor
  · rintro ⟨c,hc,_⟩
    split_ifs at hc with hneg hhuge hlong
    · cases hc
    · cases hc
    · obtain ⟨_,_,hd⟩ := bind_ok_inv hc
      cases hd
    · by_cases hint : b.size-b.len < 2^31
      · rw [cint_of_lt hint] at hlong
        omega
      · have := cint_neg (not_lt.mp hint) hlt
        omega
  · rintro ⟨hfit,hint⟩
    have htake : txt.take (((b.size-b.len : ℕ) : ℤ).toNat-1) = txt := List.take_of_length_le (by omega)
    have hnew : cuint ((b.len : ℤ)+txt.length) = b.len+txt.length := cuint_add (by omega)
    obtain ⟨hw,hf⟩ := terminated_filled (g:=b) txt (by omega)
    refine ⟨_,?_,hf.content_eq,rfl⟩
    simp only [cint_of_lt hint,Buffer.vsnprintf,htake,hw,ok_bind]
    rw [if_neg (by omega),if_neg (by omega),if_neg (by omega),hnew]

/-- The block after the request is granted or not needed. -/
theorem addVaList_iff (hb : b.Wf) {fmt : List UInt8} {args : List VaArg} {n : ℤ}
    (hn : estimateVaLength fmt args = .ok n) (hpos : 0 ≤ n) {want : ℕ} (hwant : cuint (b.len+n+2) = want) :
    (∃ c, b.addVaList mem fmt args txt = .ok (.ok,c) ∧ c.content = b.content ++ txt ∧
      c.len = b.len+txt.length) ↔
    (want ≤ b.size ∨ mem = true) ∧ txt.length < max b.size want-b.len ∧
      max b.size want-b.len < 2^31 := by
  have hsz := hb.size_eq
  have hlt : want < 2^32 := hwant ▸ cuint_lt _
  obtain ⟨hsized,hlen,hcont⟩ := Buffer.ensure_sized mem hb hlt
  rw [Buffer.addVaList,hn,ok_bind,if_neg (not_lt.mpr hpos),hwant]
  rcases Buffer.ensure_cases mem hsz want with ⟨hfit,heq⟩ | ⟨hmore,hr,heq⟩ | ⟨hmore,hr,heq⟩
  · rw [heq] at hsized ⊢
    rw [max_eq_left hfit,and_iff_right (Or.inl hfit)]
    exact formatInto_iff _ hsized
  · rw [heq]
    refine iff_of_false ?_ ?_
    · rintro ⟨_,hc,_⟩
      cases hc
    · rintro ⟨hfit | hmem,_⟩
      · omega
      · exact absurd hr (hmem ▸ Buffer.not_refused (by omega))
  · have hmem : mem = true := by
      rcases hr' : mem with _ | _
      · exact absurd (Or.inl hr') hr
      · rfl
    have hgs : (b.extend (want-b.size)).size = want := by
      rw [Buffer.extend_size (by omega),Buffer.extend_length]
      omega
    rw [heq] at hsized hlen hcont ⊢
    rw [max_eq_right hmore.le,and_iff_right (Or.inr hmem)]
    have hiff := formatInto_iff txt hsized
    rw [hcont,hlen,hgs] at hiff
    exact hiff

end Adding

open FormatPiece

/-- The estimate is no smaller than the text, and the whole text is appended at once. -/
structure AddsWhole (null : List UInt8) (mem : Bool) (b : Buffer) (ps : List FormatPiece) : Prop where
  estimate : ∃ n, estimateVaLength (formatOf ps) (argsOf ps) = .ok n ∧ (outputOf null ps).length ≤ n
  appended : ∃ c, b.addVaList mem (formatOf ps) (argsOf ps) (outputOf null ps) = .ok (.ok,c) ∧
    c.content = b.content ++ outputOf null ps ∧ c.len = b.len+(outputOf null ps).length

/-- The pieces leave a surplus, and the sizes stay in their ranges. -/
structure Covered (null : List UInt8) (mem : Bool) (b : Buffer) (ps : List FormatPiece) : Prop where
  negates : ps.all negates
  counts : ∃ k : ℕ, k*2^32 ≤ surplusAll null ps+1 ∧
    (outputOf null ps).length+surplusAll null ps+1 < k*2^32+2^31
  room : let want := cuint (b.len+(outputOf null ps).length+surplusAll null ps+3)
    (want ≤ b.size ∨ mem = true) ∧ (outputOf null ps).length < max b.size want-b.len ∧
      max b.size want-b.len < 2^31

/-- Formatted text is appended as a whole, from an estimate that is no smaller, exactly when the
surplus of the pieces does not run out and all sizes stay in their ranges. -/
theorem addsWhole_iff (null : List UInt8) (mem : Bool) {b : Buffer} (hb : b.Wf) (ps : List FormatPiece) :
    AddsWhole null mem b ps ↔ Covered null mem b ps := by
  have hscan := estimateFrom_pieces ps 0
  have htotal := countedAll_eq null ps
  by_cases hneg : ps.all FormatPiece.negates = true
  · rw [if_pos hneg] at hscan
    obtain ⟨j,hj,hlo,hhi⟩ := cint_cuint ((0 : ℕ)+countedAll ps+1)
    generalize cint (cuint ((0 : ℕ)+countedAll ps+1)) = n at hscan hj hlo hhi
    have hn : estimateVaLength (formatOf ps) (argsOf ps) = .ok n := hscan
    rw [Nat.cast_zero,zero_add,htotal] at hj
    have hwant : cuint (b.len+n+2) =
        cuint (b.len+(outputOf null ps).length+surplusAll null ps+3) := by
      rw [hj]
      simp only [cuint]
      omega
    have hcounts : (outputOf null ps).length ≤ n ↔ ∃ k : ℕ, k*2^32 ≤ surplusAll null ps+1 ∧
        (outputOf null ps).length+surplusAll null ps+1 < k*2^32+2^31 := by
      constructor
      · intro hle
        exact ⟨j.toNat,by omega,by omega⟩
      · rintro ⟨k,hk,hk'⟩
        omega
    constructor
    · rintro ⟨⟨n',hn',hle⟩,happ⟩
      obtain rfl : n = n' := Except.ok.inj (hn.symm.trans hn')
      exact ⟨hneg,hcounts.mp hle,(addVaList_iff hb hn (by omega) hwant).mp happ⟩
    · rintro ⟨_,hk,hroom⟩
      have hle := hcounts.mpr hk
      exact ⟨⟨n,hn,hle⟩,(addVaList_iff hb hn (by omega) hwant).mpr hroom⟩
  · rw [if_neg hneg] at hscan
    refine iff_of_false ?_ fun h => hneg h.negates
    rintro ⟨⟨n,hn,_⟩,_⟩
    have hfault : estimateVaLength (formatOf ps) (argsOf ps) = .error .fault := hscan
    rw [hfault] at hn
    cases hn

/-- The format `a%05d` with the argument -7. -/
def paddedFormat : List FormatPiece := [.lit ⟨97,by decide⟩,.conv true 5 (.d (.int 0xfffffff9))]

theorem addsWhole_iff_padded : outputOf [] paddedFormat = [97,45,48,48,48,55] ∧
    AddsWhole [] true (Buffer.holding [104]) paddedFormat := by
  have hout : outputOf [] paddedFormat = [97,45,48,48,48,55] := by decide
  have hsurplus : FormatPiece.surplusAll [] paddedFormat = 3 := by decide
  refine ⟨hout,(addsWhole_iff [] true (holding_wf (by decide)) paddedFormat).mpr
    ⟨by decide,⟨0,?_⟩,?_⟩⟩
  · rw [hout,hsurplus]
    decide
  · rw [hout,hsurplus]
    decide

/-- `"%x"` of -1: the estimate is 4, and 8 digits are printed. -/
theorem not_addsWhole_hex : ¬ AddsWhole [] true .init [.conv false 0 (.x (.int 0xffffffff))] := by
  rintro ⟨⟨n,hn,hle⟩,_⟩
  have hfour : estimateVaLength (formatOf [.conv false 0 (.x (.int 0xffffffff))])
      (argsOf [.conv false 0 (.x (.int 0xffffffff))]) = .ok 4 :=
    (estimateFrom_pieces _ 0).trans (by decide)
  have height : (outputOf [] [.conv false 0 (.x (.int 0xffffffff))]).length = 8 := by decide
  rw [hfour] at hn
  cases hn
  rw [height] at hle
  omega

end Http2d
