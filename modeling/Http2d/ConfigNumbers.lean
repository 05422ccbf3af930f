import Http2d.AccessSpecs
import Http2d.BufferOps
import Http2d.ConfigNode

/-! Numbers in configuration values: `http2d_atoi` and `http2d_config_node_read_int`.
`strtol` wants neither a digit nor the end of the text, and its 64 bits are narrowed to an `int`. -/
namespace Http2d

/-- Bytes as characters. -/
def charText (s : List UInt8) : List Char := s.map fun b => Char.ofNat b.toNat

/-- The sign in front of a number, and the rest. -/
def splitSign : List Char → Bool × List Char
  | '-'::s => (true,s)
  | '+'::s => (false,s)
  | s => (false,s)

/-- The value of an optionally signed decimal numeral in the range of `int`; nothing of other texts. -/
def intNumeral (s : List Char) : Option ℤ :=
  let digits := (splitSign s).2
  let n : ℤ := if (splitSign s).1 then -(decimal digits : ℤ) else decimal digits
  if digits ≠ [] ∧ digits.all Char.isDigit ∧ -2^31 ≤ n ∧ n < 2^31 then some n else none

namespace ConfigNode

/-- `http2d_config_node_read_int`: what it returns, and `*num` then. -/
def readInt (conf : ConfigNode) (key : List UInt8) (num : ℤ) : Exec (Ret × ℤ) := do
  let (ret,tmp) ← conf.get key
  match tmp with
  | none => .ok (ret,num)
  | some tmp =>
    if tmp.val.bytes = [] then .ok (.notFound,num)
    else do
      let str ← tmp.val.cstr
      match atoi (charText str) with
      | none => .ok (.error,num)
      | some n => .ok (.ok,n)

end ConfigNode

/-- The integer at a key is read exactly: a numeral in the range of `int` gives its value, and any
other text gives an error and leaves the destination. -/
def ReadsInt (conf : ConfigNode) (key val : List UInt8) (num : ℤ) : Prop :=
  match intNumeral (charText val) with
  | some n => conf.readInt key num = .ok (.ok,n)
  | none => ∃ ret, ret ≠ .ok ∧ conf.readInt key num = .ok (ret,num)

section Numerals
variable {s : List Char} {n : ℤ}

/-- `strtol` takes the digits behind the sign. -/
theorem strtol_eq (s : List Char) : strtol s =
    let r := splitSign (s.dropWhile isSpace)
    let n : ℤ := decimal (r.2.takeWhile Char.isDigit)
    let v : ℤ := if r.1 then -n else n
    if v < -2^63 then (-2^63,true) else if 2^63 ≤ v then (2^63-1,true) else (v,false) := rfl

theorem dropWhile_sign (hne : (splitSign s).2 ≠ []) (hdigits : ∀ c ∈ (splitSign s).2, c.isDigit) :
    s.dropWhile isSpace = s := by
  cases s with
  | nil => rfl
  | cons c cs =>
    by_cases hm : c = '-'
    · subst hm; rfl
    · by_cases hp : c = '+'
      · subst hp; rfl
      · have hs : splitSign (c::cs) = (false,c::cs) := by
          unfold splitSign
          split <;> simp_all
        rw [hs] at hdigits
        simp [(digit_plain (hdigits c List.mem_cons_self)).1]

/-- Digits behind a sign are read whole. -/
theorem strtol_signed (hne : (splitSign s).2 ≠ []) (hdigits : ∀ c ∈ (splitSign s).2, c.isDigit)
    (hn : (if (splitSign s).1 then -(decimal (splitSign s).2 : ℤ) else decimal (splitSign s).2) = n)
    (hlo : -2^63 ≤ n) (hhi : n < 2^63) : strtol s = (n,false) := by
  have htake : (splitSign s).2.takeWhile Char.isDigit = (splitSign s).2 :=
    List.takeWhile_eq_self_iff.mpr hdigits
  rw [strtol_eq,dropWhile_sign hne hdigits]
  dsimp only
  rw [htake,hn,if_neg (not_lt.mpr hlo),if_neg (not_le.mpr hhi)]

/-- A numeral in the range of `int` is read as its value. -/
theorem atoi_intNumeral (h : intNumeral s = some n) : atoi s = some n := by
  unfold intNumeral at h
  dsimp only at h
  generalize hv : (if (splitSign s).1 then -(decimal (splitSign s).2 : ℤ)
    else decimal (splitSign s).2) = v at h
  split_ifs at h with hnum
  cases h
  obtain ⟨hne,hall,hlo,hhi⟩ := hnum
  rw [atoi,strtol_signed hne (List.all_eq_true.mp hall) hv (by omega) (by omega)]
  exact congrArg some (Int.bmod_eq_of_le (by omega) (by omega))

/-- `http2d_atoi` reports nothing but a number outside 64 bits. -/
theorem atoi_eq_none_iff : atoi s = none ↔ (strtol s).2 = true := by
  unfold atoi
  generalize strtol s = r
  obtain ⟨v,_|_⟩ := r <;> simp

end Numerals

section Reading
variable {conf tmp : ConfigNode} {key val : List UInt8} {num : ℤ}

/-- There is no NUL in a numeral. -/
theorem intNumeral_nul (h : 0 ∈ val) : intNumeral (charText val) = none := by
  have hchar : Char.ofNat 0 ∈ charText val := List.mem_map_of_mem h
  have hdigits : Char.ofNat 0 ∈ (splitSign (charText val)).2 := by
    generalize charText val = s at hchar
    unfold splitSign
    split
    · exact (List.mem_cons.mp hchar).resolve_left (by decide)
    · exact (List.mem_cons.mp hchar).resolve_left (by decide)
    · exact hchar
  refine if_neg fun hnum => ?_
  exact absurd (List.all_eq_true.mp hnum.2.1 _ hdigits) (by decide)

theorem readInt_of_get (hget : conf.get key = .ok (.ok,some tmp)) : conf.readInt key num =
    if tmp.val.bytes = [] then .ok (.notFound,num)
    else
      match atoi (charText (cString tmp.val.bytes)) with
      | none => .ok (.error,num)
      | some n => .ok (.ok,n) := by
  unfold ConfigNode.readInt
  rw [hget]
  cases hval : tmp.val with
  | none => simp [hval,BufText.bytes]
  | some v => simp only [hval,ok_bind]; rfl

/-- An integer is read exactly unless a text that is no numeral of an `int` begins with a number of
64 bits, or with none. -/
theorem readsInt_iff (hget : conf.get key = .ok (.ok,some tmp)) (hbytes : tmp.val.bytes = val) :
    ReadsInt conf key val num ↔
      (val ≠ [] → intNumeral (charText val) = none → (strtol (charText (cString val))).2 = true) := by
  unfold ReadsInt
  rw [readInt_of_get hget,hbytes]
  by_cases hval : val = []
  · subst hval
    exact iff_of_true ⟨.notFound,by decide,rfl⟩ fun hne => absurd rfl hne
  simp only [hval,if_false,ne_eq,not_false_eq_true,true_imp_iff,← atoi_eq_none_iff]
  cases hnum : intNumeral (charText val) with
  | some n =>
    have hnul : 0 ∉ val := fun h => by
      rw [intNumeral_nul h] at hnum
      cases hnum
    simp [cString_eq hnul,atoi_intNumeral hnum]
  | none =>
    cases hread : atoi (charText (cString val)) with
    | none => exact iff_of_true ⟨.error,by decide,rfl⟩ fun _ => rfl
    | some n => simp

/-- `p = 80` is read. -/
theorem readsInt_eighty : ReadsInt ⟨none,none,[⟨some [112],some [56,48],[]⟩]⟩ [112] [56,48] 0 := by
  have hget : ConfigNode.get ⟨none,none,[⟨some [112],some [56,48],[]⟩]⟩ [112] =
      .ok (.ok,some ⟨some [112],some [56,48],[]⟩) := rfl
  exact (readsInt_iff hget rfl).mpr fun _ hnum => absurd hnum (by decide)

/-- 2^32+80 is read as 80. -/
theorem not_readsInt_wrapped : ¬ ReadsInt
    ⟨none,none,[⟨some [112],some [52,50,57,52,57,54,55,51,55,54],[]⟩]⟩ [112]
    [52,50,57,52,57,54,55,51,55,54] 0 := by
  rintro ⟨ret,hret,hread⟩
  have heighty : ConfigNode.readInt ⟨none,none,[⟨some [112],some [52,50,57,52,57,54,55,51,55,54],[]⟩]⟩
      [112] 0 = .ok (.ok,80) := by decide +kernel
  rw [heighty] at hread
  cases hread

end Reading
end Http2d
