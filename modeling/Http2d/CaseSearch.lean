import Http2d.Strings
import Http2d.Library.Occurrences

/-! `strncasestrn` of util.c: a search without regard to case in the first bytes of a text. -/
namespace Http2d

/-- `HTTP2D_CHAR_TO_LOWER`. -/
def charToLower (c : UInt8) : UInt8 := c ||| 32

/-- The two loops of `strncasestrn`, which stand at `p` with `slen` bytes left; `c` is the first
character of the pattern and `find` stands behind it. -/
def caseScan (c : UInt8) (find : List UInt8) (findlen : ℕ) : List UInt8 → ℕ → ℕ → Exec (Option ℕ)
  | _, 0, _ => .ok none
  | [], _+1, _ => .error .fault
  | sc::s, slen+1, p =>
    if sc = 0 then .ok none
    else if charToLower sc ≠ charToLower c then caseScan c find findlen s slen (p+1)
    else if findlen > slen then .ok none
    else if strncasecmp findlen s find ≠ 0 then caseScan c find findlen s slen (p+1)
    else .ok (some p)

/-- `strncasestrn`; the position is counted from the start of the text. -/
def strncasestrn (s : List UInt8) (slen : ℕ) (find : Option (List UInt8)) (findlen : ℕ) :
    Exec (Option ℕ) :=
  match find with
  | none => .ok (some 0)
  | some find =>
    if findlen = 0 then .ok (some 0)
    else
      match find with
      | [] => .error .fault
      | c::find => if c = 0 then .ok (some 0) else caseScan c find (findlen-1) s slen 0

/-- The pattern stands at `i` if the case of letters is ignored. -/
def CaseOccurs (pat text : List UInt8) (i : ℕ) : Prop :=
  pat.map tolower <+: (text.drop i).map tolower

/-- The pattern stands at `i` if the case of letters is ignored, and bit 5 of the first byte. -/
def BitOccurs (pat text : List UInt8) (i : ℕ) : Prop :=
  (pat.take 1).map charToLower <+: (text.drop i).map charToLower ∧ CaseOccurs (pat.drop 1) text (i+1)

/-- The first occurrence within the first `slen` bytes is found; `rest` and `tail` stand behind
the two strings in memory. -/
def FindsCase (text pat rest tail : List UInt8) (slen : ℕ) : Prop :=
  ∃ r, strncasestrn (text ++ 0::rest) slen (some (pat ++ 0::tail)) pat.length = .ok r ∧
    Occurrences.First (CaseOccurs pat (text.take slen)) r

/-- The macro does not tell the two cases of a letter apart. -/
theorem charToLower_tolower (c : UInt8) : charToLower (tolower c) = charToLower c := by
  have hbytes : ∀ n : Fin 256,
      charToLower (tolower (UInt8.ofNat n.val)) = charToLower (UInt8.ofNat n.val) := by
    decide +kernel
  simpa using hbytes ⟨c.toNat,c.toNat_lt⟩

section Search
variable {c : UInt8} {find pat text s tail rest : List UInt8} {slen : ℕ}

theorem bitOccurs_cons {b : UInt8} : BitOccurs (c::find) (b::s) 0 ↔
    charToLower c = charToLower b ∧ find.map tolower <+: s.map tolower := by
  simp [BitOccurs,CaseOccurs]

/-- What is equal up to case is taken for equal. -/
theorem CaseOccurs.bitOccurs {i : ℕ} (h : CaseOccurs pat text i) : BitOccurs pat text i := by
  cases pat with
  | nil => exact ⟨List.nil_prefix,List.nil_prefix⟩
  | cons c find =>
    unfold BitOccurs CaseOccurs at *
    rw [← List.tail_drop]
    cases hd : text.drop i with
    | nil => simp [hd] at h
    | cons b s =>
      rw [hd,List.map_cons,List.map_cons,List.cons_prefix_cons] at h
      refine ⟨?_,by simpa [← List.tail_drop,hd] using h.2⟩
      simp [← charToLower_tolower c,h.1,charToLower_tolower b]

theorem strnCompare_append (fold : UInt8 → UInt8) (a b t : List UInt8) :
    strnCompare fold b.length a (b ++ t) = strnCompare fold b.length a b := by
  induction b generalizing a with
  | nil => rfl
  | cons c b ih =>
    simp only [List.cons_append,List.length_cons,strnCompare,List.headD_cons,List.tail_cons,ih]
    rfl

/-- The rest of the pattern is compared with what follows in the text. -/
theorem strncasecmp_rest (hfind : 0 ∉ find) (hs : 0 ∉ s) (hlen : find.length ≤ slen) :
    strncasecmp find.length (s ++ 0::rest) (find ++ 0::tail) = 0 ↔
      find.map tolower <+: (s.take slen).map tolower := by
  rw [strncasecmp,strnCompare_append,← strncasecmp,strncasecmp_front hfind hs,List.map_take,
    List.prefix_take_iff,List.length_map]
  exact (and_iff_left hlen).symm

/-- The scan stops at the first place that only the macro and the rest of the pattern decide on. -/
theorem caseScan_first (hfind : 0 ∉ find) (hs : 0 ∉ s) (hslen : slen ≤ s.length) (p : ℕ) :
    ∃ r, caseScan c (find ++ 0::tail) find.length (s ++ 0::rest) slen p = .ok (r.map (·+p)) ∧
      Occurrences.First (BitOccurs (c::find) (s.take slen)) r := by
  induction s generalizing slen p with
  | nil =>
    obtain rfl : slen = 0 := Nat.le_zero.mp hslen
    exact ⟨none,rfl,fun i hi => by simp [BitOccurs] at hi⟩
  | cons b s ih =>
    obtain ⟨hb,hs⟩ := not_or.mp (List.mem_cons.not.mp hs)
    cases slen with
    | zero => exact ⟨none,by rw [caseScan]; rfl,fun i hi => by simp [BitOccurs] at hi⟩
    | succ slen =>
      rw [List.cons_append,caseScan,if_neg (Ne.symm hb),List.take_succ_cons]
      -- a place that is passed over is no occurrence, and the rest is searched from the next one on
      have hnext (h0 : ¬ BitOccurs (c::find) (b::s.take slen) 0) :
          ∃ r, caseScan c (find ++ 0::tail) find.length (s ++ 0::rest) slen (p+1) = .ok (r.map (·+p)) ∧
            Occurrences.First (BitOccurs (c::find) (b::s.take slen)) r := by
        obtain ⟨r,hr,hfirst⟩ := ih hs (Nat.le_of_succ_le_succ hslen) (p+1)
        refine ⟨r.map (·+1),?_,hfirst.shift h0⟩
        rw [hr,Option.map_map]
        congr 2
        funext i
        simp only [Function.comp_apply]
        omega
      split_ifs with hc hlen hrest
      · exact hnext fun h => hc (bitOccurs_cons.mp h).1.symm
      · refine ⟨none,rfl,fun i hi => ?_⟩
        have hle := hi.2.length_le
        simp only [List.drop_succ_cons,List.length_map,List.length_drop,List.length_take,
          List.drop_zero] at hle
        omega
      · refine hnext fun h => hrest ?_
        exact (strncasecmp_rest hfind hs (not_lt.mp hlen)).mpr (bitOccurs_cons.mp h).2
      · rw [not_not,strncasecmp_rest hfind hs (not_lt.mp hlen)] at hrest
        exact ⟨some 0,by simp,bitOccurs_cons.mpr ⟨(not_not.mp hc).symm,hrest⟩,by simp⟩

/-- The first occurrence is found exactly when in front of it the rest of the pattern follows no
byte that has only its bit 5 to make it the first character. -/
theorem findsCase_iff (hpat : 0 ∉ pat) (hne : pat ≠ []) (htext : 0 ∉ text) (hslen : slen ≤ text.length) :
    FindsCase text pat rest tail slen ↔
      ∀ i, BitOccurs pat (text.take slen) i → ∃ j ≤ i, CaseOccurs pat (text.take slen) j := by
  cases pat with
  | nil => exact absurd rfl hne
  | cons c find =>
    obtain ⟨hc,hfind⟩ := not_or.mp (List.mem_cons.not.mp hpat)
    obtain ⟨r,hr,hfirst⟩ := caseScan_first hfind htext hslen 0
    have hrun : strncasestrn (text ++ 0::rest) slen (some (c::find ++ 0::tail)) (c::find).length = .ok r := by
      simpa [strncasestrn,Ne.symm hc] using hr
    rw [← hfirst.narrow_iff fun _ => CaseOccurs.bitOccurs,FindsCase,hrun]
    simp

/-- `aB` in `xAb`. -/
theorem findsCase_letters : FindsCase [120,65,98] [97,66] [] [] 3 ↔
    ∀ i, BitOccurs [97,66] [120,65,98] i → ∃ j ≤ i, CaseOccurs [97,66] [120,65,98] j :=
  findsCase_iff (by decide) (by decide) (by decide) (by decide)

/-- `[a` is found in `{a`. -/
theorem bracket_taken_for_brace : ¬ FindsCase [123,97] [91,97] [] [] 2 := by
  rintro ⟨r,hr,hfirst⟩
  have hfound : strncasestrn [123,97,0] 2 (some [91,97,0]) 2 = .ok (some 0) := by decide
  obtain rfl : some 0 = r := Except.ok.inj (hfound.symm.trans hr)
  exact absurd hfirst.1 (by unfold CaseOccurs; decide)
end Search

end Http2d
