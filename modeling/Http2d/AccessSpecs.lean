import Http2d.AccessMatching

/-! Which arguments with a separator are added.
The number behind the separator is read by `strtol`, which wants neither a digit nor the end of the
text, and it is narrowed to 32 bits before it is looked at. -/
namespace Http2d

/-- A decimal number: at least one digit and nothing else. -/
def Numeral (s : List Char) : Prop := s ≠ [] ∧ ∀ c ∈ s, c.isDigit

/-- The value of digits behind `acc`. -/
theorem foldl_digits_lt {digits : List Char} (h : ∀ c ∈ digits, c.isDigit) (acc : ℕ) :
    digits.foldl (fun n c => n*10+(c.toNat - '0'.toNat)) acc < (acc+1)*10^digits.length := by
  induction digits generalizing acc with
  | nil => simp
  | cons c cs ih =>
    obtain ⟨hc,hcs⟩ := List.forall_mem_cons.mp h
    have hd : c.toNat - '0'.toNat ≤ 9 := by
      simp only [Char.isDigit,Bool.and_eq_true,decide_eq_true_eq] at hc
      have : c.toNat ≤ 57 := hc.2
      have : '0'.toNat = 48 := rfl
      omega
    rw [List.foldl_cons,List.length_cons,pow_succ']
    calc _ < (acc*10+(c.toNat - '0'.toNat)+1)*10^cs.length := ih hcs _
      _ ≤ ((acc+1)*10)*10^cs.length := Nat.mul_le_mul_right _ (by omega)
      _ = (acc+1)*(10*10^cs.length) := by ring

theorem decimal_lt {digits : List Char} (h : ∀ c ∈ digits, c.isDigit) :
    decimal digits < 10^digits.length := by
  have := foldl_digits_lt h 0
  rwa [Nat.zero_add,Nat.one_mul] at this

theorem atoi_numeral {digits : List Char} (h : ∀ c ∈ digits, c.isDigit) {num : ℤ}
    (hnum : atoi digits = some num) : decimal digits < 2^63 ∧ num = (decimal digits : ℤ).bmod (2^32) := by
  unfold atoi at hnum
  rw [strtol_numeral h] at hnum
  by_cases hbig : 2^63 ≤ decimal digits
  · rw [if_pos hbig] at hnum
    cases hnum
  · rw [if_neg hbig] at hnum
    exact ⟨not_le.mp hbig,(Option.some.inj hnum).symm⟩

/-- Where the number fits, `parse_netmask` reads the one that `http2d_atoi` read. -/
theorem strtol_of_atoi {s : List Char} {num : ℤ} (h : atoi s = some num) :
    (strtol s).1.bmod (2^32) = num := by
  unfold atoi at h
  rcases hs : strtol s with ⟨v,b⟩
  rw [hs] at h
  cases b with
  | true => cases h
  | false => exact Option.some.inj h

section Accepting
variable (inetPton : IpType → List Char → Option IpT)

/-- The part in front of the separator is a literal, and the part behind it is a number of bits that the
family has or a literal of the same family. -/
def WellFormedSpec (ip mask : List Char) : Prop :=
  ∃ type addr, inetPton type ip = some addr ∧
    (Numeral mask ∧ decimal mask ≤ 8*type.size ∨ ∃ m, inetPton type mask = some m)

/-- The two special cases of `http2d_access_add`: the number is the full length of an address. -/
def FullLength (arg : List Char) (num : ℤ) : Prop :=
  ':' ∈ arg ∧ num = 128 ∨ '.' ∈ arg ∧ num = 32

/-- A short text that `parse_netmask` reads as a number of bits. -/
def ShortLength (type : IpType) (mask : List Char) (num : ℤ) : Prop :=
  ':' ∉ mask ∧ '.' ∉ mask ∧ mask.length ≤ 3 ∧ 0 ≤ num ∧ num ≤ 8*type.size

/-- A malformed mask slips through behind an address that `parse_ip` takes: text that is no number is
read as one, or a number that is too large becomes a full length when it is narrowed. -/
def SlipsThrough (arg ip mask : List Char) : Prop :=
  (parseIp inetPton ip newIp).1 = .ok ∧
  (∀ type, (inetPton type ip).isSome → inetPton type mask = none) ∧
  ∃ num, atoi mask = some num ∧
    (¬ Numeral mask ∧ (FullLength arg num ∨ ip ≠ [] ∧ ShortLength (ipFamily ip) mask num) ∨
      Numeral mask ∧ 2^32 ≤ decimal mask ∧ FullLength arg num)

variable {inetPton} {ip mask arg : List Char} {num : ℤ}

theorem parseIp_ok_literal (h : (parseIp inetPton ip newIp).1 = .ok) :
    ∃ addr, inetPton (ipFamily ip) ip = some addr := by
  unfold parseIp at h
  cases hp : inetPton (ipFamily ip) ip with
  | some addr => exact ⟨addr,rfl⟩
  | none =>
    simp only [hp,Bool.false_eq_true,if_false] at h
    split_ifs at h

theorem parseNetmask_ok_iff (inetPton : IpType → List Char → Option IpT) (n : SubnetItem)
    (hnum : atoi mask = some num) :
    (parseNetmask inetPton mask n).1 = .ok ↔
      (':' ∈ mask ∨ '.' ∈ mask) ∧ (inetPton n.base.type mask).isSome ∨
        ShortLength n.base.type mask num := by
  have hv := strtol_of_atoi hnum
  by_cases hpunct : ':' ∈ mask ∨ '.' ∈ mask
  · have hb : (mask.contains ':' || mask.contains '.') = true := by simpa using hpunct
    have hshort : ¬ ShortLength n.base.type mask num := fun h => hpunct.elim h.1 h.2.1
    simp only [parseNetmask,if_pos hb,hpunct,true_and,hshort,or_false]
    cases inetPton n.base.type mask <;> simp
  · have hb : (mask.contains ':' || mask.contains '.') = false := by simpa using hpunct
    rw [not_or] at hpunct
    simp only [parseNetmask,hb,Bool.false_eq_true,if_false,hv,ShortLength,hpunct,not_false_eq_true,
      true_and,false_or,false_and,or_self]
    have hsize : n.base.type = .ipv4 ∧ n.base.type.size = 4 ∨
        n.base.type = .ipv6 ∧ n.base.type.size = 16 := by
      cases n.base.type
      · exact Or.inl ⟨rfl,rfl⟩
      · exact Or.inr ⟨rfl,rfl⟩
    split_ifs <;> simp <;> grind

variable {resolve : List Char → Ret × List (Option (List Char))} {entry : Access}

theorem addIp_ok_iff (entry : Access) :
    (Access.addIp inetPton entry ip).1 = .ok ↔ (parseIp inetPton ip newIp).1 = .ok := by
  have hret := parseIp_ret inetPton ip newIp
  simp only [Access.addIp]
  split_ifs with hlt
  · rfl
  · rfl

/-- What `http2d_access_add` returns for an argument with a separator. -/
theorem add_ok_iff (resolve : List Char → Ret × List (Option (List Char))) (entry : Access)
    (hs : splitSlash arg = some (ip,mask)) :
    (∃ entry', Access.add inetPton resolve entry arg = .ok (.ok,entry')) ↔
      (parseIp inetPton ip newIp).1 = .ok ∧ ∃ num, atoi mask = some num ∧
        (FullLength arg num ∨ ip ≠ [] ∧
          ((':' ∈ mask ∨ '.' ∈ mask) ∧ (inetPton (ipFamily ip) mask).isSome ∨
            ShortLength (ipFamily ip) mask num)) := by
  have hip : (∃ entry', (.ok (Access.addIp inetPton entry ip) : Exec (Ret × Access)) = .ok (.ok,entry')) ↔
      (parseIp inetPton ip newIp).1 = .ok := by
    rw [← addIp_ok_iff entry]
    constructor
    · rintro ⟨entry',h⟩
      rw [Except.ok.inj h]
    · intro h
      exact ⟨_,congrArg Except.ok (Prod.ext h rfl)⟩
  cases hnum : atoi mask with
  | none => simp [Access.add,hs,hnum]
  | some num =>
    simp only [Option.some.injEq,exists_eq_left']
    by_cases hfull : FullLength arg num
    · have hadd : Access.add inetPton resolve entry arg = .ok (Access.addIp inetPton entry ip) := by
        simp only [Access.add,hs,hnum,List.contains_eq_mem,decide_eq_true_eq]
        rcases hfull with h | h
        · rw [if_pos h]
        · rw [if_pos h]
          split_ifs <;> rfl
      simp only [hadd,hip,hfull,true_or,and_true]
    · have hadd : Access.add inetPton resolve entry arg = Access.addSubnet inetPton entry arg :=
        Access.add_eq_addSubnet entry ⟨hs,num,hnum,fun h => hfull (Or.inl (by simpa using h)),
          fun h => hfull (Or.inr (by simpa using h))⟩
      simp only [hadd,hfull,false_or]
      by_cases hnil : ip = []
      · simp [Access.addSubnet,hs,hnil]
      have hmaskok := parseNetmask_ok_iff inetPton ⟨(parseIp inetPton ip newIp).2,fun _ => 0⟩ hnum
      rw [parseIp_type] at hmaskok
      rw [← hmaskok]
      rcases Access.addSubnet_cases inetPton entry hs hnil with ⟨n,hn,hok,hmok⟩ | ⟨n,hn,_,_,hbad⟩
      · exact ⟨fun _ => ⟨hok,hnil,hmok⟩,fun _ => ⟨_,hn⟩⟩
      · constructor
        · rintro ⟨entry',h⟩
          rw [hn] at h
          cases h
        · rintro ⟨hok,_,hmok⟩
          exact (hbad.elim (· hok) (· hmok)).elim

theorem splitSlash_some (hs : splitSlash arg = some (ip,mask)) :
    ∃ sep, isSlash sep ∧ arg = ip ++ sep::mask := by
  have hsplit := List.takeWhile_append_dropWhile (p:=fun c => !isSlash c) (l:=arg)
  unfold splitSlash at hs
  cases hd : arg.dropWhile fun c => !isSlash c with
  | nil =>
    rw [hd] at hs
    cases hs
  | cons sep rest =>
    have hsep := List.dropWhile_get_zero_not (fun c => !isSlash c) arg (by rw [hd]; simp)
    rw [hd] at hs hsplit
    cases hs
    exact ⟨sep,by simpa [hd] using hsep,hsplit.symm⟩

/-- A full length is within the family that `parse_ip` chooses. -/
theorem fullLength_le (hs : splitSlash arg = some (ip,mask)) (hmask : Numeral mask)
    (h : FullLength arg num) : num ≤ 8*(ipFamily ip).size := by
  rcases h with ⟨hcolon,rfl⟩ | ⟨_,rfl⟩
  · obtain ⟨sep,hsep,rfl⟩ := splitSlash_some hs
    have hne : ':' ≠ sep := by
      rintro rfl
      exact absurd hsep (by decide)
    have hno : ':' ∉ mask := fun hc => (digit_plain (hmask.2 _ hc)).2.2.2.1 rfl
    have hin : ':' ∈ ip := by simpa [hne,hno] using hcolon
    have hfam : ipFamily ip = .ipv6 := by simp [ipFamily,hin]
    rw [hfam]
    decide
  · cases ipFamily ip <;> decide

end Accepting

namespace Access

/-- An argument with a separator is added only when both of its parts are well formed. -/
def RejectsMalformed (inetPton : IpType → List Char → Option IpT)
    (resolve : List Char → Ret × List (Option (List Char))) (entry : Access) (arg : List Char) : Prop :=
  ∀ ip mask entry', splitSlash arg = some (ip,mask) → add inetPton resolve entry arg = .ok (.ok,entry') →
    WellFormedSpec inetPton ip mask

/-- Every malformed argument is refused, but for those that slip through. -/
theorem rejectsMalformed_iff (inetPton : IpType → List Char → Option IpT)
    (resolve : List Char → Ret × List (Option (List Char))) (entry : Access) (arg : List Char) :
    RejectsMalformed inetPton resolve entry arg ↔
      ∀ ip mask, splitSlash arg = some (ip,mask) → ¬ SlipsThrough inetPton arg ip mask := by
  constructor
  · rintro h ip mask hs ⟨hok,hlit,num,hnum,hread⟩
    obtain ⟨entry',hadd⟩ := (add_ok_iff resolve entry hs).mpr ⟨hok,num,hnum,by
      rcases hread with ⟨_,hfull | ⟨hne,hshort⟩⟩ | ⟨_,_,hfull⟩
      · exact Or.inl hfull
      · exact Or.inr ⟨hne,Or.inr hshort⟩
      · exact Or.inl hfull⟩
    obtain ⟨type,addr,haddr,hmask | ⟨m,hm⟩⟩ := h ip mask entry' hs hadd
    · rcases hread with ⟨hno,_⟩ | ⟨_,hbig,_⟩
      · exact hno hmask.1
      · have := hmask.2
        cases type <;> simp only [IpType.size] at this <;> omega
    · rw [hlit type (by rw [haddr]; rfl)] at hm
      cases hm
  · intro h ip mask entry' hs hadd
    obtain ⟨hok,num,hnum,hread⟩ := (add_ok_iff resolve entry hs).mp ⟨entry',hadd⟩
    obtain ⟨addr,haddr⟩ := parseIp_ok_literal hok
    by_contra hbad
    have hlit (type : IpType) (htype : (inetPton type ip).isSome) : inetPton type mask = none := by
      by_contra hm
      obtain ⟨m,hm⟩ := Option.ne_none_iff_exists'.mp hm
      obtain ⟨a,ha⟩ := Option.isSome_iff_exists.mp htype
      exact hbad ⟨type,a,ha,Or.inr ⟨m,hm⟩⟩
    have hown := hlit (ipFamily ip) (by rw [haddr]; rfl)
    rw [hown] at hread
    refine h ip mask hs ⟨hok,hlit,num,hnum,?_⟩
    by_cases hmask : Numeral mask
    · -- a number in the range of its family would be well formed
      have hrange : ¬ decimal mask ≤ 8*(ipFamily ip).size := fun hle =>
        hbad ⟨_,addr,haddr,Or.inl ⟨hmask,hle⟩⟩
      have hval := (atoi_numeral hmask.2 hnum).2
      have hnarrow (hlt : decimal mask < 2^32) (h0 : 0 ≤ num) : num = decimal mask := by
        rw [hval,Int.bmod_def] at h0 ⊢
        split_ifs at h0 ⊢ <;> omega
      rcases hread with hfull | ⟨_,⟨_,hsome⟩ | hshort⟩
      · have hle := fullLength_le hs hmask hfull
        have h0 : 0 ≤ num := by rcases hfull with ⟨_,rfl⟩ | ⟨_,rfl⟩ <;> decide
        refine Or.inr ⟨hmask,?_,hfull⟩
        by_contra hlt
        have := hnarrow (by omega) h0
        omega
      · cases hsome
      · obtain ⟨_,_,hlen,h0,hle⟩ := hshort
        have hlt := decimal_lt hmask.2
        have hpow : 10^mask.length ≤ 10^3 := Nat.pow_le_pow_right (by decide) hlen
        have := hnarrow (by omega) h0
        omega
    · refine Or.inl ⟨hmask,?_⟩
      rcases hread with hfull | ⟨hne,⟨_,hsome⟩ | hshort⟩
      · exact Or.inl hfull
      · cases hsome
      · exact Or.inr ⟨hne,hshort⟩

/-- An empty mask opens the list to the whole family. -/
theorem rejectsMalformed_fails : ¬ RejectsMalformed inetPton4 resolveNothing init
    ['1','0','.','0','.','0','.','0','/'] := by
  intro h
  obtain ⟨entry',hadd⟩ : ∃ entry', add inetPton4 resolveNothing init
      ['1','0','.','0','.','0','.','0','/'] = .ok (.ok,entry') := ⟨_,rfl⟩
  obtain ⟨type,addr,haddr,hmask | ⟨m,hm⟩⟩ := h ['1','0','.','0','.','0','.','0'] [] entry' rfl hadd
  · exact hmask.1.1 rfl
  · cases type <;> cases hm

end Access

end Http2d
