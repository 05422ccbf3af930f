import Mathlib.Data.List.TakeWhile
import Http2d.AccessFailure

/-! Which addresses the entries of an access list stand for, and which ones the code lets in.
The number behind the separator is read before the entry is known to be a subnet of one family or
the other, and a remote address that is mapped from IPv4 is compared with IPv6 subnets as well. -/
namespace Http2d

open Bytes

/-- Bit `k` of an address, counted from the front. -/
def addrBit (a : IpT) (k : ℕ) : Bool := if h : k/8 < 16 then bit (a ⟨k/8,h⟩) (k%8) else false

/-- What an entry of an access list stands for. -/
inductive Listed
  | address (type : IpType) (ip : IpT)
  | subnet (type : IpType) (ip : IpT) (len : ℕ)
  | masked (type : IpType) (ip mask : IpT)

namespace Listed

def type : Listed → IpType
  | .address type _ => type
  | .subnet type _ _ => type
  | .masked type _ _ => type

def ip : Listed → IpT
  | .address _ ip => ip
  | .subnet _ ip _ => ip
  | .masked _ ip _ => ip

/-- The addresses of its family that an entry stands for: the one that equals it, those that begin
with the same `len` bits, or those that agree with it where the mask is set. -/
def Contains : Listed → IpT → Prop
  | .address type ip, remote => ∀ i : Fin 16, i < type.size → remote i = ip i
  | .subnet _ ip len, remote => ∀ k, k < len → addrBit remote k = addrBit ip k
  | .masked type ip mask, remote =>
    ∀ i : Fin 16, i < type.size → ip i &&& mask i = remote i &&& mask i

end Listed

/-- An address that is mapped from IPv4 stands for its IPv4 address. -/
def SockAddr.unmapped (a : SockAddr) : SockAddr :=
  if a.af = .ipv6 ∧ isV4Mapped a.addr then ⟨.ipv4,mappedPart a.addr⟩ else a

/-- The entry admits the remote address. -/
def Listed.Covers (l : Listed) (a : SockAddr) : Prop :=
  a.unmapped.af = l.type ∧ l.Contains a.unmapped.addr

/-- The value of a string of decimal digits. -/
def decimal (digits : List Char) : ℕ := digits.foldl (fun n c => n*10+(c.toNat - '0'.toNat)) 0

/-- What `inet_pton` documents of the literals: those of IPv4 are dotted decimal numbers of at most
fifteen characters, those of IPv6 are hexadecimal numbers between colons, which may end in an IPv4
literal. -/
structure LiteralSyntax (inetPton : IpType → List Char → Option IpT) : Prop where
  ipv4 : ∀ text ip, inetPton .ipv4 text = some ip →
    text.length ≤ 15 ∧ '.' ∈ text ∧ ∀ c ∈ text, c.isDigit ∨ c = '.'
  ipv6 : ∀ text ip, inetPton .ipv6 text = some ip →
    ':' ∈ text ∧ ∀ c ∈ text, c.isDigit ∨ ('a' ≤ c ∧ c ≤ 'f') ∨ ('A' ≤ c ∧ c ≤ 'F') ∨ c = ':' ∨ c = '.'

/-- A well-formed argument of `http2d_access_add` and the entry that it stands for. -/
inductive Says (inetPton : IpType → List Char → Option IpT) : List Char → Listed → Prop
  | address {type : IpType} {text : List Char} {ip : IpT} (hip : inetPton type text = some ip) :
      Says inetPton text (.address type ip)
  | subnet {type : IpType} {text digits : List Char} {ip : IpT} {sep : Char}
      (hip : inetPton type text = some ip) (hsep : isSlash sep) (hsome : digits ≠ [])
      (hdigits : ∀ c ∈ digits, c.isDigit) (hlen : decimal digits ≤ 8*type.size) :
      Says inetPton (text ++ sep::digits) (.subnet type ip (decimal digits))
  | masked {type : IpType} {text masktext : List Char} {ip mask : IpT} {sep : Char}
      (hip : inetPton type text = some ip) (hsep : isSlash sep)
      (hmask : inetPton type masktext = some mask) :
      Says inetPton (text ++ sep::masktext) (.masked type ip mask)

/-- The special cases of `http2d_access_add`: only the address in front of the separator is added. -/
def takenAsHost (arg : List Char) : Bool :=
  match splitSlash arg with
  | none => false
  | some (_,masktext) =>
    arg.contains ':' && atoi masktext = some 128 || arg.contains '.' && atoi masktext = some 32

/-- What the code makes of an entry. -/
def Listed.readAs (l : Listed) (arg : List Char) : Listed :=
  if takenAsHost arg then .address l.type l.ip else l

/-- The comparison of `http2d_access_ip_match`: an IPv6 socket address is compared with the IPv6
entries as it is, and with the IPv4 entries when it is mapped. -/
def Listed.Meets (l : Listed) (a : SockAddr) : Prop :=
  ∃ remote, a.viewAs l.type = some remote ∧ l.Contains remote

section Masks

/-- A mask whose first `len` bits are set compares the first `len` bits. -/
theorem masked_iff_bits {size len : ℕ} (hsize : size ≤ 16) (hlen : len ≤ 8*size) {mask : IpT}
    (hmask : ∀ i : Fin 16, i < size → ∀ j, j < 8 → bit (mask i) j = decide (8*(i : ℕ)+j < len))
    (ip remote : IpT) : (∀ i : Fin 16, i < size → ip i &&& mask i = remote i &&& mask i) ↔
      ∀ k, k < len → addrBit remote k = addrBit ip k := by
  constructor
  · intro h k hk
    have hb : k/8 < 16 := by omega
    have hset := hmask ⟨k/8,hb⟩ (by simp only; omega) (k%8) (by omega)
    have hand := h ⟨k/8,hb⟩ (by simp only; omega)
    rw [and_eq_and_iff] at hand
    have hk' : 8*(k/8)+k%8 < len := by omega
    simp only [addrBit,dif_pos hb]
    exact (hand (k%8) (by omega) (by rw [hset]; simpa using hk')).symm
  · intro h i hi
    rw [and_eq_and_iff]
    intro j hj hset
    rw [hmask i hi j hj,decide_eq_true_eq] at hset
    have hbit := h (8*i+j) hset
    have hdiv : (8*(i : ℕ)+j)/8 = i := by omega
    have hmod : (8*(i : ℕ)+j)%8 = j := by omega
    simp only [addrBit,hdiv,hmod,i.isLt,dite_true,Fin.eta] at hbit
    exact hbit.symm

/-- `parse_netmask` sets the bits of a byte from the front. -/
theorem maskByte_bit : ∀ jj j : Fin 8, bit (maskByte jj 0 0x80) j = decide (j < jj) := by decide

theorem mask6_bit {len : ℕ} (i : Fin 16) {j : ℕ} (hj : j < 8) :
    bit (mask6 len i) j = decide (8*(i : ℕ)+j < len) := by
  unfold mask6
  split_ifs with hfull hpart
  · have hlt : 8*(i : ℕ)+j < len := by omega
    rw [decide_eq_true hlt]
    interval_cases j <;> rfl
  · have h := maskByte_bit ⟨len%8,by omega⟩ ⟨j,hj⟩
    simp only [Fin.mk_lt_mk] at h
    rw [h]
    congr 1
    exact propext (by omega)
  · have hge : ¬ 8*(i : ℕ)+j < len := by omega
    rw [decide_eq_false hge]
    interval_cases j <;> rfl

theorem mask4_bit : ∀ (len : Fin 33) (i : Fin 16), (i : ℕ) < 4 → ∀ j : Fin 8,
    bit (mask4 len i) j = decide (8*(i : ℕ)+j < len) := by decide +kernel

end Masks

section Texts
variable {inetPton : IpType → List Char → Option IpT}

theorem Says.len_le {arg : List Char} {l : Listed} (h : Says inetPton arg l) :
    ∀ type ip len, l = .subnet type ip len → len ≤ 8*type.size := by
  intro type ip len heq
  cases h with
  | address _ => cases heq
  | subnet _ _ _ _ hlen =>
    cases heq
    exact hlen
  | masked _ _ _ => cases heq

theorem LiteralSyntax.noSlash (h : LiteralSyntax inetPton) {type : IpType} {text : List Char} {ip : IpT}
    (hip : inetPton type text = some ip) : ∀ c ∈ text, isSlash c = false := by
  intro c hc
  have hchar : c ≠ '/' ∧ c ≠ '\\' := by
    cases type with
    | ipv4 =>
      rcases (h.ipv4 text ip hip).2.2 c hc with hd | rfl
      · constructor <;> (rintro rfl; exact absurd hd (by decide))
      · decide
    | ipv6 =>
      rcases (h.ipv6 text ip hip).2 c hc with hd | hd | hd | rfl | rfl
      · constructor <;> (rintro rfl; exact absurd hd (by decide))
      · constructor <;> (rintro rfl; exact absurd hd (by decide))
      · constructor <;> (rintro rfl; exact absurd hd (by decide))
      · decide
      · decide
  simp [isSlash,hchar]

theorem splitSlash_literal {text : List Char} (h : ∀ c ∈ text, isSlash c = false) :
    splitSlash text = none := by
  have hdrop : text.dropWhile (fun c => !isSlash c) = [] :=
    List.dropWhile_eq_nil_iff.mpr fun c hc => by simp [h c hc]
  rw [splitSlash,hdrop]

theorem splitSlash_append {text : List Char} (rest : List Char) {sep : Char} (h : ∀ c ∈ text, isSlash c = false)
    (hsep : isSlash sep) : splitSlash (text ++ sep::rest) = some (text,rest) := by
  have hp : ∀ c ∈ text, (!isSlash c) = true := fun c hc => by simp [h c hc]
  have hstop : (!isSlash sep) ≠ true := by simp [hsep]
  rw [splitSlash,List.dropWhile_append_of_pos hp,List.takeWhile_append_of_pos hp,
    List.dropWhile_cons_of_neg (p:=fun c => !isSlash c) hstop,
    List.takeWhile_cons_of_neg (p:=fun c => !isSlash c) hstop,List.append_nil]

/-- A literal is parsed in its family and is not looked up as a name. -/
theorem LiteralSyntax.family (h : LiteralSyntax inetPton) {type : IpType} {text : List Char} {ip : IpT}
    (hip : inetPton type text = some ip) : ipFamily text = type := by
  cases type with
  | ipv4 =>
    obtain ⟨hlen,_,hchar⟩ := h.ipv4 text ip hip
    have hcolon : ':' ∉ text := fun hc => by
      rcases hchar ':' hc with hd | hd <;> exact absurd hd (by decide)
    simp [ipFamily,hcolon,hlen]
  | ipv6 => simp [ipFamily,(h.ipv6 text ip hip).1]

theorem LiteralSyntax.not_domain (h : LiteralSyntax inetPton) {type : IpType} {text : List Char}
    {ip : IpT} (hip : inetPton type text = some ip) : isDomain text = false := by
  cases type with
  | ipv4 =>
    have hchar := (h.ipv4 text ip hip).2.2
    have hany : (text.any fun c => ('a' ≤ c && c ≤ 'z') || ('A' ≤ c && c ≤ 'Z')) = false := by
      rw [List.any_eq_false]
      intro c hc
      rcases hchar c hc with hd | rfl
      · have hd' : c.val ≤ 57 := by
          simp only [Char.isDigit,Bool.and_eq_true,decide_eq_true_eq] at hd
          exact hd.2
        have h1 : ¬ 'a' ≤ c := fun hle => absurd (UInt32.le_trans hle hd') (by decide)
        have h2 : ¬ 'A' ≤ c := fun hle => absurd (UInt32.le_trans hle hd') (by decide)
        simp [h1,h2]
      · decide
    simp only [isDomain,hany,Bool.and_false]
  | ipv6 =>
    have hcolon := (h.ipv6 text ip hip).1
    simp [isDomain,hcolon]

theorem digit_plain {c : Char} (h : c.isDigit) : isSpace c = false ∧ c ≠ '-' ∧ c ≠ '+' ∧
    c ≠ ':' ∧ c ≠ '.' := by
  refine ⟨?_,?_,?_,?_,?_⟩
  · have hge : 48 ≤ c.toNat := by
      simp only [Char.isDigit,Bool.and_eq_true,decide_eq_true_eq] at h
      exact h.1
    have hne : c ≠ ' ' := by rintro rfl; exact absurd h (by decide)
    simp [isSpace,hne]
    omega
  all_goals (rintro rfl; exact absurd h (by decide))

theorem digits_punct {digits : List Char} (h : ∀ c ∈ digits, c.isDigit) :
    (digits.contains ':' || digits.contains '.') = false := by
  have hcolon : ':' ∉ digits := fun hc => (digit_plain (h _ hc)).2.2.2.1 rfl
  have hdot : '.' ∉ digits := fun hc => (digit_plain (h _ hc)).2.2.2.2 rfl
  simp [hcolon,hdot]

/-- Digits are read whole; `errno` says that their value does not fit a `long`. -/
theorem strtol_numeral {digits : List Char} (h : ∀ c ∈ digits, c.isDigit) : strtol digits =
    if 2^63 ≤ decimal digits then (2^63-1,true) else ((decimal digits : ℤ),false) := by
  have hspace : digits.dropWhile isSpace = digits := by
    cases digits with
    | nil => rfl
    | cons c cs => simp [(digit_plain (h c (by simp))).1]
  have htake : digits.takeWhile Char.isDigit = digits := List.takeWhile_eq_self_iff.mpr h
  have hminus : ∀ s, digits ≠ '-'::s := fun s heq => (digit_plain (h '-' (by simp [heq]))).2.1 rfl
  have hplus : ∀ s, digits ≠ '+'::s := fun s heq => (digit_plain (h '+' (by simp [heq]))).2.2.1 rfl
  have hval : digits.foldl (fun n c => n*10+(c.toNat - '0'.toNat)) 0 = decimal digits := rfl
  unfold strtol
  rw [hspace]
  dsimp only
  split
  · exact absurd rfl (hminus _)
  · exact absurd rfl (hplus _)
  · simp only [htake,hval,Bool.false_eq_true,if_false]
    rw [if_neg (by omega)]
    by_cases hbig : 2^63 ≤ decimal digits
    · rw [if_pos (by omega),if_pos hbig]
    · rw [if_neg (by omega),if_neg hbig]

theorem strtol_digits {digits : List Char} (h : ∀ c ∈ digits, c.isDigit) (hlt : decimal digits < 2^63) :
    strtol digits = ((decimal digits : ℤ),false) := by
  rw [strtol_numeral h,if_neg (not_le.mpr hlt)]

theorem atoi_digits {digits : List Char} (h : ∀ c ∈ digits, c.isDigit) (hlt : decimal digits ≤ 128) :
    atoi digits = some (decimal digits : ℤ) ∧ (strtol digits).1.bmod (2^32) = decimal digits := by
  have hval : (decimal digits : ℤ).bmod (2^32) = decimal digits :=
    Int.bmod_eq_of_le (by omega) (by omega)
  simp [atoi,strtol_digits h (by omega : decimal digits < 2^63)]
  exact hval

/-- A literal is parsed to its address; an IPv6 address that is mapped from IPv4 is refused. -/
theorem parseIp_literal (h : LiteralSyntax inetPton) {type : IpType} {text : List Char} {ip : IpT}
    (hip : inetPton type text = some ip) : parseIp inetPton text newIp =
      (if type = .ipv6 ∧ isV4Mapped ip then .error else .ok,⟨type,ip⟩) := by
  simp only [parseIp,h.family hip,hip]
  split_ifs <;> rfl

theorem LiteralSyntax.ne_nil (h : LiteralSyntax inetPton) {type : IpType} {text : List Char} {ip : IpT}
    (hip : inetPton type text = some ip) : text ≠ [] := by
  rintro rfl
  cases type with
  | ipv4 => exact absurd (h.ipv4 _ ip hip).2.1 List.not_mem_nil
  | ipv6 => exact absurd (h.ipv6 _ ip hip).1 List.not_mem_nil

/-- A mask as a literal is used as it is. -/
theorem parseNetmask_literal (h : LiteralSyntax inetPton) {type : IpType} {masktext : List Char}
    {ip mask : IpT} (hmask : inetPton type masktext = some mask) :
    parseNetmask inetPton masktext ⟨⟨type,ip⟩,fun _ => 0⟩ = (.ok,⟨⟨type,ip⟩,mask⟩) := by
  have hpunct : (masktext.contains ':' || masktext.contains '.') = true := by
    cases type with
    | ipv4 => simp [(h.ipv4 _ _ hmask).2.1]
    | ipv6 => simp [(h.ipv6 _ _ hmask).1]
  simp only [parseNetmask,if_pos hpunct,hmask]

/-- A mask as a number of bits, but for the full length of an IPv6 address. -/
theorem parseNetmask_digits {type : IpType} {ip : IpT} {digits : List Char}
    (h : ∀ c ∈ digits, c.isDigit) (hlen : decimal digits ≤ 8*type.size) (hshort : digits.length ≤ 3)
    (hfull : decimal digits ≠ 128) :
    parseNetmask inetPton digits ⟨⟨type,ip⟩,fun _ => 0⟩ =
      (.ok,⟨⟨type,ip⟩,if type = .ipv6 then mask6 (decimal digits) else mask4 (decimal digits)⟩) := by
  have hpunct := digits_punct h
  have h128 : decimal digits ≤ 128 := hlen.trans (by cases type <;> decide)
  have hnum := (atoi_digits h h128).2
  simp only [parseNetmask,hpunct,Bool.false_eq_true,if_false,if_neg (not_lt.mpr hshort),hnum]
  have hmax : ¬ (type = .ipv4 ∧ (32 : ℤ) < decimal digits) := by
    rintro ⟨rfl,hgt⟩
    have : decimal digits ≤ 32 := hlen
    omega
  rw [if_neg (by omega),if_neg hmax,if_neg (by omega),if_neg (by omega),Int.toNat_natCast]
  split_ifs <;> rfl

end Texts

section Nodes
variable (a : SockAddr)

theorem ipItem_matches_iff (n : IpItem) : n.matches a ↔ (Listed.address n.type n.ip).Meets a := by
  unfold IpItem.matches Listed.Meets
  cases ha : a.viewAs n.type <;> simp [Listed.type,Listed.Contains,ha]

theorem subnetItem_matches_iff (n : SubnetItem) :
    n.matches a ↔ (Listed.masked n.base.type n.base.ip n.mask).Meets a := by
  unfold SubnetItem.matches Listed.Meets
  cases ha : a.viewAs n.base.type <;> simp [Listed.type,Listed.Contains,ha]

/-- The mask that `parse_netmask` makes of a prefix length compares that many bits. -/
theorem subnet_meets_iff {type : IpType} {len : ℕ} (hlen : len ≤ 8*type.size) (ip : IpT) :
    (Listed.masked type ip (if type = .ipv6 then mask6 len else mask4 len)).Meets a ↔
      (Listed.subnet type ip len).Meets a := by
  refine exists_congr fun remote => and_congr Iff.rfl ?_
  cases type with
  | ipv4 =>
    have h32 : len ≤ 32 := hlen
    have hmask (i : Fin 16) (hi : (i : ℕ) < 4) (j : ℕ) (hj : j < 8) :
        bit (mask4 len i) j = decide (8*(i : ℕ)+j < len) :=
      mask4_bit ⟨len,Nat.lt_succ_of_le h32⟩ i hi ⟨j,hj⟩
    exact masked_iff_bits (by decide) hlen hmask ip remote
  | ipv6 => exact masked_iff_bits (by decide) hlen (fun i _ j hj => mask6_bit i hj) ip remote

end Nodes

namespace Access

theorem letsIn_add_ip (entry : Access) (n : IpItem) (a : SockAddr) :
    a ∈ ({entry with listIps := n::entry.listIps} : Access).letsIn ↔
      n.matches a ∨ a ∈ entry.letsIn := by
  simp only [letsIn,Set.mem_ofPred_eq,List.mem_cons,exists_eq_or_imp]
  exact or_assoc

section Adding
variable {inetPton : IpType → List Char → Option IpT}
  {resolve : List Char → Ret × List (Option (List Char))}

theorem addIp_literal (h : LiteralSyntax inetPton) {entry entry' : Access} {type : IpType}
    {text : List Char} {ip : IpT} (hip : inetPton type text = some ip)
    (hadd : addIp inetPton entry text = (.ok,entry')) :
    ¬ (type = .ipv6 ∧ isV4Mapped ip) ∧ entry' = {entry with listIps := ⟨type,ip⟩::entry.listIps} := by
  simp only [addIp,parseIp_literal h hip] at hadd
  by_cases hmapped : type = .ipv6 ∧ isV4Mapped ip
  · rw [if_pos hmapped] at hadd
    simp [Ret.code] at hadd
  · rw [if_neg hmapped] at hadd
    exact ⟨hmapped,by simpa [Ret.code] using hadd.symm⟩

theorem addSubnet_literal (h : LiteralSyntax inetPton) {entry entry' : Access} {type : IpType}
    {arg text masktext : List Char} {ip mask : IpT} (hs : splitSlash arg = some (text,masktext))
    (hip : inetPton type text = some ip)
    (hmask : ∀ n : SubnetItem, n.base = ⟨type,ip⟩ → (n.mask = fun _ => 0) →
      parseNetmask inetPton masktext n = (.ok,⟨⟨type,ip⟩,mask⟩))
    (hadd : addSubnet inetPton entry arg = .ok (.ok,entry')) : ¬ (type = .ipv6 ∧ isV4Mapped ip) ∧
      entry' = {entry with listSubnets := ⟨⟨type,ip⟩,mask⟩::entry.listSubnets} := by
  simp only [addSubnet,hs,if_neg (h.ne_nil hip),parseIp_literal h hip] at hadd
  by_cases hmapped : type = .ipv6 ∧ isV4Mapped ip
  · rw [if_pos hmapped] at hadd
    simp [Ret.code] at hadd
  · rw [if_neg hmapped] at hadd
    have hok := hmask ⟨⟨type,ip⟩,fun _ => 0⟩ rfl rfl
    simp only [hok,lt_self_iff_false,if_false,Except.ok.injEq,Prod.mk.injEq,true_and] at hadd
    exact ⟨hmapped,hadd.symm⟩

/-- An argument with a separator is taken as a host or handed on as a subnet. -/
theorem add_split {entry entry' : Access} {arg text masktext : List Char}
    (hs : splitSlash arg = some (text,masktext))
    (hadd : add inetPton resolve entry arg = .ok (.ok,entry')) :
    takenAsHost arg = true ∧ addIp inetPton entry text = (.ok,entry') ∨
    takenAsHost arg = false ∧ addSubnet inetPton entry arg = .ok (.ok,entry') := by
  simp only [add,hs] at hadd
  cases hnum : atoi masktext with
  | none => simp [hnum] at hadd
  | some num =>
    simp only [hnum] at hadd
    split_ifs at hadd with h6 h4
    · exact Or.inl ⟨by simp only [takenAsHost,hs,hnum,h6,decide_true,Bool.and_self,Bool.true_or],
        Except.ok.inj hadd⟩
    · exact Or.inl ⟨by simp only [takenAsHost,hs,hnum,h4,decide_true,Bool.and_self,Bool.or_true],
        Except.ok.inj hadd⟩
    · refine Or.inr ⟨?_,hadd⟩
      simp only [takenAsHost,hs,hnum,Option.some.injEq,Bool.or_eq_false_iff,Bool.and_eq_false_imp,
        decide_eq_false_iff_not]
      exact ⟨not_and.mp h6,not_and.mp h4⟩

/-- A mask in digits that is accepted has no more than three of them. -/
theorem digits_short {digits : List Char} {n : SubnetItem} (hdigits : ∀ c ∈ digits, c.isDigit)
    (hok : (parseNetmask inetPton digits n).1 = .ok) : digits.length ≤ 3 := by
  by_contra hlong
  rw [parseNetmask,digits_punct hdigits,if_neg Bool.false_ne_true,if_pos (not_le.mp hlong)] at hok
  cases hok

/-- The full mask of an IPv6 address is one of the special cases. -/
theorem digits_not_full (h : LiteralSyntax inetPton) {type : IpType} {text digits : List Char} {ip : IpT}
    {sep : Char} (hip : inetPton type text = some ip) (hsep : isSlash sep)
    (hdigits : ∀ c ∈ digits, c.isDigit) (hlen : decimal digits ≤ 8*type.size)
    (htaken : takenAsHost (text ++ sep::digits) = false) : decimal digits ≠ 128 := by
  intro hfull
  cases type with
  | ipv4 =>
    have : decimal digits ≤ 32 := hlen
    omega
  | ipv6 =>
    have hcolon := (h.ipv6 _ _ hip).1
    simp [takenAsHost,splitSlash_append digits (h.noSlash hip) hsep,(atoi_digits hdigits (by omega)).1,
      hfull,hcolon] at htaken

/-- A successful addition lets in, besides what was let in before, what the entry is read as. -/
theorem add_says (h : LiteralSyntax inetPton) {entry entry' : Access} {arg : List Char} {l : Listed}
    (hsaid : Says inetPton arg l) (hadd : add inetPton resolve entry arg = .ok (.ok,entry')) :
    ¬ (l.type = .ipv6 ∧ isV4Mapped l.ip) ∧
      ∀ a, a ∈ entry'.letsIn ↔ (l.readAs arg).Meets a ∨ a ∈ entry.letsIn := by
  have hhost {type : IpType} {text : List Char} {ip : IpT} (hip : inetPton type text = some ip)
      (hadd : addIp inetPton entry text = (.ok,entry')) : ¬ (type = .ipv6 ∧ isV4Mapped ip) ∧
      ∀ a, a ∈ entry'.letsIn ↔ (Listed.address type ip).Meets a ∨ a ∈ entry.letsIn := by
    obtain ⟨hmapped,rfl⟩ := addIp_literal h hip hadd
    exact ⟨hmapped,fun a => by rw [letsIn_add_ip,ipItem_matches_iff]⟩
  cases hsaid with
  | @address type text ip hip =>
    have hs := splitSlash_literal (h.noSlash hip)
    have hread : (Listed.address type ip).readAs arg = .address type ip := by
      simp [Listed.readAs,takenAsHost,hs]
    simp only [add,hs,h.not_domain hip,Bool.false_eq_true,if_false,Except.ok.injEq] at hadd
    rw [hread]
    exact hhost hip hadd
  | @subnet type text digits ip sep hip hsep hsome hdigits hlen =>
    have hs := splitSlash_append digits (h.noSlash hip) hsep
    rcases add_split hs hadd with ⟨htaken,hadd⟩ | ⟨htaken,hadd⟩
    · simp only [Listed.readAs,htaken,if_true]
      exact hhost hip hadd
    · simp only [Listed.readAs,htaken,Bool.false_eq_true,if_false]
      have hok : (parseNetmask inetPton digits ⟨(parseIp inetPton text newIp).2,fun _ => 0⟩).1 = .ok := by
        rcases addSubnet_cases inetPton entry hs (h.ne_nil hip) with ⟨_,_,_,hok⟩ | ⟨_,herr,_⟩
        · exact hok
        · rw [hadd] at herr
          simp at herr
      have hshort := digits_short hdigits hok
      have hfull := digits_not_full h hip hsep hdigits hlen htaken
      obtain ⟨hmapped,rfl⟩ := addSubnet_literal h hs hip (fun n hbase hzero => by
        obtain ⟨base,mask⟩ := n
        simp only at hbase hzero
        subst hbase hzero
        exact parseNetmask_digits hdigits hlen hshort hfull) hadd
      refine ⟨hmapped,fun a => ?_⟩
      rw [letsIn_add_subnet,subnetItem_matches_iff,subnet_meets_iff a hlen]
  | @masked type text masktext ip mask sep hip hsep hmask =>
    have hs := splitSlash_append masktext (h.noSlash hip) hsep
    rcases add_split hs hadd with ⟨htaken,hadd⟩ | ⟨htaken,hadd⟩
    · simp only [Listed.readAs,htaken,if_true]
      exact hhost hip hadd
    · simp only [Listed.readAs,htaken,Bool.false_eq_true,if_false]
      obtain ⟨hmapped,rfl⟩ := addSubnet_literal h hs hip (fun n hbase hzero => by
        obtain ⟨base,mask'⟩ := n
        simp only at hbase hzero
        subst hbase hzero
        exact parseNetmask_literal h hmask) hadd
      exact ⟨hmapped,fun a => by rw [letsIn_add_subnet,subnetItem_matches_iff]⟩

variable (inetPton resolve) in
/-- Successful additions of one argument after another. -/
def addAll (entry : Access) : List (List Char) → Option Access
  | [] => some entry
  | arg::args =>
    match add inetPton resolve entry arg with
    | .ok (.ok,entry) => addAll entry args
    | _ => none

/-- The arguments of a list of entries. -/
theorem addAll_says (h : LiteralSyntax inetPton) {entries : List (List Char × Listed)}
    (hsaid : ∀ p ∈ entries, Says inetPton p.1 p.2) {entry acc : Access}
    (hadd : addAll inetPton resolve entry (entries.map Prod.fst) = some acc) :
    (∀ p ∈ entries, ¬ (p.2.type = .ipv6 ∧ isV4Mapped p.2.ip)) ∧
    ∀ a, a ∈ acc.letsIn ↔ (∃ p ∈ entries, (p.2.readAs p.1).Meets a) ∨ a ∈ entry.letsIn := by
  induction entries generalizing entry with
  | nil =>
    cases Option.some.inj hadd
    simp
  | cons p ps ih =>
    simp only [List.map_cons,addAll] at hadd
    split at hadd
    · rename_i entry' hone
      obtain ⟨hmapped,hlets⟩ := add_says h (hsaid p (by simp)) hone
      obtain ⟨hmappeds,hrest⟩ := ih (fun q hq => hsaid q (by simp [hq])) hadd
      refine ⟨fun q hq => ?_,fun a => ?_⟩
      · rcases List.mem_cons.mp hq with rfl | hq
        · exact hmapped
        · exact hmappeds q hq
      · rw [hrest a,hlets a,List.exists_mem_cons_iff]
        exact or_left_comm.trans or_assoc.symm
    · cases hadd

end Adding

end Access

/-- The entry stands for the address but is taken for the single address in front of its
separator. -/
def Missed (a : SockAddr) (p : List Char × Listed) : Prop :=
  p.2.Covers a ∧ takenAsHost p.1 ∧ ¬ (Listed.address p.2.type p.2.ip).Meets a

/-- The entry is an IPv6 subnet in which an address mapped from IPv4 lies. -/
def Overreached (a : SockAddr) (p : List Char × Listed) : Prop :=
  a.unmapped ≠ a ∧ takenAsHost p.1 = false ∧ p.2.type = .ipv6 ∧ p.2.Contains a.addr

/-- The condition: an entry that covers the address is read as it is written, or none is missed and
none overreached (or both happen at once). -/
def ReadRight (entries : List (List Char × Listed)) (a : SockAddr) : Prop :=
  (∃ p ∈ entries, p.2.Covers a ∧ ¬ Missed a p) ∨
  ((∃ p ∈ entries, Missed a p) ↔ ∃ p ∈ entries, Overreached a p)

/-- The list admits exactly the addresses that its entries stand for. -/
def Exact (acc : Access) (entries : List (List Char × Listed)) (a : SockAddr) : Prop :=
  acc.ipMatch a = .ok ↔ ∃ p ∈ entries, p.2.Covers a

section Reading
variable {a : SockAddr} {l : Listed}

/-- The comparison of the code admits what the entry stands for, and in an IPv6 subnet the mapped
addresses as well. -/
theorem meets_iff : l.Meets a ↔
    l.Covers a ∨ a.unmapped ≠ a ∧ l.type = .ipv6 ∧ l.Contains a.addr := by
  unfold Listed.Meets Listed.Covers SockAddr.unmapped SockAddr.viewAs
  obtain ⟨af,addr⟩ := a
  simp only
  by_cases hmapped : af = .ipv6 ∧ isV4Mapped addr
  · obtain ⟨rfl,hm⟩ := hmapped
    cases l.type <;> simp [hm]
  · simp only [if_neg hmapped,ne_eq,not_true,false_and,or_false]
    by_cases haf : af = l.type <;> simp [haf]

/-- The entry's own address is among those that it stands for. -/
theorem contains_own {remote : IpT} (hlen : ∀ type ip len, l = .subnet type ip len → len ≤ 8*type.size)
    (h : (Listed.address l.type l.ip).Contains remote) : l.Contains remote := by
  cases l with
  | address type ip => exact h
  | subnet type ip len =>
    intro k hk
    have hlen := hlen type ip len rfl
    by_cases hb : k/8 < 16
    · have heq := h ⟨k/8,hb⟩ (by simp only [Listed.type]; omega)
      simp only [addrBit,dif_pos hb,heq,Listed.ip]
    · simp only [addrBit,dif_neg hb]
  | masked type ip mask =>
    intro i hi
    rw [h i hi]
    rfl

/-- An address that is not mapped from IPv4 is no mapped one. -/
theorem address_meets_iff {type : IpType} {ip : IpT} (hmapped : ¬ (type = .ipv6 ∧ isV4Mapped ip)) :
    (Listed.address type ip).Meets a ↔ (Listed.address type ip).Covers a := by
  rw [meets_iff]
  refine or_iff_left ?_
  rintro ⟨hne,htype,heq⟩
  simp only [Listed.type] at htype
  subst htype
  have hsame : a.addr = ip := funext fun i => heq i i.isLt
  by_cases hm : a.af = .ipv6 ∧ isV4Mapped a.addr
  · exact hmapped ⟨rfl,hsame ▸ hm.2⟩
  · exact hne (by rw [SockAddr.unmapped,if_neg hm])

theorem readAs_meets_iff {p : List Char × Listed} (hmapped : ¬ (p.2.type = .ipv6 ∧ isV4Mapped p.2.ip))
    (hlen : ∀ type ip len, p.2 = .subnet type ip len → len ≤ 8*type.size) :
    (p.2.readAs p.1).Meets a ↔ p.2.Covers a ∧ ¬ Missed a p ∨ Overreached a p := by
  cases htaken : takenAsHost p.1 with
  | true =>
    have hown : (Listed.address p.2.type p.2.ip).Meets a → p.2.Covers a := fun h =>
      have h := (address_meets_iff hmapped).mp h
      ⟨h.1,contains_own hlen h.2⟩
    simp only [Listed.readAs,htaken,if_true,Missed,Overreached,Bool.true_eq_false,false_and,and_false,
      or_false,true_and,not_and,not_not]
    exact ⟨fun h => ⟨hown h,fun _ => h⟩,fun h => h.2 h.1⟩
  | false =>
    simp only [Listed.readAs,htaken,Bool.false_eq_true,if_false,Missed,Overreached,false_and,and_false,
      not_false_eq_true,and_true,true_and]
    exact meets_iff

end Reading

namespace Access

/-- After successful additions the list is exact for an address if and only if the entries are read
right for it. -/
theorem exact_iff {inetPton : IpType → List Char → Option IpT}
    {resolve : List Char → Ret × List (Option (List Char))} (h : LiteralSyntax inetPton)
    {entries : List (List Char × Listed)} (hsaid : ∀ p ∈ entries, Says inetPton p.1 p.2)
    {acc : Access} (hadd : addAll inetPton resolve init (entries.map Prod.fst) = some acc)
    (a : SockAddr) : Exact acc entries a ↔ ReadRight entries a := by
  obtain ⟨hmapped,hlets⟩ := addAll_says h hsaid hadd
  have hnone : a ∉ init.letsIn := by simp [init,letsIn]
  have hlen (p : List Char × Listed) (hp : p ∈ entries) :
      ∀ type ip len, p.2 = .subnet type ip len → len ≤ 8*type.size := (hsaid p hp).len_le
  have hcode : acc.ipMatch a = .ok ↔
      (∃ p ∈ entries, p.2.Covers a ∧ ¬ Missed a p) ∨ ∃ p ∈ entries, Overreached a p := by
    rw [ipMatch_ok_iff,hlets a,or_iff_left hnone]
    constructor
    · rintro ⟨p,hp,hmeets⟩
      rcases (readAs_meets_iff (hmapped p hp) (hlen p hp)).mp hmeets with hright | hover
      · exact Or.inl ⟨p,hp,hright⟩
      · exact Or.inr ⟨p,hp,hover⟩
    · rintro (⟨p,hp,hright⟩ | ⟨p,hp,hover⟩)
      · exact ⟨p,hp,(readAs_meets_iff (hmapped p hp) (hlen p hp)).mpr (Or.inl hright)⟩
      · exact ⟨p,hp,(readAs_meets_iff (hmapped p hp) (hlen p hp)).mpr (Or.inr hover)⟩
  have hspec : (∃ p ∈ entries, p.2.Covers a) ↔
      (∃ p ∈ entries, p.2.Covers a ∧ ¬ Missed a p) ∨ ∃ p ∈ entries, Missed a p := by
    constructor
    · rintro ⟨p,hp,hcovers⟩
      by_cases hm : Missed a p
      · exact Or.inr ⟨p,hp,hm⟩
      · exact Or.inl ⟨p,hp,hcovers,hm⟩
    · rintro (⟨p,hp,hright⟩ | ⟨p,hp,hm⟩)
      · exact ⟨p,hp,hright.1⟩
      · exact ⟨p,hp,hm.1⟩
  have hiff (R M O : Prop) : (R ∨ O ↔ R ∨ M) ↔ R ∨ (M ↔ O) := by
    by_cases hR : R
    · simp [hR]
    · simp [hR,iff_comm]
  rw [Exact,hcode,hspec]
  exact hiff _ _ _

end Access

/-- `64:ff9b::1.2.3.4`. -/
def nat64Text : List Char := ['6','4',':','f','f','9','b',':',':','1','.','2','.','3','.','4']

/-- The address `64:ff9b::` with four last bytes. -/
def nat64 (w x y z : UInt8) : IpT := fun i =>
  [0,0x64,0xff,0x9b,0,0,0,0,0,0,0,0,w,x,y,z].getD i.val 0

/-- `inet_pton` for that one literal. -/
def inetPtonNat64 (type : IpType) (text : List Char) : Option IpT :=
  if type = .ipv6 ∧ text = nat64Text then some (nat64 1 2 3 4) else none

theorem literalSyntax_nat64 : LiteralSyntax inetPtonNat64 := by
  refine ⟨fun text ip h => ?_,fun text ip h => ?_⟩
  · simp [inetPtonNat64] at h
  · obtain ⟨⟨_,rfl⟩,_⟩ := by simpa [inetPtonNat64] using h
    simp [nat64Text]

/-- `64:ff9b::1.2.3.4/32`. -/
def nat64Subnet : List Char × Listed := (nat64Text ++ ['/','3','2'],.subnet .ipv6 (nat64 1 2 3 4) 32)

theorem says_nat64 : ∀ p ∈ [nat64Subnet], Says inetPtonNat64 p.1 p.2 := by
  intro p hp
  cases List.mem_singleton.mp hp
  exact Says.subnet rfl rfl (by decide) (by simp) (by decide)

namespace Access

theorem exact_iff_nat64 : ∃ acc, addAll inetPtonNat64 resolveNothing init [nat64Subnet.1] = some acc ∧
    (Exact acc [nat64Subnet] ⟨.ipv6,nat64 5 6 7 8⟩ ↔
      ReadRight [nat64Subnet] ⟨.ipv6,nat64 5 6 7 8⟩) :=
  have hadd : addAll inetPtonNat64 resolveNothing init [nat64Subnet.1] = some _ := rfl
  ⟨_,hadd,exact_iff literalSyntax_nat64 says_nat64 hadd _⟩

/-- The subnet `64:ff9b::1.2.3.4/32` is added as one address because its text has a dot. -/
theorem exact_fails : ∃ acc, addAll inetPtonNat64 resolveNothing init [nat64Subnet.1] = some acc ∧
    (∀ p ∈ [nat64Subnet], Says inetPtonNat64 p.1 p.2) ∧
    ¬ Exact acc [nat64Subnet] ⟨.ipv6,nat64 5 6 7 8⟩ := by
  refine ⟨_,rfl,says_nat64,fun h => ?_⟩
  have hcovers : nat64Subnet.2.Covers ⟨.ipv6,nat64 5 6 7 8⟩ := ⟨by decide,by
    intro k hk
    interval_cases k <;> decide⟩
  exact absurd (h.mpr ⟨nat64Subnet,by simp,hcovers⟩) (by decide)

end Access

end Http2d
