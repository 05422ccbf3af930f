import Http2d.Access

/-! What a failed addition does to an access list.
The node of a subnet is linked first and stays linked when its text is refused. Its mask is then
zero, so that it lets in the whole address family that was chosen for it. -/
namespace Http2d
namespace Access

/-- The remote addresses that a list lets in. -/
def letsIn (entry : Access) : Set SockAddr :=
  {a | (∃ n ∈ entry.listIps, n.matches a) ∨ ∃ n ∈ entry.listSubnets, n.matches a}

theorem ipMatch_ok_iff (entry : Access) (a : SockAddr) : entry.ipMatch a = .ok ↔ a ∈ entry.letsIn := by
  simp only [ipMatch,letsIn,Set.mem_ofPred_eq,← List.any_eq_true]
  cases entry.listIps.any (·.matches a) <;> cases entry.listSubnets.any (·.matches a) <;> decide

theorem ipMatch_not_ok {entry : Access} {a : SockAddr} (h : entry.ipMatch a ≠ .ok) :
    entry.ipMatch a = .notFound := by
  revert h
  unfold ipMatch
  split_ifs <;> simp

/-- The answer for an address depends on nothing but whether it is let in. -/
theorem ipMatch_eq_iff (entry entry' : Access) (a : SockAddr) :
    entry'.ipMatch a = entry.ipMatch a ↔ (a ∈ entry'.letsIn ↔ a ∈ entry.letsIn) := by
  rw [← ipMatch_ok_iff,← ipMatch_ok_iff]
  constructor
  · intro h
    rw [h]
  · intro h
    by_cases hm : entry.ipMatch a = .ok
    · rw [hm,h.mpr hm]
    · rw [ipMatch_not_ok hm,ipMatch_not_ok fun h' => hm (h.mp h')]

theorem letsIn_add_subnet (entry : Access) (n : SubnetItem) (a : SockAddr) :
    a ∈ ({entry with listSubnets := n::entry.listSubnets} : Access).letsIn ↔
      n.matches a ∨ a ∈ entry.letsIn := by
  simp only [letsIn,Set.mem_ofPred_eq,List.mem_cons,exists_eq_or_imp]
  exact or_left_comm

end Access

/-- A subnet without a mask lets in every address of its family. -/
theorem SubnetItem.matches_of_mask_zero {n : SubnetItem} (h : n.mask = fun _ => 0) (a : SockAddr) :
    n.matches a ↔ (a.viewAs n.base.type).isSome := by
  unfold SubnetItem.matches
  cases a.viewAs n.base.type <;> simp [h]

section Parsing
variable (inetPton : IpType → List Char → Option IpT)

theorem parseIp_type (ip : List Char) (n : IpItem) :
    (parseIp inetPton ip n).2.type = ipFamily ip := by
  simp only [parseIp]
  cases inetPton (ipFamily ip) ip <;> simp only <;> split_ifs <;> rfl

theorem parseIp_ret (ip : List Char) (n : IpItem) :
    (parseIp inetPton ip n).1 = .ok ∨ (parseIp inetPton ip n).1 = .error := by
  simp only [parseIp]
  cases inetPton (ipFamily ip) ip <;> simp only <;> split_ifs <;> simp

/-- A refused mask leaves the mask of the node as it was. -/
theorem parseNetmask_cases (netmask : List Char) (n : SubnetItem) :
    (parseNetmask inetPton netmask n).1 = .ok ∧
        (parseNetmask inetPton netmask n).2.base = n.base ∨
      parseNetmask inetPton netmask n = (.error,n) := by
  unfold parseNetmask
  cases inetPton n.base.type netmask <;> simp only <;> split_ifs <;> simp

namespace Access

/-- The argument is handed to `http2d_access_add_subnet`, split into its two parts. -/
def ReachesSubnet (arg ip mask : List Char) : Prop :=
  splitSlash arg = some (ip,mask) ∧ ∃ num, atoi mask = some num ∧
    ¬ (arg.contains ':' ∧ num = 128) ∧ ¬ (arg.contains '.' ∧ num = 32)

/-- The subnet is refused, and the node that stays behind is of family `fam`. -/
def LeavesNode (arg : List Char) (fam : IpType) : Prop :=
  ∃ ip mask, ReachesSubnet arg ip mask ∧ ip ≠ [] ∧ ipFamily ip = fam ∧
    ((parseIp inetPton ip newIp).1 ≠ .ok ∨
      (parseNetmask inetPton mask ⟨(parseIp inetPton ip newIp).2,fun _ => 0⟩).1 ≠ .ok)

theorem LeavesNode.unique {arg : List Char} {fam fam' : IpType} (h : LeavesNode inetPton arg fam)
    (h' : LeavesNode inetPton arg fam') : fam = fam' := by
  obtain ⟨ip,mask,⟨hs,_⟩,_,rfl,_⟩ := h
  obtain ⟨ip',mask',⟨hs',_⟩,_,rfl,_⟩ := h'
  rw [hs] at hs'
  injection hs' with heq
  rw [(Prod.mk.inj heq).1]

/-- `http2d_access_add_subnet` on a split argument. -/
theorem addSubnet_cases (entry : Access) {arg ip mask : List Char}
    (hs : splitSlash arg = some (ip,mask)) (hip : ip ≠ []) :
    (∃ n, addSubnet inetPton entry arg =
        .ok (.ok,{entry with listSubnets := n::entry.listSubnets}) ∧
        (parseIp inetPton ip newIp).1 = .ok ∧
        (parseNetmask inetPton mask ⟨(parseIp inetPton ip newIp).2,fun _ => 0⟩).1 = .ok) ∨
      ∃ n : SubnetItem, addSubnet inetPton entry arg =
        .ok (.error,{entry with listSubnets := n::entry.listSubnets}) ∧
        n.base.type = ipFamily ip ∧ (n.mask = fun _ => 0) ∧
        ((parseIp inetPton ip newIp).1 ≠ .ok ∨
          (parseNetmask inetPton mask ⟨(parseIp inetPton ip newIp).2,fun _ => 0⟩).1 ≠ .ok) := by
  have htype := parseIp_type inetPton ip newIp
  have hret := parseIp_ret inetPton ip newIp
  simp only [addSubnet,hs,if_neg hip]
  rcases hp : parseIp inetPton ip newIp with ⟨ret,base⟩
  rw [hp] at htype hret
  rcases hret with hret | hret
  · simp only at hret
    subst hret
    rcases parseNetmask_cases inetPton mask ⟨base,fun _ => 0⟩ with ⟨hok,_⟩ | herr
    · rcases hm : parseNetmask inetPton mask ⟨base,fun _ => 0⟩ with ⟨ret,n⟩
      rw [hm] at hok
      simp only at hok
      subst hok
      exact Or.inl ⟨n,by simp [Ret.code],rfl,rfl⟩
    · exact Or.inr ⟨⟨base,fun _ => 0⟩,by simp [herr,Ret.code],htype,rfl,Or.inr (by simp [herr])⟩
  · simp only at hret
    subst hret
    exact Or.inr ⟨⟨base,fun _ => 0⟩,by simp [Ret.code],htype,rfl,Or.inl (by simp)⟩

variable {inetPton}

theorem addIp_failed {entry entry' : Access} {ip : List Char} {ret : Ret}
    (h : addIp inetPton entry ip = (ret,entry')) (hret : ret ≠ .ok) : entry' = entry := by
  have hp := parseIp_ret inetPton ip newIp
  simp only [addIp] at h
  rcases hq : parseIp inetPton ip newIp with ⟨ret',n⟩
  rw [hq] at hp h
  rcases hp with hp | hp <;> simp only at hp <;> subst hp <;> simp [Ret.code] at h
  · exact absurd h.1.symm hret
  · exact h.2.symm

variable {resolve : List Char → Ret × List (Option (List Char))}

/-- An argument that reaches `http2d_access_add_subnet` goes nowhere else. -/
theorem add_eq_addSubnet (entry : Access) {arg ip mask : List Char}
    (h : ReachesSubnet arg ip mask) :
    add inetPton resolve entry arg = addSubnet inetPton entry arg := by
  obtain ⟨hs,num,hnum,h128,h32⟩ := h
  simp only [add,hs,hnum]
  rw [if_neg h128,if_neg h32]

/-- A failed addition of an argument that is not looked up leaves the list as it was, or leaves
behind a subnet without a mask. -/
theorem add_failed_cases {entry entry' : Access} {arg : List Char} {ret : Ret}
    (hname : isDomain arg = false) (h : add inetPton resolve entry arg = .ok (ret,entry'))
    (hret : ret ≠ .ok) :
    entry' = entry ∨ ∃ n : SubnetItem, LeavesNode inetPton arg n.base.type ∧
      (n.mask = fun _ => 0) ∧ entry' = {entry with listSubnets := n::entry.listSubnets} := by
  cases hs : splitSlash arg with
  | none =>
    simp only [add,hs,hname] at h
    exact Or.inl (addIp_failed (Except.ok.inj h) hret)
  | some parts =>
    obtain ⟨ip,mask⟩ := parts
    cases hnum : atoi mask with
    | none =>
      simp only [add,hs,hnum] at h
      exact Or.inl (Prod.mk.inj (Except.ok.inj h)).2.symm
    | some num =>
      by_cases h128 : arg.contains ':' ∧ num = 128
      · simp only [add,hs,hnum,if_pos h128] at h
        exact Or.inl (addIp_failed (Except.ok.inj h) hret)
      by_cases h32 : arg.contains '.' ∧ num = 32
      · simp only [add,hs,hnum,if_neg h128,if_pos h32] at h
        exact Or.inl (addIp_failed (Except.ok.inj h) hret)
      have hreach : ReachesSubnet arg ip mask := ⟨hs,num,hnum,h128,h32⟩
      rw [add_eq_addSubnet entry hreach] at h
      have hip : ip ≠ [] := by
        rintro rfl
        simp [addSubnet,hs] at h
      rcases addSubnet_cases inetPton entry hs hip with ⟨n,hn,_⟩ | ⟨n,hn,htype,hmask,hbad⟩
      · rw [hn] at h
        exact absurd (Prod.mk.inj (Except.ok.inj h)).1.symm hret
      · rw [hn] at h
        exact Or.inr ⟨n,⟨ip,mask,hreach,hip,htype.symm,hbad⟩,hmask,
          (Prod.mk.inj (Except.ok.inj h)).2.symm⟩

variable (inetPton resolve)

theorem add_leavesNode (entry : Access) {arg : List Char} {fam : IpType}
    (h : LeavesNode inetPton arg fam) :
    ∃ n : SubnetItem, n.base.type = fam ∧ (n.mask = fun _ => 0) ∧
      add inetPton resolve entry arg =
        .ok (.error,{entry with listSubnets := n::entry.listSubnets}) := by
  obtain ⟨ip,mask,hreach,hip,rfl,hbad⟩ := h
  rcases addSubnet_cases inetPton entry hreach.1 hip with
    ⟨n,_,hok,hmok⟩ | ⟨n,hn,htype,hmask,_⟩
  · rcases hbad with hbad | hbad
    · exact absurd hok hbad
    · exact absurd hmok hbad
  · exact ⟨n,htype,hmask,by rw [add_eq_addSubnet entry hreach,hn]⟩

/-- When `http2d_access_add` returns anything but `ret_ok`, the answer for the address is the one
that was given before. -/
def UnchangedOnFailure (entry : Access) (arg : List Char) (a : SockAddr) : Prop :=
  ∀ ret entry', add inetPton resolve entry arg = .ok (ret,entry') → ret ≠ .ok →
    entry'.ipMatch a = entry.ipMatch a

variable {inetPton resolve}

/-- A failed addition changes the answer for an address if and only if it leaves a subnet node
behind, in a family that the address can be compared in, and the address was not let in before. -/
theorem unchangedOnFailure_iff {entry : Access} {arg : List Char} {a : SockAddr}
    (hname : isDomain arg = false) :
    UnchangedOnFailure inetPton resolve entry arg a ↔
      ∀ fam, LeavesNode inetPton arg fam → (a.viewAs fam).isSome → entry.ipMatch a = .ok := by
  constructor
  · intro h fam hleaves hview
    obtain ⟨n,rfl,hmask,hadd⟩ := add_leavesNode inetPton resolve entry hleaves
    have hsame := h _ _ hadd (by simp)
    rw [ipMatch_eq_iff,letsIn_add_subnet] at hsame
    exact (ipMatch_ok_iff entry a).mpr
      (hsame.mp (Or.inl ((SubnetItem.matches_of_mask_zero hmask a).mpr hview)))
  · intro h ret entry' hadd hret
    rcases add_failed_cases hname hadd hret with rfl | ⟨n,hleaves,hmask,rfl⟩
    · rfl
    rw [ipMatch_eq_iff,letsIn_add_subnet,SubnetItem.matches_of_mask_zero hmask]
    refine ⟨?_,Or.inr⟩
    rintro (hview | hin)
    · exact (ipMatch_ok_iff entry a).mp (h _ hleaves hview)
    · exact hin

end Access
end Parsing

/-- The fields of a string between the separators `sep`. -/
def fieldsOf (sep : Char) : List Char → List (List Char)
  | [] => [[]]
  | c::cs =>
    if c = sep then []::fieldsOf sep cs
    else match fieldsOf sep cs with
      | [] => [[c]]
      | f::fs => (c::f)::fs

/-- One decimal number of a dotted IPv4 address. -/
def dottedPart (s : List Char) : Option UInt8 :=
  if s ≠ [] ∧ s.length ≤ 3 ∧ s.all Char.isDigit ∧ (strtol s).1 ≤ 255 ∧
      (s.head? = some '0' → s.length = 1) then
    some (UInt8.ofNat (strtol s).1.toNat)
  else none

/-- `inet_pton` for dotted IPv4 addresses. -/
def inetPton4 (type : IpType) (s : List Char) : Option IpT :=
  match type,(fieldsOf '.' s).map dottedPart with
  | .ipv4,[some a,some b,some c,some d] => some fun i =>
    if i.val = 0 then a else if i.val = 1 then b else if i.val = 2 then c
    else if i.val = 3 then d else 0
  | _,_ => none

/-- A resolver that finds nothing. -/
def resolveNothing (_ : List Char) : Ret × List (Option (List Char)) := (.error,[])

/-- The address `203.0.113.5`. -/
def remote203 : SockAddr :=
  ⟨.ipv4,fun i => if i.val = 0 then 203 else if i.val = 2 then 113 else if i.val = 3 then 5 else 0⟩

def subnet33 : List Char := ['1','0','.','0','.','0','.','0','/','3','3']

namespace Access

theorem unchangedOnFailure_iff_subnet33 :
    UnchangedOnFailure inetPton4 resolveNothing init subnet33 remote203 ↔
      ∀ fam, LeavesNode inetPton4 subnet33 fam → (remote203.viewAs fam).isSome →
        init.ipMatch remote203 = .ok :=
  unchangedOnFailure_iff (by decide)

/-- The refused mask of `10.0.0.0/33` lets in an address from elsewhere. -/
theorem unchangedOnFailure_fails :
    ¬ UnchangedOnFailure inetPton4 resolveNothing init subnet33 remote203 := by
  intro h
  obtain ⟨entry',hadd,hmatch⟩ : ∃ entry', add inetPton4 resolveNothing init subnet33 =
      .ok (.error,entry') ∧ entry'.ipMatch remote203 = .ok := ⟨_,rfl,by decide⟩
  have hbefore : init.ipMatch remote203 = .notFound := rfl
  have hsame := h .error entry' hadd (by decide)
  rw [hmatch,hbefore] at hsame
  exact absurd hsame (by decide)

end Access
end Http2d
