import Http2d.ConfigNode

/-! The addresses of a host: `http2d_socket_update_from_addrinfo` of socket.c and `entry_fill_up` of
resolv_cache.c, with `http2d_ntop`. `inet_ntop` belongs to the system and is a parameter. -/
namespace Http2d

/-- `AF_INET`. -/
def afInet : ℤ := 2

/-- `AF_INET6`. -/
def afInet6 : ℤ := 10

/-- `struct addrinfo`: the family, the length of the address, and the bytes of the `sockaddr`. -/
structure AddrInfo where
  family : ℤ
  addrlen : ℕ
  addr : List UInt8
  deriving DecidableEq

/-- The members of `http2d_socket_t` that hold the address; `sin_addr` and `sin6_addr` are disjoint in
the union. -/
structure SocketAddr where
  af : ℤ
  addrLen : ℕ
  sinAddr : List UInt8
  sin6Addr : List UInt8
  deriving DecidableEq

/-- `sin_addr` of the bytes of a `sockaddr`. -/
def readSinAddr (addr : List UInt8) : Exec (List UInt8) := peek addr 4 4

/-- `sin6_addr` of the bytes of a `sockaddr`. -/
def readSin6Addr (addr : List UInt8) : Exec (List UInt8) := peek addr 8 16

/-- The loop that finds the entry. -/
def findAddr : ℕ → List AddrInfo → Option AddrInfo
  | _, [] => none
  | 0, ai::_ => some ai
  | num+1, _::next => findAddr num next

/-- `http2d_socket_update_from_addrinfo`. -/
def updateFromAddrinfo (socket : SocketAddr) (addr : List AddrInfo) (num : ℕ) :
    Exec (Ret × SocketAddr) :=
  match addr with
  | [] => .ok (.error,socket)
  | head::_ =>
    match findAddr num addr with
    | none => .ok (.notFound,socket)
    | some ai => do
      let socket := {socket with af := head.family, addrLen := head.addrlen}
      if head.family = afInet then do
        let bytes ← readSinAddr ai.addr
        .ok (.ok,{socket with sinAddr := bytes})
      else if head.family = afInet6 then do
        let bytes ← readSin6Addr ai.addr
        .ok (.ok,{socket with sin6Addr := bytes})
      else .ok (.error,socket)

section Text
variable (inetNtop : ℤ → List UInt8 → Option (List UInt8))

/-- `IN6_IS_ADDR_V4MAPPED` or `IN6_IS_ADDR_V4COMPAT`. -/
def holdsIpv4 (a : List UInt8) : Bool :=
  a.take 12 = List.replicate 10 0 ++ [255,255] ||
    (a.take 12 = List.replicate 12 0 && decide (1 < Bytes.beNat (a.drop 12)))

/-- `http2d_ntop`; no text is the failure. -/
def ntop (family : ℤ) (addr : List UInt8) : Exec (Option (List UInt8)) :=
  if family = afInet6 then do
    let addr6 ← readSin6Addr addr
    if holdsIpv4 addr6 then .ok (inetNtop afInet (addr6.drop 12)) else .ok (inetNtop afInet6 addr6)
  else do
    let addr4 ← readSinAddr addr
    .ok (inetNtop afInet addr4)

/-- `http2d_resolv_cache_entry_t`. -/
structure ResolvEntry where
  addr : List AddrInfo
  ipStr : BufText
  ipStrAll : BufText
  deriving DecidableEq

/-- `entry_new`. -/
def ResolvEntry.new : ResolvEntry := ⟨[],none,none⟩

/-- The loop of `entry_fill_up`; it has the family of the head. -/
def renderAll (family : ℤ) : List AddrInfo → BufText → Exec (Ret × BufText)
  | [], all => .ok (.ok,all)
  | ai::next, all => do
    match ← ntop inetNtop family ai.addr with
    | none => .ok (.error,all)
    | some tmp => renderAll family next ((all.add [44]).add tmp)

/-- `entry_fill_up`, with the answer of `http2d_gethostbyname`: the list, or none when it fails. It never
returns `ret_eagain`, so it is asked once. -/
def entryFillUp (entry : ResolvEntry) (answer : Option (List AddrInfo)) : Exec (Ret × ResolvEntry) :=
  match answer with
  | none => .ok (.error,entry)
  | some [] => .ok (.error,{entry with addr := []})
  | some (head::next) => do
    let entry := {entry with addr := head::next}
    match ← ntop inetNtop head.family head.addr with
    | none => .ok (.error,entry)
    | some tmp => do
      let ipStr := entry.ipStr.add tmp
      let (ret,all) ← renderAll inetNtop head.family (head::next) (entry.ipStrAll.add ipStr.bytes)
      .ok (ret,{entry with ipStr := ipStr, ipStrAll := all})

end Text

/-- An entry as `getaddrinfo` makes it: a `sockaddr_in` or a `sockaddr_in6`. -/
def AddrInfo.Proper (ai : AddrInfo) : Prop :=
  ai.family = afInet ∧ ai.addrlen = 16 ∧ ai.addr.length = 16 ∨
    ai.family = afInet6 ∧ ai.addrlen = 28 ∧ ai.addr.length = 28

/-- The address proper, in its own family. -/
def AddrInfo.address (ai : AddrInfo) : List UInt8 :=
  if ai.family = afInet then Bytes.slice ai.addr 4 4 else Bytes.slice ai.addr 8 16

/-- The address of the socket, in its own family. -/
def SocketAddr.address (s : SocketAddr) : List UInt8 := if s.af = afInet then s.sinAddr else s.sin6Addr

/-- The socket is given the entry with the number, or there is none. -/
def SetsEntry (socket : SocketAddr) (addr : List AddrInfo) (num : ℕ) : Prop :=
  ∃ ret socket', updateFromAddrinfo socket addr num = .ok (ret,socket') ∧
    (ret = .notFound ↔ addr.length ≤ num) ∧
    ∀ ai, addr[num]? = some ai → ret = .ok ∧ socket'.af = ai.family ∧ socket'.addrLen = ai.addrlen ∧
      socket'.address = ai.address

/-- The texts of all addresses, each in its own family. -/
def ownTexts (inetNtop : ℤ → List UInt8 → Option (List UInt8)) (addr : List AddrInfo) :
    Exec (List (Option (List UInt8))) :=
  addr.mapM fun ai => ntop inetNtop ai.family ai.addr

/-- The entry has all texts with commas between. -/
def RendersAll (inetNtop : ℤ → List UInt8 → Option (List UInt8)) (addr : List AddrInfo) : Prop :=
  ∃ entry texts, entryFillUp inetNtop .new (some addr) = .ok (.ok,entry) ∧
    ownTexts inetNtop addr = .ok (texts.map some) ∧ entry.ipStrAll.bytes = [44].intercalate texts

section Socket
variable {socket : SocketAddr} {addr : List AddrInfo} {ai : AddrInfo}

theorem findAddr_eq (num : ℕ) (addr : List AddrInfo) : findAddr num addr = addr[num]? := by
  induction addr generalizing num with
  | nil => cases num <;> rfl
  | cons ai next ih =>
    cases num with
    | zero => rfl
    | succ num => exact ih num

theorem afInet_ne : afInet6 ≠ afInet := by decide

/-- An entry of the other family has not the address that is read, or not the family. -/
theorem update_other {head : AddrInfo} {next : List AddrInfo} {num : ℕ} {ret : Ret} {socket' : SocketAddr}
    (hai : (head::next)[num]? = some ai)
    (h : updateFromAddrinfo socket (head::next) num = .ok (ret,socket')) : socket'.af = head.family := by
  rw [updateFromAddrinfo,findAddr_eq,hai] at h
  dsimp only at h
  split_ifs at h with h4 h6
  · obtain ⟨bytes,-,heq⟩ := bind_ok_inv h
    cases heq
    rfl
  · obtain ⟨bytes,-,heq⟩ := bind_ok_inv h
    cases heq
    rfl
  · cases h
    rfl

variable (socket) in
/-- An entry of the head's family is copied. -/
theorem update_same {head : AddrInfo} {next : List AddrInfo} {num : ℕ} (hhead : head.Proper)
    (hproper : ai.Proper) (hai : (head::next)[num]? = some ai) (hfam : ai.family = head.family) :
    ∃ socket', updateFromAddrinfo socket (head::next) num = .ok (.ok,socket') ∧ socket'.af = ai.family ∧
      socket'.addrLen = ai.addrlen ∧ socket'.address = ai.address := by
  have hne := afInet_ne
  unfold updateFromAddrinfo
  rw [findAddr_eq,hai]
  dsimp only
  rcases hproper with ⟨hf,hl,hb⟩|⟨hf,hl,hb⟩ <;> rcases hhead with ⟨hf',hl',hb'⟩|⟨hf',hl',hb'⟩
  · have hread : readSinAddr ai.addr = .ok (Bytes.slice ai.addr 4 4) := peek_ok ai.addr 4 4 (by omega)
    rw [if_pos hf',hread]
    refine ⟨_,rfl,hfam.symm,hl'.trans hl.symm,?_⟩
    rw [SocketAddr.address,AddrInfo.address,if_pos hf,if_pos hf']
  · exact absurd (hf'.symm.trans (hfam.symm.trans hf)) hne
  · exact absurd (hf.symm.trans (hfam.trans hf')) hne
  · have hread : readSin6Addr ai.addr = .ok (Bytes.slice ai.addr 8 16) := peek_ok ai.addr 8 16 (by omega)
    have hhead : head.family ≠ afInet := by rw [hf']; exact hne
    have hown : ai.family ≠ afInet := by rw [hf]; exact hne
    rw [if_neg hhead,if_pos hf',hread]
    refine ⟨_,rfl,hfam.symm,hl'.trans hl.symm,?_⟩
    rw [SocketAddr.address,AddrInfo.address,if_neg hown]
    exact if_neg hhead

/-- The entry is set exactly if it has the family of the head. -/
theorem setsEntry_iff {head : AddrInfo} {next : List AddrInfo} (hproper : ∀ ai ∈ head::next, ai.Proper)
    (socket : SocketAddr) (num : ℕ) : SetsEntry socket (head::next) num ↔
      ∀ ai, (head::next)[num]? = some ai → ai.family = head.family := by
  cases hai : (head::next)[num]? with
  | none =>
    refine iff_of_true ⟨.notFound,socket,?_,?_,?_⟩ (by simp)
    · rw [updateFromAddrinfo,findAddr_eq,hai]
    · exact iff_of_true rfl (List.getElem?_eq_none_iff.mp hai)
    · simp [hai]
  | some ai =>
    have hlt : num < (head::next).length := (List.getElem?_eq_some_iff.mp hai).1
    simp only [Option.some.injEq,forall_eq']
    constructor
    · rintro ⟨ret,socket',hrun,-,hset⟩
      rw [← (hset ai hai).2.1,update_other hai hrun]
    · intro hfam
      obtain ⟨socket',hrun,haf,hlen,haddr⟩ := update_same socket (hproper head List.mem_cons_self)
        (hproper ai (List.mem_of_getElem? hai)) hai hfam
      refine ⟨.ok,socket',hrun,iff_of_false (by decide) (not_le.mpr hlt),fun ai' hai' => ?_⟩
      rw [hai] at hai'
      cases hai'
      exact ⟨rfl,haf,hlen,haddr⟩

end Socket

section Rendering
variable {inetNtop : ℤ → List UInt8 → Option (List UInt8)} {family : ℤ} {t : List UInt8}

theorem ntop_plain (hcomma : ∀ f a t, inetNtop f a = some t → 44 ∉ t) {addr : List UInt8}
    (h : ntop inetNtop family addr = .ok (some t)) : 44 ∉ t := by
  unfold ntop at h
  split_ifs at h
  · obtain ⟨bytes,-,h⟩ := bind_ok_inv h
    split_ifs at h
    · exact hcomma _ _ _ (Except.ok.inj h)
    · exact hcomma _ _ _ (Except.ok.inj h)
  · obtain ⟨bytes,-,h⟩ := bind_ok_inv h
    exact hcomma _ _ _ (Except.ok.inj h)

/-- Every entry adds a comma. -/
theorem renderAll_count (hcomma : ∀ f a t, inetNtop f a = some t → 44 ∉ t) {addr : List AddrInfo}
    {all all' : BufText} (h : renderAll inetNtop family addr all = .ok (.ok,all')) :
    all'.bytes.count 44 = all.bytes.count 44+addr.length := by
  induction addr generalizing all with
  | nil =>
    cases h
    rfl
  | cons ai next ih =>
    rw [renderAll] at h
    obtain ⟨text,htext,h⟩ := bind_ok_inv h
    cases text with
    | none => cases h
    | some tmp =>
      have hplain := List.count_eq_zero.mpr (ntop_plain hcomma htext)
      rw [ih h,BufText.bytes_add,BufText.bytes_add,List.count_append,List.count_append,hplain,
        List.length_cons]
      simp only [List.count_singleton_self]
      omega

theorem count_intercalate {texts : List (List UInt8)} (hne : texts ≠ []) (hplain : ∀ t ∈ texts, 44 ∉ t) :
    ([44].intercalate texts).count 44+1 = texts.length := by
  induction texts with
  | nil => exact absurd rfl hne
  | cons t texts ih =>
    obtain ⟨ht,hrest⟩ := List.forall_mem_cons.mp hplain
    have hcount := List.count_eq_zero.mpr ht
    cases texts with
    | nil => simp [hcount]
    | cons t' texts =>
      have := ih (List.cons_ne_nil t' texts) hrest
      rw [List.intercalate_cons_cons,List.count_append,List.count_append,hcount,List.length_cons]
      simp only [List.count_singleton_self]
      omega

theorem ownTexts_inv {addr : List AddrInfo} {texts : List (List UInt8)}
    (hcomma : ∀ f a t, inetNtop f a = some t → 44 ∉ t) (h : ownTexts inetNtop addr = .ok (texts.map some)) :
    texts.length = addr.length ∧ ∀ t ∈ texts, 44 ∉ t := by
  induction addr generalizing texts with
  | nil =>
    cases texts with
    | nil => simp
    | cons t texts => cases h
  | cons ai next ih =>
    rw [ownTexts,List.mapM_cons] at h
    obtain ⟨text,htext,h⟩ := bind_ok_inv h
    obtain ⟨rest,hrest,heq⟩ := bind_ok_inv h
    cases texts with
    | nil => cases heq
    | cons t texts =>
      rw [List.map_cons] at heq
      obtain ⟨rfl,rfl⟩ := List.cons.inj (Except.ok.inj heq)
      obtain ⟨hlen,hplain⟩ := ih hrest
      exact ⟨by simp [hlen],List.forall_mem_cons.mpr ⟨ntop_plain hcomma htext,hplain⟩⟩

/-- The head is rendered twice. -/
theorem not_rendersAll (hcomma : ∀ f a t, inetNtop f a = some t → 44 ∉ t) {addr : List AddrInfo}
    (hne : addr ≠ []) : ¬ RendersAll inetNtop addr := by
  rintro ⟨entry,texts,hfill,htexts,hall⟩
  obtain ⟨head,next,rfl⟩ := List.exists_cons_of_ne_nil hne
  obtain ⟨hlen,hplain⟩ := ownTexts_inv hcomma htexts
  have htextsne : texts ≠ [] := by
    rintro rfl
    cases hlen
  have hwant := count_intercalate htextsne hplain
  rw [entryFillUp] at hfill
  obtain ⟨text,htext,hfill⟩ := bind_ok_inv hfill
  cases text with
  | none => cases hfill
  | some tmp =>
    obtain ⟨⟨ret,all⟩,hrender,heq⟩ := bind_ok_inv hfill
    cases heq
    have hcount := renderAll_count hcomma hrender
    rw [BufText.bytes_add] at hcount
    dsimp only at hall
    rw [hall] at hcount
    omega

end Rendering

/-- A socket is set from the entry exactly if that has the family of the head, and the texts are never the
addresses of the list. -/
theorem representsHost_iff {inetNtop : ℤ → List UInt8 → Option (List UInt8)}
    (hcomma : ∀ f a t, inetNtop f a = some t → 44 ∉ t) {head : AddrInfo} {next : List AddrInfo}
    (hproper : ∀ ai ∈ head::next, ai.Proper) (socket : SocketAddr) (num : ℕ) :
    (SetsEntry socket (head::next) num ↔
      ∀ ai, (head::next)[num]? = some ai → ai.family = head.family) ∧ ¬ RendersAll inetNtop (head::next) :=
  ⟨setsEntry_iff hproper socket num,not_rendersAll hcomma (List.cons_ne_nil head next)⟩

/-- `inet_ntop` of `1.2.3.4` and of `5.6.7.8`. -/
def sampleNtop (_ : ℤ) (a : List UInt8) : Option (List UInt8) :=
  if a = [1,2,3,4] then some [49,46,50,46,51,46,52]
  else if a = [5,6,7,8] then some [53,46,54,46,55,46,56]
  else none

theorem sampleNtop_plain (f : ℤ) (a t : List UInt8) (h : sampleNtop f a = some t) : 44 ∉ t := by
  unfold sampleNtop at h
  split_ifs at h <;> (cases h; decide)

/-- Two IPv4 addresses: the second one is set, and the list is not rendered as it is. -/
theorem representsHost_second : SetsEntry ⟨0,0,[],[]⟩
      [⟨2,16,[2,0,0,0,1,2,3,4,0,0,0,0,0,0,0,0]⟩,⟨2,16,[2,0,0,0,5,6,7,8,0,0,0,0,0,0,0,0]⟩] 1 ∧
    ¬ RendersAll sampleNtop
      [⟨2,16,[2,0,0,0,1,2,3,4,0,0,0,0,0,0,0,0]⟩,⟨2,16,[2,0,0,0,5,6,7,8,0,0,0,0,0,0,0,0]⟩] := by
  have hproper : ∀ ai ∈ [(⟨2,16,[2,0,0,0,1,2,3,4,0,0,0,0,0,0,0,0]⟩ : AddrInfo),
      ⟨2,16,[2,0,0,0,5,6,7,8,0,0,0,0,0,0,0,0]⟩], ai.Proper := by simp [AddrInfo.Proper,afInet]
  obtain ⟨hset,hall⟩ := representsHost_iff sampleNtop_plain hproper ⟨0,0,[],[]⟩ 1
  exact ⟨hset.mpr (by simp),hall⟩

/-- An IPv6 address behind an IPv4 address is not read as one, and `1.2.3.4` alone is rendered twice. -/
theorem not_representsHost_mixed :
    ¬ SetsEntry ⟨0,0,[],[]⟩ [⟨2,16,[2,0,0,0,1,2,3,4,0,0,0,0,0,0,0,0]⟩,
      ⟨10,28,[10,0,0,0,0,0,0,0,254,128,0,0,0,0,0,0,0,0,0,0,0,0,0,1,0,0,0,0]⟩] 1 ∧
    ¬ RendersAll sampleNtop [⟨2,16,[2,0,0,0,1,2,3,4,0,0,0,0,0,0,0,0]⟩] := by
  constructor
  · rintro ⟨ret,socket',hrun,-,hset⟩
    have haf := (hset _ rfl).2.1
    rw [update_other rfl hrun] at haf
    exact absurd haf (by decide)
  · exact not_rendersAll sampleNtop_plain (by simp)

end Http2d
