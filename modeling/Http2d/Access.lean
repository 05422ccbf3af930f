import Http2d.Common

/-! Access lists: single addresses and subnets, and the addresses they let in.
`inet_pton` and the name resolver belong to the system and are parameters; the rest of the
parsing is done here. Allocation of a list node succeeds. -/
namespace Http2d

/-- `ip_type_t`, and the address family of a socket. -/
inductive IpType
  | ipv4 | ipv6
  deriving DecidableEq, Repr

/-- `ip_t`: the union of a 4-byte and a 16-byte address. -/
abbrev IpT := Fin 16 → UInt8

/-- The remote address of a socket; the IPv4 address is the first four bytes. -/
structure SockAddr where
  af : IpType
  addr : IpT

/-- `ip_item_t`. -/
structure IpItem where
  type : IpType
  ip : IpT

/-- `subnet_item_t`. -/
structure SubnetItem where
  base : IpItem
  mask : IpT

/-- `http2d_access_t`; the last node added stands first. -/
structure Access where
  listIps : List IpItem
  listSubnets : List SubnetItem

/-- `IN6_IS_ADDR_V4MAPPED`. -/
def isV4Mapped (a : IpT) : Bool := decide (∀ i : Fin 16, i < 12 → a i = if i < 10 then 0 else 0xFF)

/-- The last four bytes of an IPv6 address in the place of an IPv4 address. -/
def mappedPart (a : IpT) : IpT := fun i => a (i+12)

/-- The bytes of an address that its family uses. -/
def IpType.size : IpType → ℕ
  | .ipv4 => 4
  | .ipv6 => 16

/-- The address as an address of family `fam`, when the socket has one. -/
def SockAddr.viewAs (a : SockAddr) (fam : IpType) : Option IpT :=
  if a.af = fam then some a.addr
  else if a.af = .ipv6 ∧ isV4Mapped a.addr then some (mappedPart a.addr)
  else none

/-- The comparison of `http2d_access_ip_match` for a node of `list_ips`. -/
def IpItem.matches (n : IpItem) (a : SockAddr) : Bool :=
  match a.viewAs n.type with
  | some remote => decide (∀ i : Fin 16, i < n.type.size → remote i = n.ip i)
  | none => false

/-- The comparison of `http2d_access_ip_match` for a node of `list_subnets`. -/
def SubnetItem.matches (n : SubnetItem) (a : SockAddr) : Bool :=
  match a.viewAs n.base.type with
  | some remote =>
    decide (∀ i : Fin 16, i < n.base.type.size → n.base.ip i &&& n.mask i = remote i &&& n.mask i)
  | none => false

namespace Access

def init : Access := ⟨[],[]⟩

/-- `http2d_access_ip_match`. -/
def ipMatch (entry : Access) (a : SockAddr) : Ret :=
  if entry.listIps.any (·.matches a) then .ok
  else if entry.listSubnets.any (·.matches a) then .ok
  else .notFound

end Access

/-- `isspace`. -/
def isSpace (c : Char) : Bool := c = ' ' || (9 ≤ c.toNat && c.toNat ≤ 13)

/-- `strtol` in base ten: the value, and whether `errno` was set because it is out of range. -/
def strtol (s : List Char) : ℤ × Bool :=
  let s := s.dropWhile isSpace
  let (neg,s) := match s with
    | '-'::s => (true,s)
    | '+'::s => (false,s)
    | s => (false,s)
  let n : ℕ := (s.takeWhile Char.isDigit).foldl (fun n c => n*10+(c.toNat - '0'.toNat)) 0
  let v : ℤ := if neg then -n else n
  if v < -2^63 then (-2^63,true) else if 2^63 ≤ v then (2^63-1,true) else (v,false)

/-- `http2d_atoi`. -/
def atoi (s : List Char) : Option ℤ :=
  match strtol s with
  | (_,true) => none
  | (v,false) => some (v.bmod (2^32))

def isSlash (c : Char) : Bool := c = '/' || c = '\\'

/-- `strpbrk (s, "/\\")`: what is in front of the first separator and what is behind it. -/
def splitSlash (s : List Char) : Option (List Char × List Char) :=
  match s.dropWhile fun c => !isSlash c with
  | [] => none
  | _::rest => some (s.takeWhile fun c => !isSlash c,rest)

/-- An argument that `http2d_access_add` looks up as a host name. -/
def isDomain (arg : List Char) : Bool :=
  (splitSlash arg).isNone && !arg.contains ':' &&
    arg.any fun c => ('a' ≤ c && c ≤ 'z') || ('A' ≤ c && c ≤ 'Z')

/-- `new_ip`; the type is set when the address is parsed. -/
def newIp : IpItem := ⟨.ipv4,fun _ => 0⟩

/-- The family that `parse_ip` chooses. -/
def ipFamily (ip : List Char) : IpType :=
  if ip.contains ':' || decide (15 < ip.length) then .ipv6 else .ipv4

/-- The bits of a partly masked byte: `jj` bits are set, starting from `maskbit`. -/
def maskByte : ℕ → UInt8 → UInt8 → UInt8
  | 0, mask, _ => mask
  | jj+1, mask, maskbit => maskByte jj (mask ||| maskbit) (maskbit >>> 1)

/-- The IPv6 mask of `num < 128` bits. -/
def mask6 (num : ℕ) : IpT := fun i =>
  if i < num/8 then 0xFF else if (i : ℕ) = num/8 then maskByte (num%8) 0 0x80 else 0

/-- The IPv4 mask of `num ≤ 32` bits in network order. -/
def mask4 (num : ℕ) : IpT := fun i =>
  if num = 0 then 0 else if i < 4 then UInt8.ofNat ((2^32-2^(32-num))/2^(8*(3-(i : ℕ)))) else 0

section Parsing
variable (inetPton : IpType → List Char → Option IpT)

/-- `parse_ip`: the return code and the node as it is left. -/
def parseIp (ip : List Char) (n : IpItem) : Ret × IpItem :=
  let n := {n with type := ipFamily ip}
  let (ok,n) := match inetPton n.type ip with
    | some addr => (true,{n with ip := addr})
    | none => (false,n)
  if n.type = .ipv6 ∧ isV4Mapped n.ip then (.error,n)
  else (if ok then .ok else .error,n)

/-- `parse_netmask`. -/
def parseNetmask (netmask : List Char) (n : SubnetItem) : Ret × SubnetItem :=
  if netmask.contains ':' || netmask.contains '.' then
    match inetPton n.base.type netmask with
    | some mask => (.ok,{n with mask := mask})
    | none => (.error,n)
  else if 3 < netmask.length then (.error,n)
  else
    let num := (strtol netmask).1.bmod (2^32)
    if num < 0 then (.error,n)
    else if n.base.type = .ipv4 ∧ 32 < num then (.error,n)
    else if n.base.type = .ipv6 ∧ 128 < num then (.error,n)
    else if num = 128 then (.ok,{n with mask := fun _ => 0})
    else if n.base.type = .ipv6 then (.ok,{n with mask := mask6 num.toNat})
    else (.ok,{n with mask := mask4 num.toNat})

namespace Access

/-- `http2d_access_add_ip`. -/
def addIp (entry : Access) (ip : List Char) : Ret × Access :=
  let (ret,n) := parseIp inetPton ip newIp
  if ret.code < Ret.ok.code then (ret,entry)
  else (ret,{entry with listIps := n::entry.listIps})

/-- The loop of `http2d_access_add_domain` over the resolved addresses, each as it is printed by
`http2d_ntop` or none when that fails. -/
def addAddrInfo (entry : Access) : List (Option (List Char)) → Ret × Access
  | [] => (.ok,entry)
  | none::_ => (.error,entry)
  | some ip::rest =>
    let (ret,entry) := addIp inetPton entry ip
    if ret ≠ .ok then (ret,entry) else addAddrInfo entry rest

/-- `http2d_access_add_subnet`: the node is linked before its parts are parsed, and an empty
address part leaves `parse_ip` with a NULL string. -/
def addSubnet (entry : Access) (subnet : List Char) : Exec (Ret × Access) :=
  match splitSlash subnet with
  | none => .ok (.error,entry)
  | some (ip,mask) =>
    if ip = [] then .error .fault
    else
      let link (n : SubnetItem) : Access := {entry with listSubnets := n::entry.listSubnets}
      let (ret,base) := parseIp inetPton ip newIp
      let n : SubnetItem := ⟨base,fun _ => 0⟩
      if ret.code < Ret.ok.code then .ok (.error,link n)
      else
        let (ret,n) := parseNetmask inetPton mask n
        if ret.code < Ret.ok.code then .ok (.error,link n) else .ok (.ok,link n)

variable (resolve : List Char → Ret × List (Option (List Char)))

/-- `http2d_access_add_domain`. -/
def addDomain (entry : Access) (domain : List Char) : Ret × Access :=
  let (ret,addrs) := resolve domain
  if ret ≠ .ok then (ret,entry) else addAddrInfo inetPton entry addrs

/-- `http2d_access_add`. -/
def add (entry : Access) (ipOrSubnet : List Char) : Exec (Ret × Access) :=
  match splitSlash ipOrSubnet with
  | none =>
    if isDomain ipOrSubnet then .ok (addDomain inetPton resolve entry ipOrSubnet)
    else .ok (addIp inetPton entry ipOrSubnet)
  | some (ip,masktxt) =>
    match atoi masktxt with
    | none => .ok (.error,entry)
    | some mask =>
      if ipOrSubnet.contains ':' ∧ mask = 128 then .ok (addIp inetPton entry ip)
      else if ipOrSubnet.contains '.' ∧ mask = 32 then .ok (addIp inetPton entry ip)
      else addSubnet inetPton entry ipOrSubnet

end Access
end Parsing

end Http2d
