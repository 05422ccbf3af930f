import Http2d.ConfigNumbers
import Http2d.SortOrder

/-! The configuration of the server: its binds and its virtual servers.
Whether the TLS library takes the files of a virtual server is given from outside. `http2d_bind_new`
and `http2d_virtual_server_new` get their memory, and the lists are not so long that
`http2d_list_sort` goes wrong. -/
namespace Http2d

/-! The names of the settings. -/

/-- `server`. -/
def serverKey : List UInt8 := [115,101,114,118,101,114]
/-- `vserver`. -/
def vserverKey : List UInt8 := 118::serverKey
/-- `bind`. -/
def bindKey : List UInt8 := [98,105,110,100]
/-- `interface`. -/
def interfaceKey : List UInt8 := [105,110,116,101,114,102,97,99,101]
/-- `port`. -/
def portKey : List UInt8 := [112,111,114,116]
/-- `tls`. -/
def tlsKey : List UInt8 := [116,108,115]
/-- `spdy`. -/
def spdyKey : List UInt8 := [115,112,100,121]
/-- `disabled`. -/
def disabledKey : List UInt8 := [100,105,115,97,98,108,101,100]
/-- `nick`. -/
def nickKey : List UInt8 := [110,105,99,107]
/-- `ssl_`. -/
def sslPrefix : List UInt8 := [115,115,108,95]
/-- `ssl_certificate_file`. -/
def certificateFileKey : List UInt8 :=
  sslPrefix ++ [99,101,114,116,105,102,105,99,97,116,101,95,102,105,108,101]
/-- `ssl_certificate_key_file`. -/
def certificateKeyFileKey : List UInt8 :=
  sslPrefix ++ [99,101,114,116,105,102,105,99,97,116,101,95,107,101,121,95,102,105,108,101]
/-- `ssl_ca_list_file`. -/
def caListFileKey : List UInt8 := sslPrefix ++ [99,97,95,108,105,115,116,95,102,105,108,101]
/-- `ssl_cipher_server_preference`. -/
def cipherServerPreferenceKey : List UInt8 :=
  sslPrefix ++ [99,105,112,104,101,114,95,115,101,114,118,101,114,95] ++
    [112,114,101,102,101,114,101,110,99,101]
/-- `ssl_ciphers`. -/
def ciphersKey : List UInt8 := sslPrefix ++ [99,105,112,104,101,114,115]
/-- `SSL_DEFAULT_CIPHERS`: `HIGH:!ADH:!MD5`. -/
def sslDefaultCiphers : List UInt8 := [72,73,71,72,58,33,65,68,72,58,33,77,68,53]

namespace ConfigNode

/-- `CONFIG_KEY_IS`. -/
def keyIs (conf : ConfigNode) (str : List UInt8) : Bool := bufferCaseCmpBuf conf.key.bytes str = 0

/-- `http2d_config_node_while`. -/
def nodeWhile {S : Type} (func : ConfigNode → S → Exec (Ret × S)) : List ConfigNode → S → Exec (Ret × S)
  | [], data => .ok (.ok,data)
  | i::rest, data => do
    let (ret,data) ← func i data
    if ret ≠ .ok then .ok (ret,data) else nodeWhile func rest data

/-- `http2d_config_node_read`; `*buf` is written when the node is found. -/
def read (conf : ConfigNode) (key : List UInt8) : Exec (Ret × Option BufText) := do
  let (ret,tmp) ← conf.get key
  .ok (ret,tmp.map val)

/-- `http2d_config_node_read_bool`. -/
def readBool (conf : ConfigNode) (key : List UInt8) : Exec (Ret × Bool) := do
  let (ret,tmp) ← conf.readInt key 0
  .ok (ret,decide (tmp ≠ 0))

end ConfigNode

/-- `http2d_bind_t` as far as it is configured. -/
structure Bind where
  id : ℤ
  ip : BufText
  port : ℤ
  isTls : Bool
  isSsl : Bool
  isSpdy : Bool
  deriving DecidableEq, Repr

namespace Bind

/-- `http2d_bind_new`. -/
def new : Bind := ⟨0,none,0,false,false,false⟩

/-- `http2d_bind_configure`. -/
def configure (bind : Bind) (conf : ConfigNode) : Exec (Ret × Bind) := do
  let key ← conf.key.cstr
  match atoi (charText key) with
  | none => .ok (.error,bind)
  | some id =>
    let bind := {bind with id := id}
    let (ret,buf) ← conf.read interfaceKey
    let bind := match ret,buf with
      | .ok,some buf => {bind with ip := BufText.add none buf.bytes}
      | _,_ => bind
    let (ret,port) ← conf.readInt portKey bind.port
    let bind := {bind with port := port}
    if ret ≠ .ok then .ok (.error,bind)
    else do
      let (ret,enabled) ← conf.readBool tlsKey
      let bind := if ret = .ok ∧ enabled then {bind with isTls := true, isSsl := true} else bind
      let (ret,enabled) ← conf.readBool spdyKey
      let bind := if ret = .ok ∧ enabled then {bind with isSpdy := true} else bind
      .ok (.ok,bind)

end Bind

/-- `http2d_virtual_server_t`. -/
structure VServer where
  name : BufText
  priority : ℤ
  certificateFile : BufText
  certificateKeyFile : BufText
  caListFile : BufText
  ciphers : BufText
  cipherServerPreference : Bool
  deriving DecidableEq, Repr

namespace VServer

/-- `http2d_virtual_server_new`. -/
def new : VServer := ⟨none,0,none,none,none,some sslDefaultCiphers,true⟩

/-- `configure_virtual_server_property`; a setting with another name is passed over. -/
def configureProperty (conf : ConfigNode) (vsrv : VServer) : Exec (Ret × VServer) :=
  let val := conf.val.bytes
  if conf.keyIs certificateFileKey then
    .ok (.ok,{vsrv with certificateFile := vsrv.certificateFile.add val})
  else if conf.keyIs certificateKeyFileKey then
    .ok (.ok,{vsrv with certificateKeyFile := vsrv.certificateKeyFile.add val})
  else if conf.keyIs caListFileKey then .ok (.ok,{vsrv with caListFile := vsrv.caListFile.add val})
  else if conf.keyIs cipherServerPreferenceKey then do
    let str ← conf.val.cstr
    match atoi (charText str) with
    | none => .ok (.error,vsrv)
    | some n => .ok (.ok,{vsrv with cipherServerPreference := decide (n ≠ 0)})
  else if conf.keyIs nickKey then .ok (.ok,{vsrv with name := vsrv.name.add val})
  else if conf.keyIs ciphersKey then .ok (.ok,{vsrv with ciphers := vsrv.ciphers.clean.add val})
  else .ok (.ok,vsrv)

/-- The test at the begin of `http2d_virtual_server_configure`. -/
def isDisabled (config : ConfigNode) : Exec Bool := do
  let (_,subconf) ← config.get disabledKey
  match subconf with
  | none => .ok false
  | some subconf => do
    let str ← subconf.val.cstr
    match atoi (charText str) with
    | none => .ok false
    | some tmp => .ok (decide (tmp ≠ 0))

/-- `http2d_virtual_server_configure`. -/
def configure (vsrv : VServer) (prio : ℤ) (config : ConfigNode) : Exec (Ret × VServer) := do
  let vsrv := {vsrv with priority := prio}
  if ← isDisabled config then .ok (.deny,vsrv)
  else ConfigNode.nodeWhile configureProperty config.child vsrv

end VServer

/-- What the configuration fills in a `http2d_server_t`. -/
structure ServerLists where
  binds : List Bind
  vservers : List VServer
  deriving DecidableEq, Repr

namespace ServerLists

/-- The body of the loop in `configure_binds`. -/
def configureBind (conf : ConfigNode) (srv : ServerLists) : Exec (Ret × ServerLists) := do
  let (ret,bind) ← Bind.new.configure conf
  if ret ≠ .ok then .ok (ret,srv) else .ok (.ok,{srv with binds := srv.binds ++ [bind]})

/-- `configure_server_property`; the loop is that of `configure_binds`. -/
def configureProperty (conf : ConfigNode) (srv : ServerLists) : Exec (Ret × ServerLists) :=
  if conf.keyIs bindKey then ConfigNode.nodeWhile configureBind conf.child srv else .ok (.error,srv)

/-- `http2d_list_add_tail` with `LIST(vsrv)`: the links are written over the buffer `name`, which is
the first member and no text from then on. -/
def linked (vsrv : VServer) : VServer := {vsrv with name := none}

/-- `add_vserver`; `initSsl` is what `init_ssl` answers. -/
def addVserver (initSsl : VServer → Bool) (conf : ConfigNode) (srv : ServerLists) :
    Exec (Ret × ServerLists) := do
  let key ← conf.key.cstr
  match atoi (charText key) with
  | none => .ok (.error,srv)
  | some prio =>
    if prio < 0 then .ok (.error,srv)
    else do
      let (ret,vsrv) ← VServer.new.configure prio conf
      if ret = .deny then .ok (.ok,srv)
      else if ret ≠ .ok then .ok (ret,srv)
      else if ¬ initSsl vsrv then .ok (.error,srv)
      else .ok (.ok,{srv with vservers := srv.vservers ++ [linked vsrv]})

/-- `vserver_cmp`. -/
def vserverCmp (a b : VServer) : ℤ := b.priority-a.priority

/-- `post_config_checks`. -/
def postConfigChecks (srv : ServerLists) : Ret :=
  if srv.vservers = [] then .error else if srv.binds = [] then .error else .ok

/-- The first half of `_http2d_server_config`. -/
def configureServer (config : ConfigNode) (srv : ServerLists) : Exec (Ret × ServerLists) := do
  let (_,subconf) ← config.get serverKey
  match subconf with
  | none => .ok (.ok,srv)
  | some subconf => ConfigNode.nodeWhile configureProperty subconf.child srv

/-- The second half, up to the sorting. -/
def configureVservers (initSsl : VServer → Bool) (config : ConfigNode) (srv : ServerLists) :
    Exec (Ret × ServerLists) := do
  let (_,subconf) ← config.get vserverKey
  match subconf with
  | none => .ok (.ok,srv)
  | some subconf => ConfigNode.nodeWhile (addVserver initSsl) subconf.child srv

/-- `_http2d_server_config`. -/
def serverConfig (initSsl : VServer → Bool) (config : ConfigNode) (srv : ServerLists) :
    Exec (Ret × ServerLists) := do
  let (ret,srv) ← configureServer config srv
  if ret ≠ .ok then .ok (ret,srv)
  else do
    let (ret,srv) ← configureVservers initSsl config srv
    if ret ≠ .ok then .ok (ret,srv)
    else
      let srv := {srv with vservers := listSort vserverCmp srv.vservers}
      .ok (if srv.postConfigChecks ≠ .ok then .error else .ok,srv)

/-- `http2d_server_get_vserver`: the name and the connection are not looked at. -/
def getVserver (srv : ServerLists) : Option VServer := srv.vservers.head?

end ServerLists

/-! What the nodes stand for. -/

/-- The bind of a node. -/
def BindOf (conf : ConfigNode) (binds : List Bind) : Prop :=
  ∃ bind, Bind.new.configure conf = .ok (.ok,bind) ∧ binds = [bind]

/-- The binds of a setting of the server, which must be `bind`. -/
def BindsOf (conf : ConfigNode) (binds : List Bind) : Prop :=
  conf.keyIs bindKey ∧ ∃ parts, List.Forall₂ BindOf conf.child parts ∧ binds = parts.flatten

/-- The virtual server of a node; none when it is disabled. -/
def VServersOf (initSsl : VServer → Bool) (conf : ConfigNode) (vsrvs : List VServer) : Prop :=
  ∃ key prio, conf.key.cstr = .ok key ∧ atoi (charText key) = some prio ∧ 0 ≤ prio ∧
    ((VServer.isDisabled conf = .ok true ∧ vsrvs = []) ∨
      (VServer.isDisabled conf = .ok false ∧ ∃ vsrv,
        ConfigNode.nodeWhile VServer.configureProperty conf.child {VServer.new with priority := prio} =
          .ok (.ok,vsrv) ∧ initSsl vsrv ∧ vsrvs = [ServerLists.linked vsrv]))

/-- A part of the configuration: without the node there is nothing in it. -/
def Lists {B : Type} (R : ConfigNode → List B → Prop) (config : ConfigNode) (key : List UInt8)
    (items : List B) : Prop :=
  ∃ ret subconf, config.get key = .ok (ret,subconf) ∧
    match subconf with
    | none => items = []
    | some subconf => ∃ parts, List.Forall₂ R subconf.child parts ∧ items = parts.flatten

/-- A loop whose turns put items into the state succeeds when every turn does. -/
theorem nodeWhile_ok_iff {S B : Type} {func : ConfigNode → S → Exec (Ret × S)} {put : List B → S → S}
    {R : ConfigNode → List B → Prop} (hnil : ∀ s, put [] s = s)
    (hput : ∀ xs ys s, put ys (put xs s) = put (xs ++ ys) s)
    (hfunc : ∀ i s t, func i s = .ok (.ok,t) ↔ ∃ xs, R i xs ∧ t = put xs s) {l : List ConfigNode}
    {s t : S} : ConfigNode.nodeWhile func l s = .ok (.ok,t) ↔
      ∃ parts, List.Forall₂ R l parts ∧ t = put parts.flatten s := by
  induction l generalizing s with
  | nil =>
    simp only [ConfigNode.nodeWhile,List.forall₂_nil_left_iff,exists_eq_left,List.flatten_nil,hnil]
    exact ⟨fun h => by cases h; rfl,fun h => by rw [h]⟩
  | cons i rest ih =>
    rw [ConfigNode.nodeWhile]
    constructor
    · intro h
      obtain ⟨⟨ret,u⟩,hu,h⟩ := bind_ok_inv h
      dsimp only at h
      split_ifs at h with hret
      · cases h
        exact absurd rfl hret
      · rw [not_not.mp hret] at hu
        obtain ⟨xs,hx,rfl⟩ := (hfunc i s u).mp hu
        obtain ⟨parts,hparts,rfl⟩ := ih.mp h
        exact ⟨xs::parts,List.Forall₂.cons hx hparts,hput ..⟩
    · rintro ⟨parts,hparts,rfl⟩
      obtain ⟨xs,parts,hx,hrest,rfl⟩ := List.forall₂_cons_left_iff.mp hparts
      rw [(hfunc i s _).mpr ⟨xs,hx,rfl⟩,ok_bind]
      simp only [ne_eq,not_true,if_false,List.flatten_cons]
      exact ih.mpr ⟨parts,hrest,(hput ..).symm⟩

namespace ServerLists

variable {initSsl : VServer → Bool} {config conf : ConfigNode} {srv srv' : ServerLists}

def addBinds (binds : List Bind) (srv : ServerLists) : ServerLists :=
  {srv with binds := srv.binds ++ binds}

def addVservers (vsrvs : List VServer) (srv : ServerLists) : ServerLists :=
  {srv with vservers := srv.vservers ++ vsrvs}

theorem addBinds_nil (srv : ServerLists) : addBinds [] srv = srv := by simp [addBinds]

theorem addVservers_nil (srv : ServerLists) : addVservers [] srv = srv := by simp [addVservers]

theorem configureBind_ok_iff : configureBind conf srv = .ok (.ok,srv') ↔
    ∃ binds, BindOf conf binds ∧ srv' = addBinds binds srv := by
  constructor
  · intro h
    obtain ⟨⟨ret,bind⟩,hbind,h⟩ := bind_ok_inv h
    dsimp only at h
    split_ifs at h with hret
    · cases h
      exact absurd rfl hret
    · cases h
      exact ⟨_,⟨bind,not_not.mp hret ▸ hbind,rfl⟩,rfl⟩
  · rintro ⟨_,⟨bind,hbind,rfl⟩,rfl⟩
    rw [configureBind,hbind]
    rfl

/-- The loops that put binds into the server. -/
theorem bindsWhile_ok_iff {func : ConfigNode → ServerLists → Exec (Ret × ServerLists)}
    {R : ConfigNode → List Bind → Prop} (hfunc : ∀ i s t, func i s = .ok (.ok,t) ↔
      ∃ binds, R i binds ∧ t = addBinds binds s) (l : List ConfigNode) (srv srv' : ServerLists) :
    ConfigNode.nodeWhile func l srv = .ok (.ok,srv') ↔ ∃ parts, List.Forall₂ R l parts ∧
      srv' = addBinds parts.flatten srv :=
  nodeWhile_ok_iff addBinds_nil (by simp [addBinds]) hfunc

theorem configureProperty_ok_iff : configureProperty conf srv = .ok (.ok,srv') ↔
    ∃ binds, BindsOf conf binds ∧ srv' = addBinds binds srv := by
  have hbind (i : ConfigNode) (s t : ServerLists) : configureBind i s = .ok (.ok,t) ↔
      ∃ binds, BindOf i binds ∧ t = addBinds binds s := configureBind_ok_iff
  have hloop := bindsWhile_ok_iff hbind conf.child srv srv'
  rw [configureProperty]
  split_ifs with hkey
  · rw [hloop]
    constructor
    · rintro ⟨parts,hparts,rfl⟩
      exact ⟨_,⟨hkey,parts,hparts,rfl⟩,rfl⟩
    · rintro ⟨_,⟨_,parts,hparts,rfl⟩,rfl⟩
      exact ⟨parts,hparts,rfl⟩
  · refine iff_of_false (fun h => by cases h) ?_
    rintro ⟨_,⟨hbind,_⟩,_⟩
    exact hkey hbind

theorem setting_ret {vsrv vsrv' : VServer} {ret : Ret}
    (h : VServer.configureProperty conf vsrv = .ok (ret,vsrv')) :
    (ret = .ok ∨ ret = .error) ∧ vsrv'.priority = vsrv.priority := by
  simp only [VServer.configureProperty] at h
  split_ifs at h
  on_goal 4 =>
    obtain ⟨str,_,h⟩ := bind_ok_inv h
    cases hnum : atoi (charText str) with
    | none =>
      rw [hnum] at h
      cases h
      exact ⟨Or.inr rfl,rfl⟩
    | some n =>
      rw [hnum] at h
      cases h
      exact ⟨Or.inl rfl,rfl⟩
  all_goals
    cases h
    exact ⟨Or.inl rfl,rfl⟩

/-- The settings of a virtual server give an error or succeed, and leave its priority. -/
theorem settings_ret {l : List ConfigNode} {vsrv vsrv' : VServer} {ret : Ret}
    (h : ConfigNode.nodeWhile VServer.configureProperty l vsrv = .ok (ret,vsrv')) :
    (ret = .ok ∨ ret = .error) ∧ vsrv'.priority = vsrv.priority := by
  induction l generalizing vsrv with
  | nil =>
    cases h
    exact ⟨Or.inl rfl,rfl⟩
  | cons i rest ih =>
    obtain ⟨⟨r,v⟩,hi,h⟩ := bind_ok_inv h
    have hone := setting_ret hi
    dsimp only at h
    split_ifs at h
    · cases h
      exact hone
    · exact ⟨(ih h).1,(ih h).2.trans hone.2⟩

theorem configure_eq (prio : ℤ) (vsrv : VServer) : vsrv.configure prio conf = (do
    let off ← VServer.isDisabled conf
    if off then .ok (.deny,{vsrv with priority := prio})
    else ConfigNode.nodeWhile VServer.configureProperty conf.child {vsrv with priority := prio}) := rfl

theorem addVserver_ok_iff : addVserver initSsl conf srv = .ok (.ok,srv') ↔
    ∃ vsrvs, VServersOf initSsl conf vsrvs ∧ srv' = addVservers vsrvs srv := by
  constructor
  · intro h
    obtain ⟨key,hkey,h⟩ := bind_ok_inv h
    cases hprio : atoi (charText key) with
    | none =>
      rw [hprio] at h
      cases h
    | some prio =>
      simp only [hprio] at h
      by_cases hneg : prio < 0
      · rw [if_pos hneg] at h
        cases h
      · rw [if_neg hneg] at h
        obtain ⟨⟨ret,vsrv⟩,hconf,h⟩ := bind_ok_inv h
        rw [configure_eq] at hconf
        obtain ⟨off,hoff,hconf⟩ := bind_ok_inv hconf
        cases off with
        | true =>
          cases hconf
          cases h
          exact ⟨[],⟨key,prio,hkey,hprio,not_lt.mp hneg,Or.inl ⟨hoff,rfl⟩⟩,
            (addVservers_nil srv).symm⟩
        | false =>
          rcases (settings_ret hconf).1 with rfl | rfl
          · by_cases hssl : initSsl vsrv
            · simp only [hssl] at h
              cases h
              exact ⟨_,⟨key,prio,hkey,hprio,not_lt.mp hneg,Or.inr ⟨hoff,vsrv,hconf,hssl,rfl⟩⟩,rfl⟩
            · simp only [hssl] at h
              cases h
          · cases h
  · rintro ⟨_,⟨key,prio,hkey,hprio,hpos,hcase⟩,rfl⟩
    have hneg : ¬ prio < 0 := not_lt.mpr hpos
    rcases hcase with ⟨hoff,rfl⟩ | ⟨hoff,vsrv,hconf,hssl,rfl⟩
    · have hdeny : VServer.new.configure prio conf =
          .ok (.deny,{VServer.new with priority := prio}) := by rw [configure_eq,hoff]; rfl
      rw [addVservers_nil]
      simp only [addVserver,hkey,ok_bind,hprio,if_neg hneg,hdeny,if_true]
    · have hdone : VServer.new.configure prio conf = .ok (.ok,vsrv) := by
        rw [configure_eq,hoff]
        exact hconf
      simp only [addVserver,hkey,ok_bind,hprio,if_neg hneg,hdone,hssl]
      rfl

theorem postConfigChecks_ok_iff : srv.postConfigChecks = .ok ↔ srv.vservers ≠ [] ∧ srv.binds ≠ [] := by
  rw [postConfigChecks]
  split_ifs with hv hb
  · simp [hv]
  · simp [hb]
  · exact iff_of_true rfl ⟨hv,hb⟩

/-- A part of the configuration is read when every child of its node is. -/
theorem part_ok_iff {S B : Type} {func : ConfigNode → S → Exec (Ret × S)} {put : List B → S → S}
    {R : ConfigNode → List B → Prop} (hnil : ∀ s, put [] s = s)
    (hput : ∀ xs ys s, put ys (put xs s) = put (xs ++ ys) s)
    (hfunc : ∀ i s t, func i s = .ok (.ok,t) ↔ ∃ xs, R i xs ∧ t = put xs s) (config : ConfigNode)
    (key : List UInt8) (s t : S) : (do
      let (_,subconf) ← config.get key
      match subconf with
      | none => Except.ok (Ret.ok,s)
      | some subconf => ConfigNode.nodeWhile func subconf.child s : Exec (Ret × S)) = .ok (.ok,t) ↔
        ∃ items, Lists R config key items ∧ t = put items s := by
  constructor
  · intro h
    obtain ⟨⟨ret,subconf⟩,hget,h⟩ := bind_ok_inv h
    cases subconf with
    | none =>
      cases h
      exact ⟨[],⟨ret,none,hget,rfl⟩,(hnil s).symm⟩
    | some subconf =>
      obtain ⟨parts,hparts,rfl⟩ := (nodeWhile_ok_iff hnil hput hfunc).mp h
      exact ⟨_,⟨ret,some subconf,hget,parts,hparts,rfl⟩,rfl⟩
  · rintro ⟨items,⟨ret,subconf,hget,hitems⟩,rfl⟩
    rw [hget,ok_bind]
    cases subconf with
    | none => rw [hitems,hnil]
    | some subconf =>
      obtain ⟨parts,hparts,rfl⟩ := hitems
      exact (nodeWhile_ok_iff hnil hput hfunc).mpr ⟨parts,hparts,rfl⟩

theorem configureServer_ok_iff {s t : ServerLists} : configureServer config s = .ok (.ok,t) ↔
    ∃ binds, Lists BindsOf config serverKey binds ∧ t = addBinds binds s := by
  have hproperty (i : ConfigNode) (s t : ServerLists) : configureProperty i s = .ok (.ok,t) ↔
      ∃ binds, BindsOf i binds ∧ t = addBinds binds s := configureProperty_ok_iff
  exact part_ok_iff addBinds_nil (by simp [addBinds]) hproperty config serverKey s t

theorem configureVservers_ok_iff {s t : ServerLists} : configureVservers initSsl config s = .ok (.ok,t) ↔
    ∃ vsrvs, Lists (VServersOf initSsl) config vserverKey vsrvs ∧ t = addVservers vsrvs s := by
  have hadd (i : ConfigNode) (s t : ServerLists) : addVserver initSsl i s = .ok (.ok,t) ↔
      ∃ vsrvs, VServersOf initSsl i vsrvs ∧ t = addVservers vsrvs s := addVserver_ok_iff
  exact part_ok_iff addVservers_nil (by simp [addVservers]) hadd config vserverKey s t

theorem listSort_eq_nil_iff {vsrvs : List VServer} : listSort vserverCmp vsrvs = [] ↔ vsrvs = [] :=
  ⟨fun h => List.perm_nil.mp (h ▸ (listSort_perm vserverCmp vsrvs).symm),
    fun h => List.perm_nil.mp (h ▸ listSort_perm vserverCmp vsrvs)⟩

/-- What a successful configuration has read. -/
theorem serverConfig_read (h : serverConfig initSsl config ⟨[],[]⟩ = .ok (.ok,srv)) :
    ∃ vsrvs, Lists BindsOf config serverKey srv.binds ∧
      Lists (VServersOf initSsl) config vserverKey vsrvs ∧ srv.binds ≠ [] ∧ vsrvs ≠ [] ∧
      srv.vservers = listSort vserverCmp vsrvs := by
  obtain ⟨⟨ret,s₁⟩,h₁,h⟩ := bind_ok_inv h
  dsimp only at h
  split_ifs at h with hret
  · cases h
    exact absurd rfl hret
  rw [not_not.mp hret] at h₁
  obtain ⟨⟨ret,s₂⟩,h₂,h⟩ := bind_ok_inv h
  dsimp only at h
  split_ifs at h with hret hpost
  · cases h
    exact absurd rfl hret
  · cases h
  rw [not_not.mp hret] at h₂
  obtain ⟨binds,hbinds,rfl⟩ := configureServer_ok_iff.mp h₁
  obtain ⟨vsrvs,hvsrvs,rfl⟩ := configureVservers_ok_iff.mp h₂
  cases h
  obtain ⟨hv,hb⟩ := postConfigChecks_ok_iff.mp (not_not.mp hpost)
  simp only [addVservers,addBinds,List.nil_append] at hv hb ⊢
  exact ⟨vsrvs,hbinds,hvsrvs,hb,fun hnil => hv (listSort_eq_nil_iff.mpr hnil),rfl⟩

/-- The configuration succeeds when every setting of the server is a bind that can be read, every
virtual server has a priority and is disabled or is read and taken by the TLS library, and there are
one of each at least. -/
theorem serverConfig_ok_iff : serverConfig initSsl config ⟨[],[]⟩ = .ok (.ok,srv) ↔
    ∃ vsrvs, Lists BindsOf config serverKey srv.binds ∧
      Lists (VServersOf initSsl) config vserverKey vsrvs ∧ srv.binds ≠ [] ∧ vsrvs ≠ [] ∧
      srv.vservers = listSort vserverCmp vsrvs := by
  refine ⟨serverConfig_read,?_⟩
  rintro ⟨vsrvs,hbinds,hvsrvs,hb,hv,hlist⟩
  have h₁ : configureServer config ⟨[],[]⟩ = .ok (.ok,addBinds srv.binds ⟨[],[]⟩) :=
    configureServer_ok_iff.mpr ⟨_,hbinds,rfl⟩
  have h₂ : configureVservers initSsl config (addBinds srv.binds ⟨[],[]⟩) =
      .ok (.ok,addVservers vsrvs (addBinds srv.binds ⟨[],[]⟩)) :=
    configureVservers_ok_iff.mpr ⟨_,hvsrvs,rfl⟩
  have hpost : srv.postConfigChecks = .ok :=
    postConfigChecks_ok_iff.mpr ⟨fun hnil => hv (listSort_eq_nil_iff.mp (hlist ▸ hnil)),hb⟩
  have hdone : ServerLists.mk (addVservers vsrvs (addBinds srv.binds ⟨[],[]⟩)).binds
      (listSort vserverCmp (addVservers vsrvs (addBinds srv.binds ⟨[],[]⟩)).vservers) = srv := by
    simp only [addVservers,addBinds,List.nil_append,← hlist]
  rw [serverConfig,h₁,ok_bind]
  simp only [ne_eq,not_true,if_false]
  rw [h₂,ok_bind]
  simp only [not_true,if_false,hdone,hpost]

theorem atoi_range {s : List Char} {n : ℤ} (h : atoi s = some n) : -2^31 ≤ n ∧ n < 2^31 := by
  rw [atoi] at h
  split at h
  · cases h
  · cases h
    exact ⟨Int.le_bmod (by decide),Int.bmod_lt (by decide)⟩

/-- A virtual server has the number of its node as priority. -/
theorem VServersOf.priority {vsrvs : List VServer} (h : VServersOf initSsl conf vsrvs) :
    ∀ vsrv ∈ vsrvs, 0 ≤ vsrv.priority ∧ vsrv.priority < 2^31 := by
  obtain ⟨key,prio,_,hprio,hpos,⟨_,rfl⟩ | ⟨_,vsrv,hconf,_,rfl⟩⟩ := h
  · simp
  · intro v hv
    rw [List.mem_singleton.mp hv,linked,(settings_ret hconf).2]
    exact ⟨hpos,(atoi_range hprio).2⟩

/-- What all items of a node have, all items of the part have. -/
theorem Lists.forall_mem {B : Type} {R : ConfigNode → List B → Prop} {P : B → Prop} {key : List UInt8}
    {items : List B} (h : Lists R config key items) (hR : ∀ i xs, R i xs → ∀ x ∈ xs, P x) :
    ∀ x ∈ items, P x := by
  obtain ⟨_,_ | subconf,_,hitems⟩ := h
  · simp [hitems]
  · obtain ⟨parts,hparts,rfl⟩ := hitems
    generalize subconf.child = nodes at hparts
    induction hparts with
    | nil => simp
    | cons hfirst _ ih =>
      intro x hx
      rcases List.mem_append.mp (List.flatten_cons ▸ hx) with hx | hx
      · exact hR _ _ hfirst x hx
      · exact ih x hx

/-- The virtual servers of the configuration are sorted, the greatest priority first, and those of one
priority keep the order of the file; no difference of priorities leaves the range of `int`. The first
answers every request. -/
theorem serverConfig_order (h : serverConfig initSsl config ⟨[],[]⟩ = .ok (.ok,srv)) :
    ∃ vsrvs, Lists (VServersOf initSsl) config vserverKey vsrvs ∧ srv.vservers.Perm vsrvs ∧
      (∀ a ∈ vsrvs, ∀ b ∈ vsrvs, -2^31 ≤ vserverCmp a b ∧ vserverCmp a b < 2^31) ∧
      srv.vservers.Pairwise (fun a b => b.priority ≤ a.priority) ∧
      (∀ a b, [a,b].Sublist vsrvs → b.priority ≤ a.priority → [a,b].Sublist srv.vservers) ∧
      ∃ vsrv ∈ vsrvs, srv.getVserver = some vsrv ∧ ∀ other ∈ vsrvs, other.priority ≤ vsrv.priority := by
  obtain ⟨vsrvs,_,hlist,_,hne,hsort⟩ := serverConfig_read h
  have hrange := Lists.forall_mem hlist fun _ _ hi => VServersOf.priority hi
  have hcmp (a b : VServer) : vserverCmp a b ≤ 0 ↔ b.priority ≤ a.priority := sub_nonpos
  have hperm : srv.vservers.Perm vsrvs := hsort ▸ listSort_perm vserverCmp vsrvs
  obtain ⟨hsorted,hkeeps⟩ := listSort_sorted (fun a b => by rw [hcmp,hcmp]; exact le_total ..)
    (fun a b c hab hbc => (hcmp a c).mpr (((hcmp b c).mp hbc).trans ((hcmp a b).mp hab))) vsrvs
  simp only [hcmp,← hsort] at hsorted hkeeps
  refine ⟨vsrvs,hlist,hperm,fun a ha b hb => ?_,hsorted,hkeeps,?_⟩
  · have hla := hrange a ha
    have hlb := hrange b hb
    rw [vserverCmp]
    omega
  · cases hv : srv.vservers with
    | nil => exact absurd (List.perm_nil.mp (hv ▸ hperm).symm) hne
    | cons first rest =>
      rw [hv] at hperm hsorted
      refine ⟨first,hperm.mem_iff.mp List.mem_cons_self,by rw [getVserver,hv]; rfl,fun other hother => ?_⟩
      rcases List.mem_cons.mp (hperm.mem_iff.mpr hother) with rfl | hrest
      · exact le_rfl
      · exact List.rel_of_pairwise_cons hsorted hrest

/-- `server!bind!1!port = 80`, `vserver!1!nick = a` and `vserver!2`. -/
def twoVservers : ConfigNode :=
  ⟨none,none,[⟨some serverKey,none,[⟨some bindKey,none,
      [⟨some [49],none,[⟨some portKey,some [56,48],[]⟩]⟩]⟩]⟩,
    ⟨some vserverKey,none,[⟨some [49],none,[⟨some nickKey,some [97],[]⟩]⟩,⟨some [50],none,[]⟩]⟩]⟩

theorem twoVservers_config : serverConfig (fun _ => true) twoVservers ⟨[],[]⟩ =
    .ok (.ok,⟨[⟨1,none,80,false,false,false⟩],
      [{VServer.new with priority := 2},{VServer.new with priority := 1}]⟩) := by
  have hserver : configureServer twoVservers ⟨[],[]⟩ =
      .ok (.ok,⟨[⟨1,none,80,false,false,false⟩],[]⟩) := by decide +kernel
  have hvservers : configureVservers (fun _ => true) twoVservers ⟨[⟨1,none,80,false,false,false⟩],[]⟩ =
      .ok (.ok,⟨[⟨1,none,80,false,false,false⟩],
        [{VServer.new with priority := 1},{VServer.new with priority := 2}]⟩) := by decide +kernel
  have hsort : listSort vserverCmp [{VServer.new with priority := 1},{VServer.new with priority := 2}] =
      [{VServer.new with priority := 2},{VServer.new with priority := 1}] := by
    simp [listSort,listSortFrom,mergePass,List.take,vserverCmp]
  rw [serverConfig,hserver,ok_bind]
  simp only [ne_eq,not_true,if_false]
  rw [hvservers,ok_bind]
  simp only [hsort]
  rfl

theorem serverConfig_order_two : ∃ vsrvs,
    Lists (VServersOf fun _ => true) twoVservers vserverKey vsrvs ∧ ∃ vsrv ∈ vsrvs,
      vsrv.priority = 2 ∧ ∀ other ∈ vsrvs, other.priority ≤ 2 := by
  obtain ⟨vsrvs,hlist,_,_,_,_,vsrv,hmem,hget,hmax⟩ := serverConfig_order twoVservers_config
  cases hget
  exact ⟨vsrvs,hlist,_,hmem,rfl,hmax⟩

end ServerLists

end Http2d
