import Http2d.ConfigNode
import Http2d.Library.IntrusiveList
import Http2d.Library.Lifetime

/-! The release of a configuration tree.
The nodes are records in memory, and the lists of children run through them. A record that was
given back keeps its contents; that it is read then shows in the log. -/
namespace Http2d
open IntrusiveList Lifetime

/-- The two list fields of the `http2d_config_node_t` at an address. -/
inductive ListPlace
  | entry (n : ℕ) | child (n : ℕ)
  deriving DecidableEq

/-- The record that a field belongs to; `CONFIG_NODE` where the field is the first one. -/
def ListPlace.node : ListPlace → ℕ
  | .entry n | .child n => n

/-- The two buffers of a node. -/
inductive NodeField
  | key | val
  deriving DecidableEq

/-- What `free` is called with: the record of a node or the block of one of its buffers. -/
inductive NodeBlock
  | node (n : ℕ) | text (f : NodeField) (n : ℕ)
  deriving DecidableEq

/-- The records of the nodes, with the log of the accesses to them and of the calls of `free`. -/
structure NodeMemory where
  links : Links ListPlace
  text : ℕ → NodeField → BufText
  log : List (Event NodeBlock Empty)

namespace NodeMemory

/-- The record of the node is read or written. -/
def use (m : NodeMemory) (n : ℕ) : NodeMemory := {m with log := m.log ++ [.use (.node n)]}

def free (m : NodeMemory) (b : NodeBlock) : NodeMemory := {m with log := m.log ++ [.release b]}

def setText (m : NodeMemory) (n : ℕ) (f : NodeField) (b : BufText) : NodeMemory :=
  {m with text := Function.update m.text n (Function.update (m.text n) f b)}

/-- `http2d_config_node_init`. -/
def init (m : NodeMemory) (conf : ℕ) : NodeMemory :=
  (({m with links := (m.links.init (.entry conf)).init (.child conf)}.setText conf .key none).setText
    conf .val none).use conf

/-- `http2d_buffer_mrproper` with a buffer of a node. -/
def bufferMrproper (m : NodeMemory) (n : ℕ) (f : NodeField) : NodeMemory :=
  match m.text n f with
  | none => m.use n
  | some _ => ((m.use n).free (.text f n)).setText n f none

/-- The loop of `http2d_config_node_mrproper`, at `i` and with `j` read ahead. -/
def freeChildren (nodeFree : NodeMemory → ℕ → Option NodeMemory) (head : ListPlace) :
    ℕ → NodeMemory → ListPlace → ListPlace → Option NodeMemory
  | 0, _, _, _ => none
  | fuel+1, m, i, j =>
    if i = head then some m
    else (nodeFree m i.node).bind fun m =>
      freeChildren nodeFree head fuel (m.use j.node) j (m.links.next j)

/-- `http2d_config_node_free`, for a node and not NULL. -/
def nodeFree (mrproper : NodeMemory → ℕ → Option NodeMemory) (m : NodeMemory) (n : ℕ) :
    Option NodeMemory := (mrproper m n).map fun m => m.free (.node n)

/-- `http2d_config_node_mrproper`; `none` when the fuel does not suffice. -/
def mrproper : ℕ → NodeMemory → ℕ → Option NodeMemory
  | 0, _, _ => none
  | fuel+1, m, conf =>
    let m := (m.bufferMrproper conf .key).bufferMrproper conf .val
    let i := m.links.next (.child conf)
    let m := (m.use conf).use i.node
    freeChildren (nodeFree (mrproper fuel)) (.child conf) fuel m i (m.links.next i)

/-- `search_child`, at the place `i`; `none` also when `strcmp` is called with NULL. -/
def searchChild (head : ListPlace) (child : BufText) :
    ℕ → NodeMemory → ListPlace → Option (Option ℕ × NodeMemory)
  | 0, _, _ => none
  | fuel+1, m, i =>
    if i = head then some (none,m)
    else
      let m := m.use i.node
      match (m.text i.node .key).cstr, child.cstr with
      | .ok a, .ok b =>
        if a = b then some (some i.node,m) else searchChild head child fuel m (m.links.next i)
      | _, _ => none

/-- The loop of `http2d_config_node_get`. -/
def getParts (fuel : ℕ) :
    List (List UInt8) → BufText → NodeMemory → ℕ → Option (Ret × Option ℕ × NodeMemory)
  | [], _, m, current => some (.ok,some current,m)
  | part::parts, tmp, m, current =>
    let tmp := tmp.add part
    let i := m.links.next (.child current)
    (searchChild (.child current) tmp fuel (m.use current) i).bind fun found =>
      match found with
      | (none,m) => some (.notFound,none,m)
      | (some child,m) => getParts fuel parts tmp.clean m child

/-- `http2d_config_node_get`. -/
def get (fuel : ℕ) (m : NodeMemory) (conf : ℕ) (key : List UInt8) :
    Option (Ret × Option ℕ × NodeMemory) := getParts fuel (ConfigNode.keyParts key) none m conf

end NodeMemory

/-- `http2d_server_read_conf`, with what `http2d_config_reader_parse` and `_http2d_server_config`
return; the tree is the one that these leave. -/
def serverReadConf (fuel : ℕ) (parsed configured : Ret) (m : NodeMemory) (config : ℕ) :
    Option (Ret × NodeMemory) :=
  if parsed ≠ .ok then some (.error,m)
  else if configured ≠ .ok then some (configured,m)
  else (m.mrproper fuel config).map fun m => (.ok,m)

/-- What `http2d_server_mrproper` does with the configuration. -/
def serverMrproper (fuel : ℕ) (m : NodeMemory) (config : ℕ) : Option NodeMemory := m.mrproper fuel config

/-- The nodes at `cs` and all below them, at the addresses `ds`, are these trees. -/
inductive Forest (m : NodeMemory) : List ℕ → List ConfigNode → List ℕ → Prop
  | nil : Forest m [] [] []
  | cons {c : ℕ} {cs kids ds es : List ℕ} {conf : ConfigNode} {confs : List ConfigNode} :
      m.text c .key = conf.key → m.text c .val = conf.val →
      Ring m.links (.child c) (kids.map .entry) → Forest m kids conf.child ds →
      Forest m cs confs es → Forest m (c::cs) (conf::confs) (c::(ds ++ es))

/-- The tree whose node at `conf` is in no list, with its descendants at `ds`; nothing is logged. -/
structure HoldsTree (m : NodeMemory) (conf : ℕ) (tree : ConfigNode) (ds : List ℕ) : Prop where
  key : m.text conf .key = tree.key
  val : m.text conf .val = tree.val
  alone : Ring m.links (.entry conf) []
  below : ∃ kids, Ring m.links (.child conf) (kids.map .entry) ∧ Forest m kids tree.child ds
  distinct : (conf::ds).Nodup
  unlogged : m.log = []

/-- Each of these nodes, and no other, was given back, once; nothing was used or freed behind that. -/
def FreedOnce (m : NodeMemory) (ds : List ℕ) : Prop :=
  Sound m.log ∧ ∀ n, m.log.count (.release (.node n)) = if n ∈ ds then 1 else 0

/-- The release of the node at `conf` is final and can be repeated. -/
structure ReleasedForGood (m : NodeMemory) (conf : ℕ) (ds : List ℕ) : Prop where
  once : FreedOnce m ds
  blank : (m.init conf).links = m.links ∧ (m.init conf).text = m.text
  lookup : ∀ key, ∃ fuel m', m.get fuel conf key = some (.notFound,none,m') ∧ FreedOnce m' ds
  again : ∃ fuel m' later, m.mrproper fuel conf = some m' ∧ FreedOnce m' ds ∧
    m'.log = m.log ++ later ∧ ∀ b, .release b ∉ later

/-- The release of the tree, by itself and as the server does it. -/
structure ReleasesTree (m : NodeMemory) (conf : ℕ) (ds : List ℕ) : Prop where
  first : ∃ fuel m', m.mrproper fuel conf = some m' ∧ ReleasedForGood m' conf ds
  server : ∀ parsed configured, ∃ fuel ret m' m'', serverReadConf fuel parsed configured m conf =
    some (ret,m') ∧ serverMrproper fuel m' conf = some m'' ∧ FreedOnce m'' ds

namespace NodeMemory

variable {m m' m'' : NodeMemory} {conf n : ℕ} {f : NodeField} {ds ts : List ℕ}

@[simp] theorem use_links : (m.use n).links = m.links := rfl
@[simp] theorem use_text : (m.use n).text = m.text := rfl
@[simp] theorem free_links (b : NodeBlock) : (m.free b).links = m.links := rfl
@[simp] theorem free_text (b : NodeBlock) : (m.free b).text = m.text := rfl

@[simp] theorem bufferMrproper_links : (m.bufferMrproper n f).links = m.links := by
  unfold bufferMrproper
  split <;> rfl

theorem bufferMrproper_text (g : NodeField) (k : ℕ) : (m.bufferMrproper n f).text k g =
    if k = n ∧ g = f then none else m.text k g := by
  unfold bufferMrproper
  split
  case h_1 hnone =>
    split_ifs with h
    · rw [h.1,h.2]
      exact hnone
    · rfl
  case h_2 =>
    by_cases hk : k = n
    · subst hk
      by_cases hg : g = f <;> simp [setText,hg]
    · simp [setText,hk]

/-- The release leaves all links as they are. -/
theorem mrproper_links {fuel : ℕ} (h : m.mrproper fuel conf = some m') : m'.links = m.links := by
  induction fuel generalizing m m' conf with
  | zero => simp [mrproper] at h
  | succ fuel ih =>
    have hloop (fuel' : ℕ) (head i j : ListPlace) (m m' : NodeMemory)
        (h : freeChildren (nodeFree (mrproper fuel)) head fuel' m i j = some m') : m'.links = m.links := by
      induction fuel' generalizing m i j with
      | zero => simp [freeChildren] at h
      | succ fuel' ih' =>
        unfold freeChildren at h
        split_ifs at h with hi
        · rw [Option.some.inj h]
        · obtain ⟨m1,h1,hrest⟩ := Option.bind_eq_some_iff.mp h
          obtain ⟨m2,h2,rfl⟩ := Option.map_eq_some_iff.mp h1
          have h3 : m2.links = m.links := ih h2
          exact (ih' _ _ _ hrest).trans h3
    have h1 := hloop _ _ _ _ _ _ h
    simpa using h1

/-- From `m` to `m'` the nodes at `ds` are given back, and of the buffers only those of `ts`. -/
structure Frees (m : NodeMemory) (ds ts : List ℕ) (m' : NodeMemory) : Prop where
  links : m'.links = m.links
  text : ∀ n ∉ ts, m'.text n = m.text n
  sound : Sound m.log → Sound m'.log
  nodes : ∀ n, .release (.node n) ∈ m'.log ↔ .release (.node n) ∈ m.log ∨ n ∈ ds
  texts : ∀ n f, .release (.text f n) ∈ m'.log → .release (.text f n) ∈ m.log ∨ n ∈ ts

/-- Neither the node nor a block that its buffers point to was given back. -/
def Live (m : NodeMemory) (n : ℕ) : Prop :=
  .release (.node n) ∉ m.log ∧ ∀ f, m.text n f ≠ none → .release (.text f n) ∉ m.log

theorem Frees.trans {es us : List ℕ} (h : Frees m ds ts m') (h' : Frees m' es us m'') :
    Frees m (ds ++ es) (ts ++ us) m'' where
  links := h'.links.trans h.links
  text n hn := by
    rw [List.mem_append,not_or] at hn
    exact (h'.text n hn.2).trans (h.text n hn.1)
  sound hs := h'.sound (h.sound hs)
  nodes n := by rw [h'.nodes,h.nodes,List.mem_append,or_assoc]
  texts n f hf := by
    rw [List.mem_append,← or_assoc]
    exact (h'.texts n f hf).imp_left (h.texts n f)

theorem Frees.live (h : Frees m ds ts m') (hl : m.Live n) (hds : n ∉ ds) (hts : n ∉ ts) : m'.Live n :=
  ⟨fun hmem => ((h.nodes n).mp hmem).elim hl.1 hds,fun f hf hmem => by
    rw [h.text n hts] at hf
    exact (h.texts n f hmem).elim (hl.2 f hf) hts⟩

theorem frees_use (hl : m.Live n) : Frees m [] [] (m.use n) where
  links := rfl
  text _ _ := rfl
  sound hs := hs.use hl.1
  nodes k := by simp [use]
  texts k f hf := by simpa [use] using hf

theorem frees_bufferMrproper (hl : m.Live n) : Frees m [] [n] (m.bufferMrproper n f) := by
  unfold bufferMrproper
  split
  · have h := frees_use hl
    refine ⟨h.links,fun _ _ => rfl,h.sound,h.nodes,fun k g hg => ?_⟩
    exact Or.inl ((h.texts k g hg).resolve_right (by simp))
  next b hb =>
    refine ⟨rfl,fun k hk => ?_,fun hs => ?_,fun k => ?_,fun k g hg => ?_⟩
    · have hk : k ≠ n := by simpa using hk
      simp [setText,hk]
    · exact (hs.use hl.1).release (by simpa [use] using hl.2 f (by simp [hb]))
    · simp [setText,use,free]
    · simp only [setText,use,free,List.mem_append,List.mem_singleton,Event.release.injEq,
        NodeBlock.text.injEq,reduceCtorEq,or_false] at hg
      exact hg.imp_right fun h => by simp [h.2]

theorem live_bufferMrproper (hl : m.Live n) (f : NodeField) : (m.bufferMrproper n f).Live n := by
  have h := frees_bufferMrproper (f:=f) hl
  refine ⟨fun hmem => ((h.nodes n).mp hmem).elim hl.1 (by simp),fun g hg => ?_⟩
  rw [bufferMrproper_text] at hg
  split_ifs at hg with hgf
  · exact absurd rfl hg
  · have hg' : g ≠ f := fun he => hgf ⟨rfl,he⟩
    have hold := hl.2 g hg
    unfold bufferMrproper
    split <;> simpa [use,free,setText,hg'] using hold

theorem frees_free (hn : .release (.node n) ∉ m.log) : Frees m [n] [] (m.free (.node n)) where
  links := rfl
  text _ _ := rfl
  sound hs := hs.release hn
  nodes k := by simp [free]
  texts k f hf := by simpa [free] using hf

theorem Frees.congr {ds' ts' : List ℕ} (h : Frees m ds ts m') (hds : ∀ n, n ∈ ds ↔ n ∈ ds')
    (hts : ∀ n, n ∈ ts ↔ n ∈ ts') : Frees m ds' ts' m' where
  links := h.links
  text n hn := h.text n fun hmem => hn ((hts n).mp hmem)
  sound := h.sound
  nodes n := by rw [h.nodes,hds]
  texts n f hf := by
    rw [← hts]
    exact h.texts n f hf

end NodeMemory

theorem Forest.subset {m : NodeMemory} {cs ds : List ℕ} {confs : List ConfigNode}
    (h : Forest m cs confs ds) : ∀ c ∈ cs, c ∈ ds := by
  induction h with
  | nil => exact fun c hc => hc
  | cons hkey hval hring hbelow hrest ih ih' =>
    intro c hc
    rcases List.mem_cons.mp hc with rfl | hc
    · exact List.mem_cons_self
    · exact List.mem_cons_of_mem _ (List.mem_append_right _ (ih' c hc))

theorem Forest.nil_iff {m : NodeMemory} {cs ds : List ℕ} {confs : List ConfigNode}
    (h : Forest m cs confs ds) : cs = [] ↔ confs = [] := by
  cases h <;> simp

theorem Forest.none_below {m : NodeMemory} {ds : List ℕ} {confs : List ConfigNode}
    (h : Forest m [] confs ds) : ds = [] := by
  cases h
  rfl

namespace NodeMemory

variable {m m' : NodeMemory} {conf : ℕ} {ds : List ℕ}

/-- The first place of a list of children belongs to the head or to a child. -/
theorem first_node {p : ListPlace} {cs : List ℕ} (h : Leads m.links.next p (cs.map .entry) (.child conf))
    (hsub : ∀ c ∈ cs, c ∈ ds) : p.node ∈ conf::ds := by
  cases cs with
  | nil =>
    obtain rfl : p = .child conf := h
    exact List.mem_cons_self
  | cons c cs =>
    obtain ⟨rfl,-⟩ := h
    exact List.mem_cons_of_mem _ (hsub c List.mem_cons_self)

section Loop
variable {kids : List ℕ} (fuel : ℕ) (hsub : ∀ c ∈ kids, c ∈ ds)
  (hring : Ring m.links (.child conf) (kids.map .entry)) (hconf : conf ∉ ds)
  (hlive : ∀ n ∈ conf::ds, m.Live n)
  (hloop : ∀ m₁ : NodeMemory, m₁.links = m.links → (∀ n ∈ conf::ds, m₁.Live n) →
    ∃ m', freeChildren (nodeFree (mrproper fuel)) (.child conf) fuel m₁ (m₁.links.next (.child conf))
      (m₁.links.next (m₁.links.next (.child conf))) = some m' ∧ Frees m₁ ds ds m')
include hsub hring hconf hlive hloop

/-- What a node's own release does, when the loop over its children does what it should. -/
theorem mrproper_frees_of_loop :
    ∃ m', m.mrproper (fuel+1) conf = some m' ∧ Frees m ds (conf::ds) m' ∧ ∀ f, m'.text conf f = none := by
  have hfirst := first_node hring.linked.leads hsub
  have hself := hlive conf (by simp)
  have hbufs := (frees_bufferMrproper (f:=.key) hself).trans
    (frees_bufferMrproper (f:=.val) (live_bufferMrproper hself .key))
  have hnone (f : NodeField) :
      ((m.bufferMrproper conf .key).bufferMrproper conf .val).text conf f = none := by
    rw [bufferMrproper_text,bufferMrproper_text]
    cases f <;> simp
  have hself₁ := live_bufferMrproper (live_bufferMrproper hself .key) .val
  have hlinks := hbufs.links
  generalize hm₁ : (m.bufferMrproper conf .key).bufferMrproper conf .val = m₁ at hbufs hnone hself₁ hlinks
  have hlive₁ (n : ℕ) (hn : n ∈ conf::ds) : m₁.Live n := by
    rcases List.mem_cons.mp hn with rfl | hn
    · exact hself₁
    · have hne : n ≠ conf := fun he => hconf (he ▸ hn)
      exact hbufs.live (hlive n (by simp [hn])) (by simp) (by simp [hne])
  have huse := frees_use hself₁
  have huse' := huse.trans (frees_use (huse.live (hlive₁ _ hfirst) (by simp) (by simp)))
  obtain ⟨m',hrun,hfrees⟩ := hloop ((m₁.use conf).use (m.links.next (.child conf)).node) (by simp [hlinks])
    fun n hn => huse'.live (hlive₁ n hn) (by simp) (by simp)
  refine ⟨m',?_,?_,fun f => ?_⟩
  · simp only [use_links,hlinks] at hrun
    simpa only [mrproper,hm₁,use_links,hlinks] using hrun
  · exact (hbufs.trans (huse'.trans hfrees)).congr (by simp) (by simp)
  · rw [hfrees.text conf hconf]
    exact hnone f

/-- A child is given back behind everything below it. -/
theorem nodeFree_frees_of_loop :
    ∃ m', nodeFree (mrproper (fuel+1)) m conf = some m' ∧ Frees m (conf::ds) (conf::ds) m' := by
  obtain ⟨m',hrun,hfrees,-⟩ := mrproper_frees_of_loop fuel hsub hring hconf hlive hloop
  have hlast : .release (.node conf) ∉ m'.log := fun hmem =>
    ((hfrees.nodes conf).mp hmem).elim (hlive conf (by simp)).1 hconf
  refine ⟨m'.free (.node conf),by rw [nodeFree,hrun,Option.map_some],?_⟩
  exact (hfrees.trans (frees_free hlast)).congr (by simp [or_comm]) (by simp)

end Loop

/-- The loop over a list of children gives each node below it back. -/
theorem freeChildren_frees {m₀ : NodeMemory} {cs : List ℕ} {confs : List ConfigNode}
    (hf : Forest m₀ cs confs ds) {head inner fuel : ℕ} (hinner : ds.length < inner)
    (hfuel : ds.length < fuel) (hnd : (head::ds).Nodup) (hm : m.links = m₀.links)
    (hlive : ∀ n ∈ head::ds, m.Live n) {i : ListPlace}
    (hi : Leads m.links.next i (cs.map .entry) (.child head)) :
    ∃ m', freeChildren (nodeFree (mrproper inner)) (.child head) fuel m i (m.links.next i) = some m' ∧
      Frees m ds ds m' := by
  induction hf generalizing m head inner fuel i with
  | nil =>
    obtain ⟨fuel,rfl⟩ : ∃ k, fuel = k+1 := ⟨fuel-1,by omega⟩
    have hi : i = .child head := hi
    exact ⟨m,by rw [freeChildren,if_pos hi],⟨rfl,fun _ _ => rfl,id,by simp,fun _ _ h => Or.inl h⟩⟩
  | @cons c cs kids ds es conf confs hkey hval hring hbelow hrest ih ih' =>
    obtain ⟨fuel,rfl⟩ : ∃ k, fuel = k+1 := ⟨fuel-1,by omega⟩
    obtain ⟨inner,rfl⟩ : ∃ k, inner = k+1 := ⟨inner-1,by omega⟩
    simp only [List.length_cons,List.length_append] at hinner hfuel
    obtain ⟨rfl,hi⟩ := hi
    -- the addresses of the child, those below it and those of the others are apart
    have hsplit : (c::ds).Nodup ∧ (head::es).Nodup ∧ (c::ds).Disjoint (head::es) := by
      have hperm : ((c::ds) ++ head::es).Perm (head::((c::ds) ++ es)) := List.perm_middle
      exact List.nodup_append'.mp (hperm.nodup_iff.mpr hnd)
    obtain ⟨hcnd,hesnd,hdis⟩ := hsplit
    have hcds := (List.nodup_cons.mp hcnd).1
    have hin (n : ℕ) (hn : n ∈ c::ds) : m.Live n := hlive n (by simp at hn ⊢; tauto)
    -- the child with everything below it
    have hring' : Ring m.links (.child c) (kids.map .entry) := hm ▸ hring
    obtain ⟨m₂,hrun₂,hchild⟩ := nodeFree_frees_of_loop inner hbelow.subset hring' hcds hin
      fun m₁ hlinks hlive₁ => ih (by omega) (by omega) hcnd (hlinks.trans hm) hlive₁
        (hlinks ▸ hring'.linked.leads)
    have hlive₂ (n : ℕ) (hn : n ∈ head::es) : m₂.Live n := by
      have hout : n ∉ c::ds := fun h => hdis h hn
      exact hchild.live (hlive n (by simp at hn ⊢; tauto)) (by simp at hout ⊢; tauto) (by simpa using hout)
    -- the next place was read before the child was given back, and is not part of it
    have hnext := first_node hi hrest.subset
    have huse := frees_use (hlive₂ _ hnext)
    have hi' : Leads m₂.links.next (m.links.next (.entry c)) (cs.map .entry) (.child head) := by
      rw [hchild.links]
      exact hi
    obtain ⟨m',hrun',hfrees'⟩ := ih' (by omega : es.length < inner+1) (by omega : es.length < fuel) hesnd
      ((huse.links.trans hchild.links).trans hm) (fun n hn => huse.live (hlive₂ n hn) (by simp) (by simp)) hi'
    refine ⟨m',?_,?_⟩
    · rw [freeChildren,if_neg (by simp),show (ListPlace.entry c).node = c from rfl,hrun₂]
      exact hrun'
    · exact ((hchild.trans huse).trans hfrees').congr (by simp) (by simp)

end NodeMemory

section Results
open NodeMemory

variable {m : NodeMemory} {conf : ℕ} {tree : ConfigNode} {ds : List ℕ}

theorem FreedOnce.of_frees {m' : NodeMemory} {ts : List ℕ} (hlog : m.log = []) (h : Frees m ds ts m') :
    FreedOnce m' ds := by
  have hsound : Sound m'.log := h.sound (hlog ▸ sound_nil)
  refine ⟨hsound,fun n => ?_⟩
  have hmem : .release (.node n) ∈ m'.log ↔ n ∈ ds := by rw [h.nodes,hlog]; simp
  split_ifs with hn
  · exact le_antisymm (hsound.count_release_le _) (List.count_pos_iff.mpr (hmem.mpr hn))
  · exact List.count_eq_zero_of_not_mem fun h => hn (hmem.mp h)

/-- The first release gives every descendant back once, whatever the shape of the tree. -/
theorem HoldsTree.mrproper_frees (h : HoldsTree m conf tree ds) :
    ∃ m', m.mrproper (ds.length+2) conf = some m' ∧ Frees m ds (conf::ds) m' ∧
      ∀ f, m'.text conf f = none := by
  obtain ⟨kids,hring,hbelow⟩ := h.below
  have hlive (n : ℕ) (hn : n ∈ conf::ds) : m.Live n := by simp [Live,h.unlogged]
  exact mrproper_frees_of_loop (ds.length+1) hbelow.subset hring
    (List.nodup_cons.mp h.distinct).1 hlive fun m₁ hlinks hlive₁ => freeChildren_frees hbelow (by omega)
      (by omega) h.distinct hlinks hlive₁ (hlinks ▸ hring.linked.leads)

theorem FreedOnce.use (h : FreedOnce m ds) {n : ℕ} (hn : n ∉ ds) : FreedOnce (m.use n) ds := by
  have hcount := h.2 n
  rw [if_neg hn] at hcount
  refine ⟨h.1.use (List.count_eq_zero.mp hcount),fun k => ?_⟩
  have hadd : (m.use n).log.count (.release (.node k)) = m.log.count (.release (.node k)) := by
    simp [NodeMemory.use]
  rw [hadd,h.2]

/-- A node that is as after its initialisation is found to have nothing that could be freed. -/
theorem mrproper_blank (hchild : m.links.next (.child conf) = .child conf) (htext : ∀ f, m.text conf f = none)
    (fuel : ℕ) :
    m.mrproper (fuel+2) conf = some ((((m.use conf).use conf).use conf).use conf) := by
  simp [mrproper,bufferMrproper,freeChildren,hchild,htext,ListPlace.node]

theorem get_blank (hchild : m.links.next (.child conf) = .child conf) (key : List UInt8) (fuel : ℕ) :
    m.get (fuel+1) conf key = some (.notFound,none,m.use conf) := by
  obtain ⟨part,parts,hparts⟩ : ∃ part parts, ConfigNode.keyParts key = part::parts :=
    List.exists_cons_of_ne_nil (List.splitOn_ne_nil 33 (cString key))
  simp [NodeMemory.get,hparts,getParts,searchChild,hchild]

/-- The state behind the release of a node that has no children. -/
theorem releasedForGood_of_blank (hchild : Ring m.links (.child conf) [])
    (halone : Ring m.links (.entry conf) []) (htext : ∀ f, m.text conf f = none)
    (honce : FreedOnce m ds) (hconf : conf ∉ ds) : ReleasedForGood m conf ds where
  once := honce
  blank := by
    constructor
    · simp only [NodeMemory.init,use_links,setText,halone.init_eq,hchild.init_eq]
    · funext n f
      by_cases hnc : n = conf
      · subst hnc
        cases f <;> simp [NodeMemory.init,setText,htext]
      · simp [NodeMemory.init,setText,hnc]
  lookup key := ⟨1,_,get_blank hchild.linked.1 key 0,honce.use hconf⟩
  again := by
    refine ⟨2,_,[.use (.node conf),.use (.node conf),.use (.node conf),.use (.node conf)],
      mrproper_blank hchild.linked.1 htext 0,?_,?_,?_⟩
    · exact (((honce.use hconf).use hconf).use hconf).use hconf
    · simp [NodeMemory.use]
    · simp

/-- The release is final exactly of a node without children: the list of the children is not emptied. -/
theorem releasesTree_iff (h : HoldsTree m conf tree ds) : ReleasesTree m conf ds ↔ tree.child = [] := by
  obtain ⟨kids,hring,hbelow⟩ := h.below
  constructor
  · intro hr
    obtain ⟨fuel,m',hrun,hgood⟩ := hr.first
    have hself : m'.links.next (.child conf) = .child conf := by
      rw [← hgood.blank.1]
      simp [NodeMemory.init,setText,NodeMemory.use,Links.init,Links.setNext]
    rw [mrproper_links hrun] at hself
    have hkids : kids = [] := by
      by_contra hne
      exact hring.next_ne (by simpa using hne) hself
    exact hbelow.nil_iff.mp hkids
  · intro hnil
    obtain rfl : kids = [] := hbelow.nil_iff.mpr hnil
    obtain rfl := hbelow.none_below
    obtain ⟨m',hrun,hfrees,htext⟩ := h.mrproper_frees
    have hrun : m.mrproper 2 conf = some m' := hrun
    have honce := FreedOnce.of_frees h.unlogged hfrees
    have hgood : ReleasedForGood m' conf [] :=
      releasedForGood_of_blank (hfrees.links ▸ hring) (hfrees.links ▸ h.alone) htext honce (by simp)
    refine ⟨⟨2,m',hrun,hgood⟩,fun parsed configured => ?_⟩
    by_cases hp : parsed = .ok
    · by_cases hc : configured = .ok
      · have hblank := mrproper_blank (hfrees.links ▸ hring).linked.1 htext 0
        exact ⟨2,.ok,m',_,by simp [serverReadConf,hp,hc,hrun],hblank,
          (((honce.use (by simp)).use (by simp)).use (by simp)).use (by simp)⟩
      · exact ⟨2,configured,m,m',by simp [serverReadConf,hp,hc],hrun,honce⟩
    · exact ⟨2,.error,m,m',by simp [serverReadConf,hp],hrun,honce⟩

/-- A configuration with the one entry `a = b`. -/
def oneEntry : ConfigNode := ⟨none,none,[⟨some [97],some [98],[]⟩]⟩

/-- Its nodes, the root at 0 and the entry at 1. -/
def oneEntryMemory : NodeMemory where
  links := (⟨id,id⟩ : Links ListPlace).addTail (.entry 1) (.child 0)
  text n f := if n = 1 then (match f with | .key => some [97] | .val => some [98]) else none
  log := []

theorem oneEntry_forest : Forest oneEntryMemory [1] oneEntry.child [1] := by
  have hring : Ring oneEntryMemory.links (.child 1) (([] : List ℕ).map .entry) := ⟨by simp,rfl,rfl⟩
  have hkids : Forest oneEntryMemory [] (⟨some [97],some [98],[]⟩ : ConfigNode).child [] := .nil
  exact .cons rfl rfl hring hkids .nil

theorem oneEntry_holds : HoldsTree oneEntryMemory 0 oneEntry [1] where
  key := rfl
  val := rfl
  alone := ⟨by simp,rfl,rfl⟩
  below := ⟨[1],⟨by decide,rfl,rfl,rfl,rfl⟩,oneEntry_forest⟩
  distinct := by decide
  unlogged := rfl

theorem releasesTree_oneEntry : ReleasesTree oneEntryMemory 0 [1] ↔ oneEntry.child = [] :=
  releasesTree_iff oneEntry_holds

/-- The entry is read and given back again by `http2d_server_mrproper`. -/
theorem not_releasesTree_oneEntry : HoldsTree oneEntryMemory 0 oneEntry [1] ∧
    ¬ ReleasesTree oneEntryMemory 0 [1] ∧
    ∃ m' m'', serverReadConf 4 .ok .ok oneEntryMemory 0 = some (.ok,m') ∧
      serverMrproper 4 m' 0 = some m'' ∧ m''.log.count (.release (.node 1)) = 2 := by
  refine ⟨oneEntry_holds,fun hr => ?_,_,_,rfl,rfl,by decide⟩
  obtain ⟨fuel,m',hrun,hgood⟩ := hr.first
  have hself : m'.links.next (.child 0) = .child 0 := by
    rw [← hgood.blank.1]
    simp [NodeMemory.init,setText,NodeMemory.use,Links.init,Links.setNext]
  rw [mrproper_links hrun] at hself
  exact absurd hself (by decide)

end Results

end Http2d
