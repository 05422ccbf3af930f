import Http2d.ConfigNode

/-! The configuration tree as a map from paths, for keys with any parts.
A part may be empty. Its node has a key without a block, and a search that comes to such a node, or
looks for such a key, compares a missing string. A tree in which all keys have blocks is one whose
paths have no empty parts. -/
namespace Http2d

namespace ConfigNode

/-- The key of the child that is made for a part. -/
def keyOf (part : List UInt8) : BufText := BufText.add none part

/-- The node at the end of a path, with nodes of empty parts on the way. -/
def follow : ConfigNode → List (List UInt8) → Option ConfigNode
  | n, [] => some n
  | n, k::ks => (n.child.find? fun c => c.key = keyOf k).bind fun c => follow c ks

/-- The value at the end of a path. -/
def mapAt (n : ConfigNode) (path : List (List UInt8)) : Option (List UInt8) :=
  (n.follow path).map fun c => c.val.bytes

/-- The children have keys; only the last one may be without. -/
inductive TidyKeys : List ConfigNode → Prop
  | nil : TidyKeys []
  | last {c : ConfigNode} : c.key = none → TidyKeys [c]
  | cons {c : ConfigNode} {rest : List ConfigNode} : HasKey c → TidyKeys rest → TidyKeys (c::rest)

/-- What adding keys makes: below the node the keys are tidy, and no two siblings have the same. -/
inductive Tidy : ConfigNode → Prop
  | mk {n : ConfigNode} : TidyKeys n.child → (n.child.map key).Nodup → (∀ c ∈ n.child, Tidy c) → Tidy n

theorem init_tidy : init.Tidy := ⟨.nil,List.nodup_nil,fun _ hc => absurd hc List.not_mem_nil⟩

theorem newChild_tidy (key : BufText) : (newChild key).Tidy :=
  ⟨.nil,List.nodup_nil,fun _ hc => absurd hc List.not_mem_nil⟩

section Keys
variable {j k : List UInt8}

@[simp] theorem keyOf_nil : keyOf [] = none := rfl

theorem keyOf_of_ne_nil (h : k ≠ []) : keyOf k = some k := BufText.add_of_ne_nil rfl h

theorem keyOf_bytes (k : List UInt8) : (keyOf k).bytes = k := by
  rw [keyOf,BufText.bytes_add]
  rfl

theorem keyOf_inj (h : keyOf j = keyOf k) : j = k := by
  rw [← keyOf_bytes j,h,keyOf_bytes]

/-- The buffer of a part before its search: it has a block once a part was not empty. -/
theorem add_part {tmp : BufText} (htmp : tmp.bytes = []) (k : List UInt8) :
    tmp.add k = some k ∨ tmp = none ∧ k = [] ∧ tmp.add k = none := by
  by_cases hk : k = []
  · cases tmp with
    | none => exact Or.inr ⟨rfl,hk,by rw [hk]; rfl⟩
    | some t =>
      have ht : t = [] := htmp
      exact Or.inl (by rw [hk,ht]; rfl)
  · exact Or.inl (BufText.add_of_ne_nil htmp hk)

end Keys

section Maps
variable {n c c' : ConfigNode} {front back : List ConfigNode} {k : List UInt8}

@[simp] theorem mapAt_nil (n : ConfigNode) : n.mapAt [] = some n.val.bytes := rfl

theorem mapAt_place (hc : c.key = keyOf k) (hfront : ∀ x ∈ front, x.key ≠ keyOf k)
    (ks : List (List UInt8)) : mapAt {n with child := front ++ c::back} (k::ks) = c.mapAt ks := by
  simp only [mapAt,follow,find?_place hc hfront,Option.bind_some]

theorem with_child {l : List ConfigNode} (h : n.child = l) : {n with child := l} = n := by
  subst h
  cases n
  rfl

/-- Behind a key is what is behind its child. -/
theorem mapAt_found (hl : n.child = front ++ c::back) (hc : c.key = keyOf k)
    (hfront : ∀ x ∈ front, x.key ≠ keyOf k) (ks : List (List UInt8)) : n.mapAt (k::ks) = c.mapAt ks := by
  rw [← mapAt_place (n:=n) hc hfront ks,with_child hl]

theorem mapAt_absent (h : ∀ c ∈ n.child, c.key ≠ keyOf k) (ks : List (List UInt8)) :
    n.mapAt (k::ks) = none := by
  simp only [mapAt,follow,find?_none h,Option.bind_none,Option.map_none]

theorem mapAt_single_ne (hmem : c ∈ n.child) (hc : c.key = keyOf k) : n.mapAt [k] ≠ none := by
  have hsome : (n.child.find? fun c => c.key = keyOf k).isSome := by
    rw [List.find?_isSome]
    exact ⟨c,hmem,by simpa using hc⟩
  obtain ⟨x,hx⟩ := Option.isSome_iff_exists.mp hsome
  rw [mapAt,follow,hx]
  exact fun h => by cases h

/-- What stands beside a child does not depend on it. -/
theorem mapAt_beside (hc : c.key = keyOf k) (hc' : c'.key = keyOf k) {j : List UInt8} (hj : j ≠ k)
    (ks : List (List UInt8)) : mapAt {n with child := front ++ c'::back} (j::ks) =
      mapAt {n with child := front ++ c::back} (j::ks) := by
  have hk : ¬ keyOf k = keyOf j := fun h => hj (keyOf_inj h).symm
  simp only [mapAt,follow,List.find?_append]
  rw [List.find?_cons_of_neg (by rw [hc']; simpa using hk),
    List.find?_cons_of_neg (by rw [hc]; simpa using hk)]

theorem mapAt_behind (hc : c.key = keyOf k) {j : List UInt8} (hj : j ≠ k) (ks : List (List UInt8)) :
    mapAt {n with child := n.child ++ [c]} (j::ks) = n.mapAt (j::ks) := by
  have hk : ¬ keyOf k = keyOf j := fun h => hj (keyOf_inj h).symm
  simp only [mapAt,follow,List.find?_append]
  rw [List.find?_cons_of_neg (by rw [hc]; simpa using hk),List.find?_nil,Option.or_none]

theorem TidyKeys.replace (h : TidyKeys (front ++ c::back)) (hkey : c'.key = c.key) :
    TidyKeys (front ++ c'::back) := by
  induction front with
  | nil =>
    cases h with
    | last hnone => exact .last (hkey.trans hnone)
    | cons hhas hrest => exact .cons (by simpa [HasKey,hkey] using hhas) hrest
  | cons x front ih =>
    cases hf : front ++ c::back with
    | nil => simp at hf
    | cons y rest =>
      rw [List.cons_append,hf] at h
      cases h with
      | cons hhas hrest => exact .cons hhas (ih (hf ▸ hrest))

theorem TidyKeys.concat {l : List ConfigNode} (h : ∀ c ∈ l, HasKey c) (hc : c.key = none ∨ HasKey c) :
    TidyKeys (l ++ [c]) := by
  induction l with
  | nil => exact hc.elim .last fun hhas => .cons hhas .nil
  | cons x l ih =>
    obtain ⟨hx,hl⟩ := List.forall_mem_cons.mp h
    exact .cons hx (ih hl)

theorem Tidy.replace (h : Tidy {n with child := front ++ c::back}) (hkey : c'.key = c.key)
    (hc' : c'.Tidy) : Tidy {n with child := front ++ c'::back} := by
  obtain ⟨hkeys,hnodup,htidy⟩ := h
  simp only [List.forall_mem_append,List.forall_mem_cons] at htidy
  refine ⟨hkeys.replace hkey,by simpa [hkey] using hnodup,?_⟩
  simp only [List.forall_mem_append,List.forall_mem_cons]
  exact ⟨htidy.1,hc',htidy.2.2⟩

theorem Tidy.concat (h : n.Tidy) (hkeys : ∀ c ∈ n.child, HasKey c ∧ c.key ≠ keyOf k) (hk : 0 ∉ k)
    (hc : c.key = keyOf k) (htidy : c.Tidy) : Tidy {n with child := n.child ++ [c]} := by
  obtain ⟨-,hnodup,hall⟩ := h
  refine ⟨.concat (fun x hx => (hkeys x hx).1) ?_,?_,?_⟩
  · by_cases hnil : k = []
    · exact Or.inl (by rw [hc,hnil]; rfl)
    · exact Or.inr ⟨k,hc.trans (keyOf_of_ne_nil hnil),hnil,hk⟩
  · simp only [List.map_append,List.map_cons,List.map_nil]
    refine List.nodup_append.mpr ⟨hnodup,List.nodup_singleton _,fun a ha b hb => ?_⟩
    rw [List.mem_singleton.mp hb,hc]
    obtain ⟨x,hx,rfl⟩ := List.mem_map.mp ha
    exact (hkeys x hx).2
  · simp only [List.forall_mem_append,List.forall_mem_singleton]
    exact ⟨hall,htidy⟩

end Maps

/-- The steps of a path through a map: behind a part that was followed by an empty one there is no
search but for the parts that are there. -/
def Steps (values : List (List UInt8) → Option (List UInt8)) (p : List (List UInt8)) : Prop :=
  ∀ i < p.length, values (p.take i ++ [[]]) ≠ none → p[i]? ≠ some [] ∧ values (p.take (i+1)) ≠ none

/-- A path can be walked in the tree. A buffer without a block looks for nothing but in an empty
list. -/
def Ready (tmp : BufText) (n : ConfigNode) (p : List (List UInt8)) : Prop :=
  (tmp = none → p.head? = some [] → n.child = []) ∧ Steps n.mapAt p

theorem steps_cons {values : List (List UInt8) → Option (List UInt8)} {k : List UInt8}
    {ks : List (List UInt8)} : Steps values (k::ks) ↔
      (values [[]] ≠ none → k ≠ [] ∧ values [k] ≠ none) ∧ Steps (fun q => values (k::q)) ks := by
  constructor
  · intro h
    refine ⟨fun h0 => ?_,fun i hi => ?_⟩
    · simpa using h 0 (Nat.succ_pos _) h0
    · simpa using h (i+1) (Nat.succ_lt_succ hi)
  · rintro ⟨h0,hs⟩ i hi
    cases i with
    | zero => simpa using h0
    | succ i => simpa using hs i (Nat.succ_lt_succ_iff.mp hi)

section Walking
variable {n : ConfigNode} {tmp : BufText} {k : List UInt8}

/-- What a search ends with in tidy children. -/
theorem searchChild_tidy {l : List ConfigNode} (hk : 0 ∉ k) (hl : TidyKeys l) :
    (∃ front c back, searchChild (some k) l = .ok (some (front,c,back)) ∧ l = front ++ c::back ∧
      c.key = some k ∧ k ≠ [] ∧ ∀ x ∈ front, x.key ≠ some k) ∨
    (searchChild (some k) l = .ok none ∧ ∀ c ∈ l, HasKey c ∧ c.key ≠ some k) ∨
    (searchChild (some k) l = .error .fault ∧ (∃ c ∈ l, c.key = none) ∧ ∀ c ∈ l, c.key ≠ some k) := by
  induction hl with
  | nil => exact Or.inr (Or.inl ⟨rfl,by simp⟩)
  | last hnone =>
    refine Or.inr (Or.inr ⟨by rw [searchChild,hnone]; rfl,⟨_,by simp,hnone⟩,?_⟩)
    rw [List.forall_mem_singleton,hnone]
    exact fun h => by cases h
  | @cons entry rest hentry hrest ih =>
    obtain ⟨a,ha,hane,hnul⟩ := hentry
    have hstep : searchChild (some k) (entry::rest) =
        if a = k then .ok (some ([],entry,rest))
        else searchChild (some k) rest >>= fun found =>
          .ok (found.map fun place => (entry::place.1,place.2)) := by
      rw [searchChild,ha,BufText.cstr_some hnul,BufText.cstr_some hk]
      rfl
    rw [hstep]
    by_cases hak : a = k
    · rw [if_pos hak]
      exact Or.inl ⟨[],entry,rest,rfl,rfl,by rw [ha,hak],hak ▸ hane,by simp⟩
    · have hne : entry.key ≠ some k := by
        rw [ha]
        exact fun h => hak (Option.some.inj h)
      rw [if_neg hak]
      rcases ih with ⟨front,c,back,hs,rfl,hc,hkne,hfront⟩ | ⟨hs,hall⟩ | ⟨hs,hnone,hall⟩
      · rw [hs]
        exact Or.inl ⟨entry::front,c,back,rfl,rfl,hc,hkne,List.forall_mem_cons.mpr ⟨hne,hfront⟩⟩
      · rw [hs]
        exact Or.inr (Or.inl ⟨rfl,List.forall_mem_cons.mpr ⟨⟨⟨a,ha,hane,hnul⟩,hne⟩,hall⟩⟩)
      · rw [hs]
        obtain ⟨c,hc,hcn⟩ := hnone
        exact Or.inr (Or.inr ⟨rfl,⟨c,List.mem_cons_of_mem _ hc,hcn⟩,List.forall_mem_cons.mpr ⟨hne,hall⟩⟩)

/-- Where no child has the key, there is nothing behind it. -/
theorem steps_free (hnone : ∀ c ∈ n.child, HasKey c ∧ c.key ≠ keyOf k) (ks : List (List UInt8)) :
    Steps n.mapAt (k::ks) := by
  rw [steps_cons]
  refine ⟨fun h0 => absurd (mapAt_absent (k:=[]) (fun c hc => ?_) []) h0,fun i _ h0 => ?_⟩
  · obtain ⟨a,ha,-⟩ := (hnone c hc).1
    rw [ha]
    exact fun h => by cases h
  · exact absurd (mapAt_absent (fun c hc => (hnone c hc).2) _) h0

/-- The search for a part: it finds the child, or there is none and the way is free, or it compares a
missing string. -/
theorem searchChild_ready (hn : n.Tidy) (hk : 0 ∉ k) (htmp : tmp.bytes = []) (ks : List (List UInt8)) :
    (∃ front c back, searchChild (tmp.add k) n.child = .ok (some (front,c,back)) ∧
      n.child = front ++ c::back ∧ c.key = keyOf k ∧ (∀ x ∈ front, x.key ≠ keyOf k) ∧
      (tmp.add k).clean = some [] ∧ (Ready tmp n (k::ks) ↔ Ready (some []) c ks)) ∨
    (searchChild (tmp.add k) n.child = .ok none ∧ (∀ c ∈ n.child, HasKey c ∧ c.key ≠ keyOf k) ∧
      Ready tmp n (k::ks)) ∨
    (searchChild (tmp.add k) n.child = .error .fault ∧ ¬ Ready tmp n (k::ks)) := by
  obtain ⟨hkeys,-,-⟩ := hn
  rcases add_part htmp k with hadd | ⟨htn,hknil,hadd⟩
  · rw [hadd]
    rcases searchChild_tidy hk hkeys with ⟨front,c,back,hs,hl,hc,hne,hfront⟩ | ⟨hs,hall⟩ | ⟨hs,hnone,hall⟩
    · have hkey := keyOf_of_ne_nil hne
      rw [← hkey] at hc hfront
      have hmap := mapAt_found hl hc hfront
      refine Or.inl ⟨front,c,back,hs,hl,hc,hfront,rfl,?_⟩
      rw [Ready,steps_cons]
      simp only [hmap]
      constructor
      · rintro ⟨-,-,hsteps⟩
        exact ⟨fun h => (by cases h),hsteps⟩
      · rintro ⟨-,hsteps⟩
        exact ⟨fun _ h => absurd (Option.some.inj h) hne,fun _ => ⟨hne,by simp⟩,hsteps⟩
    · have hnone (c : ConfigNode) (hc : c ∈ n.child) : HasKey c ∧ c.key ≠ keyOf k := by
        obtain ⟨hhas,hne⟩ := hall c hc
        refine ⟨hhas,?_⟩
        by_cases hknil : k = []
        · obtain ⟨a,ha,-⟩ := hhas
          rw [ha,hknil]
          exact fun h => by cases h
        · rwa [keyOf_of_ne_nil hknil]
      refine Or.inr (Or.inl ⟨hs,hnone,fun htn h => ?_,steps_free hnone ks⟩)
      rw [htn,Option.some.inj h] at hadd
      cases hadd
    · refine Or.inr (Or.inr ⟨hs,fun hready => ?_⟩)
      obtain ⟨c,hc,hcn⟩ := hnone
      obtain ⟨hkne,hthere⟩ := (steps_cons.mp hready.2).1 (mapAt_single_ne hc hcn)
      exact hthere (mapAt_absent (fun c hc => by rw [keyOf_of_ne_nil hkne]; exact hall c hc) [])
  · rw [hadd]
    cases hl : n.child with
    | nil =>
      have hnone : ∀ c ∈ n.child, HasKey c ∧ c.key ≠ keyOf k := by simp [hl]
      exact Or.inr (Or.inl ⟨rfl,by simp,fun _ _ => hl,steps_free hnone ks⟩)
    | cons entry rest =>
      refine Or.inr (Or.inr ⟨?_,fun hready => ?_⟩)
      · rw [searchChild]
        cases entry.key <;> rfl
      · have hnil := hready.1 htn (by rw [hknil]; rfl)
        rw [hl] at hnil
        cases hnil

theorem putAt_cons {values : List (List UInt8) → Option (List UInt8)} {ks js : List (List UInt8)}
    {j v : List UInt8} : putAt values (k::ks) v (j::js) =
      if j = k then putAt (fun q => values (k::q)) ks v js else values (j::js) := by
  by_cases hj : j = k
  · subst hj
    simp [putAt,List.cons_prefix_cons]
  · simp [putAt,hj]

/-- A new node is like none, for what is put below it. -/
theorem putAt_new {values values' : List (List UInt8) → Option (List UInt8)}
    (h : ∀ q ≠ [], values q = values' q) (h0 : (values []).getD [] = (values' []).getD [])
    (ks : List (List UInt8)) (v : List UInt8) (q : List (List UInt8)) :
    putAt values ks v q = putAt values' ks v q := by
  by_cases hq : q = []
  · rw [putAt,putAt,hq,h0]
    simp
  · rw [putAt,putAt,h q hq]

/-- A node whose child at the part was changed as below it. -/
theorem mapAt_put {c c' : ConfigNode} {front back : List ConfigNode} {ks : List (List UInt8)}
    {v : List UInt8} (hc : c.key = keyOf k) (hc' : c'.key = keyOf k)
    (hfront : ∀ x ∈ front, x.key ≠ keyOf k)
    (hbelow : ∀ q, c'.mapAt q = putAt (fun q => n.mapAt (k::q)) ks v q)
    (hbeside : ∀ j ≠ k, ∀ js, mapAt {n with child := front ++ c::back} (j::js) = n.mapAt (j::js))
    (q : List (List UInt8)) :
    mapAt {n with child := front ++ c'::back} q = putAt n.mapAt (k::ks) v q := by
  cases q with
  | nil => simp [putAt]
  | cons j js =>
    rw [putAt_cons]
    by_cases hj : j = k
    · rw [if_pos hj,hj,mapAt_place hc' hfront,hbelow]
    · rw [if_neg hj,mapAt_beside hc hc' hj,hbeside j hj]

/-- The node after a value was put at a path behind it. -/
structure Added (n n' : ConfigNode) (p : List (List UInt8)) (v : List UInt8) : Prop where
  tidy : n'.Tidy
  key_eq : n'.key = n.key
  mapAt_eq : ∀ q, n'.mapAt q = putAt n.mapAt p v q

/-- What adding to a tidy tree does: the value is put at the path when the path can be walked, and a
missing string is compared when not. -/
def Adds (tmp : BufText) (n : ConfigNode) (p : List (List UInt8)) (v : List UInt8)
    (result : Exec ConfigNode) : Prop :=
  (Ready tmp n p ∧ ∃ n', result = .ok n' ∧ Added n n' p v) ∨ (¬ Ready tmp n p ∧ result = .error .fault)

/-- A path without parts can be walked. -/
theorem ready_nil (tmp : BufText) (n : ConfigNode) : Ready tmp n [] :=
  ⟨fun _ h => (by cases h),fun i hi => absurd hi (Nat.not_lt_zero i)⟩

theorem newChild_mapAt (key : BufText) {q : List (List UInt8)} (hq : q ≠ []) :
    (newChild key).mapAt q = none := by
  obtain ⟨j,js,rfl⟩ := List.exists_cons_of_ne_nil hq
  exact mapAt_absent (fun c hc => absurd hc List.not_mem_nil) js

/-- The value is put in the child that is found. -/
theorem Added.place {n c c' : ConfigNode} {front back : List ConfigNode} {ks : List (List UInt8)}
    {v : List UInt8} (h : Added c c' ks v) (hn : n.Tidy) (hl : n.child = front ++ c::back) (hkey : c.key = keyOf k)
    (hfront : ∀ x ∈ front, x.key ≠ keyOf k) : Added n {n with child := front ++ c'::back} (k::ks) v := by
  have heq := with_child hl
  refine ⟨(heq.symm ▸ hn).replace h.key_eq h.tidy,rfl,?_⟩
  refine mapAt_put hkey (h.key_eq.trans hkey) hfront (fun q => ?_)
    fun j _ js => congrArg (mapAt · (j::js)) heq
  rw [h.mapAt_eq,funext fun q => mapAt_found hl hkey hfront q]

/-- The value is put in a new child. -/
theorem Added.concat {n c' : ConfigNode} {key : BufText} {ks : List (List UInt8)} {v : List UInt8}
    (h : Added (newChild key) c' ks v) (hn : n.Tidy) (hk : 0 ∉ k) (hkey : (newChild key).key = keyOf k)
    (hnone : ∀ c ∈ n.child, HasKey c ∧ c.key ≠ keyOf k) :
    Added n {n with child := n.child ++ [c']} (k::ks) v := by
  have habsent (q : List (List UInt8)) := mapAt_absent (fun c hc => (hnone c hc).2) q
  refine ⟨hn.concat hnone hk (h.key_eq.trans hkey) h.tidy,rfl,?_⟩
  refine mapAt_put hkey (h.key_eq.trans hkey) (fun x hx => (hnone x hx).2) (fun q => ?_)
    fun j hj js => mapAt_behind hkey hj js
  rw [h.mapAt_eq]
  refine putAt_new (fun q hq => (newChild_mapAt key hq).trans (habsent q).symm) ?_ ks v q
  rw [habsent]
  rfl

/-- One part: the child is searched for, and the rest is added to it. -/
theorem addParts_step (val : BufText) {part : List UInt8} {parts : List (List UInt8)} (hpart : 0 ∉ part)
    (hchild : ∀ {c : ConfigNode}, c.Tidy → ∀ {tmp : BufText}, tmp.bytes = [] → Adds tmp c parts val.bytes
      (addParts val parts tmp (if parts = [] then {c with val := c.val.clean.add val.bytes} else c)))
    {n : ConfigNode} (hn : n.Tidy) {tmp : BufText} (htmp : tmp.bytes = []) :
    Adds tmp n (part::parts) val.bytes (addParts val (part::parts) tmp n) := by
  rcases searchChild_ready hn hpart htmp parts with
    ⟨front,c,back,hs,hl,hkey,hfront,hclean,hready⟩ | ⟨hs,hnone,hready⟩ | ⟨hs,hnot⟩
  · have hc : c.Tidy := by
      obtain ⟨-,-,htidy⟩ := hn
      exact htidy c (by simp [hl])
    rw [Adds,hready,addParts,hs,ok_bind,hclean]
    rcases hchild hc (rfl : BufText.bytes (some []) = []) with ⟨hr,c',hadd,hput⟩ | ⟨hr,hfail⟩
    · exact Or.inl ⟨hr,_,by simp only [Option.getD_some,hadd,ok_bind],hput.place hn hl hkey hfront⟩
    · exact Or.inr ⟨hr,by simp only [Option.getD_some,hfail,error_bind]⟩
  · have hkey : (newChild (tmp.add part)).key = keyOf part := by
      rw [newChild,BufText.bytes_add,htmp,List.nil_append]
      rfl
    have hfresh : Ready (tmp.add part).clean (newChild (tmp.add part)) parts :=
      ⟨fun _ _ => rfl,fun i _ h => absurd (newChild_mapAt _ (by simp)) h⟩
    obtain ⟨-,c',hadd,hput⟩ := (hchild (newChild_tidy _) (BufText.bytes_clean _)).resolve_right
      fun h => h.1 hfresh
    refine Or.inl ⟨hready,_,?_,hput.concat hn hpart hkey hnone⟩
    rw [addParts,hs,ok_bind]
    simp only [Option.getD_none,hadd,ok_bind]
  · exact Or.inr ⟨hnot,by rw [addParts,hs]; rfl⟩

/-- The child, from its value on. -/
theorem addParts_child (val : BufText) {p : List (List UInt8)} (hp : ∀ k ∈ p, 0 ∉ k) {c : ConfigNode}
    (hc : c.Tidy) {tmp : BufText} (htmp : tmp.bytes = []) : Adds tmp c p val.bytes
      (addParts val p tmp (if p = [] then {c with val := c.val.clean.add val.bytes} else c)) := by
  induction p generalizing c tmp with
  | nil =>
    refine Or.inl ⟨ready_nil tmp c,_,rfl,?_,rfl,fun q => ?_⟩
    · obtain ⟨hkeys,hnodup,htidy⟩ := hc
      exact ⟨hkeys,hnodup,htidy⟩
    · cases q with
      | nil => simp [putAt]
      | cons j js => simp [putAt,mapAt,follow]
  | cons part parts ih =>
    obtain ⟨hpart,hparts⟩ := List.forall_mem_cons.mp hp
    rw [if_neg (List.cons_ne_nil part parts)]
    exact addParts_step val hpart (ih hparts) hc htmp

theorem addParts_ready (val : BufText) {p : List (List UInt8)} (hp : ∀ k ∈ p, 0 ∉ k) (hne : p ≠ [])
    {n : ConfigNode} (hn : n.Tidy) {tmp : BufText} (htmp : tmp.bytes = []) :
    Adds tmp n p val.bytes (addParts val p tmp n) := by
  have hadds := addParts_child val hp hn htmp
  rwa [if_neg hne] at hadds

/-- What a lookup does: it gives the node at the end of the path when the path can be walked, and
compares a missing string when not. -/
theorem getParts_ready {p : List (List UInt8)} (hp : ∀ k ∈ p, 0 ∉ k) {n : ConfigNode} (hn : n.Tidy)
    {tmp : BufText} (htmp : tmp.bytes = []) :
    (Ready tmp n p ∧ getParts p tmp n = .ok (match n.follow p with
      | some e => (.ok,some e)
      | none => (.notFound,none))) ∨
    (¬ Ready tmp n p ∧ getParts p tmp n = .error .fault) := by
  induction p generalizing n tmp with
  | nil => exact Or.inl ⟨ready_nil tmp n,rfl⟩
  | cons part parts ih =>
    obtain ⟨hpart,hparts⟩ := List.forall_mem_cons.mp hp
    rcases searchChild_ready hn hpart htmp parts with
      ⟨front,c,back,hs,hl,hkey,hfront,hclean,hready⟩ | ⟨hs,hnone,hready⟩ | ⟨hs,hnot⟩
    · have hc : c.Tidy := by
        obtain ⟨-,-,htidy⟩ := hn
        exact htidy c (by simp [hl])
      have hfollow : n.follow (part::parts) = c.follow parts := by
        rw [follow,hl,find?_place hkey hfront]
        rfl
      have hstep : getParts (part::parts) tmp n = getParts parts (some []) c := by
        rw [getParts,hs,ok_bind,hclean]
      rw [hready,hfollow,hstep]
      exact ih hparts hc rfl
    · refine Or.inl ⟨hready,?_⟩
      have hfollow : n.follow (part::parts) = none := by
        rw [follow,find?_none fun c hc => (hnone c hc).2]
        rfl
      rw [getParts,hs,ok_bind,hfollow]
    · exact Or.inr ⟨hnot,by rw [getParts,hs]; rfl⟩

end Walking

section Trees
variable {n n' c : ConfigNode} {l l' : List ConfigNode} {k : List UInt8} {ks p : List (List UInt8)}

theorem TidyKeys.key_eq (h : TidyKeys l) (hc : c ∈ l) : c.key = keyOf c.key.bytes := by
  induction h with
  | nil => cases hc
  | last hnone =>
    rw [List.mem_singleton.mp hc,hnone]
    rfl
  | cons hhas _ ih =>
    rcases List.mem_cons.mp hc with rfl | hc
    · obtain ⟨k,hk,hne,-⟩ := hhas
      rw [hk]
      exact (keyOf_of_ne_nil hne).symm
    · exact ih hc

theorem TidyKeys.nul (h : TidyKeys l) (hc : c ∈ l) : 0 ∉ c.key.bytes := by
  induction h with
  | nil => cases hc
  | last hnone =>
    rw [List.mem_singleton.mp hc,hnone]
    exact List.not_mem_nil
  | cons hhas _ ih =>
    rcases List.mem_cons.mp hc with rfl | hc
    · obtain ⟨k,hk,-,hnul⟩ := hhas
      rw [hk]
      exact hnul
    · exact ih hc

theorem TidyKeys.of_keys (h : TidyKeys l) (hkeys : l'.map key = l.map key) : TidyKeys l' := by
  induction h generalizing l' with
  | nil =>
    rw [List.map_eq_nil_iff.mp hkeys]
    exact .nil
  | last hnone =>
    obtain ⟨c,rest,rfl,hc,hrest⟩ := List.map_eq_cons_iff.mp hkeys
    rw [List.map_eq_nil_iff.mp hrest]
    exact .last (hc.trans hnone)
  | cons hhas _ ih =>
    obtain ⟨c,rest,rfl,hc,hrest⟩ := List.map_eq_cons_iff.mp hkeys
    exact .cons (by simpa [HasKey,hc] using hhas) (ih hrest)

theorem TidyKeys.of_hasKey (h : ∀ c ∈ l, HasKey c) : TidyKeys l := by
  induction l with
  | nil => exact .nil
  | cons c l ih =>
    obtain ⟨hc,hl⟩ := List.forall_mem_cons.mp h
    exact .cons hc (ih hl)

theorem mapAt_cons_iff (hn : (n.child.map key).Nodup) {v : List UInt8} : n.mapAt (k::ks) = some v ↔
    ∃ c ∈ n.child, c.key = keyOf k ∧ c.mapAt ks = some v := by
  rw [mapAt,follow,Option.map_bind]
  simp only [Option.bind_eq_some_iff,find?_key_iff hn,and_assoc]
  rfl

theorem Tidy.mapAt_cons_ne (hn : n.Tidy) : n.mapAt (k::ks) ≠ none ↔
    ∃ c ∈ n.child, c.key.bytes = k ∧ c.mapAt ks ≠ none := by
  obtain ⟨hkeys,hnodup,-⟩ := hn
  have hkey (c : ConfigNode) (hc : c ∈ n.child) : c.key = keyOf k ↔ c.key.bytes = k :=
    ⟨fun h => by rw [h,keyOf_bytes],fun h => h ▸ hkeys.key_eq hc⟩
  simp only [Option.ne_none_iff_exists',mapAt_cons_iff hnodup]
  constructor
  · rintro ⟨v,c,hc,hck,hv⟩
    exact ⟨c,hc,(hkey c hc).mp hck,v,hv⟩
  · rintro ⟨c,hc,hck,v,hv⟩
    exact ⟨v,c,hc,(hkey c hc).mpr hck,hv⟩

theorem Tidy.bytes_inj (hn : n.Tidy) {c d : ConfigNode} (hc : c ∈ n.child) (hd : d ∈ n.child)
    (h : c.key.bytes = d.key.bytes) : c = d := by
  obtain ⟨hkeys,hnodup,-⟩ := hn
  exact List.inj_on_of_nodup_map hnodup hc hd (by rw [hkeys.key_eq hc,hkeys.key_eq hd,h])

theorem Good.tidy (h : n.Good) : n.Tidy := by
  induction h with
  | mk hkeys hnodup _ ih => exact ⟨.of_hasKey hkeys,hnodup,ih⟩

/-- Where no path has an empty part, all keys have blocks. -/
theorem Tidy.good (hn : n.Tidy) (h : ∀ p, n.mapAt p ≠ none → [] ∉ p) : n.Good := by
  have hself := hn
  induction hn with
  | @mk n hkeys hnodup htidy ih =>
    refine ⟨fun c hc => ?_,hnodup,fun c hc => ih c hc (fun p hp hnil => ?_) (htidy c hc)⟩
    · have hne : c.key.bytes ≠ [] := fun h0 =>
        h [[]] (hself.mapAt_cons_ne.mpr ⟨c,hc,h0,by simp⟩) (List.mem_singleton_self _)
      exact ⟨c.key.bytes,(hkeys.key_eq hc).trans (keyOf_of_ne_nil hne),hne,hkeys.nul hc⟩
    · exact h (c.key.bytes::p) (hself.mapAt_cons_ne.mpr ⟨c,hc,rfl,hp⟩) (List.mem_cons_of_mem _ hnil)

theorem Good.follow_eq (hn : n.Good) (p : List (List UInt8)) : n.follow p = n.find p := by
  induction p generalizing n with
  | nil => rfl
  | cons k ks ih =>
    obtain ⟨hkeys,-,hgood⟩ := hn
    by_cases hk : k = []
    · have hnone : ∀ c ∈ n.child, c.key ≠ keyOf k ∧ c.key ≠ some k := fun c hc => by
        obtain ⟨j,hj,hne,-⟩ := hkeys c hc
        rw [hj,hk]
        exact ⟨fun h => (by cases h),fun h => hne (Option.some.inj h)⟩
      rw [follow,find,find?_none fun c hc => (hnone c hc).1,find?_none fun c hc => (hnone c hc).2]
      rfl
    · rw [follow,find,keyOf_of_ne_nil hk]
      cases hfind : n.child.find? fun c => c.key = some k with
      | none => rfl
      | some c => exact ih (hgood c (List.mem_of_find?_eq_some hfind))

theorem Good.valueAt_eq (hn : n.Good) (p : List (List UInt8)) : n.valueAt p = n.mapAt p := by
  rw [valueAt,mapAt,hn.follow_eq]

theorem Good.ne_nil_of_mapAt (hn : n.Good) (h : n.mapAt p ≠ none) : [] ∉ p := by
  induction p generalizing n with
  | nil => exact List.not_mem_nil
  | cons k ks ih =>
    obtain ⟨c,hc,rfl,hks⟩ := hn.tidy.mapAt_cons_ne.mp h
    obtain ⟨hkeys,-,hgood⟩ := hn
    obtain ⟨k,hk,hne,-⟩ := hkeys c hc
    rw [hk]
    exact List.not_mem_cons_of_ne_of_not_mem hne.symm (ih (hgood c hc) hks)

/-- In such a tree every path that begins with a name can be walked. -/
theorem Good.ready (hn : n.Good) {tmp : BufText} (hp : p.head? ≠ some []) : Ready tmp n p :=
  ⟨fun _ h => absurd h hp,fun _ _ h => absurd (List.mem_append_right _ (List.mem_singleton_self _))
    (hn.ne_nil_of_mapAt h)⟩

end Trees

theorem putAt_ne_none {values : List (List UInt8) → Option (List UInt8)} {p q : List (List UInt8)}
    {v : List UInt8} : putAt values p v q ≠ none ↔ values q ≠ none ∨ q <+: p := by
  rw [putAt]
  split_ifs with heq hpre
  · simp [heq]
  · simp [hpre]
  · simp [hpre]

/-- The loop of `http2d_config_node_add_buf` puts the value at the path. -/
theorem addParts_spec (val : BufText) {p : List (List UInt8)} (hp : PathOk p) (hne : p ≠ [])
    {n : ConfigNode} (hn : n.Good) :
    ∃ n', addParts val p none n = .ok n' ∧ n'.Good ∧ ∀ q, n'.valueAt q = putAt n.valueAt p val.bytes q := by
  have hnil : [] ∉ p := fun h => (hp [] h).1 rfl
  have hhead : p.head? ≠ some [] := fun h => hnil (List.mem_of_mem_head? h)
  obtain ⟨-,n',hadd,hput⟩ := (addParts_ready val (fun k hk => (hp k hk).2) hne hn.tidy
    (rfl : BufText.bytes none = [])).resolve_right fun h => h.1 (hn.ready hhead)
  have hgood : n'.Good := hput.tidy.good fun q hq => by
    rw [hput.mapAt_eq,putAt_ne_none] at hq
    exact hq.elim hn.ne_nil_of_mapAt fun hpre h => hnil (hpre.mem h)
  exact ⟨n',hadd,hgood,fun q => by rw [hgood.valueAt_eq,hput.mapAt_eq,funext hn.valueAt_eq]⟩

/-- `http2d_config_node_add_buf` puts the value at the path that the key spells. -/
theorem addBuf_spec (parse : ConfigNode → BufText → Exec (Ret × ConfigNode)) {conf : ConfigNode}
    (hconf : conf.Good) {p : List (List UInt8)} (hp : PathOk p) (hne : p ≠ []) (hsep : ∀ k ∈ p, 33 ∉ k)
    {key : List UInt8} (hkey : key = [33].intercalate p) (hlen : key.length < 2^32) (hnul : 0 ∉ key)
    (hinc : key ≠ includeKey) (htry : key ≠ tryIncludeKey) (val : BufText) :
    ∃ conf', addBuf parse conf (some key) val = .ok (.ok,conf') ∧ conf'.Good ∧
      ∀ q ≠ [], conf'.valueAt q = putAt conf.valueAt p val.bytes q := by
  have hcmp : bufferCmpBuf key includeKey ≠ 0 :=
    fun h => hinc ((bufferCmpBuf_eq_zero hlen (by decide) hnul).mp h)
  have hcmp' : bufferCmpBuf key tryIncludeKey ≠ 0 :=
    fun h => htry ((bufferCmpBuf_eq_zero hlen (by decide) hnul).mp h)
  have hparts : keyParts key = p := by
    rw [keyParts,cString_eq hnul,hkey,List.splitOn_intercalate 33 hsep hne]
  obtain ⟨conf',hadd,hgood,hvalues⟩ := addParts_spec val hp hne hconf
  refine ⟨conf',?_,hgood,fun q _ => hvalues q⟩
  have hbytes : BufText.bytes (some key) = key := rfl
  rw [addBuf,hbytes,if_neg hcmp,if_neg hcmp',BufText.cstr_some hnul]
  simp only [ok_bind,hparts,hadd]

/-- `http2d_config_node_get` gives the nodes of the tree and no others. -/
theorem get_iff {n : ConfigNode} (hn : n.Good) {key : List UInt8} (hkey : 0 ∉ key) (e : ConfigNode) :
    n.get key = .ok (.ok,some e) ↔ n.find (key.splitOn 33) = some e := by
  have hnul : ∀ k ∈ key.splitOn 33, 0 ∉ k := fun k hk h0 => hkey ((Lines.infix_of_mem_splitOn hk).mem h0)
  rw [get,keyParts,cString_eq hkey,← hn.follow_eq]
  rcases getParts_ready hnul hn.tidy (rfl : BufText.bytes none = []) with ⟨-,hget⟩ | ⟨hnot,hget⟩
  · rw [hget]
    cases n.follow (key.splitOn 33) with
    | none => simp
    | some e' => simp
  · -- only an empty first part cannot be walked, and there is no node for it
    have hhead : (key.splitOn 33).head? = some [] := by
      by_contra hne
      exact hnot (hn.ready hne)
    rw [hget]
    refine iff_of_false (fun h => by cases h) fun h => ?_
    exact hn.ne_nil_of_mapAt (p:=key.splitOn 33) (by rw [mapAt,h]; exact fun h => by cases h)
      (List.mem_of_mem_head? hhead)

end ConfigNode

end Http2d
