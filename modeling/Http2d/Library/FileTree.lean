import Mathlib.Tactic

/-! Trees of files with symbolic links, and the resolution of paths in them.
A place is the list of the names from the root to it, so that two places are different objects. A path
leads to a place by its steps; each link that it follows puts the steps of its target in front of the
rest, and only a limited number of links is followed. -/
namespace FileTree

/-- One component of a path. -/
inductive Step (N : Type*)
  | here | up | name (n : N)
  deriving DecidableEq

/-- What is at a place; the target of a link begins at the root or at the link. -/
inductive Kind (N : Type*)
  | dir | reg | link (absolute : Bool) (target : List (Step N)) | other
  deriving DecidableEq

structure Node (N U : Type*) where
  owner : U
  kind : Kind N
  deriving DecidableEq

abbrev Tree (N U : Type*) := List N → Option (Node N U)

variable {N U : Type*}

def isDir (t : Tree N U) (p : List N) : Bool :=
  match t p with
  | some ⟨_,.dir⟩ => true
  | _ => false

/-- A path from `cur`, as far as the first link, at which `follow` takes over. -/
def walkSteps (t : Tree N U) (follow : List N → List (Step N) → Option (List N × ℕ)) (left : ℕ) :
    List N → List (Step N) → Option (List N × ℕ)
  | cur, [] => some (cur,left)
  | cur, s::ss =>
    if isDir t cur then
      match s with
      | .here => walkSteps t follow left cur ss
      | .up => walkSteps t follow left cur.dropLast ss
      | .name n =>
        match t (cur ++ [n]) with
        | none => none
        | some ⟨_,.link absolute target⟩ => follow (if absolute then [] else cur) (target ++ ss)
        | some _ => walkSteps t follow left (cur ++ [n]) ss
    else none

/-- Where a path leads from a place, and how many links may be followed after it. -/
def walkFrom (t : Tree N U) : ℕ → List N → List (Step N) → Option (List N × ℕ)
  | 0 => walkSteps t (fun _ _ => none) 0
  | left+1 => walkSteps t (walkFrom t left) (left+1)

/-- All that is in the first tree is in the second. -/
def Sub (t t' : Tree N U) : Prop := ∀ p node, t p = some node → t' p = some node

variable {t t' : Tree N U} {left : ℕ} {cur : List N}

theorem isDir_iff {p : List N} : isDir t p ↔ ∃ owner, t p = some ⟨owner,.dir⟩ := by
  unfold isDir
  split
  case h_1 owner h => simp [h]
  case h_2 h =>
    constructor
    · intro hf
      cases hf
    · rintro ⟨owner,heq⟩
      exact absurd heq (h owner)

theorem Sub.isDir {p : List N} (h : Sub t t') (hp : isDir t p) : isDir t' p := by
  obtain ⟨owner,ho⟩ := isDir_iff.mp hp
  exact isDir_iff.mpr ⟨owner,h _ _ ho⟩

@[simp] theorem walkFrom_nil : walkFrom t left cur [] = some (cur,left) := by
  cases left <;> rfl

/-- Following a link costs one. -/
def followLink (t : Tree N U) (left : ℕ) (cur : List N) (steps : List (Step N)) : Option (List N × ℕ) :=
  match left with
  | 0 => none
  | left+1 => walkFrom t left cur steps

theorem walkFrom_eq : walkFrom t left = walkSteps t (followLink t left) left := by
  cases left <;> rfl

section Steps
variable {follow follow' : List N → List (Step N) → Option (List N × ℕ)} {n : N} {ss : List (Step N)}

theorem walkSteps_none (hc : ¬ isDir t cur) (s : Step N) :
    walkSteps t follow left cur (s::ss) = none := if_neg hc

theorem walkSteps_here (hc : isDir t cur) :
    walkSteps t follow left cur (.here::ss) = walkSteps t follow left cur ss := if_pos hc

theorem walkSteps_up (hc : isDir t cur) :
    walkSteps t follow left cur (.up::ss) = walkSteps t follow left cur.dropLast ss := if_pos hc

theorem walkSteps_at (hc : isDir t cur) : walkSteps t follow left cur (.name n::ss) =
    match t (cur ++ [n]) with
    | none => none
    | some ⟨_,.link absolute target⟩ => follow (if absolute then [] else cur) (target ++ ss)
    | some _ => walkSteps t follow left (cur ++ [n]) ss := if_pos hc

theorem walkSteps_link (hc : isDir t cur) {owner : U} {absolute : Bool} {target : List (Step N)}
    (hn : t (cur ++ [n]) = some ⟨owner,.link absolute target⟩) :
    walkSteps t follow left cur (.name n::ss) = follow (if absolute then [] else cur) (target ++ ss) := by
  rw [walkSteps_at hc]
  simp only [hn]

theorem walkSteps_name (hc : isDir t cur) {node : Node N U} (hn : t (cur ++ [n]) = some node)
    (hlink : ∀ absolute target, node.kind ≠ .link absolute target) :
    walkSteps t follow left cur (.name n::ss) = walkSteps t follow left (cur ++ [n]) ss := by
  obtain ⟨owner,kind⟩ := node
  rw [walkSteps_at hc]
  cases kind with
  | link absolute target => exact absurd rfl (hlink absolute target)
  | dir => simp only [hn]
  | reg => simp only [hn]
  | other => simp only [hn]

/-- What a step by a name goes through when it leads anywhere. -/
theorem walkSteps_name_inv {r : List N × ℕ}
    (h : walkSteps t follow left cur (.name n::ss) = some r) :
    isDir t cur ∧ ∃ node, t (cur ++ [n]) = some node ∧
      ((∀ absolute target, node.kind ≠ .link absolute target) ∨
        ∃ absolute target, node.kind = .link absolute target) := by
  by_cases hc : isDir t cur
  · refine ⟨hc,?_⟩
    cases hn : t (cur ++ [n]) with
    | none => simp [walkSteps_at hc,hn] at h
    | some node =>
      refine ⟨node,rfl,?_⟩
      by_cases hlink : ∃ absolute target, node.kind = .link absolute target
      · exact Or.inr hlink
      · exact Or.inl fun absolute target hk => hlink ⟨absolute,target,hk⟩
  · rw [walkSteps_none hc] at h
    cases h

theorem walkSteps_mono (h : Sub t t') (hf : ∀ c ss r, follow c ss = some r → follow' c ss = some r)
    {r : List N × ℕ} (hr : walkSteps t follow left cur ss = some r) :
    walkSteps t' follow' left cur ss = some r := by
  induction ss generalizing cur with
  | nil => exact hr
  | cons s ss ih =>
    have hc : isDir t cur := by
      by_contra hc
      rw [walkSteps_none hc] at hr
      cases hr
    have hc' := h.isDir hc
    cases s with
    | here =>
      rw [walkSteps_here hc] at hr
      rw [walkSteps_here hc']
      exact ih hr
    | up =>
      rw [walkSteps_up hc] at hr
      rw [walkSteps_up hc']
      exact ih hr
    | name n =>
      obtain ⟨-,⟨owner,kind⟩,hn,hlink | ⟨absolute,target,rfl⟩⟩ := walkSteps_name_inv hr
      · rw [walkSteps_name hc hn hlink] at hr
        rw [walkSteps_name hc' (h _ _ hn) hlink]
        exact ih hr
      · rw [walkSteps_link hc hn] at hr
        rw [walkSteps_link hc' (h _ _ hn)]
        exact hf _ _ _ hr

theorem walkSteps_append {ys : List (Step N)} {g : List N × ℕ → Option (List N × ℕ)}
    (hf : ∀ c xs, follow c (xs ++ ys) = (follow c xs).bind g)
    (hend : ∀ c, walkSteps t follow left c ys = g (c,left)) (xs : List (Step N)) :
    walkSteps t follow left cur (xs ++ ys) = (walkSteps t follow left cur xs).bind g := by
  induction xs generalizing cur with
  | nil => exact hend cur
  | cons s xs ih =>
    by_cases hc : isDir t cur
    · cases s with
      | here => rw [List.cons_append,walkSteps_here hc,walkSteps_here hc,ih]
      | up => rw [List.cons_append,walkSteps_up hc,walkSteps_up hc,ih]
      | name n =>
        cases hn : t (cur ++ [n]) with
        | none => simp [walkSteps_at hc,hn]
        | some node =>
          by_cases hlink : ∃ absolute target, node.kind = .link absolute target
          · obtain ⟨owner,kind⟩ := node
            obtain ⟨absolute,target,rfl⟩ := hlink
            rw [List.cons_append,walkSteps_link hc hn,walkSteps_link hc hn,← List.append_assoc,hf]
          · have hlink' (absolute : Bool) (target : List (Step N)) : node.kind ≠ .link absolute target :=
              fun hk => hlink ⟨absolute,target,hk⟩
            rw [List.cons_append,walkSteps_name hc hn hlink',walkSteps_name hc hn hlink',ih]
    · rw [List.cons_append,walkSteps_none hc,walkSteps_none hc]
      rfl

end Steps

/-- A path that resolves in a tree resolves to the same place in a larger one. -/
theorem walkFrom_mono (h : Sub t t') {steps : List (Step N)} {r : List N × ℕ}
    (hr : walkFrom t left cur steps = some r) : walkFrom t' left cur steps = some r := by
  induction left generalizing cur steps r with
  | zero => exact walkSteps_mono h (fun _ _ _ hnone => absurd hnone (by simp)) hr
  | succ left ih => exact walkSteps_mono h (fun _ _ _ hfollow => ih hfollow) hr

/-- A path that continues another one. -/
theorem walkFrom_append (xs ys : List (Step N)) : walkFrom t left cur (xs ++ ys) =
    (walkFrom t left cur xs).bind fun r => walkFrom t r.2 r.1 ys := by
  induction left generalizing cur xs with
  | zero => exact walkSteps_append (fun _ _ => rfl) (fun _ => rfl) xs
  | succ left ih => exact walkSteps_append (fun c xs => ih xs) (fun _ => rfl) xs

/-- A separator at the end asks for a directory. -/
theorem walkFrom_here : walkFrom t left cur [.here] = if isDir t cur then some (cur,left) else none := by
  rw [walkFrom_eq]
  rfl

/-- One more name that is no link. -/
theorem walkFrom_name {n : N} {node : Node N U} (hc : isDir t cur) (hn : t (cur ++ [n]) = some node)
    (hlink : ∀ absolute target, node.kind ≠ .link absolute target) :
    walkFrom t left cur [.name n] = some (cur ++ [n],left) := by
  rw [walkFrom_eq,walkSteps_name hc hn hlink]
  rfl

end FileTree
