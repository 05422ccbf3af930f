import Mathlib.Tactic

/-! The adaptive replacement cache as a policy on pages.
T1 and T2 are the pages in the cache, B1 and B2 the ghosts, each with the most recent page first;
`p` is the target size of T1. -/
namespace Arc

variable {K : Type*} [BEq K] [LawfulBEq K]

structure State (K : Type*) where
  t1 : List K
  t2 : List K
  b1 : List K
  b2 : List K
  p : ℕ

def State.empty : State K := ⟨[],[],[],[],0⟩

namespace State

/-- The number of pages that the state lists. -/
def total (s : State K) : ℕ := s.t1.length+s.t2.length+s.b1.length+s.b2.length

/-- REPLACE: the LRU page of T1 or of T2 becomes the MRU page of B1 or of B2. -/
def replace (s : State K) (x : K) : State K :=
  if s.t1 ≠ [] ∧ (s.p < s.t1.length ∨ x ∈ s.b2 ∧ s.t1.length = s.p) then
    {s with t1 := s.t1.dropLast, b1 := s.t1.getLast?.toList++s.b1}
  else {s with t2 := s.t2.dropLast, b2 := s.t2.getLast?.toList++s.b2}

/-- How much the target is moved by a hit in the ghost list `b`, the other one being `b'`. -/
def delta (b b' : List K) : ℕ := max 1 (b'.length/b.length)

/-- Case IV: room for a page that no list has. -/
def makeRoom (c : ℕ) (s : State K) (x : K) : State K :=
  if s.t1.length+s.b1.length = c then
    if s.t1.length < c then {s with b1 := s.b1.dropLast}.replace x
    else {s with t1 := s.t1.dropLast}
  else if c ≤ s.total then
    (if s.total = 2*c then {s with b2 := s.b2.dropLast} else s).replace x
  else s

/-- A request for the page `x` in a cache of size `c`. -/
def request (c : ℕ) (s : State K) (x : K) : State K :=
  if x ∈ s.t1 ∨ x ∈ s.t2 then {s with t1 := s.t1.erase x, t2 := x::s.t2.erase x}
  else if x ∈ s.b1 then
    let s := {s with p := min c (s.p+delta s.b1 s.b2)}.replace x
    {s with b1 := s.b1.erase x, t2 := x::s.t2}
  else if x ∈ s.b2 then
    let s := {s with p := s.p-delta s.b2 s.b1}.replace x
    {s with b2 := s.b2.erase x, t2 := x::s.t2}
  else
    let s := s.makeRoom c x
    {s with t1 := x::s.t1}

section Cases
variable {c : ℕ} {s : State K} {x : K}

/-- Case I. -/
theorem request_cached (h : x ∈ s.t1 ∨ x ∈ s.t2) :
    s.request c x = {s with t1 := s.t1.erase x, t2 := x::s.t2.erase x} := if_pos h

/-- Case II. -/
theorem request_b1 (h1 : x ∉ s.t1) (h2 : x ∉ s.t2) (hb1 : x ∈ s.b1) : s.request c x =
    let s := {s with p := min c (s.p+delta s.b1 s.b2)}.replace x
    {s with b1 := s.b1.erase x, t2 := x::s.t2} := by
  rw [request,if_neg (not_or.mpr ⟨h1,h2⟩),if_pos hb1]

/-- Case III. -/
theorem request_b2 (h1 : x ∉ s.t1) (h2 : x ∉ s.t2) (hb1 : x ∉ s.b1) (hb2 : x ∈ s.b2) :
    s.request c x =
      let s := {s with p := s.p-delta s.b2 s.b1}.replace x
      {s with b2 := s.b2.erase x, t2 := x::s.t2} := by
  rw [request,if_neg (not_or.mpr ⟨h1,h2⟩),if_neg hb1,if_pos hb2]

/-- Case IV. -/
theorem request_miss (h1 : x ∉ s.t1) (h2 : x ∉ s.t2) (hb1 : x ∉ s.b1) (hb2 : x ∉ s.b2) :
    s.request c x = {s.makeRoom c x with t1 := x::(s.makeRoom c x).t1} := by
  rw [request,if_neg (not_or.mpr ⟨h1,h2⟩),if_neg hb1,if_neg hb2]

end Cases

/-- The requests one after another, from the empty cache. -/
def serve (c : ℕ) (xs : List K) : State K := xs.foldl (request c) empty

theorem serve_concat (c : ℕ) (xs : List K) (x : K) :
    serve c (xs++[x]) = (serve c xs).request c x := List.foldl_concat ..

end State
end Arc
