import Http2d.AvlInvariant
import Http2d.Strings

/-! The tree whose keys are buffers.
Keys are compared by their lengths first, and the difference is narrowed to 16 bits before the tree
looks at its sign. -/
namespace Http2d

open SearchTree

/-- `http2d_buffer_cmp_buf` and `http2d_buffer_case_cmp_buf`, of the strings in the buffers. -/
def cmpBufWith (compare : ℕ → List UInt8 → List UInt8 → ℤ) (A B : List UInt8) : ℤ :=
  if B.length < A.length then cint (A.length-B.length)
  else if A.length < B.length then cint (cuint (-((B.length : ℤ)-A.length)))
  else compare B.length A B

def bufferCmpBuf : List UInt8 → List UInt8 → ℤ := cmpBufWith strncmp

def bufferCaseCmpBuf : List UInt8 → List UInt8 → ℤ := cmpBufWith strncasecmp

/-- `node_cmp`. -/
def nodeCmp (caseInsensitive : Bool) (A B : List UInt8) : ℤ :=
  if caseInsensitive then bufferCaseCmpBuf A B else bufferCmpBuf A B

/-- `node_is_empty`. -/
def nodeIsEmpty (key : List UInt8) : Bool := key.length == 0

section Compare
variable {a b c : List UInt8} {n : ℕ}

/-- The values of the comparison, where no length is negative as an `int`. -/
theorem bufferCmpBuf_eq (ha : a.length < 2^31) (hb : b.length < 2^31) : bufferCmpBuf a b =
    if a.length = b.length then strncmp b.length a b else (a.length : ℤ)-b.length := by
  unfold bufferCmpBuf cmpBufWith
  by_cases hlt : b.length < a.length
  · rw [if_pos hlt,if_neg (by omega)]
    rw [cint_of_lt (by omega)]
    omega
  · rw [if_neg hlt]
    by_cases hlt' : a.length < b.length
    · rw [if_pos hlt',if_neg (by omega)]
      simp only [cuint,cint]
      omega
    · rw [if_neg hlt',if_pos (by omega)]

/-- A key that the tree can be asked for. -/
structure IsKey (k : List UInt8) : Prop where
  ne_nil : k ≠ []
  nul : 0 ∉ k
  length_lt : k.length < 2^31

/-- Before it is narrowed, the comparison is a strict total order of the strings. -/
theorem bufferCmpBuf_strings : StrictOn bufferCmpBuf {k | 0 ∉ k ∧ k.length < 2^31} := by
  refine ⟨fun a ha b hb => ?_,fun a ha b hb => ?_,fun a ha b hb c hc hab hbc => ?_⟩
  · rw [bufferCmpBuf_eq ha.2 hb.2]
    split_ifs with hlen
    · exact strncmp_eq_zero hlen ha.1
    · refine iff_of_false (by omega) ?_
      rintro rfl
      exact hlen rfl
  · rw [bufferCmpBuf_eq ha.2 hb.2,bufferCmpBuf_eq hb.2 ha.2]
    by_cases hlen : a.length = b.length
    · rw [if_pos hlen,if_pos hlen.symm,strncmp_neg,hlen]
      omega
    · rw [if_neg hlen,if_neg (Ne.symm hlen)]
      omega
  · rw [bufferCmpBuf_eq ha.2 hb.2] at hab
    rw [bufferCmpBuf_eq hb.2 hc.2] at hbc
    rw [bufferCmpBuf_eq ha.2 hc.2]
    by_cases hbc' : b.length = c.length
    · rw [if_pos hbc'] at hbc
      rw [hbc'] at hab
      by_cases hac : a.length = c.length
      · rw [if_pos hac] at hab ⊢
        exact strncmp_trans _ a b c hab hbc
      · rwa [if_neg hac] at hab ⊢
    · rw [if_neg hbc'] at hbc
      by_cases hab' : a.length = b.length
      · rw [hab',if_neg hbc']
        exact hbc
      · rw [if_neg hab'] at hab
        rw [if_neg (by omega)]
        omega

theorem bufferCmpBuf_order : StrictOn bufferCmpBuf {k | IsKey k} :=
  bufferCmpBuf_strings.mono fun _ hk => ⟨hk.nul,hk.length_lt⟩

def SameSign (x y : ℤ) : Prop := (x < 0 ↔ y < 0) ∧ (x = 0 ↔ y = 0) ∧ (0 < x ↔ 0 < y)

/-- Equal lengths, or lengths whose difference keeps its sign in 16 bits both ways. -/
def LengthsNear (a b : List UInt8) : Prop :=
  a.length = b.length ∨
    let d := ((a.length : ℤ)-b.length).natAbs % 2^16
    0 < d ∧ d < 2^15

/-- The narrowed comparison of two keys is right both ways exactly when their lengths are near. -/
theorem narrowed_sign_iff (ha : IsKey a) (hb : IsKey b) :
    (SameSign (narrowed bufferCmpBuf a b) (bufferCmpBuf a b) ∧
      SameSign (narrowed bufferCmpBuf b a) (bufferCmpBuf b a)) ↔ LengthsNear a b := by
  have hbound := strncmp_bound b.length a b
  have hbound' := strncmp_bound a.length b a
  simp only [narrowed,cshort,SameSign,LengthsNear]
  rw [bufferCmpBuf_eq ha.length_lt hb.length_lt,bufferCmpBuf_eq hb.length_lt ha.length_lt]
  by_cases hlen : a.length = b.length
  · rw [if_pos hlen,if_pos hlen.symm]
    omega
  · rw [if_neg hlen,if_neg (Ne.symm hlen)]
    omega

theorem SameSign.strictOn {re re' : List UInt8 → List UInt8 → ℤ} {S : Set (List UInt8)}
    (h : StrictOn re S) (hsame : ∀ a ∈ S, ∀ b ∈ S, SameSign (re' a b) (re a b)) : StrictOn re' S := by
  refine ⟨fun a ha b hb => (hsame a ha b hb).2.1.trans (h.eq_iff a ha b hb),fun a ha b hb => ?_,
    fun a ha b hb c hc hab hbc => ?_⟩
  · exact (hsame a ha b hb).1.trans ((h.neg_iff a ha b hb).trans (hsame b hb a ha).2.2.symm)
  · exact (hsame a ha c hc).1.mpr (h.trans a ha b hb c hc ((hsame a ha b hb).1.mp hab)
      ((hsame b hb c hc).1.mp hbc))

end Compare

namespace Avl

/-- What a tree that distinguishes the keys of `S` promises: the comparison that it acts on has the
sign of the comparison of the keys, and two keys that are added to a tree of other ones are found
again with their own values. -/
def Distinguishes (V : Type) (S : Set (List UInt8)) : Prop :=
  (∀ a ∈ S, ∀ b ∈ S, SameSign (narrowed (nodeCmp false) a b) (nodeCmp false a b)) ∧
  ∀ A ∈ S, ∀ B ∈ S, A ≠ B → ∀ as : List (MapCall (List UInt8) V),
    (∀ a ∈ as, a.key ∈ S ∧ a.key ≠ A ∧ a.key ≠ B) → ∀ nodes key value v w, ∃ rs t₀ t,
      (init nodes key value).calls nodeIsEmpty (nodeCmp false) as = .ok (rs,t₀) ∧
      t₀.calls nodeIsEmpty (nodeCmp false) [.add A v,.add B w,.get A,.get B] =
        .ok ([(.ok,none),(.ok,none),(.ok,some v),(.ok,some w)],t)

/-- Calls for other keys leave a key alone. -/
theorem mapCalls_of_ne {K V : Type} [DecidableEq K] {k : K} (m : K → Option V)
    {as : List (MapCall K V)} (hne : ∀ a ∈ as, a.key ≠ k) : (mapCalls m as).2 k = m k := by
  induction as generalizing m with
  | nil => rfl
  | cons a as ih =>
    obtain ⟨ha,has⟩ := List.forall_mem_cons.mp hne
    refine (ih (mapCall m a).2 has).trans ?_
    cases a with
    | add key value =>
      simp only [mapCall]
      split_ifs
      · rfl
      · exact Function.update_of_ne (Ne.symm ha) _ _
    | del key =>
      simp only [mapCall]
      split_ifs
      · exact Function.update_of_ne (Ne.symm ha) _ _
      · rfl
    | get key => rfl

/-- Keys are told apart exactly when the lengths of any two of them are near. -/
theorem distinguishes_iff (V : Type) {S : Set (List UInt8)} (hS : ∀ k ∈ S, IsKey k) :
    Distinguishes V S ↔ ∀ a ∈ S, ∀ b ∈ S, LengthsNear a b := by
  have hcmp : nodeCmp false = bufferCmpBuf := rfl
  refine ⟨fun h a ha b hb => ?_,fun h => ?_⟩
  · exact (narrowed_sign_iff (hS a ha) (hS b hb)).mp ⟨h.1 a ha b hb,h.1 b hb a ha⟩
  · have hsign : ∀ a ∈ S, ∀ b ∈ S, SameSign (narrowed (nodeCmp false) a b) (nodeCmp false a b) :=
      fun a ha b hb => ((narrowed_sign_iff (hS a ha) (hS b hb)).mpr (h a ha b hb)).1
    have hstrict : StrictOn (narrowed (nodeCmp false)) S :=
      SameSign.strictOn (bufferCmpBuf_order.mono hS) hsign
    have hempty {k : List UInt8} (hk : k ∈ S) : nodeIsEmpty k = false := by
      simpa [nodeIsEmpty] using (hS k hk).ne_nil
    refine ⟨hsign,fun A hA B hB hAB as has nodes key value v w => ?_⟩
    obtain ⟨t₀,T₀,hcalls₀,h₀,hm₀⟩ := calls_stores nodeIsEmpty hstrict
      (holds_init (nodeCmp false) S nodes key value) (stores_init nodes key value) as
      (fun a ha => (has a ha).1) fun a ha => hempty (has a ha).1
    have hmA : (mapCalls (fun _ => none) as).2 A = none :=
      mapCalls_of_ne _ fun a ha => (has a ha).2.1
    have hmB : (mapCalls (fun _ => none) as).2 B = none :=
      mapCalls_of_ne _ fun a ha => (has a ha).2.2
    obtain ⟨t,T,hcalls,_,_⟩ := calls_stores nodeIsEmpty hstrict h₀ hm₀
      [.add A v,.add B w,.get A,.get B] (by simp [MapCall.key,hA,hB])
      (by simp [MapCall.key,hempty hA,hempty hB])
    refine ⟨_,t₀,t,hcalls₀,hcalls.trans ?_⟩
    simp [mapCalls,mapCall,hmA,hmB,hAB,Function.update_of_ne,Ne.symm hAB]

theorem distinguishes_two : ([1] : List UInt8) ≠ [2,3] ∧
    (Distinguishes ℕ {[1],[2,3]} ↔ ∀ a ∈ ({[1],[2,3]} : Set (List UInt8)), ∀ b ∈
      ({[1],[2,3]} : Set (List UInt8)), LengthsNear a b) :=
  ⟨by decide,distinguishes_iff ℕ (by
    rintro k (rfl | rfl)
    · exact ⟨by decide,by decide,by decide⟩
    · exact ⟨by decide,by decide,by decide⟩)⟩

/-- A key whose comparison with the only other key is narrowed to zero is taken for that key. -/
theorem calls_collide {K V : Type} {isEmpty : K → Bool} {cmp : K → K → ℤ} {A B : K}
    (hA : isEmpty A = false) (hB : isEmpty B = false) (hAA : narrowed cmp A A = 0)
    (hBA : narrowed cmp B A = 0) (nodes : ℕ → AvlNode) (key : ℕ → K) (value : ℕ → V) (v w : V) :
    ∃ t, (init nodes key value).calls isEmpty cmp [.add A v,.add B w,.get A,.get B] =
      .ok ([(.ok,none),(.error,none),(.ok,some v),(.ok,some v)],t) := by
  simp only [narrowed] at hAA hBA
  refine ⟨⟨Function.update (Function.update nodes 0 .init) 1 .init,
    Function.update (Function.update key 0 A) 1 B,Function.update (Function.update value 0 v) 1 w,
    2,some 0⟩,?_⟩
  simp [calls,call,add,avlGenericAdd,nodeNew,nodeAdd,init,hA,hB,walk,loop,WhileLoop.run,walkTurn,
    avlGenericGet,hAA,hBA]

/-- Keys of one letter, as long as is wanted. -/
theorem isKey_replicate {n : ℕ} (hpos : 0 < n) (hlt : n < 2^31) : IsKey (List.replicate n 97) := by
  refine ⟨fun h => ?_,fun h => ?_,by rw [List.length_replicate]; exact hlt⟩
  · rw [List.replicate_eq_nil_iff] at h
    omega
  · exact absurd (List.eq_of_mem_replicate h) (by decide)

theorem nodeCmp_replicate {n : ℕ} (hlong : 1 < n) (hlt : n < 2^31) :
    nodeCmp false (List.replicate n 97) [97] = n-1 := by
  have hbuf : nodeCmp false = bufferCmpBuf := rfl
  rw [hbuf,bufferCmpBuf_eq (isKey_replicate (by omega) hlt).length_lt (by simp),List.length_replicate,
    List.length_singleton,if_neg (by omega)]
  omega

theorem nodeIsEmpty_replicate {n : ℕ} (hpos : 0 < n) : nodeIsEmpty (List.replicate n 97) = false := by
  rw [nodeIsEmpty,List.length_replicate]
  exact beq_false_of_ne hpos.ne'

/-- A key that is 65536 bytes longer than another is taken for it. -/
theorem not_distinguishes_long :
    IsKey [97] ∧ IsKey (List.replicate 65537 97) ∧ ([97] : List UInt8) ≠ List.replicate 65537 97 ∧
    (∃ t, (init (fun _ => .init) (fun _ => []) (fun _ => 0)).calls nodeIsEmpty (nodeCmp false)
      [.add [97] 1,.add (List.replicate 65537 97) 2,.get [97],.get (List.replicate 65537 97)] =
        .ok ([(.ok,none),(.error,none),(.ok,some 1),(.ok,some 1)],t)) ∧
    ¬ Distinguishes ℕ {[97],List.replicate 65537 97} := by
  have hcmp := nodeCmp_replicate (n:=65537) (by omega) (by omega)
  have hnarrow : narrowed (nodeCmp false) (List.replicate 65537 97) [97] = 0 := by
    rw [narrowed,hcmp]
    rfl
  refine ⟨isKey_replicate (n:=1) (by omega) (by omega),isKey_replicate (by omega) (by omega),fun h => ?_,?_,
    fun h => ?_⟩
  · have hlen := congrArg List.length h
    rw [List.length_replicate,List.length_singleton] at hlen
    omega
  · exact calls_collide rfl (nodeIsEmpty_replicate (by omega)) rfl hnarrow _ _ _ 1 2
  · have hzero := (h.1 _ (Or.inr rfl) _ (Or.inl rfl)).2.1.mp hnarrow
    rw [hcmp] at hzero
    omega

end Avl
end Http2d
