import Http2d.Common

/-! Vector lists of `writev`: what is left to send after a partial write.
An element is the list of bytes it points to. The running total is a `size_t`, so it wraps. -/
namespace Http2d

/-- The loop of `http2d_iovec_skip_sent`: `dest` holds the elements written so far. -/
def skipSentLoop (sent : ℕ) : ℕ → List (List UInt8) → List (List UInt8) → List (List UInt8)
  | _, dest, [] => dest
  | total, dest, o::os =>
    if sizeT (total+o.length) ≤ sent then skipSentLoop sent (sizeT (total+o.length)) dest os
    else if 0 < dest.length then skipSentLoop sent total (dest ++ [o]) os
    else skipSentLoop sent total (dest ++ [o.drop (sizeT ((sent : ℤ)-total))]) os

/-- `http2d_iovec_skip_sent`. -/
def iovecSkipSent (orig : List (List UInt8)) (sent : ℕ) : List (List UInt8) :=
  skipSentLoop sent 0 [] orig

/-- The loop of `http2d_iovec_was_sent`. -/
def wasSentLoop (sent : ℕ) : ℕ → List (List UInt8) → Ret
  | _, [] => .ok
  | total, o::os =>
    let total' := sizeT (total+o.length)
    if sent < total' then .eagain else wasSentLoop sent total' os

/-- `http2d_iovec_was_sent`. -/
def iovecWasSent (orig : List (List UInt8)) (sent : ℕ) : Ret := wasSentLoop sent 0 orig

/-- The elements before the cut are sent completely and nothing is written for them. -/
theorem skipSentLoop_skip {sent : ℕ} (total : ℕ) {pre : List (List UInt8)} (rest : List (List UInt8))
    (hsent : sent < 2^64) (h : total+pre.flatten.length ≤ sent) :
    skipSentLoop sent total [] (pre ++ rest) =
      skipSentLoop sent (total+pre.flatten.length) [] rest := by
  induction pre generalizing total with
  | nil => simp
  | cons o os ih =>
    simp only [List.flatten_cons,List.length_append] at h ⊢
    have htotal : sizeT ((total : ℤ)+o.length) = total+o.length := sizeT_add (by omega)
    rw [List.cons_append,skipSentLoop,htotal,if_pos (by omega),ih _ (by omega),Nat.add_assoc]

theorem wasSentLoop_skip {sent : ℕ} (total : ℕ) {pre : List (List UInt8)} (rest : List (List UInt8))
    (hsent : sent < 2^64) (h : total+pre.flatten.length ≤ sent) :
    wasSentLoop sent total (pre ++ rest) = wasSentLoop sent (total+pre.flatten.length) rest := by
  induction pre generalizing total with
  | nil => simp
  | cons o os ih =>
    simp only [List.flatten_cons,List.length_append] at h ⊢
    have htotal : sizeT ((total : ℤ)+o.length) = total+o.length := sizeT_add (by omega)
    simp only [List.cons_append,wasSentLoop,htotal]
    rw [if_neg (by omega),ih _ (by omega),Nat.add_assoc]

/-- An element never contributes more than its own bytes. -/
theorem skipSentLoop_flatten_length (sent total : ℕ) (dest orig : List (List UInt8)) :
    (skipSentLoop sent total dest orig).flatten.length ≤
      dest.flatten.length+orig.flatten.length := by
  induction orig generalizing total dest with
  | nil => simp [skipSentLoop]
  | cons o os ih =>
    simp only [skipSentLoop]
    split_ifs
    · have := ih (sizeT (total+o.length)) dest
      simp only [List.flatten_cons,List.length_append]; omega
    · have := ih total (dest ++ [o])
      simp only [List.flatten_append,List.flatten_cons,List.flatten_nil,List.append_nil,
        List.length_append] at this ⊢
      omega
    · have := ih total (dest ++ [o.drop (sizeT ((sent : ℤ)-total))])
      simp only [List.flatten_append,List.flatten_cons,List.flatten_nil,List.append_nil,
        List.length_append,List.length_drop] at this ⊢
      omega

/-- Behind the cut the total stands still, so an element is kept when it is longer than what was
sent of the cut element. -/
def KeptAt (sent total : ℕ) (o : List UInt8) : Prop :=
  o = [] ∨ sent < total+o.length ∧ total+o.length < 2^64

theorem skipSentLoop_kept {sent total : ℕ} {dest : List (List UInt8)} {os : List (List UInt8)}
    (hle : total ≤ sent) (hsent : sent < 2^64) (hdest : 0 < dest.length)
    (h : ∀ o ∈ os, KeptAt sent total o) :
    (skipSentLoop sent total dest os).flatten = dest.flatten ++ os.flatten := by
  induction os generalizing dest with
  | nil => simp [skipSentLoop]
  | cons o os ih =>
    rcases h o (by simp) with rfl | ⟨hlt,hfit⟩
    · have htotal : sizeT ((total : ℤ)+([] : List UInt8).length) = total := by
        simp only [sizeT,List.length_nil]; omega
      rw [skipSentLoop,htotal,if_pos hle,ih hdest fun o ho => h o (by simp [ho])]
      simp
    · have htotal : sizeT ((total : ℤ)+o.length) = total+o.length := sizeT_add (by omega)
      rw [skipSentLoop,htotal,if_neg (by omega),if_pos hdest,
        ih (by simp) fun o ho => h o (by simp [ho])]
      simp

/-- An element that is not kept is lost. -/
theorem skipSentLoop_lost {sent total : ℕ} (dest : List (List UInt8)) {os : List (List UInt8)}
    (hle : total ≤ sent) (hsent : sent < 2^64) (hdest : 0 < dest.length)
    (hlen : ∀ o ∈ os, o.length < 2^64) (h : ∃ o ∈ os, ¬ KeptAt sent total o) :
    (skipSentLoop sent total dest os).flatten.length < dest.flatten.length+os.flatten.length := by
  induction os generalizing dest with
  | nil => simp at h
  | cons o os ih =>
    have holen := hlen o (by simp)
    simp only [List.flatten_cons,List.length_append]
    by_cases ho : KeptAt sent total o
    · have hrest : ∃ o ∈ os, ¬ KeptAt sent total o := by
        obtain ⟨x,hx,hnot⟩ := h
        rcases List.mem_cons.mp hx with rfl | hx
        · exact absurd ho hnot
        · exact ⟨x,hx,hnot⟩
      have hlen' : ∀ o ∈ os, o.length < 2^64 := fun o ho => hlen o (by simp [ho])
      rcases ho with rfl | ⟨hlt,hfit⟩
      · have htotal : sizeT ((total : ℤ)+([] : List UInt8).length) = total := by
          simp only [sizeT,List.length_nil]; omega
        rw [skipSentLoop,htotal,if_pos hle]
        simpa using ih dest hdest hlen' hrest
      · have htotal : sizeT ((total : ℤ)+o.length) = total+o.length := sizeT_add (by omega)
        have := ih (dest ++ [o]) (by simp) hlen' hrest
        rw [skipSentLoop,htotal,if_neg (by omega),if_pos hdest]
        simp only [List.flatten_append,List.flatten_cons,List.flatten_nil,List.append_nil,
          List.length_append] at this
        omega
    · have hne : 0 < o.length := List.length_pos_iff.mpr fun hnil => ho (Or.inl hnil)
      have hsmall : sizeT ((total : ℤ)+o.length) ≤ sent := by
        have hnot : ¬ (sent < total+o.length ∧ total+o.length < 2^64) := fun hk => ho (Or.inr hk)
        simp only [sizeT]; omega
      have := skipSentLoop_flatten_length sent (sizeT (total+o.length)) dest os
      rw [skipSentLoop,if_pos hsmall]
      omega

/-- What the two functions are for: the elements left are the bytes not yet sent, and the list
was sent when there is none. -/
def DropsExactlySent (orig : List (List UInt8)) (sent : ℕ) : Prop :=
  (iovecSkipSent orig sent).flatten = orig.flatten.drop sent ∧
    (iovecWasSent orig sent = .ok ↔ orig.flatten.drop sent = [])

instance (orig : List (List UInt8)) (sent : ℕ) : Decidable (DropsExactlySent orig sent) :=
  inferInstanceAs (Decidable (_ ∧ _))

/-- Every non-empty element behind the cut is longer than what was sent of the cut element, and
no total wraps. -/
def CutHarmless (orig : List (List UInt8)) (sent : ℕ) : Prop :=
  ∀ pre cut post, orig = pre ++ cut::post → pre.flatten.length ≤ sent →
    sent < pre.flatten.length+cut.length →
    pre.flatten.length+cut.length < 2^64 ∧ ∀ o ∈ post, KeptAt sent pre.flatten.length o

/-- Either everything was sent or the position falls into one element. -/
theorem cut_exists (orig : List (List UInt8)) (sent : ℕ) : orig.flatten.length ≤ sent ∨
    ∃ pre cut post, orig = pre ++ cut::post ∧ pre.flatten.length ≤ sent ∧
      sent < pre.flatten.length+cut.length := by
  induction orig generalizing sent with
  | nil => exact Or.inl (Nat.zero_le _)
  | cons o os ih =>
    by_cases ho : sent < o.length
    · exact Or.inr ⟨[],o,os,rfl,Nat.zero_le _,by simpa using ho⟩
    rcases ih (sent-o.length) with hall | ⟨pre,cut,post,rfl,hle,hlt⟩
    · exact Or.inl (by simp only [List.flatten_cons,List.length_append]; omega)
    · refine Or.inr ⟨o::pre,cut,post,rfl,?_,?_⟩ <;>
        simp only [List.flatten_cons,List.length_append] <;> omega

/-- At the cut the first piece is written, unless the total wraps there. -/
theorem iovecSkipSent_cut {pre post : List (List UInt8)} {cut : List UInt8} {sent : ℕ}
    (hsent : sent < 2^64) (hle : pre.flatten.length ≤ sent)
    (hlt : sent < pre.flatten.length+cut.length) (hfit : pre.flatten.length+cut.length < 2^64) :
    iovecSkipSent (pre ++ cut::post) sent =
      skipSentLoop sent pre.flatten.length [cut.drop (sent-pre.flatten.length)] post := by
  have htotal : sizeT ((pre.flatten.length : ℤ)+cut.length) = pre.flatten.length+cut.length := sizeT_add (by omega)
  have hpiece : sizeT ((sent : ℤ)-pre.flatten.length) = sent-pre.flatten.length := sizeT_sub (by omega) (by omega)
  rw [iovecSkipSent,skipSentLoop_skip 0 _ hsent (by omega),Nat.zero_add,skipSentLoop,htotal,
    if_neg (by omega),if_neg (by simp),hpiece,List.nil_append]

theorem iovecWasSent_cut {pre post : List (List UInt8)} {cut : List UInt8} {sent : ℕ}
    (hsent : sent < 2^64) (hle : pre.flatten.length ≤ sent)
    (hlt : sent < pre.flatten.length+cut.length) (hfit : pre.flatten.length+cut.length < 2^64) :
    iovecWasSent (pre ++ cut::post) sent = .eagain := by
  have htotal : sizeT ((pre.flatten.length : ℤ)+cut.length) = pre.flatten.length+cut.length := sizeT_add (by omega)
  rw [iovecWasSent,wasSentLoop_skip 0 _ hsent (by omega),Nat.zero_add]
  simp only [wasSentLoop,htotal,if_pos hlt]

theorem drop_flatten_cut {pre : List (List UInt8)} (post : List (List UInt8)) {cut : List UInt8}
    {sent : ℕ} (hle : pre.flatten.length ≤ sent) (hlt : sent < pre.flatten.length+cut.length) :
    (pre ++ cut::post).flatten.drop sent =
      cut.drop (sent-pre.flatten.length) ++ post.flatten := by
  rw [List.flatten_append,List.flatten_cons,List.drop_append,List.drop_eq_nil_of_le hle,
    List.nil_append,List.drop_append_of_le_length (by omega)]

theorem dropsExactlySent_all {orig : List (List UInt8)} {sent : ℕ} (hsent : sent < 2^64)
    (hall : orig.flatten.length ≤ sent) : DropsExactlySent orig sent := by
  have hskip := skipSentLoop_skip 0 [] hsent (by omega : 0+orig.flatten.length ≤ sent)
  have hwas := wasSentLoop_skip 0 [] hsent (by omega : 0+orig.flatten.length ≤ sent)
  rw [List.append_nil] at hskip hwas
  have hdrop : orig.flatten.drop sent = [] := List.drop_eq_nil_of_le hall
  refine ⟨?_,?_⟩
  · rw [iovecSkipSent,hskip,hdrop]
    rfl
  · rw [iovecWasSent,hwas,hdrop]
    simp [wasSentLoop]

/-- When the total wraps at the cut, the rest of the cut element is lost. -/
theorem iovecSkipSent_wrap {pre : List (List UInt8)} (post : List (List UInt8)) {cut : List UInt8}
    {sent : ℕ} (hsent : sent < 2^64) (hcut : cut.length < 2^64) (hle : pre.flatten.length ≤ sent)
    (hwrap : 2^64 ≤ pre.flatten.length+cut.length) :
    (iovecSkipSent (pre ++ cut::post) sent).flatten.length ≤ post.flatten.length := by
  have hsmall : sizeT ((pre.flatten.length : ℤ)+cut.length) ≤ sent := by simp only [sizeT]; omega
  rw [iovecSkipSent,skipSentLoop_skip 0 _ hsent (by omega),Nat.zero_add,skipSentLoop,if_pos hsmall]
  simpa using skipSentLoop_flatten_length sent (sizeT (pre.flatten.length+cut.length)) [] post

/-- Exactly the bytes already sent are dropped if and only if the cut harms no later element. -/
theorem dropsExactlySent_iff_cutHarmless {orig : List (List UInt8)} {sent : ℕ}
    (hlen : ∀ o ∈ orig, o.length < 2^64) (hsent : sent < 2^64) :
    DropsExactlySent orig sent ↔ CutHarmless orig sent := by
  constructor
  · rintro ⟨hdest,_⟩ pre cut post rfl hle hlt
    have hrest := congrArg List.length hdest
    rw [drop_flatten_cut post hle hlt,List.length_append,List.length_drop] at hrest
    have hfit : pre.flatten.length+cut.length < 2^64 := by
      by_contra hwrap
      have := iovecSkipSent_wrap post hsent (hlen cut (by simp)) hle (by omega)
      omega
    refine ⟨hfit,fun o ho => ?_⟩
    by_contra hnot
    have := skipSentLoop_lost [cut.drop (sent-pre.flatten.length)] hle hsent (by simp)
      (fun o ho => hlen o (by simp [ho])) ⟨o,ho,hnot⟩
    rw [iovecSkipSent_cut hsent hle hlt hfit] at hrest
    simp only [List.flatten_cons,List.flatten_nil,List.append_nil,List.length_drop] at this
    omega
  · intro hcut
    rcases cut_exists orig sent with hall | ⟨pre,cut,post,rfl,hle,hlt⟩
    · exact dropsExactlySent_all hsent hall
    obtain ⟨hfit,hkept⟩ := hcut pre cut post rfl hle hlt
    have hrest := drop_flatten_cut post hle hlt
    refine ⟨?_,?_⟩
    · rw [iovecSkipSent_cut hsent hle hlt hfit,skipSentLoop_kept hle hsent (by simp) hkept,hrest]
      simp
    · rw [iovecWasSent_cut hsent hle hlt hfit,hrest]
      have hpiece : cut.drop (sent-pre.flatten.length) ≠ [] := by
        rw [ne_eq,List.drop_eq_nil_iff]; omega
      exact ⟨fun h => absurd h (by decide),fun h => absurd (List.append_eq_nil_iff.mp h).1 hpiece⟩

theorem dropsExactlySent_iff_three_elements :
    DropsExactlySent [[1,2,3],[4,5],[6,7]] 4 ↔ CutHarmless [[1,2,3],[4,5],[6,7]] 4 :=
  dropsExactlySent_iff_cutHarmless (by decide) (by decide)

/-- Two of the four bytes of the second element were sent, and the two bytes of the third
element are lost. -/
theorem dropsExactlySent_fails : ¬ DropsExactlySent [[1,2,3],[4,5,6,7],[8,9]] 5 := by decide

end Http2d
