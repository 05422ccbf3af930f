import Http2d.Library.Bytes

/-! Functions that read a message in blocks of one size.
What stands behind the last whole block is carried along until more of the message comes, or until
padding completes it. -/
namespace BlockHash

open Bytes

variable {σ : Type*} (f : σ → List UInt8 → σ) (n : ℕ)

/-- The first `k` blocks of a text. -/
def blocks : ℕ → σ → List UInt8 → σ
  | 0, s, _ => s
  | k+1, s, bs => blocks k (f s (bs.take n)) (bs.drop n)

/-- All whole blocks of a text, and what is left behind them. -/
def absorb (s : σ) (bs : List UInt8) : σ × List UInt8 :=
  (blocks f n (bs.length/n) s bs,bs.drop (n*(bs.length/n)))

theorem absorb_short {b : List UInt8} (h : b.length < n) (s : σ) : absorb f n s b = (s,b) := by
  simp [absorb,Nat.div_eq_of_lt h,blocks]

/-- A whole block in front is read first. -/
theorem absorb_block (hn : 0 < n) {x : List UInt8} (hx : x.length = n) (s : σ) (ys : List UInt8) :
    absorb f n s (x ++ ys) = absorb f n (f s x) ys := by
  have hdiv : (x ++ ys).length/n = ys.length/n+1 := by
    rw [List.length_append,hx,Nat.add_comm,Nat.add_div_right _ hn]
  rw [absorb,hdiv,blocks,List.take_left' hx,List.drop_left' hx,absorb,Nat.mul_succ,Nat.add_comm,
    ← List.drop_drop,List.drop_left' hx]

theorem absorb_whole (hn : 0 < n) {xs : List UInt8} (hx : xs.length = n) (s : σ) :
    absorb f n s xs = (f s xs,[]) := by
  have := absorb_block f n hn hx s []
  rwa [List.append_nil,absorb_short f n (b:=[]) hn] at this

theorem absorb_step (hn : 0 < n) {bs : List UInt8} (h : n ≤ bs.length) (s : σ) :
    absorb f n s bs = absorb f n (f s (bs.take n)) (bs.drop n) := by
  have := absorb_block f n hn (x:=bs.take n) (by simpa using h) s (bs.drop n)
  rwa [List.take_append_drop] at this

theorem absorb_rest_length (s : σ) (bs : List UInt8) :
    (absorb f n s bs).2.length = bs.length % n := by
  rw [absorb,List.length_drop]
  exact (Nat.mod_eq_sub_mul_div ..).symm

/-- A message that goes on is read on from what was left. -/
theorem absorb_append (hn : 0 < n) (s : σ) (xs ys : List UInt8) :
    absorb f n s (xs ++ ys) = absorb f n (absorb f n s xs).1 ((absorb f n s xs).2 ++ ys) := by
  induction hk : xs.length using Nat.strongRecOn generalizing s xs with
  | ind k ih =>
    subst hk
    rcases Nat.lt_or_ge xs.length n with hlt | hge
    · rw [absorb_short f n hlt]
    · have htake : (xs.take n).length = n := by simpa using hge
      have hcut : xs ++ ys = xs.take n ++ (xs.drop n ++ ys) := by
        rw [← List.append_assoc,List.take_append_drop]
      rw [hcut,absorb_block f n hn htake,absorb_step f n hn hge]
      exact ih _ (by rw [List.length_drop]; omega) _ _ rfl

/-- The message behind it a mark, zeros up to the next block end but for the room of `len`,
and `len`. -/
def pad (mark : UInt8) (len m : List UInt8) : List UInt8 :=
  m ++ (mark::List.replicate ((2*n-1-len.length-m.length % n) % n) 0 ++ len)

variable {n}

/-- The padding fits into the block that was begun. -/
theorem absorb_pad_one (mark : UInt8) {l m : List UInt8} (h : m.length % n+1+l.length ≤ n)
    (s : σ) : (absorb f n s (pad n mark l m)).1 = f (absorb f n s m).1 ((absorb f n s m).2 ++
      (mark::List.replicate (n-1-l.length-m.length % n) 0 ++ l)) := by
  have hn : 0 < n := by omega
  have hz : (2*n-1-l.length-m.length % n) % n = n-1-l.length-m.length % n := by
    rw [show 2*n-1-l.length-m.length % n = n-1-l.length-m.length % n+n by omega,
      Nat.add_mod_right,Nat.mod_eq_of_lt (by omega)]
  have hlen : ((absorb f n s m).2 ++
      (mark::List.replicate (n-1-l.length-m.length % n) 0 ++ l)).length = n := by
    simp only [List.length_append,List.length_cons,List.length_replicate,absorb_rest_length]
    omega
  rw [pad,absorb_append f n hn,hz,absorb_whole f n hn hlen]

/-- The padding needs a block more. -/
theorem absorb_pad_two (mark : UInt8) {l m : List UInt8} (h : n < m.length % n+1+l.length)
    (hlen : l.length < n) (s : σ) :
    (absorb f n s (pad n mark l m)).1 =
      f (f (absorb f n s m).1 ((absorb f n s m).2 ++
          mark::List.replicate (n-1-m.length % n) 0))
        (List.replicate (n-l.length) 0 ++ l) := by
  have hn : 0 < n := by omega
  have hmod : m.length % n < n := Nat.mod_lt _ hn
  have hz : (2*n-1-l.length-m.length % n) % n = n-1-m.length % n+(n-l.length) := by
    rw [Nat.mod_eq_of_lt (by omega)]
    omega
  have hfirst : ((absorb f n s m).2 ++ mark::List.replicate (n-1-m.length % n) 0).length = n := by
    simp only [List.length_append,List.length_cons,List.length_replicate,absorb_rest_length]
    omega
  have hcut : (absorb f n s m).2 ++ (mark::List.replicate (n-1-m.length % n+(n-l.length)) 0 ++ l) =
      ((absorb f n s m).2 ++ mark::List.replicate (n-1-m.length % n) 0) ++
        (List.replicate (n-l.length) 0 ++ l) := by
    rw [List.replicate_add]
    simp only [List.append_assoc,List.cons_append]
  rw [pad,absorb_append f n hn,hz,hcut,absorb_block f n hn hfirst,
    absorb_whole f n hn (by simp; omega)]

/-- The state and the block of a reader that has seen `m`: the block begins with what is left of
`m`, and anything may stand behind it. -/
structure Holds (n : ℕ) (s₀ : σ) (m : List UInt8) (s : σ) (blk : List UInt8) : Prop where
  state_eq : s = (absorb f n s₀ m).1
  length_eq : blk.length = n
  rest_eq : blk.take (m.length % n) = (absorb f n s₀ m).2

variable {f} {s₀ s : σ} {m blk : List UInt8}

theorem Holds.start (h : blk.length = n) : Holds f n s₀ [] s₀ blk :=
  ⟨by simp [absorb,blocks],h,by simp [absorb]⟩

/-- The block begins with what is left of the message. -/
theorem Holds.block (h : Holds f n s₀ m s blk) :
    blk = (absorb f n s₀ m).2 ++ blk.drop (m.length % n) := by
  rw [← h.rest_eq,List.take_append_drop]

/-- What does not complete the block is put behind the rest. -/
theorem Holds.more (h : Holds f n s₀ m s blk) {x : List UInt8}
    (hlt : m.length % n+x.length < n) :
    Holds f n s₀ (m ++ x) s (overwrite blk (m.length % n) x) := by
  have hmod : (m ++ x).length % n = m.length % n+x.length := by
    rw [List.length_append,Nat.add_mod,Nat.mod_eq_of_lt (a:=x.length) (by omega),
      Nat.mod_eq_of_lt hlt]
  have habs : absorb f n s₀ (m ++ x) = (s,(absorb f n s₀ m).2 ++ x) := by
    rw [absorb_append f n (by omega),absorb_short f n (by
      rw [List.length_append,absorb_rest_length]; exact hlt),h.state_eq]
  refine ⟨by rw [habs],by rw [overwrite_length (by rw [h.length_eq]; omega),h.length_eq],?_⟩
  rw [hmod,take_overwrite (by rw [h.length_eq]; omega),h.rest_eq,habs]

/-- What completes the block lets it be read; the block may hold anything after that. -/
theorem Holds.fill (h : Holds f n s₀ m s blk) {x c : List UInt8}
    (hx : m.length % n+x.length = n) (hpos : 0 < n) (hblk : c.length = n) :
    Holds f n s₀ (m ++ x) (f s (overwrite blk (m.length % n) x)) c := by
  have hmod : (m ++ x).length % n = 0 := by
    rw [List.length_append,← Nat.mod_add_mod,hx,Nat.mod_self]
  have hover : overwrite blk (m.length % n) x = (absorb f n s₀ m).2 ++ x := by
    rw [overwrite,h.rest_eq,hx,← h.length_eq,List.drop_length,List.append_nil]
  have habs : absorb f n s₀ (m ++ x) = (f s (overwrite blk (m.length % n) x),[]) := by
    rw [absorb_append f n hpos,
      absorb_whole f n hpos (by rw [List.length_append,absorb_rest_length]; exact hx),
      ← h.state_eq,hover]
  exact ⟨by rw [habs],hblk,by rw [hmod,habs,List.take_zero]⟩

/-- A whole block at a block's boundary. -/
theorem Holds.whole (h : Holds f n s₀ m s blk) {x c : List UInt8} (hm : m.length % n = 0)
    (hx : x.length = n) (hpos : 0 < n) (hblk : c.length = n) :
    Holds f n s₀ (m ++ x) (f s x) c := by
  have hfill := h.fill (x:=x) (c:=c) (by omega) hpos hblk
  have hover : overwrite blk (m.length % n) x = x := by
    rw [hm,overwrite,List.take_zero,List.nil_append,Nat.zero_add,hx,← h.length_eq,
      List.drop_length,List.append_nil]
  rwa [hover] at hfill

end BlockHash
