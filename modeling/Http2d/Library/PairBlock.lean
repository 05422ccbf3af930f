import Http2d.Library.Bytes

/-! Blocks of name/value pairs.
A block is a count followed by that many pairs; the count and the length in front of each string
take `w` bytes. Bytes behind the last pair are left over. -/
namespace PairBlock

open Bytes

abbrev Pair := List UInt8 × List UInt8

/-- A string with its length in front. -/
def encodeField (w : ℕ) (bs : List UInt8) : List UInt8 := beBytes w bs.length ++ bs

def encodePair (w : ℕ) (p : Pair) : List UInt8 := encodeField w p.1 ++ encodeField w p.2

def encode (w : ℕ) (ps : List Pair) : List UInt8 := beBytes w ps.length ++ ps.flatMap (encodePair w)

def decodeField (w : ℕ) (bs : List UInt8) : Option (List UInt8 × List UInt8) :=
  if w ≤ bs.length ∧ w+beNat (bs.take w) ≤ bs.length then
    some (slice bs w (beNat (bs.take w)),bs.drop (w+beNat (bs.take w)))
  else none

def decodePair (w : ℕ) (bs : List UInt8) : Option (Pair × List UInt8) := do
  let (k,bs) ← decodeField w bs
  let (v,bs) ← decodeField w bs
  some ((k,v),bs)

def decodePairs (w : ℕ) : ℕ → List UInt8 → Option (List Pair × List UInt8)
  | 0, bs => some ([],bs)
  | n+1, bs => do
    let (p,bs) ← decodePair w bs
    let (ps,bs) ← decodePairs w n bs
    some (p::ps,bs)

def decode (w : ℕ) (bs : List UInt8) : Option (List Pair × List UInt8) :=
  if w ≤ bs.length then decodePairs w (beNat (bs.take w)) (bs.drop w) else none

variable {w : ℕ}

theorem encodeField_length (bs : List UInt8) : (encodeField w bs).length = w+bs.length := by
  simp [encodeField]

theorem encodePair_length (p : Pair) : (encodePair w p).length = 2*w+p.1.length+p.2.length := by
  simp only [encodePair,List.length_append,encodeField_length]
  omega

/-- The pairs of a block take at least the bytes of their lengths, and each of them fits in. -/
theorem flatMap_encodePair_length (ps : List Pair) :
    2*w*ps.length ≤ (ps.flatMap (encodePair w)).length ∧
      ∀ p ∈ ps, (encodePair w p).length ≤ (ps.flatMap (encodePair w)).length := by
  induction ps with
  | nil => simp
  | cons p ps ih =>
    have hp := encodePair_length (w:=w) p
    simp only [List.flatMap_cons,List.length_append,List.length_cons,Nat.mul_succ,List.mem_cons,
      forall_eq_or_imp]
    exact ⟨by omega,by omega,fun q hq => by have := ih.2 q hq; omega⟩

theorem decodeField_encodeField {bs : List UInt8} (rest : List UInt8) (h : bs.length < 256^w) :
    decodeField w (encodeField w bs ++ rest) = some (bs,rest) := by
  have hlen : beNat ((encodeField w bs ++ rest).take w) = bs.length := by
    rw [encodeField,List.append_assoc,List.take_left' (beBytes_length w bs.length),
      beNat_beBytes_of_lt h]
  have hfit : w+bs.length ≤ (encodeField w bs ++ rest).length := by
    rw [List.length_append,encodeField_length]; omega
  unfold decodeField
  rw [hlen,if_pos ⟨by omega,hfit⟩]
  have hsl : slice (encodeField w bs ++ rest) w bs.length = bs := by
    have := slice_append_right (beBytes w bs.length) (bs ++ rest) 0 bs.length
    rw [beBytes_length,Nat.add_zero,← List.append_assoc] at this
    rw [encodeField,this,slice_front]
  have hdrop : (encodeField w bs ++ rest).drop (w+bs.length) = rest :=
    List.drop_left' (encodeField_length bs)
  rw [hsl,hdrop]

theorem decodePair_encodePair {p : Pair} (rest : List UInt8) (h₁ : p.1.length < 256^w)
    (h₂ : p.2.length < 256^w) : decodePair w (encodePair w p ++ rest) = some (p,rest) := by
  simp [decodePair,encodePair,List.append_assoc,decodeField_encodeField _ h₁,
    decodeField_encodeField _ h₂]

theorem decodePairs_encode {ps : List Pair} (rest : List UInt8)
    (h : ∀ p ∈ ps, p.1.length < 256^w ∧ p.2.length < 256^w) :
    decodePairs w ps.length (ps.flatMap (encodePair w) ++ rest) = some (ps,rest) := by
  induction ps with
  | nil => rfl
  | cons p ps ih =>
    have hp := h p (by simp)
    simp [decodePairs,List.append_assoc,decodePair_encodePair _ hp.1 hp.2,
      ih fun q hq => h q (by simp [hq])]

/-- Decoding what was encoded gives the pairs back and leaves the rest alone. -/
theorem decode_encode (ps : List Pair) (rest : List UInt8) (hcount : ps.length < 256^w)
    (h : ∀ p ∈ ps, p.1.length < 256^w ∧ p.2.length < 256^w) :
    decode w (encode w ps ++ rest) = some (ps,rest) := by
  have htake : (encode w ps ++ rest).take w = beBytes w ps.length := by
    rw [encode,List.append_assoc]
    exact List.take_left' (beBytes_length w ps.length)
  have hdrop : (encode w ps ++ rest).drop w = ps.flatMap (encodePair w) ++ rest := by
    rw [encode,List.append_assoc]
    exact List.drop_left' (beBytes_length w ps.length)
  rw [decode,if_pos (by simp [encode]),htake,hdrop,beNat_beBytes_of_lt hcount,
    decodePairs_encode rest h]

/-- A field that decodes is its length, its string and what is left over. -/
theorem decodeField_parts {bs v rest : List UInt8} (h : decodeField w bs = some (v,rest)) :
    beNat (bs.take w) = v.length ∧ slice bs w v.length = v ∧ rest = bs.drop (w+v.length) ∧
      w+v.length+rest.length = bs.length := by
  unfold decodeField at h
  split_ifs at h with hfit
  obtain ⟨rfl,rfl⟩ := Prod.mk.inj (Option.some.inj h)
  have hl : (slice bs w (beNat (bs.take w))).length = beNat (bs.take w) := slice_length hfit.2
  refine ⟨hl.symm,by rw [hl],by rw [hl],?_⟩
  rw [hl,List.length_drop]
  omega

/-- Where the two lengths and strings of a decoded pair stand. -/
theorem decodePair_parts {bs rest : List UInt8} {p : Pair} (h : decodePair w bs = some (p,rest)) :
    beNat (bs.take w) = p.1.length ∧ slice bs w p.1.length = p.1 ∧
      beNat (slice bs (w+p.1.length) w) = p.2.length ∧
      slice bs (w+p.1.length+w) p.2.length = p.2 := by
  simp only [decodePair,Option.bind_eq_bind,Option.bind_eq_some_iff] at h
  obtain ⟨⟨k,bs'⟩,hk,⟨v,bs''⟩,hv,heq⟩ := h
  obtain ⟨rfl,rfl⟩ := Prod.mk.inj (Option.some.inj heq)
  obtain ⟨hk₁,hk₂,rfl,_⟩ := decodeField_parts hk
  obtain ⟨hv₁,hv₂,_,_⟩ := decodeField_parts hv
  refine ⟨hk₁,hk₂,hv₁,?_⟩
  simpa [slice,List.drop_drop,Nat.add_assoc] using hv₂

theorem decodePair_length {bs rest : List UInt8} {p : Pair} (h : decodePair w bs = some (p,rest)) :
    2*w+p.1.length+p.2.length+rest.length = bs.length := by
  simp only [decodePair,Option.bind_eq_bind,Option.bind_eq_some_iff] at h
  obtain ⟨⟨k,bs'⟩,hk,⟨v,bs''⟩,hv,heq⟩ := h
  obtain ⟨rfl,rfl⟩ := Prod.mk.inj (Option.some.inj heq)
  obtain ⟨_,_,_,h₁⟩ := decodeField_parts hk
  obtain ⟨_,_,_,h₂⟩ := decodeField_parts hv
  simp only at h₁ h₂ ⊢
  omega

/-- Pairs that decode take at least the bytes of their lengths. -/
theorem decodePairs_length {n : ℕ} {bs rest : List UInt8} {ps : List Pair}
    (h : decodePairs w n bs = some (ps,rest)) : ps.length = n ∧ 2*w*n ≤ bs.length := by
  induction n generalizing bs ps with
  | zero =>
    obtain ⟨rfl,rfl⟩ := Prod.mk.inj (Option.some.inj h)
    simp
  | succ n ih =>
    simp only [decodePairs,Option.bind_eq_bind,Option.bind_eq_some_iff] at h
    obtain ⟨⟨p,bs'⟩,hp,⟨ps',bs''⟩,hps,heq⟩ := h
    obtain ⟨rfl,rfl⟩ := Prod.mk.inj (Option.some.inj heq)
    have hlen := decodePair_length hp
    obtain ⟨hcount,hle⟩ := ih hps
    simp only at hlen hle
    refine ⟨by simp [hcount],?_⟩
    rw [Nat.mul_succ]
    omega

/-- A block that decodes begins with the number of its pairs and has room for their lengths. -/
theorem decode_count {bs rest : List UInt8} {ps : List Pair} (h : decode w bs = some (ps,rest)) :
    beNat (bs.take w) = ps.length ∧ w+2*w*ps.length ≤ bs.length := by
  unfold decode at h
  split_ifs at h with hlen
  obtain ⟨hcount,hle⟩ := decodePairs_length h
  rw [List.length_drop,← hcount] at hle
  exact ⟨hcount.symm,by omega⟩

/-- The first pair stands behind the count. -/
theorem decode_first {bs rest : List UInt8} {p : Pair} {ps : List Pair}
    (h : decode w bs = some (p::ps,rest)) : ∃ bs', decodePair w (bs.drop w) = some (p,bs') := by
  have hcount := (decode_count h).1
  unfold decode at h
  split_ifs at h with hlen
  rw [hcount,List.length_cons] at h
  simp only [decodePairs,Option.bind_eq_bind,Option.bind_eq_some_iff] at h
  obtain ⟨⟨q,bs'⟩,hq,⟨qs,bs''⟩,_,heq⟩ := h
  obtain ⟨hcons,_⟩ := Prod.mk.inj (Option.some.inj heq)
  obtain ⟨rfl,rfl⟩ := List.cons.inj hcons
  exact ⟨bs',hq⟩

end PairBlock
