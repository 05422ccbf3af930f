import Http2d.Header
import Http2d.Library.PairBlock

/-! Reading the name/value block of a SYN_STREAM frame.
The read position stands still: every turn of the loop reads the first pair. -/
namespace Http2d

open Bytes PairBlock

/-- The arguments of one call of `http2d_header_add_header`: places in the inflated block and
lengths, both as the code computes them. -/
structure AddCall where
  key : ℤ
  keyLen : ℤ
  val : ℤ
  valLen : ℤ
  deriving DecidableEq, Repr

/-- Read the two lengths of the pair at offset `p`. -/
def readLengths (obj : List UInt8) (p : ℤ) : Exec AddCall := do
  let k ← peek obj p 4
  let lenKey := cint (beNat k)
  let v ← peek obj (p+4+lenKey) 4
  let lenVal := cint (beNat v)
  .ok ⟨p+4,lenKey,p+4+lenKey+4,lenVal⟩

/-- The loop of `read_name_value`; the calls made so far are recorded. -/
def nameValueLoop (obj : List UInt8) : ℕ → Header → List AddCall →
    Exec (Ret × Header × List AddCall)
  | 0, hdr, calls => .ok (.ok,hdr,calls)
  | n+1, hdr, calls => do
    let c ← readLengths obj 4
    let (ret,hdr) ← headerAddHeader obj hdr c.key c.keyLen c.val c.valLen
    if ret ≠ .ok then .ok (.error,hdr,calls ++ [c])
    else nameValueLoop obj n hdr (calls ++ [c])

/-- `read_name_value`, given what `http2d_spdy_zlib_inflate` returned. -/
def readNameValue (inflated : Ret × Buffer) (hdr : Header) :
    Exec (Ret × Header × List AddCall) :=
  if inflated.1 ≠ .ok then .ok (inflated.1,hdr,[])
  else do
    let n ← peek inflated.2.buf 0 4
    nameValueLoop inflated.2.buf (cint (beNat n)).toNat hdr []

/-- Every turn makes the same call. -/
theorem nameValueLoop_log {obj : List UInt8} {n : ℕ} {hdr hdr' : Header} {calls calls' : List AddCall}
    {ret : Ret} (h : nameValueLoop obj n hdr calls = .ok (ret,hdr',calls')) :
    ret = .ok ∧ (n = 0 ∧ calls' = calls ∨
      ∃ c, readLengths obj 4 = .ok c ∧ calls' = calls ++ List.replicate n c) := by
  induction n generalizing hdr calls with
  | zero =>
    obtain ⟨rfl,heq⟩ := Prod.mk.inj (Except.ok.inj h)
    exact ⟨rfl,Or.inl ⟨rfl,(Prod.mk.inj heq).2.symm⟩⟩
  | succ n ih =>
    obtain ⟨c,hc,h⟩ := bind_ok_inv h
    obtain ⟨⟨r,hdr₁⟩,hadd,h⟩ := bind_ok_inv h
    have hr := headerAddHeader_ret hadd
    simp only [hr,ne_eq,not_true_eq_false,if_false] at h
    obtain ⟨hret,hlog⟩ := ih h
    refine ⟨hret,Or.inr ⟨c,hc,?_⟩⟩
    rcases hlog with ⟨rfl,rfl⟩ | ⟨c',hc',rfl⟩
    · rfl
    · rw [hc] at hc'
      cases hc'
      rw [List.append_assoc]
      rfl

/-- The code has no way to refuse a block. -/
theorem readNameValue_ret {tmp : Buffer} {hdr hdr' : Header} {calls : List AddCall} {ret : Ret}
    (h : readNameValue (.ok,tmp) hdr = .ok (ret,hdr',calls)) : ret = .ok := by
  simp only [readNameValue,ne_eq,not_true_eq_false,if_false] at h
  obtain ⟨n,_,h⟩ := bind_ok_inv h
  exact (nameValueLoop_log h).1

/-- Reading succeeds when the first pair lies inside the block. -/
theorem nameValueLoop_returns {obj : List UInt8} {k v : ℕ} (hread : readLengths obj 4 =
      .ok ⟨8,k,8+k+4,v⟩) (hfit : 12+k+v ≤ obj.length) (hk : k < 2^31) (hv : v < 2^31) (n : ℕ)
    {hdr : Header} (hhdr : hdr.Wf) (calls : List AddCall) :
    ∃ hdr', nameValueLoop obj n hdr calls =
      .ok (.ok,hdr',calls ++ List.replicate n ⟨8,k,8+k+4,v⟩) ∧ hdr'.Wf := by
  induction n generalizing hdr calls with
  | zero => exact ⟨hdr,by simp [nameValueLoop],hhdr⟩
  | succ n ih =>
    obtain ⟨hdr₁,hadd,hwf⟩ := headerAddHeader_returns obj 8 k (8+k+4) v hhdr
      (by omega) (by omega) hk (by omega) hv
    push_cast at hadd
    obtain ⟨hdr₂,hrec,hwf₂⟩ := ih hwf (calls ++ [⟨8,k,8+k+4,v⟩])
    refine ⟨hdr₂,?_,hwf₂⟩
    rw [nameValueLoop,hread,ok_bind]
    simp only [hadd,ok_bind,ne_eq,not_true_eq_false,if_false,hrec]
    rw [List.append_assoc]
    rfl

end Http2d
