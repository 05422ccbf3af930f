import Http2d.Cache
import Http2d.ConfigNumbers
import Http2d.Library.WhileLoop

/-! `http2d_cache_configure`: the size of a cache, from the configuration. -/
namespace Http2d

open WhileLoop

/-- `max_size`. -/
def maxSizeKey : List UInt8 := [109,97,120,95,115,105,122,101]

/-- The child is a size for `http2d_cache_configure`. -/
def ConfigNode.isMaxSize (subconf : ConfigNode) : Bool :=
  bufferCaseCmpBuf subconf.key.bytes maxSizeKey = 0

/-- The loop over the children; the value goes into `max_size` as soon as it is read. -/
def readMaxSize : List ConfigNode → ℤ → Exec (Ret × ℤ)
  | [], maxSize => .ok (.ok,maxSize)
  | subconf::rest, maxSize =>
    if subconf.isMaxSize then do
      let str ← subconf.val.cstr
      match atoi (charText str) with
      | none => .ok (.error,maxSize)
      | some n => readMaxSize rest n
    else readMaxSize rest maxSize

/-- One turn of the rounding loop. -/
def roundTurn (maxSize : ℤ) : Turn ℤ (Exec ℤ) :=
  if maxSize.tmod 4 = 0 then .stop (.ok maxSize)
  else
    match intValue (maxSize+1) with
    | .ok m => .again m
    | .error e => .stop (.error e)

/-- `http2d_cache_configure`; `fuel` bounds the turns of the rounding. -/
def Cache.configure (fuel : ℕ) (conf : ConfigNode) (cache : Cache) : Option (Exec (Ret × Cache)) :=
  match readMaxSize conf.child cache.maxSize with
  | .error e => some (.error e)
  | .ok (.ok,m) => (run roundTurn fuel m).map fun r => r.map fun m => (.ok,{cache with maxSize := m})
  | .ok (ret,m) => some (.ok (ret,{cache with maxSize := m}))

/-- The sizes that the eviction works with. -/
def Usable (m : ℤ) : Prop := 0 < m ∧ 4 ∣ m

/-- The call returns, and whatever it returns the cache has a usable size. -/
def ConfiguresUsable (conf : ConfigNode) (cache : Cache) : Prop :=
  ∃ fuel ret cache', cache.configure fuel conf = some (.ok (ret,cache')) ∧ Usable cache'.maxSize

/-- The values of the children that set the size, in order. -/
def sizeValues (conf : ConfigNode) : List BufText :=
  (conf.child.filter ConfigNode.isMaxSize).map ConfigNode.val

/-- The number that `http2d_atoi` reads from a value. -/
def sizeNumber (val : BufText) : Option ℤ := val.bind fun s => atoi (charText (cString s))

/-- The last of the sizes that can be read up to the first that cannot, or else the old size. -/
def lastSize (vals : List BufText) (m : ℤ) : ℤ :=
  (((vals.takeWhile fun v => (sizeNumber v).isSome).filterMap sizeNumber).getLast?).getD m

/-- The first value that cannot be read. -/
def unreadable (vals : List BufText) : Option BufText := vals.find? fun v => (sizeNumber v).isNone

/-- The last size is positive and can be rounded up, when all are read. Where a number is out of range
the size in front of it needs no rounding, and there is no size without a text. -/
def SizesFit (vals : List BufText) (m : ℤ) : Prop :=
  match unreadable vals with
  | none => 0 < lastSize vals m ∧ lastSize vals m ≤ 2^31-4
  | some none => False
  | some (some _) => Usable (lastSize vals m)

section Rounding
variable {m : ℤ}

theorem roundTurn_stop (h : m % 4 = 0) : roundTurn m = .stop (.ok m) :=
  if_pos (Int.tmod_eq_zero_of_dvd (Int.dvd_of_emod_eq_zero h))

theorem roundTurn_other (h : m % 4 ≠ 0) : roundTurn m =
    match intValue (m+1) with
    | .ok m => .again m
    | .error e => .stop (.error e) :=
  if_neg fun hmod => h (Int.emod_eq_zero_of_dvd (Int.dvd_of_tmod_eq_zero hmod))

/-- The next multiple of four is `k` away; it can be one more than the largest `int`. -/
theorem roundTurn_run (hm : IsInt m) (k : ℕ) (hk : k < 4) (hmod : (m+k) % 4 = 0) :
    run roundTurn (k+1) m = some (intValue (m+k)) := by
  induction k generalizing m with
  | zero =>
    rw [run_stop (roundTurn_stop (by omega)),Nat.cast_zero,add_zero,intValue_eq hm]
  | succ k ih =>
    push_cast at hmod ⊢
    have hturn := roundTurn_other (m:=m) (by omega)
    by_cases hnext : IsInt (m+1)
    · rw [intValue_eq hnext] at hturn
      rw [run_again hturn,ih hnext (by omega) (by omega)]
      congr 2
      omega
    · obtain ⟨hlo,hhi⟩ := hm
      have hlast : m+1 = 2^31 := by
        unfold IsInt at hnext
        omega
      obtain rfl : k = 0 := by omega
      rw [intValue_not hnext] at hturn
      rw [run_stop hturn,Nat.cast_zero,zero_add,intValue_not hnext]

/-- The rounding ends, with a usable size exactly if the size was positive and a multiple of four
is left above it. -/
theorem round_usable_iff (hm : IsInt m) :
    (∃ fuel n, run roundTurn fuel m = some (.ok n) ∧ Usable n) ↔ 0 < m ∧ m ≤ 2^31-4 := by
  obtain ⟨k,hk,hmod⟩ : ∃ k : ℕ, k < 4 ∧ (m+k) % 4 = 0 := ⟨((-m) % 4).toNat,by omega,by omega⟩
  have hrun := roundTurn_run hm k hk hmod
  obtain ⟨hlo,hhi⟩ := hm
  constructor
  · rintro ⟨fuel,n,hn,hpos,hdvd⟩
    have hvalue := run_unique hrun hn
    obtain ⟨-,hlt⟩ : IsInt (m+k) := by
      by_contra hnot
      rw [intValue_not hnot] at hvalue
      cases hvalue
    rw [intValue_eq ⟨by omega,hlt⟩] at hvalue
    cases hvalue
    omega
  · rintro ⟨hpos,hle⟩
    exact ⟨k+1,m+k,by rw [hrun,intValue_eq ⟨by omega,by omega⟩],by omega,by omega⟩

end Rounding

section Reading
variable {val : BufText} {vals : List BufText} {m n : ℤ}

theorem sizeNumber_isInt (h : sizeNumber val = some n) : IsInt n := by
  obtain ⟨s,-,hs⟩ := Option.bind_eq_some_iff.mp h
  rw [← strtol_of_atoi hs]
  generalize (strtol (charText (cString s))).1 = x
  have hlo := Int.le_bmod (x:=x) (m:=2^32) (by decide)
  have hhi := Int.bmod_lt (x:=x) (m:=2^32) (by decide)
  exact ⟨by omega,by omega⟩

theorem lastSize_read (h : sizeNumber val = some n) : lastSize (val::vals) m = lastSize vals n := by
  simp [lastSize,h,List.getLast?_cons]

theorem lastSize_unread (h : sizeNumber val = none) : lastSize (val::vals) m = m := by
  simp [lastSize,h]

theorem lastSize_isInt (hm : IsInt m) : IsInt (lastSize vals m) := by
  induction vals generalizing m with
  | nil => exact hm
  | cons val vals ih =>
    cases hn : sizeNumber val with
    | none => rwa [lastSize_unread hn]
    | some n =>
      rw [lastSize_read hn]
      exact ih (sizeNumber_isInt hn)

/-- The children are read up to the first that has no number of 64 bits; `strtol` wants a block. -/
theorem readMaxSize_eq (l : List ConfigNode) (m : ℤ) : readMaxSize l m =
    let vals := (l.filter ConfigNode.isMaxSize).map ConfigNode.val
    match unreadable vals with
    | none => .ok (.ok,lastSize vals m)
    | some none => .error .fault
    | some (some _) => .ok (.error,lastSize vals m) := by
  induction l generalizing m with
  | nil => rfl
  | cons subconf l ih =>
    by_cases hkey : subconf.isMaxSize = true
    · rw [readMaxSize,if_pos hkey,List.filter_cons_of_pos hkey,List.map_cons]
      dsimp only
      cases hn : sizeNumber subconf.val with
      | none =>
        have hfirst : unreadable (subconf.val::(l.filter ConfigNode.isMaxSize).map ConfigNode.val) =
            some subconf.val := List.find?_cons_of_pos (by rw [hn]; rfl)
        rw [hfirst,lastSize_unread hn]
        cases hval : subconf.val with
        | none => rfl
        | some s =>
          rw [hval] at hn
          have hatoi : atoi (charText (cString s)) = none := hn
          simp [BufText.cstr,hatoi]
      | some n =>
        obtain ⟨s,hval,hatoi⟩ := Option.bind_eq_some_iff.mp hn
        have hrest : unreadable (subconf.val::(l.filter ConfigNode.isMaxSize).map ConfigNode.val) =
            unreadable ((l.filter ConfigNode.isMaxSize).map ConfigNode.val) :=
          List.find?_cons_of_neg (by simp [hn])
        rw [hrest,lastSize_read hn,hval]
        simp only [BufText.cstr,ok_bind,hatoi]
        exact ih n
    · rw [readMaxSize,if_neg hkey,List.filter_cons_of_neg hkey]
      exact ih m

end Reading

/-- A configured cache is usable exactly when the sizes fit. -/
theorem configuresUsable_iff (conf : ConfigNode) {cache : Cache} (h : IsInt cache.maxSize) :
    ConfiguresUsable conf cache ↔ SizesFit (sizeValues conf) cache.maxSize := by
  have hread := readMaxSize_eq conf.child cache.maxSize
  rw [← sizeValues] at hread
  dsimp only at hread
  unfold ConfiguresUsable Cache.configure SizesFit
  rw [hread]
  have hint : IsInt (lastSize (sizeValues conf) cache.maxSize) := lastSize_isInt h
  generalize lastSize (sizeValues conf) cache.maxSize = last at hint ⊢
  rcases unreadable (sizeValues conf) with _|_|s
  · rw [← round_usable_iff hint]
    constructor
    · rintro ⟨fuel,ret,cache',hrun,husable⟩
      obtain ⟨r,hr,hmap⟩ := Option.map_eq_some_iff.mp hrun
      cases r with
      | error e => cases hmap
      | ok n =>
        cases hmap
        exact ⟨fuel,n,hr,husable⟩
    · rintro ⟨fuel,n,hr,husable⟩
      exact ⟨fuel,.ok,{cache with maxSize := n},by simp only [hr]; rfl,husable⟩
  · simp
  · constructor
    · rintro ⟨fuel,ret,cache',hrun,husable⟩
      cases hrun
      exact husable
    · exact fun husable => ⟨0,.error,{cache with maxSize := last},rfl,husable⟩

/-- `max_size = 10` gives a size of 12. -/
theorem configuresUsable_ten :
    ConfiguresUsable ⟨none,none,[⟨some maxSizeKey,some [49,48],[]⟩]⟩ (.init 40) := by
  have hvals : sizeValues ⟨none,none,[⟨some maxSizeKey,some [49,48],[]⟩]⟩ = [some [49,48]] := by decide
  have hsize : lastSize [some [49,48]] 40 = 10 ∧ unreadable [some [49,48]] = none := by decide
  refine (configuresUsable_iff _ ⟨by decide,by decide⟩).mpr ?_
  rw [hvals,SizesFit,hsize.2]
  exact ⟨by rw [Cache.init,hsize.1]; decide,by rw [Cache.init,hsize.1]; decide⟩

/-- `max_size = 2147483647`: the rounding passes the largest `int`. -/
theorem not_configuresUsable_largest : ¬ ConfiguresUsable
    ⟨none,none,[⟨some maxSizeKey,some [50,49,52,55,52,56,51,54,52,55],[]⟩]⟩ (.init 40) := by
  rintro ⟨fuel,ret,cache',hrun,-⟩
  have hread : readMaxSize [⟨some maxSizeKey,some [50,49,52,55,52,56,51,54,52,55],[]⟩]
      (Cache.init 40).maxSize = .ok (.ok,2^31-1) := by decide +kernel
  have hround : run roundTurn 1 (2^31-1) = some (.error .fault) := by decide +kernel
  unfold Cache.configure at hrun
  rw [hread] at hrun
  obtain ⟨r,hr,hmap⟩ := Option.map_eq_some_iff.mp hrun
  rw [run_unique hr hround] at hmap
  cases hmap

end Http2d
