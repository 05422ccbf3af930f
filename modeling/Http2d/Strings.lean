import Http2d.Common

/-! The functions of `string.h` that the code calls.
A string is what is read from its first byte on; a search that runs out of the object faults. -/
namespace Http2d

/-- `strchr` of the string that starts at the front; it stands at `p`. -/
def strchr (c : UInt8) : List UInt8 → ℕ → Exec (Option ℕ)
  | [], _ => .error .fault
  | b::bs, p => if b = c then .ok (some p) else if b = 0 then .ok none else strchr c bs (p+1)

/-- `strstr`. -/
def strstr (pat : List UInt8) : List UInt8 → ℕ → Exec (Option ℕ)
  | [], _ => .error .fault
  | b::bs, p =>
    if pat <+: b::bs then .ok (some p) else if b = 0 then .ok none else strstr pat bs (p+1)

/-- `strlen`. -/
def strlen : List UInt8 → Exec ℕ
  | [] => .error .fault
  | b::bs => if b = 0 then .ok 0 else (strlen bs).map (·+1)

/-- `tolower` in the C locale. -/
def tolower (c : UInt8) : UInt8 := if 65 ≤ c ∧ c ≤ 90 then c+32 else c

/-- `strncmp` of two strings after `fold`: the first difference within `n` bytes, up to the
terminator. -/
def strnCompare (fold : UInt8 → UInt8) : ℕ → List UInt8 → List UInt8 → ℤ
  | 0, _, _ => 0
  | n+1, a, b =>
    if fold (a.headD 0) ≠ fold (b.headD 0) then
      ((fold (a.headD 0)).toNat : ℤ)-(fold (b.headD 0)).toNat
    else if a.headD 0 = 0 then 0
    else strnCompare fold n a.tail b.tail

def strncmp : ℕ → List UInt8 → List UInt8 → ℤ := strnCompare id

def strncasecmp : ℕ → List UInt8 → List UInt8 → ℤ := strnCompare tolower

section Search
variable {c : UInt8} {xs ys rest : List UInt8} {p : ℕ}

theorem strchr_append (h : ∀ b ∈ xs, b ≠ c ∧ b ≠ 0) : strchr c (xs ++ ys) p = strchr c ys (p+xs.length) := by
  induction xs generalizing p with
  | nil => rfl
  | cons b bs ih =>
    obtain ⟨⟨hc,h0⟩,hbs⟩ := List.forall_mem_cons.mp h
    rw [List.cons_append,strchr,if_neg hc,if_neg h0,ih hbs,List.length_cons]
    congr 1
    omega

theorem strchr_nul (hc : c ≠ 0) : strchr c (0::rest) p = .ok none := by
  rw [strchr,if_neg (Ne.symm hc),if_pos rfl]

/-- In a terminated string the search ends inside. -/
theorem strchr_ok (xs rest : List UInt8) (p : ℕ) : ∃ r, strchr c (xs ++ 0::rest) p = .ok r ∧
    ∀ q ∈ r, p ≤ q := by
  induction xs generalizing p with
  | nil =>
    by_cases hc : (0 : UInt8) = c
    · exact ⟨some p,by rw [List.nil_append,strchr,if_pos hc],by simp⟩
    · exact ⟨none,by rw [List.nil_append,strchr,if_neg hc,if_pos rfl],by simp⟩
  | cons b bs ih =>
    obtain ⟨r,hr,hle⟩ := ih (p+1)
    rw [List.cons_append,strchr]
    split_ifs
    · exact ⟨some p,rfl,by simp⟩
    · exact ⟨none,rfl,by simp⟩
    · exact ⟨r,hr,fun q hq => by have := hle q hq; omega⟩

theorem strstr_append {pat : List UInt8} (hpat : pat.head? = some c) (h : ∀ b ∈ xs, b ≠ c ∧ b ≠ 0) :
    strstr pat (xs ++ ys) p = strstr pat ys (p+xs.length) := by
  induction xs generalizing p with
  | nil => rfl
  | cons b bs ih =>
    obtain ⟨⟨hc,h0⟩,hbs⟩ := List.forall_mem_cons.mp h
    have hno : ¬ pat <+: b::(bs ++ ys) := by
      rintro ⟨t,ht⟩
      cases pat with
      | nil => cases hpat
      | cons d ds =>
        rw [List.head?_cons,Option.some_inj] at hpat
        exact hc ((List.cons.inj ht).1.symm.trans hpat)
    rw [List.cons_append,strstr,if_neg hno,if_neg h0,ih hbs,List.length_cons]
    congr 1
    omega

theorem strlen_eq (h : 0 ∉ xs) : strlen (xs ++ 0::rest) = .ok xs.length := by
  induction xs with
  | nil => rfl
  | cons b bs ih =>
    obtain ⟨h0,hbs⟩ := not_or.mp (List.mem_cons.not.mp h)
    rw [List.cons_append,strlen,if_neg (Ne.symm h0),ih hbs]
    rfl

end Search

section Compare
variable {a b c : List UInt8} {n : ℕ}

theorem strncmp_succ (n : ℕ) (a b : List UInt8) :
    strncmp (n+1) a b =
      if a.headD 0 ≠ b.headD 0 then ((a.headD 0).toNat : ℤ)-(b.headD 0).toNat
      else if a.headD 0 = 0 then 0 else strncmp n a.tail b.tail := rfl

theorem strncmp_bound (n : ℕ) (a b : List UInt8) : -256 < strncmp n a b ∧ strncmp n a b < 256 := by
  induction n generalizing a b with
  | zero => simp [strncmp,strnCompare]
  | succ n ih =>
    have hx := (a.headD 0).toNat_lt
    have hy := (b.headD 0).toNat_lt
    rw [strncmp_succ]
    split_ifs
    · omega
    · omega
    · exact ih _ _

theorem strncmp_neg (n : ℕ) (a b : List UInt8) : strncmp n a b = -strncmp n b a := by
  induction n generalizing a b with
  | zero => rfl
  | succ n ih =>
    rw [strncmp_succ,strncmp_succ,ih a.tail]
    generalize a.headD 0 = x
    generalize b.headD 0 = y
    by_cases hxy : x = y
    · subst hxy
      rw [if_neg (not_not.mpr rfl),if_neg (not_not.mpr rfl)]
      split_ifs
      · rfl
      · rfl
    · rw [if_pos hxy,if_pos (Ne.symm hxy)]
      omega

/-- Equal strings without a NUL in them. -/
theorem strncmp_eq_zero (hlen : a.length = b.length) (ha : 0 ∉ a) :
    strncmp b.length a b = 0 ↔ a = b := by
  induction a generalizing b with
  | nil =>
    cases b with
    | nil => simp [strncmp,strnCompare]
    | cons y b => cases hlen
  | cons x a ih =>
    cases b with
    | nil => cases hlen
    | cons y b =>
      obtain ⟨hx,ha⟩ := not_or.mp (List.mem_cons.not.mp ha)
      rw [List.length_cons,strncmp_succ,List.headD_cons,List.headD_cons,if_neg (Ne.symm hx),
        List.tail_cons,List.tail_cons,List.cons.injEq,
        ← ih (Nat.succ.inj hlen) ha]
      by_cases hxy : x = y
      · simp [hxy]
      · have : x.toNat ≠ y.toNat := fun heq => hxy (UInt8.toNat_inj.mp heq)
        simp only [ne_eq,hxy,not_false_eq_true,if_true,false_and,iff_false]
        omega

theorem strncmp_trans (n : ℕ) (a b c : List UInt8) (hab : strncmp n a b < 0)
    (hbc : strncmp n b c < 0) : strncmp n a c < 0 := by
  induction n generalizing a b c with
  | zero => cases hab
  | succ n ih =>
    rw [strncmp_succ] at hab hbc ⊢
    have ih := ih a.tail b.tail c.tail
    generalize a.headD 0 = x at *
    generalize b.headD 0 = y at *
    generalize c.headD 0 = z at *
    have hinj {u v : UInt8} : u.toNat = v.toNat → u = v := UInt8.toNat_inj.mp
    by_cases hxy : x = y
    · subst hxy
      by_cases hxz : x = z
      · subst hxz
        grind
      · rw [if_pos hxz] at hbc ⊢
        exact hbc
    · rw [if_pos hxy] at hab
      by_cases hyz : y = z
      · subst hyz
        rwa [if_pos hxy]
      · rw [if_pos hyz] at hbc
        rw [if_pos (by rintro rfl; omega)]
        omega

/-- What `strncasecmp` takes for equal is equal in lower case. -/
theorem strncasecmp_eq_zero {a b : List UInt8} (hlen : a.length = b.length) (ha : 0 ∉ a)
    (h : strncasecmp b.length a b = 0) : a.map tolower = b.map tolower := by
  induction a generalizing b with
  | nil =>
    cases b with
    | nil => rfl
    | cons => cases hlen
  | cons x a ih =>
    cases b with
    | nil => cases hlen
    | cons y b =>
      obtain ⟨hx,ha⟩ := not_or.mp (List.mem_cons.not.mp ha)
      rw [List.length_cons,strncasecmp,strnCompare] at h
      simp only [List.headD_cons,List.tail_cons,Ne.symm hx,if_false] at h
      split_ifs at h with hfold
      · exact absurd (UInt8.toNat_inj.mp (by omega)) hfold
      · rw [List.map_cons,List.map_cons,not_not.mp hfold,ih (Nat.succ.inj hlen) ha h]

/-- No other byte is a letter's place. -/
theorem tolower_eq_iff {c d : UInt8} (hd : d < 65) : tolower c = d ↔ c = d := by
  have hlt := UInt8.lt_iff_toNat_lt.mp hd
  unfold tolower
  split_ifs with hupper
  · have hlo := UInt8.le_iff_toNat_le.mp hupper.1
    have hhi := UInt8.le_iff_toNat_le.mp hupper.2
    rw [← UInt8.toNat_inj,← UInt8.toNat_inj,UInt8.toNat_add]
    simp only [UInt8.reduceToNat] at *
    omega
  · rfl

theorem byte_sub_ne {a b : UInt8} (h : a ≠ b) : (a.toNat : ℤ)-b.toNat ≠ 0 := by
  have hne : a.toNat ≠ b.toNat := fun heq => h (UInt8.toNat_inj.mp heq)
  omega

/-- A comparison over a whole name asks whether the string begins with it. -/
theorem strncasecmp_front {s name tail : List UInt8} (hname : 0 ∉ name) (hs : 0 ∉ s) :
    strncasecmp name.length (s ++ 0::tail) name = 0 ↔ name.map tolower <+: s.map tolower := by
  induction name generalizing s with
  | nil => simp [strncasecmp,strnCompare]
  | cons c name ih =>
    obtain ⟨hc,hname⟩ := not_or.mp (List.mem_cons.not.mp hname)
    rw [List.length_cons,strncasecmp,strnCompare]
    cases s with
    | nil =>
      have hne : tolower 0 ≠ tolower c := fun h => hc ((tolower_eq_iff (by decide)).mp h.symm).symm
      rw [List.nil_append,List.headD_cons,List.headD_cons,if_pos hne,List.map_nil,List.prefix_nil]
      exact iff_of_false (byte_sub_ne hne) (List.cons_ne_nil _ _)
    | cons b s =>
      obtain ⟨hb,hs⟩ := not_or.mp (List.mem_cons.not.mp hs)
      simp only [List.cons_append,List.headD_cons,List.tail_cons,List.map_cons,List.cons_prefix_cons,
        Ne.symm hb,if_false]
      by_cases hfold : tolower b = tolower c
      · rw [if_neg (not_not.mpr hfold),← ih hname hs]
        simp [hfold,strncasecmp]
      · rw [if_pos hfold]
        exact iff_of_false (byte_sub_ne hfold) fun h => hfold h.1.symm

end Compare

end Http2d
