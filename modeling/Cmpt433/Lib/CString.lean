import Mathlib

/-!
# C strings in memory

Memory from some address on is a list of bytes; what lies beyond its end counts as NUL.  A string
is what stands before the first NUL (`cstring`).

* `strncmp`, `strcpy`, `strcat` — the library functions; a literal is the list of its characters'
  codes.
* `sscanf_d` — the directive `%d`: blanks, an optional sign, digits; `atoi` scans the same.
* `dispatch` — a chain of comparisons with the names of commands.
* `decimal` — a number printed with `%d`.
* `terminated` — bytes put at the start of a buffer, with a NUL after them.

Principal results: what is copied is read back whatever the buffer held (`cstring_strcpy`), which
command is found depends only on the bytes that were put there (`dispatch_terminated`), and a buffer
keeps its length where the string and its NUL fit (`terminated_length`).
-/

set_option autoImplicit false

namespace CString

abbrev Bytes := List UInt8

/-- A string literal. -/
def lit (s : String) : Bytes := s.toList.map fun c => c.toNat.toUInt8

def cstring (mem : Bytes) : Bytes := mem.takeWhile (· ≠ 0)

/-- The buffer `mem` with `s` and a NUL put at its start. -/
def terminated (s mem : Bytes) : Bytes := s ++ 0 :: mem.drop (s.length + 1)

def strcpy (dst src : Bytes) : Bytes := terminated (cstring src) dst

def strcat (dst src : Bytes) : Bytes := terminated (cstring dst ++ cstring src) dst

def strncmp (s t : Bytes) : Nat → Int
  | 0 => 0
  | n + 1 =>
    if s.headD 0 ≠ t.headD 0 then (s.headD 0).toNat - (t.headD 0).toNat
    else if s.headD 0 = 0 then 0
    else strncmp s.tail t.tail n

/-- `if (strncmp(name, mem, len) == 0) … else if …`: the command that is found. -/
def dispatch {C : Type} (name : C → Bytes) (len : C → Nat) (cs : List C) (mem : Bytes) : Option C :=
  cs.find? fun c => strncmp (name c) mem (len c) = 0

def isspace (b : UInt8) : Bool := b == 32 || 9 ≤ b && b ≤ 13

def isdigit (b : UInt8) : Bool := 48 ≤ b && b ≤ 57

/-- What is left of the string after the blanks at its start. -/
def afterBlanks (mem : Bytes) : Bytes := (cstring mem).dropWhile isspace

def INT_MAX : Int := 2147483647
def INT_MIN : Int := -2147483648

/-- The value of a row of digits. -/
def digitsValue (ds : Bytes) : Int := ds.foldl (fun n d => 10 * n + (d.toNat - 48 : Int)) 0

def signed (t : Bytes) : Option Int :=
  let (sign, rest) := match t with
    | 45 :: rest => ((-1 : Int), rest)
    | 43 :: rest => (1, rest)
    | rest => (1, rest)
  let ds := rest.takeWhile isdigit
  if ds = [] then none else some (max INT_MIN (min INT_MAX (sign * digitsValue ds)))

/-- `sscanf(mem, "%d", &n)`: its value and `n` afterwards; -1 is `EOF`. -/
def sscanf_d (mem : Bytes) (n : Int) : Int × Int :=
  if afterBlanks mem = [] then (-1, n)
  else match signed (afterBlanks mem) with
    | none => (0, n)
    | some v => (1, v)

def atoi (mem : Bytes) : Int := (signed (afterBlanks mem)).getD 0

@[simp] theorem cstring_nil : cstring [] = [] := rfl

@[simp] theorem cstring_append_zero (s mem : Bytes) : cstring (s ++ 0 :: mem) = cstring s := by
  induction s with
  | nil => simp [cstring]
  | cons b s ih =>
    rw [cstring, cstring, List.cons_append, List.takeWhile_cons, List.takeWhile_cons]
    split
    · exact congrArg (b :: ·) ih
    · rfl

@[simp] theorem cstring_terminated (s mem : Bytes) : cstring (terminated s mem) = cstring s :=
  cstring_append_zero _ _

/-- What is read at an offset inside the bytes that were put there, up to their end. -/
theorem cstring_drop_terminated {s mem : Bytes} {k : Nat} (hk : k ≤ s.length) :
    cstring ((terminated s mem).drop k) = cstring (s.drop k) := by
  rw [terminated, List.drop_append_of_le_length hk, cstring_append_zero]

theorem cstring_cstring (s : Bytes) : cstring (cstring s) = cstring s := by
  rw [cstring, cstring, List.takeWhile_takeWhile]
  simp

@[simp] theorem cstring_strcpy (dst src : Bytes) : cstring (strcpy dst src) = cstring src := by
  rw [strcpy, cstring_terminated, cstring_cstring]

theorem cstring_append (s t : Bytes) :
    cstring (cstring s ++ t) = cstring s ++ cstring t := by
  rw [cstring, cstring, cstring, List.takeWhile_append_of_pos]
  exact fun b hb => by simpa using List.mem_takeWhile_imp hb

@[simp] theorem cstring_strcat (dst src : Bytes) :
    cstring (strcat dst src) = cstring dst ++ cstring src := by
  rw [strcat, cstring_terminated, cstring_append, cstring_cstring]

theorem cstring_foldl_strcat (dst : Bytes) (ss : List Bytes) :
    cstring (ss.foldl strcat dst) = cstring dst ++ (ss.map cstring).flatten := by
  induction ss generalizing dst with
  | nil => simp
  | cons s ss ih => rw [List.foldl_cons, ih]; simp

theorem toNat_sub_ne_zero {a b : UInt8} (h : a ≠ b) : (a.toNat : Int) - b.toNat ≠ 0 := by
  intro hzero
  exact h (UInt8.toNat_inj.mp (by omega))

theorem strncmp_eq_zero_iff {s : Bytes} (hs : ∀ b ∈ s, b ≠ 0) (t : Bytes) :
    strncmp s t s.length = 0 ↔ s <+: t := by
  induction s generalizing t with
  | nil => simp [strncmp]
  | cons a s ih =>
    have ha : a ≠ 0 := hs a List.mem_cons_self
    have ih := ih (fun b hb => hs b (List.mem_cons_of_mem _ hb))
    rw [List.length_cons, strncmp, List.headD_cons, List.tail_cons]
    cases t with
    | nil =>
      rw [List.headD_nil, if_pos ha]
      exact iff_of_false (toNat_sub_ne_zero ha) (by simp)
    | cons b t =>
      rw [List.headD_cons, List.tail_cons, List.cons_prefix_cons, ← ih t]
      by_cases hab : a = b
      · subst hab
        simp [ha]
      · rw [if_pos hab]
        exact iff_of_false (toNat_sub_ne_zero hab) fun h => hab h.1

/-- What is read at an offset inside a copy of the string, up to its end. -/
theorem cstring_drop_cstring {s : Bytes} {k : Nat} (hk : k ≤ (cstring s).length) :
    cstring ((cstring s).drop k) = cstring (s.drop k) := by
  induction s generalizing k with
  | nil => simp
  | cons b s ih =>
    cases k with
    | zero => exact cstring_cstring _
    | succ k =>
      have hcons : cstring (b :: s) = if b = 0 then [] else b :: cstring s := by
        simp [cstring, List.takeWhile_cons]
      rw [hcons] at hk ⊢
      split at hk
      · exact absurd hk (by simp)
      · rename_i hb
        rw [if_neg hb, List.drop_succ_cons, List.drop_succ_cons]
        exact ih (by simpa using hk)

/-- The scan ends at the NUL. -/
theorem sscanf_d_congr {mem mem' : Bytes} (h : cstring mem = cstring mem') (n : Int) :
    sscanf_d mem n = sscanf_d mem' n := by
  rw [sscanf_d, sscanf_d, afterBlanks, afterBlanks, h]

/-- A string without NUL that starts a string in memory ends before its NUL. -/
theorem prefix_cstring {s : Bytes} (hs : ∀ b ∈ s, b ≠ 0) (t : Bytes) :
    s <+: cstring t ↔ s <+: t := by
  constructor
  · exact fun h => h.trans (List.takeWhile_prefix _)
  · rintro ⟨rest, rfl⟩
    rw [cstring, List.takeWhile_append_of_pos (by simpa using hs)]
    exact List.prefix_append _ _

/-- A string without NUL that starts the buffer ends before the terminator. -/
theorem prefix_terminated {s : Bytes} (hs : ∀ b ∈ s, b ≠ 0) (t mem : Bytes) :
    s <+: terminated t mem ↔ s <+: t := by
  unfold terminated
  constructor
  · intro h
    rcases Nat.lt_or_ge t.length s.length with hlong | hshort
    · -- a longer string would contain the terminator
      have hzero : t ++ [0] <+: s := by
        refine @List.prefix_of_prefix_length_le _ _ _ (t ++ 0 :: mem.drop (t.length + 1)) ?_ h ?_
        · exact ⟨mem.drop (t.length + 1), by simp⟩
        · simp; omega
      exact absurd rfl (hs 0 (hzero.subset (by simp)))
    · exact List.prefix_of_prefix_length_le h (List.prefix_append _ _) hshort
  · exact fun h => h.trans (List.prefix_append _ _)

/-- **The command found depends only on what was put into the buffer.** -/
theorem dispatch_terminated {C : Type} {name : C → Bytes} {len : C → Nat} {cs : List C}
    (hname : ∀ c ∈ cs, ∀ b ∈ name c, b ≠ 0) (hlen : ∀ c ∈ cs, len c = (name c).length)
    (s mem : Bytes) :
    dispatch name len cs (terminated s mem) = cs.find? fun c => name c <+: s := by
  refine List.find?_congr fun c hc => decide_eq_decide.mpr ?_
  rw [hlen c hc, strncmp_eq_zero_iff (hname c hc), prefix_terminated (hname c hc)]

/-! ## Numbers in texts -/

theorem cstring_of_nonzero {s : Bytes} (h : ∀ b ∈ s, b ≠ 0) : cstring s = s :=
  List.takeWhile_eq_self_iff.mpr fun b hb => by simpa using h b hb

theorem lit_append (s t : String) : lit (s ++ t) = lit s ++ lit t := by
  unfold lit
  rw [String.toList_append, List.map_append]

/-- The code of a digit. -/
theorem digit_code {c : Char} (h : c.isDigit = true) :
    c.toNat.toUInt8.toNat = c.toNat ∧ 48 ≤ c.toNat ∧ c.toNat ≤ 57 := by
  simp only [Char.isDigit, Bool.and_eq_true, decide_eq_true_eq, ge_iff_le,
    UInt32.le_iff_toNat_le] at h
  have h9 : c.toNat ≤ 57 := h.2
  exact ⟨UInt8.toNat_ofNat_of_lt' (Nat.lt_of_le_of_lt h9 (by decide)), h.1, h9⟩

theorem lit_repr_isdigit {n : Nat} {b : UInt8} (h : b ∈ lit n.repr) : isdigit b := by
  obtain ⟨c, hc, rfl⟩ := List.mem_map.mp h
  rw [Nat.toList_repr] at hc
  obtain ⟨hcode, h0, h9⟩ := digit_code (Nat.isDigit_of_mem_toDigits (by decide) (by decide) hc)
  simp only [isdigit, Bool.and_eq_true, decide_eq_true_eq, UInt8.le_iff_toNat_le, hcode]
  exact ⟨h0, h9⟩

theorem foldl_digits {cs : List Char} (h : ∀ c ∈ cs, c.isDigit = true) (m : Nat) :
    (cs.map fun c => c.toNat.toUInt8).foldl (fun n d => 10 * n + (d.toNat - 48 : Int)) (m : Int) =
      Nat.ofDigitChars 10 cs m := by
  induction cs generalizing m with
  | nil => rfl
  | cons c cs ih =>
    obtain ⟨hc, hcs⟩ := List.forall_mem_cons.mp h
    obtain ⟨hcode, h0, -⟩ := digit_code hc
    have hnext : 10 * (m : Int) + (c.toNat.toUInt8.toNat - 48 : Int) =
        (10 * m + (c.toNat - '0'.toNat) : Nat) := by
      rw [hcode]
      change _ = ((10 * m + (c.toNat - 48) : Nat) : Int)
      omega
    rw [List.map_cons, List.foldl_cons, hnext, ih hcs, Nat.ofDigitChars_cons]

/-- The digits that are printed have the number's value. -/
theorem digitsValue_repr (n : Nat) : digitsValue (lit n.repr) = n := by
  have hdigit : ∀ c ∈ Nat.toDigits 10 n, c.isDigit = true :=
    fun _ => Nat.isDigit_of_mem_toDigits (by decide) (by decide)
  have h := foldl_digits hdigit 0
  rw [Nat.ofDigitChars_ten_toDigits, ← Nat.toList_repr] at h
  exact h

/-- What `%d` prints. -/
def decimal (n : Int) : Bytes := lit (toString n)

/-- The digits of a number and its sign. -/
theorem mem_decimal {n : Int} {b : UInt8} (h : b ∈ decimal n) : b = 45 ∨ isdigit b := by
  unfold decimal at h
  rw [Int.toString_eq_repr, Int.repr_eq_if] at h
  split at h
  · exact .inr (lit_repr_isdigit h)
  · rw [lit_append, List.mem_append] at h
    rcases h with h | h
    · exact .inl (List.mem_singleton.mp h)
    · exact .inr (lit_repr_isdigit h)

/-! ## Lengths -/

theorem lit_length (s : String) : (lit s).length = s.length := by
  rw [lit, List.length_map, String.length_toList]

theorem cstring_length_le (mem : Bytes) : (cstring mem).length ≤ mem.length :=
  (List.takeWhile_prefix _).length_le

/-- A number of at most 20 digits and its sign. -/
theorem lit_int_length {n : Int} (h : n.natAbs < 10 ^ 20) : (lit (toString n)).length ≤ 21 := by
  have hrepr : ∀ m : Nat, m < 10 ^ 20 → m.repr.length ≤ 20 := fun m hm =>
    (Nat.length_repr_le_iff (by decide)).mpr hm
  rw [lit_length, Int.toString_eq_repr, Int.repr_eq_if]
  split
  · have := hrepr n.toNat (by omega)
    omega
  · have := hrepr (-n).toNat (by omega)
    rw [String.length_append]
    have hminus : "-".length = 1 := by decide
    omega

theorem lit_number_length (a b : String) {n : Int} (h : n.natAbs < 10 ^ 20) :
    (lit (a ++ toString n ++ b)).length ≤ a.length + 21 + b.length := by
  have hn := lit_int_length h
  rw [lit_append, lit_append, List.length_append, List.length_append, lit_length a, lit_length b]
  omega

theorem terminated_length {s mem : Bytes} (h : s.length < mem.length) :
    (terminated s mem).length = mem.length := by
  rw [terminated, List.length_append, List.length_cons, List.length_drop]
  omega

theorem strcpy_length {dst src : Bytes} (h : (cstring src).length < dst.length) :
    (strcpy dst src).length = dst.length := terminated_length h

theorem strcat_length {dst src : Bytes}
    (h : (cstring dst).length + (cstring src).length < dst.length) :
    (strcat dst src).length = dst.length :=
  terminated_length (by rwa [List.length_append])

theorem foldl_strcat_length (ss : List Bytes) :
    ∀ dst : Bytes, (cstring dst).length + (ss.map List.length).sum < dst.length →
      (ss.foldl strcat dst).length = dst.length := by
  induction ss with
  | nil => intros; rfl
  | cons s ss ih =>
    intro dst h
    rw [List.map_cons, List.sum_cons] at h
    have hs := cstring_length_le s
    have hstrcat : (strcat dst s).length = dst.length := strcat_length (by omega)
    rw [List.foldl_cons, ih _ ?_, hstrcat]
    rw [hstrcat, cstring_strcat, List.length_append]
    omega

end CString
