/-
# Byte strings and the C library on them

A string is a list of bytes, ordered as `std::char_traits<char>` does (byte by
byte, unsigned). The C library's functions are those of C17 in the "C" locale
on a 64-bit Linux: `strtoul` with base 0 (white space, a sign, then hexadecimal
after `0x`, octal after `0`, decimal otherwise; the greatest value on
overflow; a negated value modulo 2^64), and `atoi`, which is `strtol` with
base 10 cut to an `int`.

A printed number is read back: `strtoul_decimal`, `atoi_printInt`. Of any
string of digits `strtoul` reads the number that the digits write in base 10
(`value`) unless a zero leads them: then they are read in base 8, up to the
first 8 or 9, and that is `value` only below 8 (`strtoul_eq_value_iff`). White
space around a number does not count (`strtoul_space`).

Key definitions: `Str`, `str`, `tolower`, `cstr`, `decimal`, `strtoul`, `atoi`,
`value`.
-/
import Mathlib.Data.List.Lex
import Mathlib.Tactic

namespace CString

/-- Bytes are compared as numbers. -/
instance linearOrderByte : LinearOrder UInt8 where
  le_refl := UInt8.le_refl
  le_trans _ _ _ := UInt8.le_trans
  lt_iff_le_not_ge a b := by
    rw [UInt8.le_iff_toNat_le, UInt8.le_iff_toNat_le, UInt8.lt_iff_toNat_lt]
    omega
  le_antisymm _ _ := UInt8.le_antisymm
  le_total := UInt8.le_total
  toDecidableLE := inferInstance
  toDecidableEq := inferInstance
  toDecidableLT := inferInstance

/-- A `std::string`. -/
abbrev Str := List UInt8

/-- The byte of a character. -/
def ch (c : Char) : UInt8 := UInt8.ofNat c.toNat

/-- The bytes of a string literal. -/
def str (s : String) : Str := s.toList.map ch

/-- The text a C function sees at a pointer: the bytes up to the first NUL. -/
def cstr (s : Str) : Str := s.takeWhile (· ≠ 0)

/-- A string without NUL is read whole, and then what follows it. -/
theorem cstr_append {s : Str} (h : 0 ∉ s) (t : Str) : cstr (s ++ t) = s ++ cstr t :=
  List.takeWhile_append_of_pos fun c hc => by simpa using fun e : c = 0 => h (e ▸ hc)

theorem cstr_of_notMem {s : Str} (h : 0 ∉ s) : cstr s = s := by
  simpa [cstr] using cstr_append h []

/-- Zeros at the end are not read. -/
theorem cstr_append_zeros : ∀ (s : Str) (n : ℕ), cstr (s ++ List.replicate n 0) = cstr s
  | [], n => by simp [cstr]
  | c :: s, n => by
    have ih := cstr_append_zeros s n
    unfold cstr at ih ⊢
    rw [List.cons_append, List.takeWhile_cons, List.takeWhile_cons, ih]

/-- What is behind a NUL is not read. -/
theorem cstr_cut (s t : Str) : cstr (s ++ 0 :: t) = cstr s := by
  unfold cstr
  rw [List.takeWhile_append]
  split
  · rename_i hs
    rw [List.takeWhile_cons_of_neg (by simp), List.append_nil]
    exact (List.IsPrefix.eq_of_length (List.takeWhile_prefix _) hs).symm
  · rfl

theorem zero_notMem_cstr (s : Str) : 0 ∉ cstr s := fun h => by
  have h0 := List.all_eq_true.mp List.all_takeWhile 0 h
  simp at h0

/-- `std::tolower` in the "C" locale. -/
def tolower (c : UInt8) : UInt8 := if 65 ≤ c ∧ c ≤ 90 then c + 32 else c

theorem tolower_tolower (c : UInt8) : tolower (tolower c) = tolower c := by
  unfold tolower
  split
  · rename_i h
    rw [if_neg]
    simp only [UInt8.le_iff_toNat_le, UInt8.toNat_add, UInt8.reduceToNat] at h ⊢
    omega
  · rfl

/-- `isdigit`. -/
def isdigit (c : UInt8) : Bool := decide (ch '0' ≤ c ∧ c ≤ ch '9')

/-- `std::isspace` in the "C" locale. -/
def isspace (c : UInt8) : Bool := c = 32 || (9 ≤ c && c ≤ 13)

/-! ### Printing -/

/-- `std::format("{}", n)` of an unsigned number. -/
def decimal (n : ℕ) : Str := (Nat.toDigits 10 n).map ch

/-- `std::format("{}", z)` of a signed number. -/
def printInt (z : ℤ) : Str := if z < 0 then ch '-' :: decimal z.natAbs else decimal z.natAbs

/-! ### Reading -/

/-- The value of a digit in the base. -/
def digit (base : ℕ) (c : UInt8) : Option ℕ :=
  let v := if 48 ≤ c ∧ c ≤ 57 then c.toNat - 48
    else if 97 ≤ c ∧ c ≤ 122 then c.toNat - 97 + 10
    else if 65 ≤ c ∧ c ≤ 90 then c.toNat - 65 + 10
    else 36
  if v < base then some v else none

/-- The value of the leading digits, on top of `acc`. -/
def readDigits (base : ℕ) (acc : ℕ) : Str → ℕ
  | [] => acc
  | c :: s => match digit base c with
    | some d => readDigits base (base * acc + d) s
    | none => acc

/-- An optional sign: whether it is a minus, and what follows. -/
def sign : Str → Bool × Str
  | [] => (false, [])
  | c :: s => if c = ch '-' then (true, s) else if c = ch '+' then (false, s) else (false, c :: s)

/-- The base that a prefix announces, and the digits: `0x` and a hexadecimal
digit, `0`, or none. -/
def basePrefix (s : Str) : ℕ × Str :=
  if s[0]? = some (ch '0') then
    if (s[1]? = some (ch 'x') ∨ s[1]? = some (ch 'X')) ∧ (s[2]?.bind (digit 16)).isSome then (16, s.drop 2)
    else (8, s)
  else (10, s)

/-- `strtoul(s, nullptr, 0)` of C17; C23, and glibc from 2.38 on, also read
binary digits after `0b`. -/
def strtoul (s : Str) : UInt64 :=
  let (neg, t) := sign (s.dropWhile isspace)
  let (base, ds) := basePrefix t
  let v := readDigits base 0 ds
  if 2 ^ 64 ≤ v then UInt64.ofNat (2 ^ 64 - 1)
  else if neg then 0 - UInt64.ofNat v
  else UInt64.ofNat v

/-- `strtol(s, nullptr, 10)`, as the `int` that `atoi` returns. -/
def atoi (s : Str) : Int32 :=
  let (neg, t) := sign (s.dropWhile isspace)
  let v := readDigits 10 0 t
  Int32.ofInt (if neg then max (-(2 ^ 63)) (-(v : ℤ)) else min (2 ^ 63 - 1) (v : ℤ))

/-! ### A printed number is read back -/

/-- A string that does not go on with a decimal digit. -/
def NoDigit (t : Str) : Prop := ∀ c, t.head? = some c → digit 10 c = none

theorem toNat_ch {c : Char} (h : c.isDigit = true) :
    (ch c).toNat = c.toNat ∧ 48 ≤ c.toNat ∧ c.toNat ≤ 57 := by
  simp only [Char.isDigit, Bool.and_eq_true, decide_eq_true_eq, ge_iff_le, UInt32.le_iff_toNat_le] at h
  have h1 : 48 ≤ c.toNat := h.1
  have h2 : c.toNat ≤ 57 := h.2
  rw [ch, UInt8.toNat_ofNat', Nat.mod_eq_of_lt (by omega)]
  exact ⟨rfl, h1, h2⟩

theorem digit_ch {c : Char} (h : c.isDigit = true) : digit 10 (ch c) = some (c.toNat - '0'.toNat) := by
  obtain ⟨hn, hlo, hhi⟩ := toNat_ch h
  have h1 : (48 : UInt8) ≤ ch c ∧ ch c ≤ 57 := by
    simp only [UInt8.le_iff_toNat_le, hn, UInt8.reduceToNat]
    exact ⟨hlo, hhi⟩
  have hv : '0'.toNat = 48 := rfl
  unfold digit
  rw [if_pos h1, hn, hv, if_pos (by omega)]

/-- The digits of a number are read up to a letter that is no digit. -/
theorem readDigits_digits {t : Str} (ht : NoDigit t) : ∀ (l : List Char) (acc : ℕ),
    (∀ c ∈ l, c.isDigit = true) → readDigits 10 acc (l.map ch ++ t) = Nat.ofDigitChars 10 l acc
  | [], acc, _ => by
    rw [List.map_nil, List.nil_append, Nat.ofDigitChars_nil]
    cases t with
    | nil => rfl
    | cons c t => rw [readDigits, ht c rfl]
  | c :: l, acc, h => by
    rw [List.map_cons, List.cons_append, readDigits, digit_ch (h c List.mem_cons_self)]
    simp only
    rw [readDigits_digits ht l _ fun d hd => h d (List.mem_cons_of_mem _ hd), Nat.ofDigitChars_cons]

theorem isDigit_of_mem_toDigits {n : ℕ} {c : Char} (h : c ∈ Nat.toDigits 10 n) : c.isDigit = true :=
  Nat.isDigit_of_mem_toDigits (by decide) (by decide) h

theorem mem_decimal {n : ℕ} {c : UInt8} (h : c ∈ decimal n) : 48 ≤ c.toNat ∧ c.toNat ≤ 57 := by
  obtain ⟨d, hd, rfl⟩ := List.mem_map.mp h
  obtain ⟨hn, h1, h2⟩ := toNat_ch (isDigit_of_mem_toDigits hd)
  omega

theorem notMem_decimal {n : ℕ} {c : UInt8} (h : c.toNat < 48) : c ∉ decimal n := fun hm => by
  have := (mem_decimal hm).1
  omega

theorem notMem_printInt {z : ℤ} {c : UInt8} (h : c.toNat < 45) : c ∉ printInt z := by
  have hd : c ∉ decimal z.natAbs := notMem_decimal (by omega)
  unfold printInt
  split
  · intro hm
    rcases List.mem_cons.mp hm with rfl | hm
    · exact absurd h (by decide)
    · exact hd hm
  · exact hd

theorem readDigits_decimal (n : ℕ) {t : Str} (ht : NoDigit t) : readDigits 10 0 (decimal n ++ t) = n := by
  rw [decimal, readDigits_digits ht _ 0 fun c hc => isDigit_of_mem_toDigits hc,
    Nat.ofDigitChars_ten_toDigits]

/-- The first letter of a printed number is a digit, and no `0` unless the
number is. -/
theorem decimal_head (n : ℕ) : ∃ c s, decimal n = ch c :: s ∧ c.isDigit = true ∧ (0 < n → c ≠ '0') := by
  induction n using Nat.strong_induction_on with
  | _ n ih =>
    rcases Nat.lt_or_ge n 10 with h | h
    · refine ⟨n.digitChar, [], by rw [decimal, Nat.toDigits_of_lt_base h]; rfl,
        isDigit_of_mem_toDigits (n := n) (by rw [Nat.toDigits_of_lt_base h]; simp), fun h0 => ?_⟩
      interval_cases n <;> decide
    · obtain ⟨c, s, hs, hd, hc⟩ := ih (n / 10) (by omega)
      refine ⟨c, s ++ [ch (n % 10).digitChar], ?_, hd, fun _ => hc (by omega)⟩
      have hcut : Nat.toDigits 10 n = Nat.toDigits 10 (n / 10) ++ [(n % 10).digitChar] :=
        Nat.toDigits_of_base_le (by decide) h
      rw [decimal, hcut, List.map_append, ← decimal, hs]
      rfl

theorem isspace_of_digit {c : Char} (h : c.isDigit = true) :
    isspace (ch c) = false ∧ ch c ≠ ch '-' ∧ ch c ≠ ch '+' := by
  obtain ⟨hn, hlo, hhi⟩ := toNat_ch h
  have hm : (ch '-').toNat = 45 := rfl
  have hp : (ch '+').toNat = 43 := rfl
  refine ⟨?_, fun e => ?_, fun e => ?_⟩
  · simp only [isspace, Bool.or_eq_false_iff, decide_eq_false_iff_not, Bool.and_eq_false_iff,
      ← UInt8.toNat_inj, UInt8.le_iff_toNat_le, UInt8.reduceToNat, hn]
    omega
  · rw [e] at hn
    omega
  · rw [e] at hn
    omega

theorem dropWhile_decimal (n : ℕ) (t : Str) : (decimal n ++ t).dropWhile isspace = decimal n ++ t := by
  obtain ⟨c, s, hs, hd, -⟩ := decimal_head n
  rw [hs, List.cons_append, List.dropWhile_cons_of_neg (by simp [(isspace_of_digit hd).1])]

theorem sign_decimal (n : ℕ) (t : Str) : sign (decimal n ++ t) = (false, decimal n ++ t) := by
  obtain ⟨c, s, hs, hd, -⟩ := decimal_head n
  obtain ⟨-, h1, h2⟩ := isspace_of_digit hd
  rw [hs, List.cons_append, sign, if_neg h1, if_neg h2]

theorem noDigit_nil : NoDigit [] := fun c h => by simp at h

/-- **`strtoul` reads a printed number.** A printed number has no leading zero,
so base 0 is base 10 on it. -/
theorem strtoul_decimal {n : ℕ} (h : n < 2 ^ 64) : strtoul (decimal n) = UInt64.ofNat n := by
  have hsign := sign_decimal n []
  have hdrop := dropWhile_decimal n []
  have hread := readDigits_decimal n noDigit_nil
  rw [List.append_nil] at hsign hdrop hread
  rcases Nat.eq_zero_or_pos n with rfl | h0
  · decide
  · obtain ⟨c, s, hs, hd, hc⟩ := decimal_head n
    have hne : ch c ≠ ch '0' := by
      intro e
      have h1 := (toNat_ch hd).1
      have h2 : (ch '0').toNat = '0'.toNat := rfl
      refine hc h0 (Char.toNat_inj.mp ?_)
      rw [← h1, e, h2]
    have hbase : basePrefix (decimal n) = (10, decimal n) := by
      rw [basePrefix, if_neg (by simpa [hs] using hne)]
    unfold strtoul
    simp only [hdrop, hsign, hbase, hread]
    rw [if_neg (by omega), if_neg (by decide)]

theorem atoi_decimal {n : ℕ} (h : n < 2 ^ 31) {t : Str} (ht : NoDigit t) :
    atoi (decimal n ++ t) = Int32.ofInt n := by
  unfold atoi
  simp only [dropWhile_decimal, sign_decimal, readDigits_decimal n ht, Bool.false_eq_true, ↓reduceIte]
  congr 1
  omega

theorem atoi_minus {n : ℕ} (h : n ≤ 2 ^ 31) {t : Str} (ht : NoDigit t) :
    atoi (ch '-' :: decimal n ++ t) = Int32.ofInt (-n) := by
  have hdrop : (ch '-' :: decimal n ++ t).dropWhile isspace = ch '-' :: (decimal n ++ t) := rfl
  have hsign : sign (ch '-' :: (decimal n ++ t)) = (true, decimal n ++ t) := rfl
  unfold atoi
  simp only [hdrop, hsign, readDigits_decimal n ht, ↓reduceIte]
  congr 1
  omega

/-- **`atoi` reads a printed `short`**, whatever follows that is no digit. -/
theorem atoi_printInt (z : Int16) {t : Str} (ht : NoDigit t) :
    (atoi (printInt z.toInt ++ t)).toInt16 = z := by
  have hlo := z.le_toInt
  have hhi := z.toInt_lt
  have hat : atoi (printInt z.toInt ++ t) = Int32.ofInt z.toInt := by
    unfold printInt
    split
    · rw [atoi_minus (by omega) ht]
      congr 1
      omega
    · rw [atoi_decimal (by omega) ht]
      congr 1
      omega
  rw [hat]
  refine Int16.toInt_inj.mp ?_
  rw [Int32.toInt_toInt16, Int32.toInt_ofInt_of_le (by omega) (by omega)]
  exact Int.bmod_eq_of_le (by omega) (by omega)

/-! ### Any string of digits is read -/

/-- The number that decimal digits write behind those of `acc`. -/
def valueFrom (acc : ℕ) (s : Str) : ℕ := s.foldl (fun n c => 10 * n + (c.toNat - 48)) acc

/-- The number that decimal digits write. -/
def value (s : Str) : ℕ := valueFrom 0 s

theorem valueFrom_cons (acc : ℕ) (c : UInt8) (s : Str) :
    valueFrom acc (c :: s) = valueFrom (10 * acc + (c.toNat - 48)) s := by
  unfold valueFrom
  rw [List.foldl_cons]

theorem toNat_digit {c : UInt8} (h : isdigit c = true) : 48 ≤ c.toNat ∧ c.toNat ≤ 57 := by
  have h0 : (ch '0').toNat = 48 := rfl
  have h9 : (ch '9').toNat = 57 := rfl
  simp only [isdigit, decide_eq_true_eq, UInt8.le_iff_toNat_le, h0, h9] at h
  exact h

theorem digit_eq (base : ℕ) {c : UInt8} (h : isdigit c = true) :
    digit base c = if c.toNat - 48 < base then some (c.toNat - 48) else none := by
  obtain ⟨h1, h2⟩ := toNat_digit h
  have hc : (48 : UInt8) ≤ c ∧ c ≤ 57 := by
    simp only [UInt8.le_iff_toNat_le, UInt8.reduceToNat]
    exact ⟨h1, h2⟩
  simp only [digit, if_pos hc]

theorem readDigits_ten : ∀ (s : Str) (acc : ℕ), (∀ c ∈ s, isdigit c = true) → readDigits 10 acc s = valueFrom acc s
  | [], _, _ => rfl
  | c :: s, acc, h => by
    have hc := h c List.mem_cons_self
    have hlt : c.toNat - 48 < 10 := by
      have := (toNat_digit hc).2
      omega
    rw [readDigits, digit_eq 10 hc, if_pos hlt, valueFrom_cons]
    exact readDigits_ten s _ fun d hd => h d (List.mem_cons_of_mem _ hd)

theorem le_valueFrom : ∀ (s : Str) (acc : ℕ), acc ≤ valueFrom acc s
  | [], _ => le_refl _
  | c :: s, acc => by
    have ih := le_valueFrom s (10 * acc + (c.toNat - 48))
    rw [valueFrom_cons]
    omega

/-- On top of a smaller number, octal reading stays behind. -/
theorem readDigits_eight_lt : ∀ (s : Str) {a b : ℕ}, a < b → (∀ c ∈ s, isdigit c = true) →
    readDigits 8 a s < valueFrom b s
  | [], _, _, hab, _ => hab
  | c :: s, a, b, hab, h => by
    have hle := le_valueFrom s (10 * b + (c.toNat - 48))
    rw [readDigits, digit_eq 8 (h c List.mem_cons_self), valueFrom_cons]
    by_cases hc : c.toNat - 48 < 8
    · rw [if_pos hc]
      exact readDigits_eight_lt s (by omega) fun d hd => h d (List.mem_cons_of_mem _ hd)
    · rw [if_neg hc]
      simp only
      omega

theorem readDigits_eight_le : ∀ (s : Str) (a : ℕ), (∀ c ∈ s, isdigit c = true) → readDigits 8 a s ≤ valueFrom a s
  | [], _, _ => le_refl _
  | c :: s, a, h => by
    have hle := le_valueFrom s (10 * a + (c.toNat - 48))
    have hs : ∀ d ∈ s, isdigit d = true := fun d hd => h d (List.mem_cons_of_mem _ hd)
    rw [readDigits, digit_eq 8 (h c List.mem_cons_self), valueFrom_cons]
    by_cases hc : c.toNat - 48 < 8
    · rw [if_pos hc]
      simp only
      rcases Nat.eq_zero_or_pos a with rfl | ha
      · simpa using readDigits_eight_le s (c.toNat - 48) hs
      · exact (readDigits_eight_lt s (by omega) hs).le
    · rw [if_neg hc]
      simp only
      omega

/-- **Octal and decimal reading of digits agree below 8 only.** -/
theorem readDigits_eight_iff : ∀ {s : Str}, (∀ c ∈ s, isdigit c = true) →
    (readDigits 8 0 s = value s ↔ value s < 8)
  | [], _ => by decide
  | c :: s, h => by
    have hs : ∀ d ∈ s, isdigit d = true := fun d hd => h d (List.mem_cons_of_mem _ hd)
    have hval : value (c :: s) = valueFrom (c.toNat - 48) s := by
      rw [value, valueFrom_cons, Nat.mul_zero, Nat.zero_add]
    rw [hval, readDigits, digit_eq 8 (h c List.mem_cons_self)]
    by_cases hc : c.toNat - 48 < 8
    · rw [if_pos hc]
      simp only [Nat.mul_zero, Nat.zero_add]
      rcases Nat.eq_zero_or_pos (c.toNat - 48) with h0 | h0
      · rw [h0]
        exact readDigits_eight_iff hs
      · cases s with
        | nil => exact ⟨fun _ => hc, fun _ => rfl⟩
        | cons d s =>
          -- a second digit makes the number at least ten
          have hten := le_valueFrom s (10 * (c.toNat - 48) + (d.toNat - 48))
          have hlt : readDigits 8 (c.toNat - 48) (d :: s) < valueFrom (c.toNat - 48) (d :: s) := by
            rw [readDigits, digit_eq 8 (hs d List.mem_cons_self), valueFrom_cons]
            by_cases hd : d.toNat - 48 < 8
            · rw [if_pos hd]
              exact readDigits_eight_lt s (by omega) fun e he => hs e (List.mem_cons_of_mem _ he)
            · rw [if_neg hd]
              simp only
              omega
          rw [valueFrom_cons] at hlt ⊢
          constructor
          · omega
          · omega
    · rw [if_neg hc]
      have hle := le_valueFrom s (c.toNat - 48)
      simp only
      constructor
      · omega
      · omega

/-- The reading of a string of digits: octal after a leading zero. -/
theorem strtoul_eq {s : Str} (hs : ∀ c ∈ s, isdigit c = true) (h0 : s ≠ []) (hlt : value s < 2 ^ 64) :
    (strtoul s).toNat = if s.head? = some (ch '0') then readDigits 8 0 s else value s := by
  have hoct : readDigits 8 0 s ≤ value s := readDigits_eight_le s 0 hs
  have hdec : readDigits 10 0 s = value s := readDigits_ten s 0 hs
  obtain ⟨c, t, rfl⟩ := List.exists_cons_of_ne_nil h0
  obtain ⟨hlo, hhi⟩ := toNat_digit (hs c List.mem_cons_self)
  have hspace : isspace c = false := by
    simp only [isspace, Bool.or_eq_false_iff, decide_eq_false_iff_not, Bool.and_eq_false_iff,
      ← UInt8.toNat_inj, UInt8.le_iff_toNat_le, UInt8.reduceToNat]
    omega
  have hne : ∀ d : UInt8, d.toNat < 48 → c ≠ d := fun d hd e => by
    rw [e] at hlo
    omega
  have hsign : sign ((c :: t).dropWhile isspace) = (false, c :: t) := by
    rw [List.dropWhile_cons_of_neg (by simp [hspace]), sign, if_neg (hne _ (by decide)), if_neg (hne _ (by decide))]
  -- a digit is no `x`
  have hx : ¬ ((c :: t)[1]? = some (ch 'x') ∨ (c :: t)[1]? = some (ch 'X')) := by
    rintro (h | h)
    · exact absurd (hs _ (List.mem_of_getElem? h)) (by decide)
    · exact absurd (hs _ (List.mem_of_getElem? h)) (by decide)
  have hbase : basePrefix (c :: t) = if (c :: t).head? = some (ch '0') then (8, c :: t) else (10, c :: t) := by
    have hhead : (c :: t)[0]? = (c :: t).head? := rfl
    have hpre : ¬ (((c :: t)[1]? = some (ch 'x') ∨ (c :: t)[1]? = some (ch 'X')) ∧
        ((c :: t)[2]?.bind (digit 16)).isSome) := fun h => hx h.1
    rw [basePrefix, if_neg hpre, hhead]
  unfold strtoul
  simp only [hsign, hbase]
  split
  · simp only
    rw [if_neg (by omega), if_neg (by decide), UInt64.toNat_ofNat_of_lt' (lt_of_le_of_lt hoct hlt)]
  · simp only
    rw [if_neg (by omega), if_neg (by decide), hdec, UInt64.toNat_ofNat_of_lt' hlt]

/-- **`strtoul` with base 0 reads decimal digits exactly if they do not start
with a zero, or write a number below 8.** -/
theorem strtoul_eq_value_iff {s : Str} (hs : ∀ c ∈ s, isdigit c = true) (h0 : s ≠ []) (hlt : value s < 2 ^ 64) :
    (strtoul s).toNat = value s ↔ s.head? ≠ some (ch '0') ∨ value s < 8 := by
  rw [strtoul_eq hs h0 hlt]
  by_cases h : s.head? = some (ch '0')
  · rw [if_pos h, readDigits_eight_iff hs]
    exact ⟨Or.inr, fun h' => h'.resolve_left fun hn => hn h⟩
  · rw [if_neg h]
    exact ⟨fun _ => Or.inl h, fun _ => rfl⟩

/-! ### White space around a number -/

/-- White space is no digit. -/
theorem digit_of_isspace {base : ℕ} (hbase : base ≤ 36) {c : UInt8} (h : isspace c = true) : digit base c = none := by
  have hc : c.toNat = 32 ∨ 9 ≤ c.toNat ∧ c.toNat ≤ 13 := by
    simpa only [isspace, Bool.or_eq_true, decide_eq_true_eq, Bool.and_eq_true, ← UInt8.toNat_inj,
      UInt8.le_iff_toNat_le, UInt8.reduceToNat] using h
  have h1 : ¬ (48 ≤ c ∧ c ≤ 57) := by
    simp only [UInt8.le_iff_toNat_le, UInt8.reduceToNat]
    omega
  have h2 : ¬ (97 ≤ c ∧ c ≤ 122) := by
    simp only [UInt8.le_iff_toNat_le, UInt8.reduceToNat]
    omega
  have h3 : ¬ (65 ≤ c ∧ c ≤ 90) := by
    simp only [UInt8.le_iff_toNat_le, UInt8.reduceToNat]
    omega
  unfold digit
  rw [if_neg h1, if_neg h2, if_neg h3, if_neg (by omega)]

/-- The digits end before a letter that is none. -/
theorem readDigits_append {base : ℕ} {w : Str} (hw : ∀ c ∈ w, digit base c = none) :
    ∀ (s : Str) (acc : ℕ), readDigits base acc (s ++ w) = readDigits base acc s
  | [], acc => by
    cases w with
    | nil => rfl
    | cons c w =>
      show (match digit base c with
        | some d => readDigits base (base * acc + d) w
        | none => acc) = acc
      rw [hw c List.mem_cons_self]
  | c :: s, acc => by
    rw [List.cons_append, readDigits, readDigits]
    cases digit base c with
    | none => rfl
    | some d => exact readDigits_append hw s _

section Space

variable {w : Str}

/-- A letter that is no white space stands in front of the white space. -/
theorem getElem?_append_space (hw : ∀ c ∈ w, isspace c = true) {d : UInt8} (hd : isspace d = false) (t : Str) (k : ℕ) :
    (t ++ w)[k]? = some d ↔ t[k]? = some d := by
  rcases Nat.lt_or_ge k t.length with hk | hk
  · rw [List.getElem?_append_left hk]
  · rw [List.getElem?_append_right hk, List.getElem?_eq_none hk]
    constructor
    · intro h
      rw [hw d (List.mem_of_getElem? h)] at hd
      cases hd
    · exact nofun

theorem sign_append (hw : ∀ c ∈ w, isspace c = true) : ∀ t : Str, sign (t ++ w) = ((sign t).1, (sign t).2 ++ w)
  | [] => by
    cases w with
    | nil => rfl
    | cons c w =>
      have hne : ∀ {d}, isspace d = false → c ≠ d := by
        rintro d hd rfl
        rw [hw c List.mem_cons_self] at hd
        cases hd
      show (if c = ch '-' then (true, w) else if c = ch '+' then (false, w) else (false, c :: w)) = _
      rw [if_neg (hne (by decide)), if_neg (hne (by decide))]
      rfl
  | c :: t => by
    rw [List.cons_append, sign, sign]
    split
    · rfl
    · split <;> rfl

theorem basePrefix_append (hw : ∀ c ∈ w, isspace c = true) (t : Str) :
    basePrefix (t ++ w) = ((basePrefix t).1, (basePrefix t).2 ++ w) := by
  have hget : ∀ {d}, isspace d = false → ∀ k : ℕ, (t ++ w)[k]? = some d ↔ t[k]? = some d := fun hd k =>
    getElem?_append_space hw hd t k
  have hdigit : (t ++ w)[2]?.bind (digit 16) = t[2]?.bind (digit 16) := by
    rcases Nat.lt_or_ge 2 t.length with hk | hk
    · rw [List.getElem?_append_left hk]
    · rw [List.getElem?_append_right hk, List.getElem?_eq_none hk]
      cases hc : w[2 - t.length]? with
      | none => rfl
      | some c => exact digit_of_isspace (by decide) (hw c (List.mem_of_getElem? hc))
  unfold basePrefix
  simp only [hget (show isspace (ch '0') = false by decide), hget (show isspace (ch 'x') = false by decide),
    hget (show isspace (ch 'X') = false by decide), hdigit]
  split
  · split
    · rename_i hx
      have hlen : 1 < t.length := by
        rcases hx.1 with h | h
        · exact (List.getElem?_eq_some_iff.mp h).1
        · exact (List.getElem?_eq_some_iff.mp h).1
      rw [List.drop_append_of_le_length hlen]
    · rfl
  · rfl

theorem basePrefix_le (t : Str) : (basePrefix t).1 ≤ 36 := by
  unfold basePrefix
  split
  · split
    · exact (by decide : 16 ≤ 36)
    · exact (by decide : 8 ≤ 36)
  · exact (by decide : 10 ≤ 36)

/-- **White space around a number does not count.** -/
theorem strtoul_space {b : Str} (hb : ∀ c ∈ b, isspace c = true) (v : Str) (hw : ∀ c ∈ w, isspace c = true) :
    strtoul (b ++ v ++ w) = strtoul v := by
  have hdrop : ∃ w', (∀ c ∈ w', isspace c = true) ∧ (b ++ v ++ w).dropWhile isspace = v.dropWhile isspace ++ w' := by
    rw [List.append_assoc, List.dropWhile_append_of_pos hb, List.dropWhile_append]
    split
    · rename_i he
      rw [List.isEmpty_iff.mp he]
      exact ⟨_, fun c hc => hw c (List.dropWhile_suffix _ |>.subset hc), rfl⟩
    · exact ⟨w, hw, rfl⟩
  obtain ⟨w', hw', hdrop⟩ := hdrop
  unfold strtoul
  simp only [hdrop, sign_append hw', basePrefix_append hw']
  rw [readDigits_append fun c hc => digit_of_isspace (basePrefix_le _) (hw' c hc)]

end Space

/-- A number that no zero leads is positive. -/
theorem value_pos {d : Str} (hd : ∀ c ∈ d, isdigit c = true) (hne : d ≠ []) (h0 : d.head? ≠ some (ch '0')) :
    0 < value d := by
  obtain ⟨c, t, rfl⟩ := List.exists_cons_of_ne_nil hne
  have hlo := (toNat_digit (hd c List.mem_cons_self)).1
  have hc : c.toNat ≠ 48 := fun h => h0 (congrArg some (UInt8.toNat_inj.mp h))
  have hle := le_valueFrom t (10 * 0 + (c.toNat - 48))
  rw [value, valueFrom_cons]
  omega

/-- Without its last digit a number that no zero leads is another one. -/
theorem strtoul_dropLast_ne {d : Str} (hd : ∀ c ∈ d, isdigit c = true) (hne : d ≠ []) (h0 : d.head? ≠ some (ch '0'))
    (hlt : value d < 2 ^ 64) : strtoul d.dropLast ≠ strtoul d := by
  intro h
  have hnum : (strtoul d).toNat = value d := by rw [strtoul_eq hd hne hlt, if_neg h0]
  have hpos := value_pos hd hne h0
  obtain ⟨e, c, rfl⟩ := (List.eq_nil_or_concat' d).resolve_left hne
  rw [List.dropLast_concat] at h
  have hval : value (e ++ [c]) = 10 * value e + (c.toNat - 48) := by
    unfold value valueFrom
    rw [List.foldl_append]
    rfl
  rw [← h] at hnum
  rcases eq_or_ne e [] with rfl | he
  · have hzero : (strtoul []).toNat = 0 := by decide
    omega
  · have hhead : e.head? ≠ some (ch '0') := by
      rwa [List.head?_append_of_ne_nil _ he] at h0
    have hdigits : ∀ c ∈ e, isdigit c = true := fun c hc => hd c (List.mem_append_left _ hc)
    have hepos := value_pos hdigits he hhead
    rw [strtoul_eq hdigits he (by omega), if_neg hhead] at hnum
    omega

end CString
