import Mathlib.Data.BitVec
import Mathlib.Data.Nat.Digits.Lemmas

/-!
# Numbers as text

`_itoa`, `_ltoa` and `_lltoa`, and `atoi`, `atol` and `strtol`, of `stdlib.c` on the EE, where an `int`
has 32 bits and a `long` 64. Characters are their codes: 45 is `-`, 43 is `+`, 48 is `0`, 97 is `a`.
-/

namespace Ps2sdk.Libc

/-- The digits in `tmp`, the last one of the number first. -/
def tmpDigits (radix n : ℕ) : List ℕ :=
  n % radix :: if 1 < radix ∧ n / radix ≠ 0 then tmpDigits radix (n / radix) else []
termination_by n
decreasing_by
  rename_i h
  exact Nat.div_lt_self (Nat.pos_of_div_pos (Nat.pos_of_ne_zero h.2)) h.1

/-- The character of a digit. -/
def digitChar (r : ℕ) : ℕ := if r < 10 then r + 48 else r - 10 + 97

/-- The digits stored in `tmp` and the text in `buf`. -/
structure Text where
  (tmp buf : List ℕ)

/-- The conversion to text: `n` is negated in its own width, and with another radix nothing is written. -/
def toText {w : ℕ} (n : BitVec w) (radix : ℕ) : Text :=
  let neg := radix = 10 ∧ n.toInt < 0
  let tmp := tmpDigits radix (if neg then -n else n).toNat
  if 2 ≤ radix ∧ radix ≤ 36 then ⟨tmp, (if neg then [45] else []) ++ (tmp.map digitChar).reverse⟩ else ⟨[], []⟩

/-- `_itoa`. -/
def itoa (n : BitVec 32) (radix : ℕ) : Text := toText n radix

/-- `_ltoa`. -/
def ltoa (n : BitVec 64) (radix : ℕ) : Text := toText n radix

/-- `_lltoa`. -/
def lltoa (n : BitVec 64) (radix : ℕ) : Text := toText n radix

/-- The value of a digit character. -/
def charDigit (c : ℕ) : ℕ := if c < 97 then c - 48 else c - 97 + 10

/-- The value of the digits of a text. -/
def natValue (radix : ℕ) (s : List ℕ) : ℕ := Nat.ofDigits radix (s.reverse.map charDigit)

/-- The text fits `tmp` of the given size, has no superfluous zero and the value asked for. -/
structure Right {w : ℕ} (size radix : ℕ) (n : BitVec w) (t : Text) : Prop where
  stored : t.tmp.length ≤ size
  text : if radix = 10 ∧ n.toInt < 0 then ∃ s, t.buf = 45 :: s ∧ s.head? ≠ some 48 ∧ (natValue radix s : ℤ) =
    -n.toInt
    else natValue radix t.buf = n.toNat ∧ (t.buf.head? = some 48 → t.buf = [48])

theorem tmpDigits_eq {b : ℕ} (hb : 1 < b) (n : ℕ) : tmpDigits b n = if n = 0 then [0] else b.digits n := by
  fun_induction tmpDigits b n with
  | case1 n ih =>
    rcases Nat.eq_zero_or_pos n with rfl | hn
    · simp
    · rw [if_neg hn.ne', Nat.digits_def' hb hn]
      grind [Nat.digits_zero]

variable {w b : ℕ} (hb : 2 ≤ b)

include hb in
theorem length_tmpDigits_le {size : ℕ} (hs : 0 < size) (n : ℕ) : (tmpDigits b n).length ≤ size ↔ n < b ^ size := by
  rw [tmpDigits_eq hb, ← Nat.digits_length_le_iff hb]
  split <;> simp_all [Nat.succ_le_iff]

/-- A digit is read back from its character, and only zero has the character `0`. -/
theorem charDigit_digitChar (r : ℕ) : charDigit (digitChar r) = r ∧ (digitChar r = 48 → r = 0) := by
  grind [charDigit, digitChar]

include hb in
/-- The text of a number has its value, and a leading zero only for zero. -/
theorem text_tmpDigits (n : ℕ) : let s := ((tmpDigits b n).map digitChar).reverse
    natValue b s = n ∧ (s.head? = some 48 → n = 0 ∧ s = [48]) := by
  simp only [tmpDigits_eq hb, natValue, List.reverse_reverse, List.map_map]
  split
  · subst n
    exact ⟨rfl, fun _ => ⟨rfl, rfl⟩⟩
  · rename_i hn
    have hid : charDigit ∘ digitChar = id := funext fun r => (charDigit_digitChar r).1
    refine ⟨by rw [hid, List.map_id, Nat.ofDigits_digits], fun h => ?_⟩
    have hne := Nat.digits_ne_nil_iff_ne_zero (b := b).2 hn
    rw [List.head?_reverse, List.getLast?_map, List.getLast?_eq_some_getLast hne] at h
    exact absurd ((charDigit_digitChar _).2 (Option.some.inj h)) (Nat.getLast_digit_ne_zero b hn)

theorem toNat_neg_of_neg {n : BitVec w} (h : n.toInt < 0) : ((-n).toNat : ℤ) = -n.toInt := by
  have hlt := n.isLt
  rw [BitVec.toInt_eq_toNat_cond] at h ⊢
  rw [BitVec.toNat_neg, Nat.mod_eq_of_lt (by grind)]
  grind

/-- The conversion is right exactly when `tmp` has room for the digits. -/
theorem right_toText_iff (h : 2 ≤ b ∧ b ≤ 36) {size : ℕ} (hs : 0 < size) (n : BitVec w) :
    Right size b n (toText n b) ↔ (if b = 10 ∧ n.toInt < 0 then -n else n).toNat < b ^ size := by
  rw [← length_tmpDigits_le h.1 hs, toText, if_pos h]
  refine ⟨fun hr => hr.stored, fun hle => ⟨hle, ?_⟩⟩
  have ht := text_tmpDigits h.1
  by_cases hneg : b = 10 ∧ n.toInt < 0
  · have habs := toNat_neg_of_neg hneg.2
    simp only [if_pos hneg, List.cons_append, List.nil_append]
    refine ⟨_, rfl, fun h0 => ?_, by rw [(ht _).1, habs]⟩
    have := ((ht _).2 h0).1
    omega
  · simp only [if_neg hneg, List.nil_append]
    exact ⟨(ht _).1, fun h0 => ((ht _).2 h0).2⟩

/-- `_itoa` and `_lltoa` are right for every number, `_ltoa` exactly for those of at most 33 digits. -/
theorem texts_right_iff {radix : ℕ} (h : 2 ≤ radix ∧ radix ≤ 36) (n : BitVec 32) (l ll : BitVec 64) :
    Right 33 radix n (itoa n radix) ∧ Right 65 radix ll (lltoa ll radix) ∧ Right 33 radix l (ltoa l radix) ↔
      l.toNat < radix ^ 33 := by
  have hpow : ∀ k, 2 ^ k ≤ radix ^ k := fun k => Nat.pow_le_pow_left h.1 k
  have h33 := hpow 33
  have h65 := hpow 65
  have hn := BitVec.isLt (if radix = 10 ∧ n.toInt < 0 then -n else n)
  have hll := BitVec.isLt (if radix = 10 ∧ ll.toInt < 0 then -ll else ll)
  rw [itoa, lltoa, ltoa, right_toText_iff h (by decide), right_toText_iff h (by decide),
    right_toText_iff h (by decide)]
  rcases eq_or_ne radix 10 with rfl | h10
  · have hl := BitVec.isLt (if (10 : ℕ) = 10 ∧ l.toInt < 0 then -l else l)
    omega
  · simp only [h10, false_and, if_false] at *
    omega

/-- A number of 32 bits in base two. -/
theorem texts_right_two : Right 33 2 5#32 (itoa 5#32 2) :=
  ((texts_right_iff (by decide : 2 ≤ 2 ∧ 2 ≤ 36) 5 5 5).2 (by decide)).1

/-- `_ltoa` of a number of 34 binary digits. -/
theorem ltoa_overflow : ¬ Right 33 2 (2 ^ 33 : BitVec 64) (ltoa (2 ^ 33) 2) := by
  rw [ltoa, right_toText_iff (by decide) (by decide)]
  decide

/-- A sign, if there is one: whether it is `-`, and what follows. -/
def sign : List ℕ → Bool × List ℕ
  | [] => (false, [])
  | c :: s => if c = 45 ∨ c = 43 then (c = 45, s) else (false, c :: s)

/-- `isdigit`. -/
def isdigit (c : ℕ) : Bool := 48 ≤ c ∧ c ≤ 57

/-- `atoi` and `atol` for a result of `w` bits. The increment of the first loop is also made behind the
character that ends it. -/
def ato (w : ℕ) (s : List ℕ) : BitVec w :=
  let r := sign (s.dropWhile fun c => c = 32 ∨ c = 9)
  let ret := ((r.2.drop 1).takeWhile isdigit).foldl (fun ret c => ret * 10#w + BitVec.ofNat w (c - 48)) 0#w
  if r.1 then -ret else ret

/-- `atoi`. -/
def atoi (s : List ℕ) : BitVec 32 := ato 32 s

/-- `atol`. -/
def atol (s : List ℕ) : BitVec 64 := ato 64 s

/-- `isspace`. -/
def isspace (c : ℕ) : Bool := 9 ≤ c ∧ c ≤ 13 ∨ c = 32

/-- The value of a character in the loop of `strtol`, beyond every base for one that ends it. -/
def digit (c : ℕ) : ℕ :=
  if isdigit c then c - 48 else if 65 ≤ c ∧ c ≤ 90 then c - 55 else if 97 ≤ c ∧ c ≤ 122 then c - 87 else 36

/-- The loop of `strtol` in base ten, without a result once `any` is negative. -/
def accumulate (limit acc : ℕ) (s : List ℕ) : Option ℕ :=
  s.foldl (fun acc c => acc.bind fun acc =>
    if limit / 10 < acc ∨ acc = limit / 10 ∧ limit % 10 < c then none else some (acc * 10 + c)) (some acc)

/-- `strtol` in base ten, where it skips no `0x`. -/
def strtol (s : List ℕ) : ℤ :=
  let r := sign (s.dropWhile isspace)
  match accumulate (if r.1 then 2 ^ 63 else 2 ^ 63 - 1) 0 ((r.2.map digit).takeWhile (· < 10)) with
  | none => if r.1 then -2 ^ 63 else 2 ^ 63 - 1
  | some acc => if r.1 then -acc else acc

/-- The number that digits make, after `acc`. -/
def number (acc : ℕ) (s : List ℕ) : ℕ := s.foldl (fun acc c => acc * 10 + (c - 48)) acc

/-- Blanks, a sign or none, digits, and a rest that starts with no digit. -/
structure Numeral where
  (blanks sign digits rest : List ℕ)
  first : ℕ
  isBlank : ∀ c ∈ blanks, c = 32 ∨ c = 9
  isSign : sign = [] ∨ sign = [43] ∨ sign = [45]
  isDigit : isdigit first ∧ ∀ c ∈ digits, isdigit c
  ends : ∀ c ∈ rest.head?, ¬ isdigit c

namespace Numeral

variable (x : Numeral)

/-- The string. -/
def text : List ℕ := x.blanks ++ (x.sign ++ x.first :: (x.digits ++ x.rest))

/-- A number under the sign. -/
def signed (n : ℕ) : ℤ := if x.sign = [45] then -n else n

/-- The value. -/
def value : ℤ := x.signed (number 0 (x.first :: x.digits))

/-- The value fits a signed type of `w` bits. -/
def Fits (w : ℕ) : Prop := -2 ^ (w - 1) ≤ x.value ∧ x.value < 2 ^ (w - 1)

theorem sign_text {p : ℕ → Bool} (hp : p 32 ∧ p 9) (h : ∀ c, 43 ≤ c → p c = false) :
    Libc.sign (x.text.dropWhile p) = (decide (x.sign = [45]), x.first :: (x.digits ++ x.rest)) := by
  have hd := x.isDigit.1
  rw [text, List.dropWhile_append_of_pos fun c hc => by grind [x.isBlank c hc]]
  rcases x.isSign with hs | hs | hs
  · grind [Libc.sign, isdigit, List.dropWhile_cons]
  all_goals simp [hs, h, Libc.sign]

theorem takeWhile_digits {s : List ℕ} (h : ∀ c ∈ s, isdigit c) : (s ++ x.rest).takeWhile isdigit = s := by
  have hr : x.rest.takeWhile isdigit = [] := by
    have := x.ends
    cases hr : x.rest <;> grind [List.takeWhile_cons, List.takeWhile_nil]
  rw [List.takeWhile_append_of_pos h, hr, List.append_nil]

/-- The loop of `atoi` computes the number in its own width. -/
theorem foldl_ofNat (w acc : ℕ) (s : List ℕ) :
    s.foldl (fun ret c => ret * 10#w + BitVec.ofNat w (c - 48)) (BitVec.ofNat w acc) =
      BitVec.ofNat w (number acc s) := by
  induction s generalizing acc with
  | nil => rfl
  | cons c s ih =>
    rw [List.foldl_cons, ← BitVec.ofNat_mul, ← BitVec.ofNat_add, ih]
    rfl

theorem number_eq (acc : ℕ) (s : List ℕ) : number acc s = acc * 10 ^ s.length + number 0 s := by
  induction s generalizing acc with
  | nil => simp [number]
  | cons c s ih =>
    have h : ∀ a, number a (c :: s) = number (a * 10 + (c - 48)) s := fun a => rfl
    rw [h, h, ih, ih (0 * 10 + _), List.length_cons]
    ring

theorem le_number (acc : ℕ) (s : List ℕ) : acc ≤ number acc s := by
  rw [number_eq]
  exact Nat.le_add_right_of_le (Nat.le_mul_of_pos_right _ (Nat.pow_pos (by decide)))

/-- Without its first digit the number is the same exactly when that is a zero. -/
theorem number_digits : number 0 x.digits ≤ number 0 (x.first :: x.digits) ∧
    (number 0 x.digits = number 0 (x.first :: x.digits) ↔ x.first = 48) := by
  have h : number 0 (x.first :: x.digits) = _ := number_eq (0 * 10 + (x.first - 48)) x.digits
  have hd : 48 ≤ x.first := by grind [isdigit, x.isDigit]
  rw [h]
  refine ⟨Nat.le_add_left _ _, ?_⟩
  rw [eq_comm, Nat.add_eq_right, Nat.mul_eq_zero]
  grind [Nat.pow_pos]

/-- `atoi` and `atol` give the number without its first digit. -/
theorem toInt_ato {w : ℕ} (h : x.Fits (w + 1)) : (ato (w + 1) x.text).toInt = x.signed (number 0 x.digits) := by
  have hle := x.number_digits.1
  have hint : ato (w + 1) x.text = BitVec.ofInt (w + 1) (x.signed (number 0 x.digits)) := by
    rw [ato, x.sign_text (by decide) (by grind), List.drop_one, List.tail_cons, x.takeWhile_digits x.isDigit.2,
      foldl_ofNat]
    grind [signed, BitVec.ofInt_neg]
  have := pow_succ 2 w
  rw [hint, BitVec.toInt_ofInt, Int.bmod_eq_of_le] <;> grind [Fits, value, signed]

/-- The loop of `strtol` computes a number within the limit. -/
theorem accumulate_eq {limit acc : ℕ} {s : List ℕ} (h : number acc s ≤ limit) :
    accumulate limit acc (s.map (· - 48)) = some (number acc s) := by
  induction s generalizing acc with
  | nil => rfl
  | cons c s ih =>
    have hle := (le_number (acc * 10 + (c - 48)) s).trans h
    have hif : ¬ (limit / 10 < acc ∨ acc = limit / 10 ∧ limit % 10 < c - 48) := by omega
    rw [accumulate, List.map_cons, List.foldl_cons, Option.bind_some, if_neg hif]
    exact ih h

/-- `strtol` gives the value. -/
theorem strtol_text (h : x.Fits 64) : strtol x.text = x.value := by
  have hdigits : ((x.first :: (x.digits ++ x.rest)).map digit).takeWhile (· < 10) =
      (x.first :: x.digits).map (· - 48) := by
    have hten : (fun c => decide (c < 10)) ∘ digit = isdigit := funext fun c => by grind [digit, isdigit]
    rw [List.takeWhile_map, hten, ← List.cons_append, x.takeWhile_digits (List.forall_mem_cons.2 x.isDigit)]
    exact List.map_congr_left fun c hc => by grind [digit, x.isDigit]
  have hle : number 0 (x.first :: x.digits) ≤ if decide (x.sign = [45]) then 2 ^ 63 else 2 ^ 63 - 1 := by
    grind [Fits, value, signed]
  rw [strtol, x.sign_text (by decide) (by grind [isspace]), hdigits, accumulate_eq hle]
  grind [value, signed]

end Numeral

/-- The scanners agree exactly on the numerals whose first digit is a zero. -/
theorem ato_eq_strtol_iff (x : Numeral) :
    (x.Fits 32 → ((atoi x.text).toInt = strtol x.text ↔ x.first = 48)) ∧
      (x.Fits 64 → ((atol x.text).toInt = strtol x.text ↔ x.first = 48)) := by
  have key : x.signed (number 0 x.digits) = x.value ↔ x.first = 48 := by
    rw [← x.number_digits.2]
    grind [Numeral.value, Numeral.signed]
  refine ⟨fun h => ?_, fun h => ?_⟩
  · rw [atoi, x.toInt_ato h, x.strtol_text (by grind [Numeral.Fits]), key]
  · rw [atol, x.toInt_ato h, x.strtol_text h, key]

/-- The first digit of `12` is lost. -/
theorem atoi_twelve : (atoi [49, 50]).toInt = 2 ∧ (atol [49, 50]).toInt = 2 ∧ strtol [49, 50] = 12 := by
  decide

/-- The characters of a decimal text are digits and make up the number. -/
theorem number_tmpDigits (m : ℕ) : (∀ c ∈ ((tmpDigits 10 m).map digitChar).reverse, isdigit c) ∧
    number 0 ((tmpDigits 10 m).map digitChar).reverse = m := by
  fun_induction tmpDigits 10 m with
  | case1 m ih =>
    have hr : m % 10 < 10 := Nat.mod_lt m (by decide)
    have hlast (s : List ℕ) (c : ℕ) : number 0 (s ++ [c]) = number 0 s * 10 + (c - 48) := by simp [number]
    rw [List.map_cons, List.reverse_cons, hlast]
    split
    · grind [isdigit, digitChar]
    · rw [List.map_nil, List.reverse_nil, List.nil_append, List.forall_mem_singleton]
      grind [number, isdigit, digitChar]

/-- `strtol` reads back the decimal text of a number in its range. -/
theorem strtol_toText (n : BitVec w) (hlow : -2 ^ 63 ≤ n.toInt) (hhigh : n.toInt < 2 ^ 63) :
    strtol (toText n 10).buf = n.toInt := by
  obtain ⟨hdigit, hnumber⟩ := number_tmpDigits (if n.toInt < 0 then -n else n).toNat
  rw [toText, if_pos (by decide)]
  simp only [true_and]
  cases hs : ((tmpDigits 10 (if n.toInt < 0 then -n else n).toNat).map digitChar).reverse with
  | nil => grind [tmpDigits]
  | cons c s =>
    rw [hs] at hdigit hnumber
    let x : Numeral := ⟨[], if n.toInt < 0 then [45] else [], s, [], c, by simp, by grind, by grind, by simp⟩
    have hx : x.value = n.toInt := by
      rw [Numeral.value, hnumber, Numeral.signed]
      by_cases hneg : n.toInt < 0
      · simp only [x, hneg, if_pos, toNat_neg_of_neg hneg, Int.neg_neg]
      · grind [n.isLt, n.toInt_eq_toNat_cond]
    have hread := x.strtol_text ⟨hx ▸ hlow, hx ▸ hhigh⟩
    rw [hx] at hread
    simpa [Numeral.text, x] using hread

/-- `strtol` reads back every decimal text that `_itoa`, `_ltoa` and `_lltoa` write. -/
theorem strtol_texts (n : BitVec 32) (l : BitVec 64) : strtol (itoa n 10).buf = n.toInt ∧
    strtol (ltoa l 10).buf = l.toInt ∧ strtol (lltoa l 10).buf = l.toInt := by
  have hl := strtol_toText l (by grind) (by grind)
  exact ⟨strtol_toText n (by grind) (by grind), hl, hl⟩

end Ps2sdk.Libc
