import Mathlib.Algebra.Ring.Nat
import Mathlib.Data.List.Basic
import Mathlib.Data.Int.Notation
import Mathlib.Data.Nat.Notation

/-!
# Text cut at a delimiter, and numbers in text

`getlines d` is the sequence of strings that `std::getline` with the delimiter `d` takes from a
stream: the pieces before each `d`, and what is left after the last one unless it is empty.
`tokens d` is what `strtok` takes from it: the pieces that are not empty (`tokens_eq`).
`decimal` is a number as `%llu` prints it; `signAndDigits` and `numberParts` are what `strtol` and
`strtof` read at the head of a text.
-/

namespace Text

/-! ### Pieces -/

/-- The pieces of a stream, `cur` being what has been read of the next one. -/
def getlinesFrom (d : Char) : List Char → List Char → List (List Char)
  | cur, [] => if cur = [] then [] else [cur]
  | cur, c :: cs => if c = d then cur :: getlinesFrom d [] cs else getlinesFrom d (cur ++ [c]) cs

/-- The strings a loop of `getline(stream, s, d)` reads. -/
def getlines (d : Char) (s : List Char) : List (List Char) := getlinesFrom d [] s

theorem getlinesFrom_append {d : Char} {cur a b : List Char} (h : d ∉ a) :
    getlinesFrom d cur (a ++ d :: b) = (cur ++ a) :: getlinesFrom d [] b := by
  induction a generalizing cur with
  | nil => simp [getlinesFrom]
  | cons c a ih =>
    have hc : c ≠ d := fun hc => h (hc ▸ List.mem_cons_self)
    rw [List.cons_append, getlinesFrom, if_neg hc, ih fun ha => h (List.mem_cons_of_mem _ ha)]
    simp

theorem getlinesFrom_last {d : Char} {cur a : List Char} (h : d ∉ a) (hne : cur ++ a ≠ []) :
    getlinesFrom d cur a = [cur ++ a] := by
  induction a generalizing cur with
  | nil => simpa [getlinesFrom] using hne
  | cons c a ih =>
    have hc : c ≠ d := fun hc => h (hc ▸ List.mem_cons_self)
    rw [getlinesFrom, if_neg hc, ih (fun ha => h (List.mem_cons_of_mem _ ha)) (by simp)]
    simp

/-- A piece closed by the delimiter comes off whole. -/
theorem getlines_append {d : Char} {a b : List Char} (h : d ∉ a) :
    getlines d (a ++ d :: b) = a :: getlines d b :=
  getlinesFrom_append h

/-- The last piece needs no delimiter. -/
theorem getlines_last {d : Char} {a : List Char} (h : d ∉ a) (hne : a ≠ []) : getlines d a = [a] :=
  getlinesFrom_last h hne

/-- **A text of closed lines is read back as its lines.** -/
theorem getlines_flatMap {α : Type*} {d : Char} {f : α → List Char} {l : List α} (h : ∀ a ∈ l, d ∉ f a) :
    getlines d (l.flatMap fun a => f a ++ [d]) = l.map f := by
  induction l with
  | nil => rfl
  | cons a l ih =>
    rw [List.flatMap_cons, List.append_assoc, List.singleton_append, getlines_append (h a List.mem_cons_self),
      ih fun b hb => h b (List.mem_cons_of_mem _ hb), List.map_cons]

/-- The strings a loop of `strtok` with the delimiter `d` takes from a string. -/
def tokens (d : Char) (s : List Char) : List (List Char) := (getlines d s).filter (· ≠ [])

theorem filter_getlinesFrom {d : Char} {cur : List Char} (h : d ∉ cur) (s : List Char) :
    (getlinesFrom d cur s).filter (· ≠ []) = ((cur ++ s).splitOn d).filter (· ≠ []) := by
  induction s generalizing cur with
  | nil =>
    rw [getlinesFrom, List.append_nil, List.splitOn_eq_singleton h]
    by_cases hcur : cur = []
    · rw [if_pos hcur, hcur]
      rfl
    · rw [if_neg hcur]
  | cons c cs ih =>
    rw [getlinesFrom]
    by_cases hc : c = d
    · rw [if_pos hc, hc, List.splitOn_append_cons_self_of_not_mem h, List.filter_cons, ih List.not_mem_nil,
        List.filter_cons]
      rfl
    · have hcur : d ∉ cur ++ [c] := by
        rw [List.mem_append, List.mem_singleton]
        rintro (hd | rfl)
        · exact h hd
        · exact hc rfl
      rw [if_neg hc, ih hcur, List.append_assoc, List.singleton_append]

/-- **The tokens are the pieces between delimiters that are not empty.** -/
theorem tokens_eq (d : Char) (s : List Char) : tokens d s = (s.splitOn d).filter (· ≠ []) :=
  filter_getlinesFrom List.not_mem_nil s

theorem notMem_of_mem_getlinesFrom {d : Char} {cur s piece : List Char} (h : d ∉ cur)
    (hpiece : piece ∈ getlinesFrom d cur s) : d ∉ piece := by
  induction s generalizing cur with
  | nil =>
    rw [getlinesFrom] at hpiece
    split at hpiece
    · cases hpiece
    · rwa [List.mem_singleton.mp hpiece]
  | cons c cs ih =>
    rw [getlinesFrom] at hpiece
    split at hpiece
    · rcases List.mem_cons.mp hpiece with rfl | hpiece
      · exact h
      · exact ih List.not_mem_nil hpiece
    next hc =>
      refine ih ?_ hpiece
      rw [List.mem_append, List.mem_singleton, not_or]
      exact ⟨h, fun hd => hc hd.symm⟩

/-- No token has the delimiter in it. -/
theorem notMem_of_mem_tokens {d : Char} {s token : List Char} (h : token ∈ tokens d s) : d ∉ token :=
  notMem_of_mem_getlinesFrom List.not_mem_nil (List.mem_filter.mp h).1

/-- A text without the delimiter is its own only token. -/
theorem tokens_of_notMem {d : Char} {s : List Char} (h : d ∉ s) (hne : s ≠ []) : tokens d s = [s] := by
  rw [tokens, getlines_last h hne]
  simp [hne]

/-- There is a piece for every delimiter, and one more. -/
theorem length_splitOn (d : Char) (s : List Char) : (s.splitOn d).length = s.count d + 1 := by
  induction s with
  | nil => rfl
  | cons c cs ih =>
    rw [List.splitOn_cons_eq_if_modifyHead]
    by_cases hc : c = d
    · rw [if_pos (beq_iff_eq.mpr hc), List.length_cons, ih, hc, List.count_cons_self]
    · rw [if_neg (by simpa using hc), List.length_modifyHead, ih, List.count_cons_of_ne hc]

theorem length_tokens_le (d : Char) (s : List Char) : (tokens d s).length ≤ (s.splitOn d).length := by
  rw [tokens_eq]
  exact List.length_filter_le _ _

theorem length_tokens_eq_iff {d : Char} {s : List Char} :
    (tokens d s).length = (s.splitOn d).length ↔ [] ∉ s.splitOn d := by
  rw [tokens_eq, List.length_filter_eq_length_iff]
  refine ⟨fun h hmem => ?_, fun h piece hpiece => ?_⟩
  · simpa using h [] hmem
  · rw [decide_eq_true_eq]
    rintro rfl
    exact h hpiece

/-! ### Numbers -/

/-- A number as `%llu` prints it. -/
def decimal (n : ℕ) : List Char := Nat.toDigits 10 n

/-- The value of a string of decimal digits. -/
def digitsValue (ds : List Char) : ℕ := Nat.ofDigitChars 10 ds 0

theorem digitsValue_decimal (n : ℕ) : digitsValue (decimal n) = n :=
  Nat.ofDigitChars_toDigits (by decide) (by decide)

theorem isDigit_of_mem_decimal {n : ℕ} {c : Char} (h : c ∈ decimal n) : c.isDigit = true :=
  Nat.isDigit_of_mem_toDigits (by decide) (by decide) h

theorem decimal_ne_nil (n : ℕ) : decimal n ≠ [] := Nat.toDigits_ne_nil

theorem notMem_decimal {n : ℕ} {c : Char} (h : c.isDigit = false) : c ∉ decimal n := fun hm => by
  rw [isDigit_of_mem_decimal hm] at h
  cases h

/-- `isspace` -/
def isSpace (c : Char) : Bool := c = ' ' || ('\t' ≤ c && c ≤ '\r')

/-- An optional sign: whether it is a minus, and the rest. -/
def takeSign : List Char → Bool × List Char
  | '-' :: cs => (true, cs)
  | '+' :: cs => (false, cs)
  | cs => (false, cs)

/-- What `strtol` in base ten reads: blanks, a sign and the longest run of digits, if there is one. -/
def signAndDigits (s : List Char) : Option ℤ :=
  let (neg, cs) := takeSign (s.dropWhile isSpace)
  let ds := cs.takeWhile Char.isDigit
  if ds = [] then none else some (if neg then -(digitsValue ds : ℤ) else digitsValue ds)

/-- The digits of a number with an optional point: what is before it, what is behind it, and the rest. -/
def pointedDigits (isDigit : Char → Bool) (s : List Char) : List Char × List Char × List Char :=
  let whole := s.takeWhile isDigit
  match s.dropWhile isDigit with
  | '.' :: cs => (whole, cs.takeWhile isDigit, cs.dropWhile isDigit)
  | rest => (whole, [], rest)

/-- The exponent part of a number: its letter, an optional sign and at least one digit, or else
nothing. -/
def exponentPart (letter : Char) : List Char → ℤ
  | c :: cs =>
    if c.toLower = letter then
      let (neg, cs) := takeSign cs
      let ds := cs.takeWhile Char.isDigit
      if neg then -(digitsValue ds : ℤ) else digitsValue ds
    else 0
  | [] => 0

/-- What `strtof` reads of an unsigned decimal number: digits with an optional point and an
optional exponent, as the digits' value and the power of ten it is multiplied by. -/
def decimalParts (s : List Char) : Option (ℕ × ℤ) :=
  let (whole, fraction, rest) := pointedDigits Char.isDigit s
  if whole ++ fraction = [] then none
  else some (digitsValue (whole ++ fraction), exponentPart 'e' rest - fraction.length)

/-- The value of a hexadecimal digit. -/
def hexDigit (c : Char) : ℕ := if c.isDigit then c.toNat - '0'.toNat else c.toLower.toNat - 'a'.toNat + 10

/-- The value of a string of hexadecimal digits. -/
def hexValue (ds : List Char) : ℕ := ds.foldl (fun n c => 16 * n + hexDigit c) 0

/-- The same of a hexadecimal number, from behind its `0x`: the digits' value and the power of two it
is multiplied by. -/
def hexParts (s : List Char) : Option (ℕ × ℤ) :=
  let (whole, fraction, rest) := pointedDigits Char.isHexDigit s
  if whole ++ fraction = [] then none
  else some (hexValue (whole ++ fraction), exponentPart 'p' rest - 4 * fraction.length)

/-- `m * 2 ^ e` as a number times a power of ten. -/
def ofBinary (m : ℕ) (e : ℤ) : ℕ × ℤ := if 0 ≤ e then (m * 2 ^ e.toNat, 0) else (m * 5 ^ (-e).toNat, e)

/-- What `strtof` reads of an unsigned number, as a number and the power of ten it is multiplied by. -/
def numberParts : List Char → Option (ℕ × ℤ)
  | '0' :: x :: cs =>
    if x.toLower = 'x' then
      match hexParts cs with
      | some (m, e) => some (ofBinary m e)
      | none => decimalParts ('0' :: x :: cs)
    else decimalParts ('0' :: x :: cs)
  | cs => decimalParts cs

end Text
