import PongPp.Util.Decimal

/-!
# Numbers on the game's wire

The client engine has no standard library: `intToStr`, `parseInt` and `skipSep` are its own.
`int` has 32 bits and wraps around. The readers walk an index through a buffer; `readInts_eq`
says what they read as a function of the text left from that index, and `ints_spaced` that a line
of numbers reads back as those numbers.
-/

namespace PongPp.Game

/-! ## 32-bit integers -/

/-- The value of an `int` computation that came to `n`. -/
def i32 (n : Int) : Int := (n + 2147483648) % 4294967296 - 2147483648

/-- `n` is the value of an `int`. -/
def IsI32 (n : Int) : Prop := -2147483648 ≤ n ∧ n < 2147483648

instance (n : Int) : Decidable (IsI32 n) := inferInstanceAs (Decidable (_ ∧ _))

theorem isI32_i32 (n : Int) : IsI32 (i32 n) := by
  unfold IsI32 i32
  omega

theorem i32_eq {n : Int} (h : IsI32 n) : i32 n = n := by
  unfold IsI32 at h
  unfold i32
  omega

theorem i32_i32 (n : Int) : i32 (i32 n) = i32 n := i32_eq (isI32_i32 n)

/-- Wrapping early or late is the same. -/
theorem i32_step (n d : Int) : i32 (i32 n * 10 + d) = i32 (n * 10 + d) := by
  unfold i32
  omega

theorem i32_neg (n : Int) : i32 (i32 n * -1) = i32 (-n) := by
  unfold i32
  omega

/-! ## Writing -/

/-- What `int_to_str` puts into `tmp`: the digits of a positive number, last digit first. -/
def tmpDigits (n : Int) : Bytes := (Nat.digits 10 n.toNat).map fun d => UInt8.ofNat (48 + d)

/-- The number `int_to_str` goes on with behind the sign. The opposite of `-2^31` is no `int`: that
it is computed is an overflow, and what is written is taken to be its ten digits. -/
def unsigned (n : Int) : Int := if n < 0 then -n else n

/-- `int_to_str`: what it writes to `buf`. -/
def intToStr (n : Int) : Bytes :=
  (if n < 0 then ascii "-" else []) ++
    if unsigned n = 0 then ascii "0" else (tmpDigits (unsigned n)).reverse

/-! ## Reading -/

/-- A digit or a sign. -/
def isNumeral (b : UInt8) : Bool := b == 0x2D || isDigit b

/-- `skip_sep`. -/
def skipSep (s : Bytes) (len i : Nat) : Nat :=
  if i < len ∧ isNumeral (s.getD i 0) = false then skipSep s len (i + 1) else i
termination_by len - i

/-- The digit loop of `parse_int`: `n` and `i` when it ends. -/
def parseDigits (s : Bytes) (len : Nat) (n : Int) (i : Nat) : Int × Nat :=
  if i < len ∧ isDigit (s.getD i 0) = true then
    parseDigits s len (i32 (n * 10 + ((s.getD i 0).toNat - 48))) (i + 1)
  else (n, i)
termination_by len - i

/-- `parse_int`: `*out` and the index it returns. -/
def parseInt (s : Bytes) (len start : Nat) : Int × Nat :=
  if start < len ∧ s.getD start 0 = 0x2D then
    let (n, i) := parseDigits s len 0 (start + 1)
    (i32 (n * -1), i)
  else
    let (n, i) := parseDigits s len 0 start
    (i32 (n * 1), i)

/-- `k` numbers, each behind what `skip_sep` skips. -/
def readInts (s : Bytes) (len : Nat) : Nat → Nat → List Int
  | 0, _ => []
  | k + 1, i =>
    let (n, i) := parseInt s len (skipSep s len i)
    n :: readInts s len k i

/-! ## Reading, by the text that is left -/

/-- `parseDigits` on the text left at its index. -/
def digitsOf (n : Int) : Bytes → Int × Bytes
  | [] => (n, [])
  | b :: t => if isDigit b then digitsOf (i32 (n * 10 + (b.toNat - 48))) t else (n, b :: t)

/-- `parseInt` on the text left at its index. -/
def intOf : Bytes → Int × Bytes
  | [] => (0, [])
  | b :: t =>
    if b = 0x2D then (i32 ((digitsOf 0 t).1 * -1), (digitsOf 0 t).2)
    else (i32 ((digitsOf 0 (b :: t)).1 * 1), (digitsOf 0 (b :: t)).2)

/-- `readInts` on the text left at its index. -/
def ints : Nat → Bytes → List Int
  | 0, _ => []
  | k + 1, t =>
    let (n, t) := intOf (t.dropWhile fun b => !isNumeral b)
    n :: ints k t

/-- The text left at index `i` of the first `len` bytes. -/
def left (s : Bytes) (len i : Nat) : Bytes := (s.take len).drop i

section Left

variable {s : Bytes} {len i : Nat}

theorem left_cons (hi : i < len) (hs : i < s.length) :
    left s len i = s.getD i 0 :: left s len (i + 1) :=
  drop_take_cons hi hs

theorem left_nil (h : len ≤ i ∨ s.length ≤ i) : left s len i = [] := by
  unfold left
  rw [List.drop_eq_nil_iff, List.length_take]
  omega

theorem left_cases (s : Bytes) (len i : Nat) :
    (i < len ∧ left s len i = s.getD i 0 :: left s len (i + 1)) ∨
      left s len i = [] ∧ (i < len → s.getD i 0 = 0) := by
  by_cases hi : i < len
  · by_cases hs : i < s.length
    · exact .inl ⟨hi, left_cons hi hs⟩
    · exact .inr ⟨left_nil (.inr (not_lt.mp hs)), fun _ => by simp [not_lt.mp hs]⟩
  · exact .inr ⟨left_nil (.inl (not_lt.mp hi)), fun h => absurd h hi⟩

theorem no_sign (hz : i < len → s.getD i 0 = 0) : ¬ (i < len ∧ s.getD i 0 = 0x2D) := by
  rintro ⟨hi, hb⟩
  rw [hz hi] at hb
  exact absurd hb (by decide)

theorem no_digit (hz : i < len → s.getD i 0 = 0) : ¬ (i < len ∧ isDigit (s.getD i 0) = true) := by
  rintro ⟨hi, hb⟩
  rw [hz hi] at hb
  exact absurd hb (by decide)

theorem left_skipSep (s : Bytes) (len i : Nat) :
    left s len (skipSep s len i) = (left s len i).dropWhile fun b => !isNumeral b := by
  fun_induction skipSep s len i with
  | case1 i h ih =>
    rw [ih]
    rcases left_cases s len i with ⟨-, hc⟩ | ⟨hn, -⟩
    · rw [hc, List.dropWhile_cons_of_pos (by rw [h.2]; rfl)]
    · have hn' : left s len (i + 1) = [] := by
        unfold left at hn ⊢
        rw [← List.drop_drop, hn, List.drop_nil]
      rw [hn, hn']
  | case2 i h =>
    rcases left_cases s len i with ⟨hi, hc⟩ | ⟨hn, -⟩
    · have hb : isNumeral (s.getD i 0) = true := by simpa [hi] using h
      rw [hc, List.dropWhile_cons_of_neg (by simp only [hb]; decide)]
    · rw [hn, List.dropWhile_nil]

theorem left_parseDigits (s : Bytes) (len : Nat) (n : Int) (i : Nat) :
    ((parseDigits s len n i).1, left s len (parseDigits s len n i).2) =
      digitsOf n (left s len i) := by
  fun_induction parseDigits s len n i with
  | case1 n i h ih =>
    rcases left_cases s len i with ⟨-, hc⟩ | ⟨-, hz⟩
    · rw [ih, hc, digitsOf, if_pos h.2]
    · exact absurd h (no_digit hz)
  | case2 n i h =>
    rcases left_cases s len i with ⟨hi, hc⟩ | ⟨hn, -⟩
    · rw [hc, digitsOf, if_neg (by simpa [hi] using h)]
    · rw [hn, digitsOf]

theorem left_parseInt (s : Bytes) (len i : Nat) :
    ((parseInt s len i).1, left s len (parseInt s len i).2) = intOf (left s len i) := by
  have hdigits := fun j => left_parseDigits s len 0 j
  unfold parseInt
  rcases left_cases s len i with ⟨hi, hc⟩ | ⟨hn, hz⟩
  · rw [hc, intOf]
    by_cases hb : s.getD i 0 = 0x2D
    · rw [if_pos ⟨hi, hb⟩, if_pos hb, ← hdigits (i + 1)]
    · rw [if_neg (fun h => hb h.2), if_neg hb, ← hc, ← hdigits i]
  · have hd := hdigits i
    rw [hn, digitsOf] at hd
    rw [if_neg (no_sign hz), hn, intOf]
    obtain ⟨hd₁, hd₂⟩ := Prod.ext_iff.mp hd
    simp only at hd₁ hd₂
    simp only [hd₁, hd₂]
    rfl

/-- **What the readers read** depends on the text that is left alone. -/
theorem readInts_eq (s : Bytes) (len k i : Nat) : readInts s len k i = ints k (left s len i) := by
  induction k generalizing i with
  | zero => rfl
  | succ k ih =>
    have hint := left_parseInt s len (skipSep s len i)
    rw [left_skipSep] at hint
    obtain ⟨hn, ht⟩ := Prod.ext_iff.mp hint
    simp only [readInts, ints, ih]
    rw [← hn, ← ht]

end Left

theorem isI32_intOf (t : Bytes) : IsI32 (intOf t).1 := by
  unfold intOf
  split
  · decide
  · split <;> exact isI32_i32 _

theorem isI32_ints {k : Nat} {t : Bytes} : ∀ n ∈ ints k t, IsI32 n := by
  induction k generalizing t with
  | zero => simp [ints]
  | succ k ih =>
    intro n hn
    rcases List.mem_cons.mp hn with rfl | hn
    · exact isI32_intOf _
    · exact ih n hn

/-- What holds of all numbers of a list, and of the 0 that stands for a missing one. -/
theorem getD_of_forall {P : Int → Prop} {ns : List Int} (hzero : P 0) (h : ∀ n ∈ ns, P n)
    (j : Nat) : P (ns.getD j 0) := by
  rw [List.getD_eq_getElem?_getD]
  cases hj : ns[j]? with
  | none => exact hzero
  | some n => exact h n (List.mem_of_getElem? hj)

/-! ## Reading what was written -/

theorem tmpDigits_ne_nil {n : Int} (hn : 0 < n) : (tmpDigits n).reverse ≠ [] := by
  simp only [tmpDigits, ne_eq, List.reverse_eq_nil_iff, List.map_eq_nil_iff,
    Nat.digits_eq_nil_iff_eq_zero]
  omega

theorem isDigit_tmpDigits {n : Int} : ∀ b ∈ (tmpDigits n).reverse, isDigit b = true := by
  intro b hb
  simp only [List.mem_reverse, tmpDigits, List.mem_map] at hb
  obtain ⟨d, hd, rfl⟩ := hb
  exact (digit_byte (Nat.digits_lt_base (by omega) hd)).2

theorem ne_minus_of_isDigit {b : UInt8} (h : isDigit b = true) : b ≠ 0x2D := by
  rintro rfl
  exact absurd h (by decide)

theorem intOf_of_isDigit {b : UInt8} (t : Bytes) (h : isDigit b = true) :
    intOf (b :: t) = (i32 (digitsOf 0 (b :: t)).1, (digitsOf 0 (b :: t)).2) := by
  rw [intOf, if_neg (ne_minus_of_isDigit h), mul_one]

theorem digitsOf_digits {ds t : Bytes} (hds : ∀ b ∈ ds, isDigit b = true)
    (ht : ∀ b ∈ t.head?, isDigit b = false) (a : Nat) :
    digitsOf (i32 a) (ds ++ t) =
      (i32 (ds.foldl (fun n b => n * 10 + (b.toNat - 48)) a : Nat), t) := by
  induction ds generalizing a with
  | nil =>
    cases t with
    | nil => rfl
    | cons b t => simp [digitsOf, ht b rfl]
  | cons b ds ih =>
    have hb := hds b (List.mem_cons_self ..)
    have hle := (isDigit_iff.mp hb).1
    have hnext : i32 (i32 a * 10 + ((b.toNat : Int) - 48)) =
        i32 ((a * 10 + (b.toNat - 48) : Nat)) := by
      rw [i32_step]
      push_cast [hle]
      rfl
    rw [List.cons_append, digitsOf, if_pos hb, hnext,
      ih (fun x hx => hds x (List.mem_cons_of_mem _ hx))]
    rfl

theorem intOf_number {sign digits rest : Bytes} (hsign : sign = [] ∨ sign = [0x2D])
    (hsome : sign ++ digits ≠ []) (hdigits : ∀ b ∈ digits, isDigit b = true)
    (hend : ∀ b ∈ rest.head?, isDigit b = false) :
    intOf (sign ++ digits ++ rest) =
      (i32 (if sign = [] then (digitsValue digits : Int) else -digitsValue digits), rest) := by
  have hread : digitsOf 0 (digits ++ rest) = (i32 (digitsValue digits), rest) :=
    digitsOf_digits hdigits hend 0
  rcases hsign with rfl | rfl
  · rw [List.nil_append] at hsome ⊢
    obtain ⟨b, ds, rfl⟩ := List.exists_cons_of_ne_nil hsome
    rw [List.cons_append] at hread ⊢
    rw [intOf_of_isDigit _ (hdigits b (List.mem_cons_self ..)), hread, if_pos rfl, i32_i32]
  · have hne : ¬ ([0x2D] : Bytes) = [] := by simp
    rw [List.singleton_append, List.cons_append, intOf, if_pos rfl, hread, i32_neg, if_neg hne]

theorem unsigned_eq (n : Int) : unsigned n = n.natAbs := by
  unfold unsigned
  split <;> omega

theorem intToStr_eq (n : Int) :
    intToStr n = (if n < 0 then ascii "-" else []) ++ toString n.natAbs := by
  have hzero : ((n.natAbs : Nat) : Int) = 0 ↔ n.natAbs = 0 := by omega
  simp only [intToStr, unsigned_eq, hzero, toString, tmpDigits, Int.toNat_natCast, List.map_reverse]

/-- **A written number reads back**, whatever comes behind its digits. -/
theorem intOf_intToStr {n : Int} (hlo : -2147483648 < n) (hhi : n < 2147483648) {t : Bytes}
    (ht : ∀ b ∈ t.head?, isDigit b = false) : intOf (intToStr n ++ t) = (n, t) := by
  have hsign : (if n < 0 then ascii "-" else []) = [] ∨
      (if n < 0 then ascii "-" else []) = [0x2D] := by
    split
    · exact .inr rfl
    · exact .inl rfl
  have hsome : (if n < 0 then ascii "-" else []) ++ toString n.natAbs ≠ [] := by
    simp [toString_ne_nil]
  have hvalue : (if (if n < 0 then ascii "-" else []) = [] then (n.natAbs : Int)
      else -n.natAbs) = n := by
    have hminus : ascii "-" ≠ [] := by decide
    by_cases hn : n < 0
    · rw [if_pos hn, if_neg hminus]
      omega
    · rw [if_neg hn, if_pos rfl]
      omega
  rw [intToStr_eq, intOf_number hsign hsome isDigit_toString ht, digitsValue_toString,
    hvalue, i32_eq ⟨hlo.le, hhi⟩]

theorem isNumeral_intToStr (n : Int) : ∃ b t, intToStr n = b :: t ∧ isNumeral b = true := by
  unfold intToStr
  by_cases hn : n < 0
  · exact ⟨0x2D, _, by rw [if_pos hn]; rfl, by decide⟩
  · rw [if_neg hn, List.nil_append]
    have hun : unsigned n = n := by rw [unsigned, if_neg hn]
    rw [hun]
    split
    · exact ⟨0x30, [], rfl, by decide⟩
    · cases hds : (tmpDigits n).reverse with
      | nil => exact absurd hds (tmpDigits_ne_nil (by omega))
      | cons b ds =>
        have hb := isDigit_tmpDigits b (hds ▸ List.mem_cons_self ..)
        exact ⟨b, ds, rfl, by simp [isNumeral, hb]⟩

/-- Numbers, each behind a space. -/
def spaced (ns : List Int) : Bytes := ns.flatMap fun n => 0x20 :: intToStr n

/-- No digit follows a number in a line. -/
theorem head_spaced (ns : List Int) : ∀ b ∈ (spaced ns).head?, isDigit b = false := by
  cases ns with
  | nil => simp [spaced]
  | cons m ms =>
    intro b hb
    cases hb
    rfl

theorem dropWhile_spaced (n : Int) (ns : List Int) :
    (spaced (n :: ns)).dropWhile (fun b => !isNumeral b) = intToStr n ++ spaced ns := by
  obtain ⟨b, t, hbt, hb⟩ := isNumeral_intToStr n
  have hcons : spaced (n :: ns) = 0x20 :: (intToStr n ++ spaced ns) := rfl
  rw [hcons, List.dropWhile_cons_of_pos (by decide), hbt, List.cons_append,
    List.dropWhile_cons_of_neg (by simp [hb])]

/-- **A line of numbers reads back.** -/
theorem ints_spaced {ns : List Int} (h : ∀ n ∈ ns, -2147483648 < n ∧ n < 2147483648) :
    ints ns.length (spaced ns) = ns := by
  induction ns with
  | nil => rfl
  | cons n ns ih =>
    obtain ⟨hlo, hhi⟩ := h n (List.mem_cons_self ..)
    rw [List.length_cons, ints, dropWhile_spaced, intOf_intToStr hlo hhi (head_spaced ns)]
    simp only
    rw [ih fun m hm => h m (List.mem_cons_of_mem _ hm)]

/-! ## Lengths -/

theorem length_tmpDigits_le_iff (n : Int) (k : Nat) :
    (tmpDigits n).length ≤ k ↔ n.toNat < 10 ^ k := by
  rw [tmpDigits, List.length_map, Nat.digits_length_le_iff (by omega)]

theorem length_tmpDigits_le {n : Int} (h : IsI32 n) : (tmpDigits (unsigned n)).length ≤ 10 := by
  rw [length_tmpDigits_le_iff]
  unfold IsI32 at h
  unfold unsigned
  split <;> omega

theorem length_intToStr (n : Int) : (intToStr n).length =
    (if n < 0 then 1 else 0) + if unsigned n = 0 then 1 else (tmpDigits (unsigned n)).length := by
  have hminus : (ascii "-").length = 1 := rfl
  have hzero : (ascii "0").length = 1 := rfl
  unfold intToStr
  rw [List.length_append]
  split <;> split <;> simp only [hminus, hzero, List.length_reverse, List.length_nil]

theorem length_intToStr_le {n : Int} (h : IsI32 n) : (intToStr n).length ≤ 11 := by
  have := length_tmpDigits_le h
  rw [length_intToStr]
  split <;> split <;> omega

/-- A score that is written in at most eight characters. -/
def Fits (n : Int) : Prop := -9999999 ≤ n ∧ n ≤ 99999999

instance (n : Int) : Decidable (Fits n) := inferInstanceAs (Decidable (_ ∧ _))

theorem length_intToStr_le_eight (n : Int) : (intToStr n).length ≤ 8 ↔ Fits n := by
  have h7 := length_tmpDigits_le_iff (unsigned n) 7
  have h8 := length_tmpDigits_le_iff (unsigned n) 8
  have hun := unsigned_eq n
  rw [length_intToStr]
  unfold Fits
  split <;> split <;> omega

end PongPp.Game
