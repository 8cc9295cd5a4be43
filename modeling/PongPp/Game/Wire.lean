import PongPp.Game.Match

/-!
# The game's wire codec

A line of at most eight numbers, each but for its sign within 31 bits, reads back as those numbers
(`wire_codec`); `writtenValues` and `readValues` list what the arithmetic on the way comes to. The
reader never fails: `Found` says which numbers it finds in a text that is no such line, and
`lenient` that the engine takes all of them.
-/

namespace PongPp.Game

open Lib

/-! ## The arithmetic of the codec -/

/-- What `int_to_str` computes from a number before it has one that is not negative. -/
def writtenValues (n : Int) : List Int := if n < 0 then [-n] else []

/-- The values that the digit loop of `parse_int` computes. -/
def digitValues (s : Bytes) (len : Nat) (n : Int) (i : Nat) : List Int :=
  if i < len ∧ isDigit (s.getD i 0) = true then
    [n * 10, n * 10 + ((s.getD i 0).toNat - 48)] ++
      digitValues s len (i32 (n * 10 + ((s.getD i 0).toNat - 48))) (i + 1)
  else []
termination_by len - i

/-- The values that `parse_int` computes. -/
def intValues (s : Bytes) (len start : Nat) : List Int :=
  if start < len ∧ s.getD start 0 = 0x2D then
    digitValues s len 0 (start + 1) ++ [(parseDigits s len 0 (start + 1)).1 * -1]
  else digitValues s len 0 start ++ [(parseDigits s len 0 start).1 * 1]

/-- The values that reading `k` numbers computes. -/
def readValues (s : Bytes) (len : Nat) : Nat → Nat → List Int
  | 0, _ => []
  | k + 1, i =>
    intValues s len (skipSep s len i) ++
      readValues s len k (parseInt s len (skipSep s len i)).2

/-- `n` and `-n` are values of an `int`. -/
def Symmetric (n : Int) : Prop := -2147483648 < n ∧ n < 2147483648

instance (n : Int) : Decidable (Symmetric n) := inferInstanceAs (Decidable (_ ∧ _))

theorem Symmetric.isI32 {n : Int} (h : Symmetric n) : IsI32 n := ⟨h.1.le, h.2⟩

theorem isI32_writtenValues {n : Int} (h : Symmetric n) : ∀ v ∈ writtenValues n, IsI32 v := by
  unfold Symmetric at h
  unfold writtenValues IsI32
  split <;> simp
  omega

section Read

theorem not_head?_dropWhile {α : Type} (p : α → Bool) (l : List α) :
    ∀ b ∈ (l.dropWhile p).head?, p b = false := fun b hb => by
  have h := List.head?_dropWhile_not p l
  rw [hb] at h
  exact h

variable {s : Bytes} {len i : Nat}

theorem left_eq_cons {b : UInt8} {t : Bytes} (h : left s len i = b :: t) :
    i < len ∧ s.getD i 0 = b ∧ left s len (i + 1) = t := by
  rcases left_cases s len i with ⟨hi, hc⟩ | ⟨hn, -⟩
  · rw [h] at hc
    obtain ⟨hb, ht⟩ := List.cons.inj hc
    exact ⟨hi, hb.symm, ht.symm⟩
  · rw [h] at hn
    cases hn

theorem le_foldl_value (ds : Bytes) (a : Nat) :
    a ≤ ds.foldl (fun n b => n * 10 + (b.toNat - 48)) a := by
  induction ds generalizing a with
  | nil => exact le_rfl
  | cons b ds ih => exact le_trans (by omega) (ih (a * 10 + (b.toNat - 48)))

theorem digitsOf_eq (t : Bytes) :
    digitsOf 0 t = (i32 (digitsValue (t.takeWhile isDigit)), t.dropWhile isDigit) := by
  have hdigits : ∀ b ∈ t.takeWhile isDigit, isDigit b = true := fun _ => List.mem_takeWhile_imp
  have hread := digitsOf_digits hdigits (not_head?_dropWhile isDigit t) 0
  rwa [List.takeWhile_append_dropWhile] at hread

theorem isI32_digitValues {t : Bytes} {a : Nat} (ha : a < 2147483648) (h : left s len i = t) :
    (∀ v ∈ digitValues s len a i, IsI32 v) ↔
      (t.takeWhile isDigit).foldl (fun n b => n * 10 + (b.toNat - 48)) a < 2147483648 := by
  induction t generalizing a i with
  | nil =>
    have hstop : ¬ (i < len ∧ isDigit (s.getD i 0) = true) := by
      rcases left_cases s len i with ⟨-, hc⟩ | ⟨-, hz⟩
      · rw [h] at hc
        cases hc
      · exact no_digit hz
    rw [digitValues, if_neg hstop]
    exact iff_of_true (by simp) ha
  | cons b t ih =>
    obtain ⟨hi, hget, hrest⟩ := left_eq_cons h
    cases hb : isDigit b with
    | false =>
      rw [digitValues, hget, if_neg (by simp [hb]), List.takeWhile_cons_of_neg (by simp [hb])]
      exact iff_of_true (by simp) ha
    | true =>
      obtain ⟨hlo, hhi⟩ := isDigit_iff.mp hb
      have hvalue : (a : Int) * 10 + ((b.toNat : Int) - 48) = (a * 10 + (b.toNat - 48) : Nat) := by
        omega
      rw [digitValues, hget, if_pos ⟨hi, hb⟩, hvalue, List.cons_append, List.cons_append,
        List.nil_append, List.forall_mem_cons, List.forall_mem_cons,
        List.takeWhile_cons_of_pos hb, List.foldl_cons]
      generalize hn : a * 10 + (b.toNat - 48) = n
      by_cases hfit : n < 2147483648
      · have hnext : i32 n = n := i32_eq (by unfold IsI32; omega)
        have hhead : IsI32 (a * 10) ∧ IsI32 n := by
          unfold IsI32
          omega
        rw [hnext, ih hfit hrest, and_iff_right hhead.1, and_iff_right hhead.2]
      · have hmono := le_foldl_value (t.takeWhile isDigit) n
        refine iff_of_false (fun hv => ?_) (by omega)
        have hbad := hv.2.1
        unfold IsI32 at hbad
        omega

/-- What is left of a number behind its sign. -/
def bare (t : Bytes) : Bytes := if t.head? = some 0x2D then t.drop 1 else t

theorem bare_minus (t : Bytes) : bare (0x2D :: t) = t := rfl

theorem bare_of_ne {b : UInt8} (hb : b ≠ 0x2D) (t : Bytes) : bare (b :: t) = b :: t :=
  if_neg fun h => hb (Option.some.inj h)

theorem intValues_eq (s : Bytes) (len i : Nat) : ∃ j, ∃ c : Int,
    left s len j = bare (left s len i) ∧ (c = 1 ∨ c = -1) ∧
      intValues s len i = digitValues s len 0 j ++ [(parseDigits s len 0 j).1 * c] := by
  unfold intValues
  rcases left_cases s len i with ⟨hi, hc⟩ | ⟨hn, hz⟩
  · by_cases hb : s.getD i 0 = 0x2D
    · refine ⟨i + 1, -1, ?_, .inr rfl, if_pos ⟨hi, hb⟩⟩
      rw [hc, hb, bare_minus]
    · refine ⟨i, 1, ?_, .inl rfl, if_neg fun h => hb h.2⟩
      rw [hc, bare_of_ne hb]
  · exact ⟨i, 1, by rw [hn]; rfl, .inl rfl, if_neg (no_sign hz)⟩

theorem isI32_intValues (s : Bytes) (len i : Nat) : (∀ v ∈ intValues s len i, IsI32 v) ↔
    digitsValue ((bare (left s len i)).takeWhile isDigit) < 2147483648 := by
  obtain ⟨j, c, hj, hc, heq⟩ := intValues_eq s len i
  have hparse := congrArg Prod.fst (left_parseDigits s len 0 j)
  rw [digitsOf_eq, hj] at hparse
  have hdigits : (∀ v ∈ digitValues s len (0 : Nat) j, IsI32 v) ↔ _ :=
    isI32_digitValues (by omega) hj
  rw [heq, List.forall_mem_append, List.forall_mem_singleton, hparse]
  refine Iff.trans (and_congr_left' hdigits) (and_iff_left_of_imp fun hfit => ?_)
  have hfit : digitsValue ((bare (left s len i)).takeWhile isDigit) < 2147483648 := hfit
  have hwrap : i32 (digitsValue ((bare (left s len i)).takeWhile isDigit)) = _ :=
    i32_eq (by unfold IsI32; omega)
  rw [hwrap]
  unfold IsI32
  rcases hc with rfl | rfl <;> omega

theorem intOf_eq (t : Bytes) : ∃ c : Int, (c = 1 ∨ c = -1) ∧
    intOf t = (i32 (digitsValue ((bare t).takeWhile isDigit) * c), (bare t).dropWhile isDigit) := by
  cases t with
  | nil => exact ⟨1, .inl rfl, rfl⟩
  | cons b t =>
    by_cases hb : b = 0x2D
    · refine ⟨-1, .inr rfl, ?_⟩
      rw [intOf, if_pos hb, digitsOf_eq, hb, bare_minus, i32_neg, mul_neg_one]
    · refine ⟨1, .inl rfl, ?_⟩
      rw [intOf, if_neg hb, digitsOf_eq, bare_of_ne hb, mul_one, mul_one, i32_i32]

/-- What the digits of the first `k` numbers of a text are worth. -/
def magnitudes : Nat → Bytes → List Nat
  | 0, _ => []
  | k + 1, t =>
    let t := bare (t.dropWhile fun b => !isNumeral b)
    digitsValue (t.takeWhile isDigit) :: magnitudes k (t.dropWhile isDigit)

/-- **Numbers are read without overflow** just if all of them fit but for their signs. -/
theorem isI32_readValues (s : Bytes) (len k i : Nat) : (∀ v ∈ readValues s len k i, IsI32 v) ↔
    ∀ m ∈ magnitudes k (left s len i), m < 2147483648 := by
  induction k generalizing i with
  | zero => simp [readValues, magnitudes]
  | succ k ih =>
    have hnext := congrArg Prod.snd (left_parseInt s len (skipSep s len i))
    obtain ⟨c, -, hint⟩ := intOf_eq (left s len (skipSep s len i))
    rw [hint] at hnext
    simp only at hnext
    rw [readValues, List.forall_mem_append, isI32_intValues, ih, hnext, left_skipSep, magnitudes,
      List.forall_mem_cons]

theorem magnitudes_spaced {ns : List Int} (hns : ∀ n ∈ ns, Symmetric n) :
    magnitudes ns.length (spaced ns) = ns.map Int.natAbs := by
  induction ns with
  | nil => rfl
  | cons n ns ih =>
    obtain ⟨⟨hlo, hhi⟩, hns⟩ := List.forall_mem_cons.mp hns
    have hbare : bare (intToStr n ++ spaced ns) = toString n.natAbs ++ spaced ns := by
      rw [intToStr_eq]
      split
      · rfl
      · obtain ⟨b, ds, hds⟩ := List.exists_cons_of_ne_nil (toString_ne_nil n.natAbs)
        have hdigit := isDigit_toString b (hds ▸ List.mem_cons_self ..)
        rw [List.nil_append, hds]
        exact bare_of_ne (ne_minus_of_isDigit hdigit) _
    have hstop : (spaced ns).takeWhile isDigit = [] ∧
        (spaced ns).dropWhile isDigit = spaced ns := by
      cases ns with
      | nil => exact ⟨rfl, rfl⟩
      | cons m ms => exact ⟨rfl, rfl⟩
    rw [List.length_cons, magnitudes, dropWhile_spaced, hbare,
      List.takeWhile_append_of_pos isDigit_toString,
      List.dropWhile_append_of_pos isDigit_toString, hstop.1, hstop.2, List.append_nil,
      digitsValue_toString, ih hns, List.map_cons]

theorem isI32_line {ns : List Int} (hns : ∀ n ∈ ns, Symmetric n)
    (h : left s len i = spaced ns) : ∀ v ∈ readValues s len ns.length i, IsI32 v := by
  rw [isI32_readValues, h, magnitudes_spaced hns, List.forall_mem_map]
  intro n hn
  have := hns n hn
  unfold Symmetric at this
  omega

end Read

/-! ## Lines -/

/-- How many numbers a role reads. -/
def Role.count : Role → Nat
  | .host => 2
  | .guest => 8

/-- The line of the numbers that a role reads, as the other one formats it. -/
def line (r : Role) (ns : List Int) : Bytes := r.letter :: spaced ns

theorem sendState_eq (e : Engine) : e.sendState = line .guest e.stateInts := rfl

theorem sendPaddle_eq (e : Engine) : e.sendPaddle = line .host e.paddleInts := rfl

namespace Engine

variable (e : Engine)

/-- Taking over the numbers of a message. -/
def takeOver (ns : List Int) : Engine :=
  match e.role with
  | .host => e.mirror (ns.getD 0 0) (ns.getD 1 0)
  | .guest => e.adopt ns

theorem read_eq (text : Bytes) : e.read text = e.takeOver (fields e.role.count text) := by
  unfold read takeOver Role.count
  cases e.role <;> rfl

theorem takeOver_msgBuf (buf : Bytes) (ns : List Int) :
    { e with msgBuf := buf }.takeOver ns = { e.takeOver ns with msgBuf := buf } := by
  rcases e with ⟨_, role⟩
  cases role <;> rfl

/-- What a message does to the buffer. -/
def buffered (text : Bytes) : Bytes := (e.writeMsg text).2.msgBuf

theorem left_buffered (text : Bytes) :
    left (e.buffered text) (e.writeMsg text).1 1 = (text.take (msgBufSize - 1)).drop 1 :=
  congrArg (List.drop 1) (e.take_writeMsg text)

/-- The buffer is there for the message alone. -/
theorem message_eq_buffered (text : Bytes) : e.message text =
    { (if e.Reads text then e.takeOver (fields e.role.count text) else e) with
      msgBuf := e.buffered text } := by
  have hreads : (e.writeMsg text).2.Reads text ↔ e.Reads text := Iff.rfl
  have hwrite : (e.writeMsg text).2 = { e with msgBuf := e.buffered text } := rfl
  rw [message_eq]
  simp only [hreads, read_eq]
  rw [hwrite, takeOver_msgBuf]
  split <;> rfl

end Engine

/-- What the codec makes of the numbers `ns` for the role `r`. -/
structure Coded (r : Role) (ns : List Int) : Prop where
  /-- The line is short enough for `send_buf`, -/
  short : (line r ns).length ≤ 1 + 12 * ns.length ∧ ∀ w ∈ lineWrites ns, w.InBounds
  /-- is not cut, -/
  whole : ∀ e : Engine, (e.writeMsg (line r ns)).1 = (line r ns).length
  /-- and read back from wherever it is written to -/
  back : ∀ e : Engine, e.role = r →
    readInts (e.buffered (line r ns)) (line r ns).length ns.length 1 = ns ∧
      e.message (line r ns) = { e.takeOver ns with msgBuf := e.buffered (line r ns) }
  /-- without overflow. -/
  inRange : (∀ n ∈ ns, ∀ v ∈ writtenValues n, IsI32 v) ∧
    ∀ e : Engine, ∀ v ∈ readValues (e.buffered (line r ns)) (line r ns).length ns.length 1, IsI32 v
  /-- What the buffer held before does not matter, for this message or another. -/
  stale : ∀ (e : Engine) (buf text : Bytes), { e with msgBuf := buf }.message text =
    { e.message text with msgBuf := { e with msgBuf := buf }.buffered text }

theorem length_line {r : Role} {ns : List Int} (h : ∀ n ∈ ns, Symmetric n) :
    (line r ns).length ≤ 1 + 12 * ns.length := by
  have hlen := length_spaced_le fun n hn => (h n hn).isI32
  rw [line, List.length_cons]
  omega

theorem left_line (e : Engine) {r : Role} {ns : List Int} (h : (line r ns).length ≤ 255) :
    left (e.buffered (line r ns)) (line r ns).length 1 = spaced ns := by
  have hlen : (e.writeMsg (line r ns)).1 = (line r ns).length := Nat.min_eq_left h
  have hwhole : (line r ns).take (msgBufSize - 1) = line r ns := List.take_of_length_le h
  rw [← hlen, e.left_buffered, hwhole]
  rfl

/-- **The wire codec.** -/
theorem wire_codec {r : Role} {ns : List Int} (hcount : ns.length = r.count)
    (hns : ∀ n ∈ ns, -(2 ^ 31 - 1) ≤ n ∧ n ≤ 2 ^ 31 - 1) : Coded r ns := by
  have hsym : ∀ n ∈ ns, Symmetric n := fun n hn => by
    have := hns n hn
    unfold Symmetric
    omega
  have hle : ns.length ≤ 8 := by
    rw [hcount]
    cases r <;> decide
  have hshort := length_line (r := r) hsym
  have hleft : ∀ e : Engine,
      left (e.buffered (line r ns)) (line r ns).length 1 = spaced ns := fun e =>
    left_line e (by omega)
  have hfields : fields ns.length (line r ns) = ns := fields_line r.letter ns hle hsym
  have hne : ns ≠ [] := by
    rintro rfl
    cases r <;> cases hcount
  refine ⟨⟨hshort, inBounds_line (fun n hn => (hsym n hn).isI32) hle⟩, fun e => ?_,
    fun e hrole => ⟨?_, ?_⟩, ⟨fun n hn => isI32_writtenValues (hsym n hn),
      fun e => isI32_line hsym (hleft e)⟩, fun e buf text => ?_⟩
  · exact Nat.min_eq_left (show _ ≤ 255 by omega)
  · rw [readInts_eq, hleft e, ints_spaced hsym]
  · have hreads : e.Reads (line r ns) := ⟨two_le_length_line r.letter hne, by rw [hrole]; rfl⟩
    rw [e.message_eq_buffered, if_pos hreads, hrole, ← hcount, hfields]
  · rw [Engine.message_eq_buffered, Engine.message_eq_buffered]
    have hreads : ({ e with msgBuf := buf } : Engine).Reads text ↔ e.Reads text := Iff.rfl
    simp only [hreads, Engine.takeOver_msgBuf]
    split <;> rfl

/-- A snapshot with both ends of the range in it. -/
theorem wire_codec_ends :
    Coded .guest [2147483647, -2147483647, 0, -1, 764, 255, 10, 1000000000] :=
  wire_codec rfl (by decide)

/-! ## Texts that are no lines -/

/-- A number of a well-formed message. -/
def Decimal (p : Bytes) : Prop :=
  ∃ sign digits : Bytes, p = sign ++ digits ∧ (sign = [] ∨ sign = [0x2D]) ∧ digits ≠ [] ∧
    ∀ b ∈ digits, isDigit b = true

/-- A message as `on_peer_message` expects it: the letter, and each number behind a space. -/
def WellFormed (r : Role) (text : Bytes) : Prop :=
  ∃ ps : List Bytes, ps.length = r.count ∧ (∀ p ∈ ps, Decimal p) ∧
    text = r.letter :: ps.flatMap fun p => 0x20 :: p

/-- The first `k` numbers of a text: each is the digits behind the next digit or sign, up to the
next byte that is none, and those that are missing are 0. -/
inductive Found : Nat → Bytes → List Int → Prop where
  | done (t : Bytes) : Found 0 t []
  | missing {k : Nat} {junk : Bytes} (hjunk : ∀ b ∈ junk, isNumeral b = false) :
    Found k junk (List.replicate k 0)
  | number {k : Nat} {junk sign digits rest : Bytes} {ns : List Int}
    (hjunk : ∀ b ∈ junk, isNumeral b = false) (hsign : sign = [] ∨ sign = [0x2D])
    (hsome : sign ++ digits ≠ []) (hdigits : ∀ b ∈ digits, isDigit b = true)
    (hend : ∀ b ∈ rest.head?, isDigit b = false) (h : Found k rest ns) :
    Found (k + 1) (junk ++ (sign ++ digits ++ rest))
      (i32 (if sign = [] then (digitsValue digits : Int) else -digitsValue digits) :: ns)

theorem ints_missing {t : Bytes} (ht : ∀ b ∈ t, isNumeral b = false) (k : Nat) :
    ints k t = List.replicate k 0 := by
  induction k generalizing t with
  | zero => rfl
  | succ k ih =>
    have hdrop : t.dropWhile (fun b => !isNumeral b) = [] :=
      List.dropWhile_eq_nil_iff.mpr fun b hb => by rw [ht b hb]; rfl
    rw [ints, hdrop, List.replicate_succ]
    exact congrArg _ (ih (t := []) (by simp))

theorem Found.eq_ints {k : Nat} {t : Bytes} {ns : List Int} (h : Found k t ns) : ns = ints k t := by
  induction h with
  | done t => rfl
  | missing hjunk => exact (ints_missing hjunk _).symm
  | @number k junk sign digits rest ns hjunk hsign hsome hdigits hend _ ih =>
    have hskip : (junk ++ (sign ++ digits ++ rest)).dropWhile (fun b => !isNumeral b) =
        sign ++ digits ++ rest := by
      rw [List.dropWhile_append_of_pos fun b hb => by rw [hjunk b hb]; rfl]
      obtain ⟨b, t, hbt⟩ := List.exists_cons_of_ne_nil hsome
      have hb : isNumeral b = true := by
        have hmem : b ∈ sign ++ digits := hbt ▸ List.mem_cons_self ..
        rcases List.mem_append.mp hmem with hb | hb
        · rcases hsign with rfl | rfl
          · cases hb
          · rw [List.mem_singleton.mp hb]
            rfl
        · simp [isNumeral, hdigits b hb]
      rw [hbt, List.cons_append, List.dropWhile_cons_of_neg (by simp [hb])]
    rw [ints, hskip, intOf_number hsign hsome hdigits hend, ih]

theorem exists_found (k : Nat) (t : Bytes) : ∃ ns, Found k t ns := by
  induction k generalizing t with
  | zero => exact ⟨[], .done t⟩
  | succ k ih =>
    have hjunk : ∀ b ∈ t.takeWhile (fun b => !isNumeral b), isNumeral b = false := fun b hb => by
      simpa using List.mem_takeWhile_imp hb
    have hnumeral := not_head?_dropWhile (fun b => !isNumeral b) t
    rw [← List.takeWhile_append_dropWhile (p := fun b => !isNumeral b) (l := t)]
    generalize t.takeWhile (fun b => !isNumeral b) = junk at *
    cases hu : t.dropWhile fun b => !isNumeral b with
    | nil =>
      rw [List.append_nil]
      exact ⟨_, .missing hjunk⟩
    | cons b u =>
      rw [hu] at hnumeral
      have hb : isNumeral b = true := by simpa using hnumeral b rfl
      have hdigits : ∀ v : Bytes, ∀ c ∈ v.takeWhile isDigit, isDigit c = true := fun _ _ =>
        List.mem_takeWhile_imp
      -- a sign, or the first of the digits
      by_cases hminus : b = 0x2D
      · obtain ⟨ns, hns⟩ := ih (u.dropWhile isDigit)
        have hsome : [b] ++ u.takeWhile isDigit ≠ [] := by simp
        have hfound := Found.number hjunk (.inr (by rw [hminus])) hsome (hdigits u)
          (not_head?_dropWhile isDigit u) hns
        rw [List.append_assoc, List.takeWhile_append_dropWhile] at hfound
        exact ⟨_, hfound⟩
      · have hdigit : isDigit b = true := by simpa [isNumeral, hminus] using hb
        obtain ⟨ns, hns⟩ := ih ((b :: u).dropWhile isDigit)
        have hsome : ([] : Bytes) ++ (b :: u).takeWhile isDigit ≠ [] := by simp [hdigit]
        have hfound := Found.number hjunk (.inl rfl) hsome (hdigits (b :: u))
          (not_head?_dropWhile isDigit (b :: u)) hns
        rw [List.nil_append, List.takeWhile_append_dropWhile] at hfound
        exact ⟨_, hfound⟩

/-- What an engine does with a message. -/
structure Lenient (e : Engine) (text : Bytes) : Prop where
  /-- One that is too short or has another letter is ignored. -/
  ignored : ¬ e.Reads text → e.message text = { e with msgBuf := e.buffered text }
  /-- In any other one numbers are found, -/
  found : ∃ ns, Found e.role.count ((text.take (msgBufSize - 1)).drop 1) ns
  /-- and all of them are taken over. -/
  taken : e.Reads text → ∀ ns, Found e.role.count ((text.take (msgBufSize - 1)).drop 1) ns →
    e.message text = { e.takeOver ns with msgBuf := e.buffered text }

/-- **A message is taken over whole or not at all**, however malformed. -/
theorem lenient (e : Engine) (text : Bytes) : Lenient e text where
  ignored h := by rw [e.message_eq_buffered, if_neg h]
  found := exists_found ..
  taken h ns hns := by
    rw [e.message_eq_buffered, if_pos h, fields, hns.eq_ints]

theorem not_wellFormed {r : Role} {b : UInt8} {t : Bytes} (hb : b ≠ 0x20) :
    ¬ WellFormed r (r.letter :: b :: t) := by
  rintro ⟨ps, hps, -, htext⟩
  cases ps with
  | nil => cases r <;> cases hps
  | cons p ps => exact hb (List.cons.inj (List.cons.inj htext).2).1

/-- A letter and any byte are enough to move all that a role reads. -/
theorem malformed_taken :
    (¬ ∀ (e : Engine) (text : Bytes), e.role = .host → text.length ≤ 255 →
      ¬ WellFormed .host text → e.message text = { e with msgBuf := e.buffered text }) ∧
    ¬ ∀ (e : Engine) (text : Bytes), e.role = .guest → text.length ≤ 255 →
      ¬ WellFormed .guest text → e.message text = { e with msgBuf := e.buffered text } := by
  refine ⟨?_, ?_⟩
  · intro h
    have hsame := h (Engine.zero.init.startGame .host) (ascii "Pxx") rfl (by decide)
      (not_wellFormed (by decide))
    exact absurd (congrArg Engine.rightX hsame) (by decide +kernel)
  · intro h
    have hsame := h (Engine.zero.init.startGame .guest) (ascii "S-") rfl (by decide)
      (not_wellFormed (by decide))
    exact absurd (congrArg Engine.ballX hsame) (by decide +kernel)

end PongPp.Game
