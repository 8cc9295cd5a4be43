import Mathlib.Data.List.Basic
import Mathlib.Data.UInt
import PongPp.Util.Bytes

/-!
# UTF-8

A string without lone surrogates is its list of characters. `utf8Encode` is what `TextEncoder`
makes of one, `utf8Decode` what a decoder reads from well-formed bytes; they are mutually inverse
(`utf8Decode_encode`, `utf8Decode_eq_some`). An ASCII byte stands for itself wherever it is, so
text can be cut and joined there.
-/

namespace PongPp

def utf8Encode (s : List Char) : Bytes := s.flatMap String.utf8EncodeChar

/-- The string that `b` encodes, if any. -/
def utf8Decode (b : Bytes) : Option (List Char) := b.toByteArray.utf8Decode?.map Array.toList

/-- `b` is well-formed UTF-8. -/
def Utf8 (b : Bytes) : Prop := ∃ s, utf8Encode s = b

@[simp] theorem utf8Encode_nil : utf8Encode [] = [] := rfl

@[simp] theorem utf8Encode_cons (c : Char) (s : List Char) :
    utf8Encode (c :: s) = String.utf8EncodeChar c ++ utf8Encode s := rfl

@[simp] theorem utf8Encode_append (s t : List Char) :
    utf8Encode (s ++ t) = utf8Encode s ++ utf8Encode t := List.flatMap_append

theorem utf8Decode_encode (s : List Char) : utf8Decode (utf8Encode s) = some s := by
  have h : (utf8Encode s).toByteArray.utf8Decode? = some s.toArray := List.utf8Decode?_utf8Encode
  rw [utf8Decode, h]
  rfl

theorem utf8_iff (b : Bytes) : Utf8 b ↔ b.toByteArray.IsValidUTF8 := by
  refine ⟨?_, ?_⟩
  · rintro ⟨s, rfl⟩
    exact ByteArray.isValidUTF8_utf8Encode
  · rintro ⟨s, hs⟩
    exact ⟨s, (List.toByteArray_inj.mp hs).symm⟩

instance (b : Bytes) : Decidable (Utf8 b) := decidable_of_iff _ (utf8_iff b).symm

theorem utf8Decode_eq_some {b : Bytes} {s : List Char} :
    utf8Decode b = some s ↔ utf8Encode s = b := by
  refine ⟨?_, ?_⟩
  · intro h
    have hsome : (b.toByteArray.utf8Decode?).isSome = true := by
      rw [utf8Decode, Option.map_eq_some_iff] at h
      obtain ⟨a, ha, -⟩ := h
      rw [ha]
      rfl
    obtain ⟨t, rfl⟩ := (utf8_iff b).mpr (ByteArray.isSome_utf8Decode?_iff.mp hsome)
    rw [utf8Decode_encode] at h
    cases h
    rfl
  · rintro rfl
    exact utf8Decode_encode s

theorem Utf8.append {a b : Bytes} (ha : Utf8 a) (hb : Utf8 b) : Utf8 (a ++ b) := by
  obtain ⟨s, rfl⟩ := ha
  obtain ⟨t, rfl⟩ := hb
  exact ⟨s ++ t, utf8Encode_append s t⟩

/-! ## ASCII -/

def Ascii (b : Bytes) : Prop := ∀ x ∈ b, x.toNat < 128

instance (b : Bytes) : Decidable (Ascii b) := List.decidableBAll (fun x : UInt8 => x.toNat < 128) b

theorem Ascii.append {a b : Bytes} (ha : Ascii a) (hb : Ascii b) : Ascii (a ++ b) := fun x hx =>
  (List.mem_append.mp hx).elim (ha x) (hb x)

theorem encodeChar_cases (c : Char) :
    (c.toNat < 128 ∧ String.utf8EncodeChar c = [UInt8.ofNat c.toNat]) ∨
      ∀ x ∈ String.utf8EncodeChar c, 128 ≤ x.toNat := by
  have hval : c.val.toNat = c.toNat := rfl
  unfold String.utf8EncodeChar
  simp only [hval]
  split_ifs
  · exact .inl ⟨by omega, rfl⟩
  all_goals
    refine .inr ?_
    simp only [List.forall_mem_cons, List.not_mem_nil, false_implies, implies_true, and_true,
      UInt8.toNat_ofNat']
    omega

theorem encodeChar_ascii {n : Nat} (h : n < 128) :
    String.utf8EncodeChar (Char.ofNat n) = [UInt8.ofNat n] := by
  have hvalid : n.isValidChar := .inl (by omega)
  have hn : (Char.ofNat n).toNat = n := by
    rw [Char.ofNat, dif_pos hvalid]
    rfl
  have hval : (Char.ofNat n).val.toNat = n := hn
  unfold String.utf8EncodeChar
  simp only [hval]
  rw [if_pos (by omega)]

theorem utf8Encode_ascii {s : List Char} (h : (s.all fun c => c.toNat < 128) = true) :
    utf8Encode s = s.map fun c => UInt8.ofNat c.toNat := by
  induction s with
  | nil => rfl
  | cons c s ih =>
    rw [List.all_cons, Bool.and_eq_true, decide_eq_true_eq] at h
    have hlt : c.val.toNat ≤ 127 := Nat.le_of_lt_succ h.1
    have hc : String.utf8EncodeChar c = [UInt8.ofNat c.toNat] := by
      unfold String.utf8EncodeChar
      simp only
      rw [if_pos hlt]
      rfl
    rw [utf8Encode_cons, ih h.2, List.map_cons, hc]
    rfl

theorem Ascii.utf8 {b : Bytes} (h : Ascii b) : Utf8 b := by
  induction b with
  | nil => exact ⟨[], rfl⟩
  | cons x b ih =>
    obtain ⟨s, hs⟩ := ih fun y hy => h y (List.mem_cons_of_mem _ hy)
    refine ⟨Char.ofNat x.toNat :: s, ?_⟩
    rw [utf8Encode_cons, encodeChar_ascii (h x (List.mem_cons_self ..)), hs, UInt8.ofNat_toNat]
    rfl

/-- An ASCII byte in front is a character of its own. -/
theorem utf8_cons {x : UInt8} (hx : x.toNat < 128) {b : Bytes} : Utf8 (x :: b) ↔ Utf8 b := by
  refine ⟨?_, ?_⟩
  · rintro ⟨_ | ⟨c, s⟩, hs⟩
    · cases hs
    · rw [utf8Encode_cons] at hs
      rcases encodeChar_cases c with ⟨-, hc⟩ | hc
      · rw [hc] at hs
        cases hs
        exact ⟨s, rfl⟩
      · cases he : String.utf8EncodeChar c with
        | nil => exact absurd he String.utf8EncodeChar_ne_nil
        | cons y ys =>
          rw [he] at hs hc
          cases hs
          exact absurd hx (not_lt.mpr (hc x (List.mem_cons_self ..)))
  · have hone : Ascii [x] := by simpa [Ascii] using hx
    exact fun h => hone.utf8.append h

theorem utf8_concat {x : UInt8} (hx : x.toNat < 128) {b : Bytes} : Utf8 (b ++ [x]) ↔ Utf8 b := by
  refine ⟨?_, ?_⟩
  · rintro ⟨s, hs⟩
    cases s using List.reverseRecOn with
    | nil => simp at hs
    | append_singleton s c =>
      rw [utf8Encode_append, utf8Encode_cons, utf8Encode_nil, List.append_nil] at hs
      rcases encodeChar_cases c with ⟨-, hc⟩ | hc
      · rw [hc] at hs
        exact ⟨s, (List.append_inj' hs rfl).1⟩
      · have hne : String.utf8EncodeChar c ≠ [] := String.utf8EncodeChar_ne_nil
        have hlast := congrArg List.getLast? hs
        rw [List.getLast?_append_of_ne_nil _ hne, List.getLast?_concat] at hlast
        exact absurd hx (not_lt.mpr (hc x (List.mem_of_getLast? hlast)))
  · have hone : Ascii [x] := by simpa [Ascii] using hx
    exact fun h => h.append hone.utf8

/-- **ASCII in front** can be taken off. -/
theorem utf8_append_left {a b : Bytes} (ha : Ascii a) : Utf8 (a ++ b) ↔ Utf8 b := by
  induction a with
  | nil => rfl
  | cons x a ih =>
    rw [List.cons_append, utf8_cons (ha x (List.mem_cons_self ..)),
      ih fun y hy => ha y (List.mem_cons_of_mem _ hy)]

/-- **ASCII at the end** can be taken off. -/
theorem utf8_append_right {a b : Bytes} (hb : Ascii b) : Utf8 (a ++ b) ↔ Utf8 a := by
  induction b using List.reverseRecOn with
  | nil => rw [List.append_nil]
  | append_singleton b x ih =>
    rw [← List.append_assoc, utf8_concat (hb x (by simp)),
      ih fun y hy => hb y (List.mem_append_left _ hy)]

end PongPp
