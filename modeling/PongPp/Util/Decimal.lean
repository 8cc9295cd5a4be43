import Mathlib.Data.Nat.Digits.Lemmas
import Mathlib.Tactic.Ring
import PongPp.Util.Utf8

/-!
# Decimal numerals

What `toString` writes is the decimal representation (`utf8Encode_toDigits`), and reads back as the
number it was written for (`digitsValue_toString`, `fromChars_eq`).
-/

namespace PongPp

theorem isDigit_iff {b : UInt8} : isDigit b = true ↔ 48 ≤ b.toNat ∧ b.toNat ≤ 57 := by
  simp only [isDigit, UInt8.le_iff_toNat_le, Bool.and_eq_true, decide_eq_true_eq]
  exact Iff.rfl

theorem digit_byte {d : Nat} (hd : d < 10) :
    (UInt8.ofNat (48 + d)).toNat = 48 + d ∧ isDigit (UInt8.ofNat (48 + d)) = true := by
  have hnat : (UInt8.ofNat (48 + d)).toNat = 48 + d := by
    rw [UInt8.toNat_ofNat']
    omega
  refine ⟨hnat, isDigit_iff.mpr ?_⟩
  omega

theorem foldl_digits (n : Nat) : (Nat.digits 10 n).reverse.foldl (fun m d => m * 10 + d) 0 = n := by
  rw [List.foldl_reverse]
  conv_rhs => rw [← Nat.ofDigits_digits 10 n, Nat.ofDigits_eq_foldr]
  congr 1
  funext d m
  simp only [Nat.cast_id]
  ring

/-! ## Written numbers -/

theorem toString_of_lt {n : Nat} (h : n < 10) : toString n = [UInt8.ofNat (48 + n)] := by
  rcases Nat.eq_zero_or_pos n with rfl | hn
  · rfl
  · rw [toString, if_neg hn.ne', Nat.digits_of_lt 10 n hn.ne' h]
    rfl

theorem toString_of_le {n : Nat} (h : 10 ≤ n) :
    toString n = toString (n / 10) ++ [UInt8.ofNat (48 + n % 10)] := by
  have hdiv : n / 10 ≠ 0 := by omega
  rw [toString, if_neg (by omega), toString, if_neg hdiv, Nat.digits_def' (by omega) (by omega),
    List.reverse_cons, List.map_append, List.map_singleton]

theorem toString_ne_nil (n : Nat) : toString n ≠ [] := by
  rcases Nat.lt_or_ge n 10 with h | h
  · simp [toString_of_lt h]
  · simp [toString_of_le h]

theorem isDigit_toString {n : Nat} : ∀ b ∈ toString n, isDigit b = true := by
  intro b hb
  unfold toString at hb
  split at hb
  · rw [List.mem_singleton.mp hb]
    rfl
  · obtain ⟨d, hd, rfl⟩ := List.mem_map.mp hb
    exact (digit_byte (Nat.digits_lt_base (by omega) (List.mem_reverse.mp hd))).2

theorem digitsValue_toString (n : Nat) : digitsValue (toString n) = n := by
  unfold toString
  split
  · rename_i h
    rw [h]
    rfl
  · have hds : ∀ d ∈ (Nat.digits 10 n).reverse, d < 10 := fun d hd =>
      Nat.digits_lt_base (by omega) (List.mem_reverse.mp hd)
    rw [digitsValue, List.foldl_map]
    refine Eq.trans (List.foldl_ext _ _ _ fun m d hd => ?_) (foldl_digits n)
    rw [(digit_byte (hds d hd)).1]
    omega

theorem utf8Encode_toDigits (n : Nat) : utf8Encode (Nat.toDigits 10 n) = toString n := by
  have hdigit : ∀ {d}, d < 10 → utf8Encode [d.digitChar] = [UInt8.ofNat (48 + d)] := by
    intro d hd
    have hnat := Nat.toNat_digitChar_of_lt_ten hd
    rw [utf8Encode_ascii (by simp [hnat]; omega), List.map_singleton, hnat]
  induction n using Nat.strong_induction_on with
  | _ n ih =>
    rcases Nat.lt_or_ge n 10 with h | h
    · rw [Nat.toDigits_of_lt_base h, hdigit h, toString_of_lt h]
    · rw [Nat.toDigits_of_base_le (by omega) h, utf8Encode_append, ih _ (by omega),
        hdigit (Nat.mod_lt n (by omega)), toString_of_le h]

/-! ## Numbers read -/

theorem fromChars_all {s : Bytes} {v : UInt64} : fromChars s = some (v, []) ↔
    s ≠ [] ∧ (∀ b ∈ s, isDigit b = true) ∧ digitsValue s = v.toNat := by
  by_cases hall : ∀ b ∈ s, isDigit b = true
  · have htake : s.takeWhile isDigit = s := List.takeWhile_eq_self_iff.mpr hall
    have hdrop : s.dropWhile isDigit = [] := List.dropWhile_eq_nil_iff.mpr hall
    have hv := v.toNat_lt
    simp only [fromChars, htake, hdrop]
    split_ifs with hnil hbig
    · simp [hnil]
    · have hne : digitsValue s ≠ v.toNat := by omega
      simp [hne]
    · have hval : UInt64.ofNat (digitsValue s) = v ↔ digitsValue s = v.toNat := by
        rw [← UInt64.toNat_inj, UInt64.toNat_ofNat', Nat.mod_eq_of_lt (not_le.mp hbig)]
      rw [Option.some_inj, Prod.mk.injEq, hval]
      tauto
  · have hdrop : s.dropWhile isDigit ≠ [] := fun h => hall (List.dropWhile_eq_nil_iff.mp h)
    refine iff_of_false (fun h => ?_) fun h => hall h.2.1
    simp only [fromChars] at h
    split_ifs at h
    exact hdrop (Prod.ext_iff.mp (Option.some.inj h)).2

end PongPp
