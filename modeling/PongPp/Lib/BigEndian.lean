import Mathlib.Data.Nat.Bitwise
import Mathlib.Data.UInt
import Mathlib.Tactic.Ring

/-!
# Big-endian numerals

`ofBytes` is the number that a byte string spells, most significant byte first, and `toBytes k` the
last `k` bytes of a number; each undoes the other (`ofBytes_toBytes`, `toBytes_ofBytes`). The last
sections say how machine words are put together from bytes by shift and or, and taken apart.
-/

namespace PongPp.Lib

/-- The number that `bs` spells. -/
def ofBytes (bs : List UInt8) : Nat := bs.foldl (fun n b => n * 256 + b.toNat) 0

/-- The `k` low bytes of `n`. -/
def toBytes : Nat → Nat → List UInt8
  | 0, _ => []
  | k + 1, n => toBytes k (n / 256) ++ [UInt8.ofNat n]

@[simp] theorem ofBytes_nil : ofBytes [] = 0 := rfl

@[simp] theorem ofBytes_concat (bs : List UInt8) (b : UInt8) :
    ofBytes (bs ++ [b]) = ofBytes bs * 256 + b.toNat := by
  simp [ofBytes]

@[simp] theorem length_toBytes (k n : Nat) : (toBytes k n).length = k := by
  induction k generalizing n with
  | zero => rfl
  | succ k ih => simp [toBytes, ih]

theorem ofBytes_lt (bs : List UInt8) : ofBytes bs < 256 ^ bs.length := by
  induction bs using List.reverseRecOn with
  | nil => simp
  | append_singleton bs b ih =>
    have hb := b.toNat_lt
    rw [ofBytes_concat, List.length_append, List.length_singleton, pow_succ]
    omega

theorem ofBytes_toBytes {k n : Nat} (h : n < 256 ^ k) : ofBytes (toBytes k n) = n := by
  induction k generalizing n with
  | zero =>
    rw [pow_zero, Nat.lt_one_iff] at h
    exact h.symm
  | succ k ih =>
    have hdiv : n / 256 < 256 ^ k := Nat.div_lt_of_lt_mul (by rwa [pow_succ, mul_comm] at h)
    rw [toBytes, ofBytes_concat, ih hdiv, UInt8.toNat_ofNat']
    omega

theorem toBytes_ofBytes (bs : List UInt8) : toBytes bs.length (ofBytes bs) = bs := by
  induction bs using List.reverseRecOn with
  | nil => rfl
  | append_singleton bs b ih =>
    have hb := b.toNat_lt
    have hdiv : (ofBytes bs * 256 + b.toNat) / 256 = ofBytes bs := by omega
    have hlast : UInt8.ofNat (ofBytes bs * 256 + b.toNat) = b := by
      rw [← UInt8.toNat_inj, UInt8.toNat_ofNat']
      omega
    rw [List.length_append, List.length_singleton, toBytes, ofBytes_concat, hdiv, ih, hlast]

theorem toBytes_eq_map (k n : Nat) :
    toBytes k n = (List.range k).map fun i => UInt8.ofNat (n / 256 ^ (k - 1 - i)) := by
  induction k generalizing n with
  | zero => rfl
  | succ k ih =>
    rw [toBytes, ih, List.range_succ, List.map_append, List.map_singleton]
    refine congrArg₂ (· ++ ·) (List.map_congr_left fun i hi => ?_) (by simp)
    have := List.mem_range.mp hi
    rw [Nat.div_div_eq_div_mul, show k + 1 - 1 - i = k - 1 - i + 1 by omega, pow_succ, mul_comm]

/-! ## Words from bytes -/

theorem shift_or_byte {v : UInt64} {b : UInt8} (h : v.toNat < 2 ^ 56) :
    ((v <<< 8) ||| b.toUInt64).toNat = v.toNat * 256 + b.toNat := by
  have hshift : (8 : UInt64).toNat % 64 = 8 := rfl
  rw [UInt64.toNat_or, UInt64.toNat_shiftLeft, hshift, UInt8.toNat_toUInt64, Nat.shiftLeft_eq,
    Nat.mod_eq_of_lt (by omega), ← Nat.shiftLeft_eq,
    ← Nat.shiftLeft_add_eq_or_of_lt b.toNat_lt, Nat.shiftLeft_eq]

theorem foldl_shift_or {bs : List UInt8} (h : bs.length ≤ 8) :
    (bs.foldl (fun (v : UInt64) b => (v <<< 8) ||| b.toUInt64) 0).toNat = ofBytes bs := by
  induction bs using List.reverseRecOn with
  | nil => rfl
  | append_singleton bs b ih =>
    rw [List.length_append, List.length_singleton] at h
    have hlt : ofBytes bs < 2 ^ 56 :=
      (ofBytes_lt bs).trans_le (by
        rw [show (256 : Nat) = 2 ^ 8 from rfl, ← pow_mul]
        exact Nat.pow_le_pow_right (by omega) (by omega))
    have ih := ih (by omega)
    rw [List.foldl_concat, ofBytes_concat, shift_or_byte (by omega), ih]

theorem shiftLeft_or {x y k : Nat} (h : y < 2 ^ k) : x * 2 ^ k ||| y = x * 2 ^ k + y := by
  rw [mul_comm, Nat.two_pow_add_eq_or_of_lt h]

theorem word_of_bytes (a b c d : UInt8) :
    ((a.toUInt32 <<< 24) ||| (b.toUInt32 <<< 16) ||| (c.toUInt32 <<< 8) ||| d.toUInt32).toNat =
      ofBytes [a, b, c, d] := by
  have ha := a.toNat_lt
  have hb := b.toNat_lt
  have hc := c.toNat_lt
  have hd := d.toNat_lt
  have hshift : ∀ (v : UInt8) (s : UInt32), s.toNat ≤ 24 →
      (v.toUInt32 <<< s).toNat = v.toNat * 2 ^ s.toNat := fun v s hs => by
    have hv := v.toNat_lt
    have hpow : 2 ^ s.toNat ≤ 2 ^ 24 := Nat.pow_le_pow_right (by omega) hs
    have hfit : v.toNat * 2 ^ s.toNat < 2 ^ 32 :=
      (Nat.mul_le_mul (Nat.le_of_lt_succ hv) hpow).trans_lt (by omega)
    rw [UInt32.toNat_shiftLeft, UInt8.toNat_toUInt32,
      Nat.mod_eq_of_lt (show s.toNat < 32 by omega), Nat.shiftLeft_eq, Nat.mod_eq_of_lt hfit]
  rw [UInt32.toNat_or, UInt32.toNat_or, UInt32.toNat_or, hshift a 24 (by decide),
    hshift b 16 (by decide), hshift c 8 (by decide), UInt8.toNat_toUInt32]
  have h₁ : a.toNat * 2 ^ 24 ||| b.toNat * 2 ^ 16 = (a.toNat * 2 ^ 8 + b.toNat) * 2 ^ 16 := by
    rw [shiftLeft_or (by omega)]
    ring
  have h₂ : (a.toNat * 2 ^ 8 + b.toNat) * 2 ^ 16 ||| c.toNat * 2 ^ 8 =
      ((a.toNat * 2 ^ 8 + b.toNat) * 2 ^ 8 + c.toNat) * 2 ^ 8 := by
    rw [shiftLeft_or (by omega)]
    ring
  have h24 : (24 : UInt32).toNat = 24 := rfl
  have h16 : (16 : UInt32).toNat = 16 := rfl
  have h8 : (8 : UInt32).toNat = 8 := rfl
  rw [h24, h16, h8, h₁, h₂, shiftLeft_or (by omega)]
  simp only [ofBytes, List.foldl_cons, List.foldl_nil]
  ring

/-! ## Bytes of words -/

theorem byte_of_shift64 {v s : UInt64} (hs : s.toNat < 64) :
    (v >>> s).toUInt8 = UInt8.ofNat (v.toNat / 2 ^ s.toNat) := by
  rw [← UInt8.toNat_inj, UInt64.toNat_toUInt8, UInt64.toNat_shiftRight, Nat.mod_eq_of_lt hs,
    Nat.shiftRight_eq_div_pow, UInt8.toNat_ofNat']

theorem byte_of_shift {v s : UInt64} (hs : s.toNat < 64) :
    ((v >>> s) &&& 0xFF).toUInt8 = UInt8.ofNat (v.toNat / 2 ^ s.toNat) := by
  have hff : (0xFF : UInt64).toNat = 2 ^ 8 - 1 := rfl
  rw [← byte_of_shift64 hs, ← UInt8.toNat_inj, UInt64.toNat_toUInt8, UInt64.toNat_and, hff,
    Nat.and_two_pow_sub_one_eq_mod, Nat.mod_mod, UInt64.toNat_toUInt8]

theorem byte_of_shift32 {v s : UInt32} (hs : s.toNat < 32) :
    (v >>> s).toUInt8 = UInt8.ofNat (v.toNat / 2 ^ s.toNat) := by
  rw [← UInt8.toNat_inj, UInt32.toNat_toUInt8, UInt32.toNat_shiftRight, Nat.mod_eq_of_lt hs,
    Nat.shiftRight_eq_div_pow, UInt8.toNat_ofNat']

end PongPp.Lib
