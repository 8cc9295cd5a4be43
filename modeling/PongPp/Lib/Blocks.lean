import PongPp.Lib.BigEndian
import Mathlib.Data.List.Basic

/-!
# Blocks and length padding

`blocks n` cuts a list into consecutive blocks of `n` elements, and `pad n k` is the padding that
iterated hash functions use: a one bit, the fewest zeros, and the length in bits in the last `k`
bytes, so that the blocks cover the padded message (`length_pad`, `zeros_le`).
-/

namespace PongPp.Lib

variable {α : Type}

/-- The complete blocks of `n` elements, from the front. -/
def blocks (n : Nat) (xs : List α) : List (List α) :=
  (List.range (xs.length / n)).map fun i => (xs.drop (n * i)).take n

theorem blocks_of_lt {n : Nat} {xs : List α} (h : xs.length < n) : blocks n xs = [] := by
  simp [blocks, Nat.div_eq_of_lt h]

theorem blocks_cons {n : Nat} {xs : List α} (hn : 0 < n) (h : n ≤ xs.length) :
    blocks n xs = xs.take n :: blocks n (xs.drop n) := by
  have hlen : xs.length / n = (xs.length - n) / n + 1 := by
    exact Nat.div_eq_sub_div hn h
  rw [blocks, blocks, hlen, List.range_succ_eq_map, List.map_cons, List.map_map, List.length_drop]
  simp only [Nat.mul_zero, List.drop_zero]
  refine congrArg _ (List.map_congr_left fun i _ => ?_)
  rw [Function.comp_apply, List.drop_drop, Nat.mul_succ, Nat.add_comm]

/-- Blocks of a list with a prefix that ends at a block. -/
theorem blocks_append {n k : Nat} {xs : List α} (ys : List α) (hn : 0 < n)
    (h : xs.length = n * k) :
    blocks n (xs ++ ys) = blocks n xs ++ blocks n ys := by
  induction k generalizing xs with
  | zero =>
    obtain rfl : xs = [] := List.length_eq_zero_iff.mp h
    have hnil : blocks n ([] : List α) = [] := blocks_of_lt hn
    rw [hnil, List.nil_append, List.nil_append]
  | succ k ih =>
    rw [Nat.mul_succ] at h
    have hdrop : (xs.drop n).length = n * k := by rw [List.length_drop]; omega
    have hle : n ≤ xs.length := by omega
    have hle' : n ≤ (xs ++ ys).length := by rw [List.length_append]; omega
    rw [blocks_cons hn hle', blocks_cons hn hle, List.take_append_of_le_length hle,
      List.drop_append_of_le_length hle, ih hdrop, List.cons_append]

theorem blocks_single {n : Nat} {xs : List α} (hn : 0 < n) (h : xs.length = n) :
    blocks n xs = [xs] := by
  rw [blocks_cons hn h.ge, List.take_of_length_le h.le, List.drop_of_length_le h.le,
    blocks_of_lt (by exact hn)]

/-- The zeros behind a message of `len` bytes: with the `0x80` and the `k` bytes of the length
they fill up the last block of `n`. -/
def zeros (n k len : Nat) : Nat := (n - (len + 1 + k) % n) % n

/-- The padded message. -/
def pad (n k : Nat) (bs : List UInt8) : List UInt8 :=
  bs ++ 0x80 :: List.replicate (zeros n k bs.length) 0 ++ toBytes k (8 * bs.length)

theorem length_pad (n k : Nat) (bs : List UInt8) :
    (pad n k bs).length = bs.length + 1 + zeros n k bs.length + k := by
  simp only [pad, List.length_append, List.length_cons, List.length_replicate, length_toBytes]
  omega

theorem zeros_fill {n : Nat} (hn : 0 < n) (k len : Nat) :
    (len + 1 + zeros n k len + k) % n = 0 := by
  have hmod := Nat.mod_lt (len + 1 + k) hn
  have hdiv := Nat.div_add_mod (len + 1 + k) n
  have hsum : len + 1 + k + (n - (len + 1 + k) % n) = n * ((len + 1 + k) / n + 1) := by
    rw [Nat.mul_succ]
    omega
  rw [show len + 1 + zeros n k len + k = len + 1 + k + zeros n k len by omega, zeros,
    Nat.add_mod_mod, hsum]
  exact Nat.mul_mod_right ..

theorem zeros_le {n : Nat} (hn : 0 < n) {k len z : Nat} (h : (len + 1 + z + k) % n = 0) :
    zeros n k len ≤ z := by
  have hmod := Nat.mod_lt (len + 1 + k) hn
  rw [show len + 1 + z + k = len + 1 + k + z by omega, Nat.add_mod] at h
  have hz := Nat.mod_le z n
  have hzn := Nat.mod_lt z hn
  -- the two residues add up to zero or to `n`
  obtain ⟨c, hc⟩ := Nat.dvd_of_mod_eq_zero h
  have hc2 : n * c < n * 2 := by omega
  have hlt : c < 2 := Nat.lt_of_mul_lt_mul_left hc2
  obtain rfl | rfl : c = 0 ∨ c = 1 := by omega
  · have h0 : (len + 1 + k) % n = 0 := by omega
    rw [zeros, h0, Nat.sub_zero, Nat.mod_self]
    exact Nat.zero_le _
  · have hle : (n - (len + 1 + k) % n) % n ≤ n - (len + 1 + k) % n := Nat.mod_le ..
    rw [zeros]
    omega

/-- Writing `k` elements from the back to the front of a gap. -/
theorem foldl_set_back (g : Nat → α) {k : Nat} {gap : List α} (xs ys : List α)
    (h : gap.length = k) :
    (List.range k).foldl (fun t i => t.set (xs.length + k - 1 - i) (g i)) (xs ++ gap ++ ys) =
      xs ++ (List.range k).map (fun i => g (k - 1 - i)) ++ ys := by
  induction k generalizing xs gap with
  | zero =>
    obtain rfl : gap = [] := List.length_eq_zero_iff.mp h
    rfl
  | succ k ih =>
    obtain ⟨x, gap, rfl⟩ := List.exists_cons_of_length_eq_add_one h
    have hlast : xs.length + (k + 1) - 1 - k = xs.length := by omega
    have hpos : ∀ i, xs.length + (k + 1) - 1 - i = (xs ++ [x]).length + k - 1 - i := fun i => by
      rw [List.length_append, List.length_singleton]; omega
    rw [List.range_succ, List.foldl_concat, hlast]
    simp only [hpos]
    rw [show xs ++ x :: gap ++ ys = xs ++ [x] ++ gap ++ ys by simp,
      ih (xs ++ [x]) (by rw [List.length_cons] at h; omega), ← List.range_succ,
      List.range_succ_eq_map]
    simp only [List.append_assoc, List.map_cons, List.map_map,
      List.cons_append, Nat.add_sub_cancel, Nat.sub_zero]
    rw [List.set_append_right _ _ le_rfl, Nat.sub_self, List.set_cons_zero]
    refine congrArg (fun t => xs ++ g k :: (t ++ ys)) (List.map_congr_left fun i _ => ?_)
    rw [Function.comp_apply, Nat.succ_eq_add_one, show k - 1 - i = k - (i + 1) by omega]

end PongPp.Lib
