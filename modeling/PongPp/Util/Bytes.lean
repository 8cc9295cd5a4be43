import Mathlib.Data.Nat.Digits.Defs
import Mathlib.Data.List.DropRight

/-!
# Byte strings

A `std::string` is its list of bytes. `find` and `findFrom` are `std::string::find`
(`none` is `npos`), `toString` is `std::to_string` of an unsigned number and `fromChars` is
`std::from_chars` into a `uint64_t`.
-/

namespace PongPp

abbrev Bytes := List UInt8

/-- The bytes of an ASCII literal. -/
def ascii (s : String) : Bytes := s.toList.map fun c => UInt8.ofNat c.toNat

/-- Position of the first occurrence of `pat`. -/
def find (pat : Bytes) : Bytes → Option Nat
  | [] => if pat = [] then some 0 else none
  | b :: s => if pat.isPrefixOf (b :: s) then some 0 else (find pat s).map (· + 1)

/-- Position of the first occurrence of `pat` at or after `i`. -/
def findFrom (pat s : Bytes) (i : Nat) : Option Nat := (find pat (s.drop i)).map (· + i)

theorem find_length_le {pat s : Bytes} {j : Nat} (h : find pat s = some j) :
    j + pat.length ≤ s.length := by
  induction s generalizing j with
  | nil =>
    simp only [find] at h
    split at h
    · cases h; simp [*]
    · cases h
  | cons b s ih =>
    simp only [find] at h
    split at h
    · rename_i hp
      cases h
      have := (List.isPrefixOf_iff_prefix.mp hp).length_le
      omega
    · obtain ⟨k, hk, rfl⟩ := Option.map_eq_some_iff.mp h
      have := ih hk
      simp only [List.length_cons]
      omega

theorem find_lt {pat s : Bytes} (hp : pat ≠ []) {j : Nat} (h : find pat s = some j) :
    j < s.length := by
  have := find_length_le h
  have := List.length_pos_of_ne_nil hp
  omega

/-- What is found stays found where it is when more arrives. -/
theorem find_append {pat s : Bytes} (hp : pat ≠ []) {j : Nat} (h : find pat s = some j)
    (t : Bytes) : find pat (s ++ t) = some j := by
  induction s generalizing j with
  | nil => simp [find, hp] at h
  | cons b s ih =>
    have hlen := find_length_le h
    simp only [List.cons_append, find] at h ⊢
    by_cases hpre : pat.isPrefixOf (b :: s)
    · rw [if_pos hpre] at h
      rw [if_pos, h]
      exact List.isPrefixOf_iff_prefix.mpr
        ((List.isPrefixOf_iff_prefix.mp hpre).trans (List.prefix_append (b :: s) t))
    · rw [if_neg hpre] at h
      obtain ⟨k, hk, rfl⟩ := Option.map_eq_some_iff.mp h
      -- `pat` fits into `b :: s`, so the bytes of `t` cannot complete it at the front
      have hnot : ¬ pat.isPrefixOf (b :: (s ++ t)) := fun hpre' => hpre <|
        List.isPrefixOf_iff_prefix.mpr <| List.prefix_of_prefix_length_le
          (List.isPrefixOf_iff_prefix.mp hpre') (List.prefix_append (b :: s) t) (by omega)
      rw [if_neg hnot, ih hk]
      rfl

theorem find_eq_some {pat s : Bytes} {j : Nat} :
    find pat s = some j ↔ pat <+: s.drop j ∧ ∀ k < j, ¬ pat <+: s.drop k := by
  induction s generalizing j with
  | nil =>
    by_cases hp : pat = []
    · subst hp
      have hzero : (∀ k < j, ¬ ([] : Bytes) <+: ([] : Bytes).drop k) ↔ 0 = j := by
        refine ⟨?_, ?_⟩
        · exact fun h => (Nat.eq_zero_of_not_pos fun hj => h 0 hj List.nil_prefix).symm
        · rintro rfl k hk
          exact absurd hk (Nat.not_lt_zero k)
      rw [hzero]
      simp [find]
    · simp [find, hp]
  | cons b s ih =>
    rw [find]
    by_cases hpre : pat.isPrefixOf (b :: s)
    · have hpre' := List.isPrefixOf_iff_prefix.mp hpre
      rw [if_pos hpre, Option.some_inj]
      refine ⟨?_, ?_⟩
      · rintro rfl
        exact ⟨hpre', fun k hk => absurd hk (Nat.not_lt_zero k)⟩
      · exact fun h => (Nat.eq_zero_of_not_pos fun hj => h.2 0 hj hpre').symm
    · have hpre' : ¬ pat <+: b :: s := fun h => hpre (List.isPrefixOf_iff_prefix.mpr h)
      rw [if_neg hpre, Option.map_eq_some_iff]
      refine ⟨?_, ?_⟩
      · rintro ⟨i, hi, rfl⟩
        obtain ⟨hat, hbefore⟩ := ih.mp hi
        refine ⟨hat, fun k hk => ?_⟩
        cases k with
        | zero => exact hpre'
        | succ k => exact hbefore k (Nat.lt_of_succ_lt_succ hk)
      · rintro ⟨hat, hbefore⟩
        cases j with
        | zero => exact absurd hat hpre'
        | succ j => exact ⟨j, ih.mpr ⟨hat, fun k hk => hbefore (k + 1) (Nat.succ_lt_succ hk)⟩, rfl⟩

theorem exists_find {pat s : Bytes} : (∃ j, find pat s = some j) ↔ pat <:+: s := by
  refine ⟨?_, ?_⟩
  · rintro ⟨j, h⟩
    exact (find_eq_some.mp h).1.isInfix.trans (List.drop_suffix j s).isInfix
  · intro h
    induction s with
    | nil => exact ⟨0, by rw [find, if_pos (List.infix_nil.mp h)]⟩
    | cons b s ih =>
      by_cases hp : pat <+: b :: s
      · exact ⟨0, by rw [find, if_pos (List.isPrefixOf_iff_prefix.mpr hp)]⟩
      · obtain ⟨j, hj⟩ := ih ((List.infix_cons_iff.mp h).resolve_left hp)
        have hpat : ¬ pat.isPrefixOf (b :: s) := fun hp' => hp (List.isPrefixOf_iff_prefix.mp hp')
        exact ⟨j + 1, by rw [find, if_neg hpat, hj]; rfl⟩

theorem find_of_append {pat s t : Bytes} {j : Nat} (h : find pat (s ++ t) = some j)
    (hj : j + pat.length ≤ s.length) : find pat s = some j := by
  obtain ⟨hat, hbefore⟩ := find_eq_some.mp h
  rw [List.drop_append_of_le_length (by omega)] at hat
  refine find_eq_some.mpr ⟨?_, fun k hk hpre => hbefore k hk ?_⟩
  · exact List.prefix_of_prefix_length_le hat (List.prefix_append ..) (by simp; omega)
  · rw [List.drop_append_of_le_length (by omega)]
    exact hpre.trans (List.prefix_append ..)

theorem findFrom_bounds {pat s : Bytes} (hp : pat ≠ []) {i j : Nat}
    (h : findFrom pat s i = some j) : i ≤ j ∧ j < s.length := by
  obtain ⟨k, hk, rfl⟩ := Option.map_eq_some_iff.mp h
  have := find_lt hp hk
  rw [List.length_drop] at this
  omega

theorem byte_forall {P : UInt8 → Prop} (h : ∀ n : Fin 256, P (UInt8.ofNat n.val)) (b : UInt8) :
    P b := by
  have hb := h ⟨b.toNat, b.toNat_lt⟩
  rwa [UInt8.ofNat_toNat] at hb

theorem map_getD_range {buf : Bytes} {a k : Nat} (h : a + k ≤ buf.length) :
    (List.range k).map (fun i => buf.getD (a + i) 0) = (buf.drop a).take k := by
  refine List.ext_getElem (by simp; omega) fun i hi _ => ?_
  simp only [List.length_map, List.length_range] at hi
  simp only [List.getElem_map, List.getElem_range, List.getElem_take, List.getElem_drop]
  rw [List.getD_eq_getElem?_getD, List.getElem?_eq_getElem (by omega), Option.getD_some]

theorem drop_take_cons {buf : Bytes} {i n : Nat} (hn : i < n) (hb : i < buf.length) :
    (buf.take n).drop i = buf.getD i 0 :: (buf.take n).drop (i + 1) := by
  have hlen : i < (buf.take n).length := by simp [hn, hb]
  have hget : (buf.take n)[i] = buf.getD i 0 := by simp [hb]
  rw [List.drop_eq_getElem_cons hlen, hget]

/-! ## Cutting at a separator -/

section Cut

variable {α : Type*} [BEq α] [LawfulBEq α] {sep : α} {l v : List α}

theorem split_append (hv : sep ∉ v) (body : List α) :
    (v ++ sep :: body).takeWhile (· != sep) = v ∧
      ((v ++ sep :: body).dropWhile (· != sep)).drop 1 = body := by
  have hpos : ∀ x ∈ v, (x != sep) = true := fun x hx => by
    simpa using ne_of_mem_of_not_mem hx hv
  rw [List.takeWhile_append_of_pos hpos, List.dropWhile_append_of_pos hpos]
  simp

theorem eq_of_takeWhile (h : l.takeWhile (· != sep) = v) :
    (l = v ∧ (l.dropWhile (· != sep)).drop 1 = []) ∨
      l = v ++ sep :: (l.dropWhile (· != sep)).drop 1 := by
  have hsplit : l.takeWhile (· != sep) ++ l.dropWhile (· != sep) = l :=
    List.takeWhile_append_dropWhile
  have hhead := List.head?_dropWhile_not (fun x => x != sep) l
  rw [h] at hsplit
  cases hd : l.dropWhile (· != sep) with
  | nil =>
    rw [hd, List.append_nil] at hsplit
    exact .inl ⟨hsplit.symm, rfl⟩
  | cons x xs =>
    rw [hd] at hsplit hhead
    have hx : x = sep := by simpa using hhead
    rw [hx] at hsplit
    exact .inr hsplit.symm

end Cut

/-- `std::to_string` of an unsigned number. -/
def toString (n : Nat) : Bytes :=
  if n = 0 then ascii "0" else (Nat.digits 10 n).reverse.map fun d => UInt8.ofNat (48 + d)

def isDigit (b : UInt8) : Bool := 48 ≤ b && b ≤ 57

/-- The number a digit string spells, most significant digit first. -/
def digitsValue (ds : Bytes) : Nat := ds.foldl (fun n b => n * 10 + (b.toNat - 48)) 0

/-- `std::from_chars(s, s + size, uint64_t&)`: the longest digit prefix as a number and the
unread rest; `none` when there is no digit or the number does not fit. -/
def fromChars (s : Bytes) : Option (UInt64 × Bytes) :=
  let ds := s.takeWhile isDigit
  if ds = [] then none
  else if 2 ^ 64 ≤ digitsValue ds then none
  else some (UInt64.ofNat (digitsValue ds), s.dropWhile isDigit)

end PongPp
