import PongPp.Lib.BigEndian
import PongPp.Util.Bytes

/-!
# Base64

`util::base64_encode`: three bytes become four characters; one or two bytes at the end are
padded with `=`. `base64Decode` is the decoder of RFC 4648, which gives the bytes back
(`base64Decode_encode`); `base64_lossless` sums up what the encoder is good for.
-/

namespace PongPp.Util

open Lib

def kAlphabet : Bytes :=
  ascii "ABCDEFGHIJKLMNOPQRSTUVWXYZabcdefghijklmnopqrstuvwxyz0123456789+/"

/-- `kAlphabet[(v >> shift) & 0x3F]`. -/
def sextet (v shift : UInt32) : UInt8 := kAlphabet.getD ((v >>> shift) &&& 0x3F).toNat 0

def base64Encode : Bytes → Bytes
  | b0 :: b1 :: b2 :: rest =>
    let triple := (b0.toUInt32 <<< 16) ||| (b1.toUInt32 <<< 8) ||| b2.toUInt32
    [sextet triple 18, sextet triple 12, sextet triple 6, sextet triple 0] ++ base64Encode rest
  | [b0, b1] =>
    let v := (b0.toUInt32 <<< 16) ||| (b1.toUInt32 <<< 8)
    [sextet v 18, sextet v 12, sextet v 6] ++ ascii "="
  | [b0] =>
    let v := b0.toUInt32 <<< 16
    [sextet v 18, sextet v 12] ++ ascii "=="
  | [] => []

/-! ## Decoding -/

/-- The value of a character of the alphabet. -/
def base64Value (c : UInt8) : Option Nat :=
  if 0x41 ≤ c ∧ c ≤ 0x5A then some (c.toNat - 0x41)
  else if 0x61 ≤ c ∧ c ≤ 0x7A then some (c.toNat - 0x61 + 26)
  else if 0x30 ≤ c ∧ c ≤ 0x39 then some (c.toNat - 0x30 + 52)
  else if c = 0x2B then some 62
  else if c = 0x2F then some 63
  else none

/-- Groups of four characters, the last one perhaps padded. -/
def base64Decode : Bytes → Option Bytes
  | [] => some []
  | a :: b :: c :: d :: rest =>
    match base64Value a, base64Value b, base64Value c, base64Value d with
    | some x, some y, some z, some w =>
      (base64Decode rest).map fun t =>
        UInt8.ofNat (x * 4 + y / 16) :: UInt8.ofNat (y % 16 * 16 + z / 4) ::
          UInt8.ofNat (z % 4 * 64 + w) :: t
    | some x, some y, some z, none =>
      if d = 0x3D ∧ rest = [] then
        some [UInt8.ofNat (x * 4 + y / 16), UInt8.ofNat (y % 16 * 16 + z / 4)]
      else none
    | some x, some y, none, none =>
      if c = 0x3D ∧ d = 0x3D ∧ rest = [] then some [UInt8.ofNat (x * 4 + y / 16)] else none
    | _, _, _, _ => none
  | _ => none

theorem base64Value_sextet (v : UInt32) {s : UInt32} (hs : s.toNat < 32) :
    base64Value (sextet v s) = some (v.toNat / 2 ^ s.toNat % 64) := by
  have hvalue : ∀ n : Fin 64, base64Value (kAlphabet.getD n.val 0) = some n.val := by
    decide +kernel
  have hmask : (0x3F : UInt32).toNat = 2 ^ 6 - 1 := rfl
  have hindex : ((v >>> s) &&& 0x3F).toNat = v.toNat / 2 ^ s.toNat % 64 := by
    rw [UInt32.toNat_and, UInt32.toNat_shiftRight, hmask, Nat.and_two_pow_sub_one_eq_mod,
      Nat.mod_eq_of_lt hs, Nat.shiftRight_eq_div_pow]
  rw [sextet, hindex]
  exact hvalue ⟨_, Nat.mod_lt _ (by omega)⟩

theorem base64Value_pad : base64Value 0x3D = none := by decide

theorem triple_toNat (b0 b1 b2 : UInt8) :
    ((b0.toUInt32 <<< 16) ||| (b1.toUInt32 <<< 8) ||| b2.toUInt32).toNat =
      b0.toNat * 65536 + b1.toNat * 256 + b2.toNat := by
  have hword := word_of_bytes 0 b0 b1 b2
  have hzero : (0 : UInt8).toUInt32 <<< 24 = 0 := rfl
  rw [hzero, UInt32.zero_or] at hword
  rw [hword]
  simp [ofBytes]
  omega

theorem regroup {b0 b1 b2 : UInt8} {n : Nat}
    (hn : n = b0.toNat * 65536 + b1.toNat * 256 + b2.toNat) :
    UInt8.ofNat (n / 2 ^ 18 % 64 * 4 + n / 2 ^ 12 % 64 / 16) = b0 ∧
      UInt8.ofNat (n / 2 ^ 12 % 64 % 16 * 16 + n / 2 ^ 6 % 64 / 4) = b1 ∧
      UInt8.ofNat (n / 2 ^ 6 % 64 % 4 * 64 + n / 2 ^ 0 % 64) = b2 := by
  have hbyte : ∀ (b : UInt8) (m : Nat), m = b.toNat → UInt8.ofNat m = b := fun b m h => by
    rw [h, UInt8.ofNat_toNat]
  have := b0.toNat_lt
  have := b1.toNat_lt
  have := b2.toNat_lt
  exact ⟨hbyte b0 _ (by omega), hbyte b1 _ (by omega), hbyte b2 _ (by omega)⟩

/-- **Decoding** gives the bytes back. -/
theorem base64Decode_encode (data : Bytes) : base64Decode (base64Encode data) = some data := by
  fun_induction base64Encode data with
  | case1 b0 b1 b2 rest triple ih =>
    obtain ⟨h0, h1, h2⟩ := regroup (triple_toNat b0 b1 b2)
    have hs : ∀ s : UInt32, s.toNat < 32 → base64Value (sextet triple s) = _ := fun s hs =>
      base64Value_sextet triple hs
    simp only [List.cons_append, List.nil_append, base64Decode, hs 18 (by decide),
      hs 12 (by decide), hs 6 (by decide), hs 0 (by decide), ih, Option.map_some]
    exact congrArg some (congrArg₂ List.cons h0 (congrArg₂ List.cons h1
      (congrArg₂ List.cons h2 rfl)))
  | case2 b0 b1 v =>
    have hv : v.toNat = b0.toNat * 65536 + b1.toNat * 256 + (0 : UInt8).toNat := by
      rw [← triple_toNat b0 b1 0]
      exact congrArg UInt32.toNat UInt32.or_zero.symm
    obtain ⟨h0, h1, -⟩ := regroup hv
    have hs : ∀ s : UInt32, s.toNat < 32 → base64Value (sextet v s) = _ := fun s hs =>
      base64Value_sextet v hs
    have hpad : ascii "=" = [0x3D] := rfl
    simp only [hpad, List.cons_append, List.nil_append, base64Decode, hs 18 (by decide),
      hs 12 (by decide), hs 6 (by decide), base64Value_pad, and_self, if_true]
    exact congrArg some (congrArg₂ List.cons h0 (congrArg₂ List.cons h1 rfl))
  | case3 b0 v =>
    have hv : v.toNat = b0.toNat * 65536 + (0 : UInt8).toNat * 256 + (0 : UInt8).toNat := by
      rw [← triple_toNat b0 0 0]
      exact congrArg UInt32.toNat (UInt32.or_zero.trans UInt32.or_zero).symm
    obtain ⟨h0, -, -⟩ := regroup hv
    have hs : ∀ s : UInt32, s.toNat < 32 → base64Value (sextet v s) = _ := fun s hs =>
      base64Value_sextet v hs
    have hpad : ascii "==" = [0x3D, 0x3D] := rfl
    simp only [hpad, List.cons_append, List.nil_append, base64Decode, hs 18 (by decide),
      hs 12 (by decide), base64Value_pad, and_self, if_true]
    exact congrArg some (congrArg₂ List.cons h0 rfl)
  | case4 => rfl

theorem base64Encode_inj {d e : Bytes} (h : base64Encode d = base64Encode e) : d = e := by
  have hdec := base64Decode_encode d
  rw [h, base64Decode_encode] at hdec
  exact (Option.some.inj hdec).symm

/-! ## The characters -/

theorem length_base64Encode (data : Bytes) :
    (base64Encode data).length = 4 * ((data.length + 2) / 3) := by
  have hone : (ascii "=").length = 1 := rfl
  have htwo : (ascii "==").length = 2 := rfl
  fun_induction base64Encode data with
  | case1 b0 b1 b2 rest triple ih =>
    simp only [List.length_append, List.length_cons, List.length_nil, ih]
    omega
  | case2 b0 b1 v =>
    simp only [List.length_append, List.length_cons, List.length_nil, hone]
  | case3 b0 v =>
    simp only [List.length_append, List.length_cons, List.length_nil, htwo]
  | case4 => rfl

theorem base64Encode_eq (data : Bytes) : ∃ cs : Bytes, (∀ c ∈ cs, base64Value c ≠ none) ∧
    base64Encode data = cs ++ List.replicate ((3 - data.length % 3) % 3) 0x3D := by
  have hchar : ∀ (v : UInt32) {s : UInt32}, s.toNat < 32 → base64Value (sextet v s) ≠ none :=
    fun v s hs => by simp [base64Value_sextet v hs]
  fun_induction base64Encode data with
  | case1 b0 b1 b2 rest triple ih =>
    obtain ⟨cs, hcs, heq⟩ := ih
    refine ⟨[sextet triple 18, sextet triple 12, sextet triple 6, sextet triple 0] ++ cs, ?_, ?_⟩
    · simp only [List.forall_mem_append, List.forall_mem_cons, List.not_mem_nil, false_implies,
        implies_true, and_true]
      exact ⟨⟨hchar _ (by decide), hchar _ (by decide), hchar _ (by decide),
        hchar _ (by decide)⟩, hcs⟩
    · have hmod : (b0 :: b1 :: b2 :: rest).length % 3 = rest.length % 3 :=
        Nat.add_mod_right rest.length 3
      rw [heq, hmod, List.append_assoc]
  | case2 b0 b1 v =>
    refine ⟨[sextet v 18, sextet v 12, sextet v 6], ?_, rfl⟩
    simp only [List.forall_mem_cons, List.not_mem_nil, false_implies, implies_true, and_true]
    exact ⟨hchar _ (by decide), hchar _ (by decide), hchar _ (by decide)⟩
  | case3 b0 v =>
    refine ⟨[sextet v 18, sextet v 12], ?_, rfl⟩
    simp only [List.forall_mem_cons, List.not_mem_nil, false_implies, implies_true, and_true]
    exact ⟨hchar _ (by decide), hchar _ (by decide)⟩
  | case4 => exact ⟨[], by simp, rfl⟩

structure Lossless (data : Bytes) : Prop where
  length : (base64Encode data).length = 4 * ((data.length + 2) / 3)
  /-- The padding has just the length it needs, as `=` is no character of the alphabet. -/
  padded : base64Value 0x3D = none ∧ ∃ cs : Bytes, (∀ c ∈ cs, base64Value c ≠ none) ∧
    base64Encode data = cs ++ List.replicate ((3 - data.length % 3) % 3) 0x3D
  decodes : base64Decode (base64Encode data) = some data
  injective : ∀ {other : Bytes}, base64Encode other = base64Encode data → other = data

/-- **Base64** loses nothing. -/
theorem base64_lossless (data : Bytes) : Lossless data where
  length := length_base64Encode data
  padded := ⟨base64Value_pad, base64Encode_eq data⟩
  decodes := base64Decode_encode data
  injective := base64Encode_inj

end PongPp.Util
