import PongPp.Lib.Blocks
import PongPp.Util.Sha1

/-!
# SHA-1 against its specification

The secure hash standard's description of SHA-1 (`digest`): pad the whole message, cut it into
blocks of 64 bytes and fold the compression function over them. `sha1_standard` says that `sha1`,
which pads only the bytes behind the last complete block, computes it.
-/

namespace PongPp.Util.Fips

open Lib

/-! ### The standard -/

/-- `ROTL^n`. -/
def rotl (n : Nat) (x : UInt32) : UInt32 := ⟨x.toBitVec.rotateLeft n⟩

def ch (x y z : UInt32) : UInt32 := (x &&& y) ^^^ (~~~x &&& z)

def parity (x y z : UInt32) : UInt32 := x ^^^ y ^^^ z

def maj (x y z : UInt32) : UInt32 := (x &&& y) ^^^ (x &&& z) ^^^ (y &&& z)

/-- `f_t`. -/
def f (t : Nat) : UInt32 → UInt32 → UInt32 → UInt32 :=
  if t < 20 then ch else if t < 40 then parity else if t < 60 then maj else parity

/-- `K_t`. -/
def k (t : Nat) : UInt32 :=
  if t < 20 then 0x5A827999 else if t < 40 then 0x6ED9EBA1
  else if t < 60 then 0x8F1BBCDC else 0xCA62C1D6

/-- `W_t` of the block `m`: its sixteen words, and then the recurrence. -/
def schedule (m : Bytes) (t : Nat) : UInt32 :=
  if t < 16 then UInt32.ofNat (ofBytes ((m.drop (4 * t)).take 4))
  else rotl 1 (schedule m (t - 3) ^^^ schedule m (t - 8) ^^^ schedule m (t - 14) ^^^
    schedule m (t - 16))
termination_by t

/-- Step `t` on the working variables. -/
def step (m : Bytes) (s : Hash) (t : Nat) : Hash :=
  ⟨rotl 5 s.h0 + f t s.h1 s.h2 s.h3 + s.h4 + k t + schedule m t, s.h0, rotl 30 s.h1, s.h2, s.h3⟩

def compress (h : Hash) (m : Bytes) : Hash :=
  let s := (List.range 80).foldl (step m) h
  ⟨s.h0 + h.h0, s.h1 + h.h1, s.h2 + h.h2, s.h3 + h.h3, s.h4 + h.h4⟩

/-- The padding to blocks of 64 bytes with a 64-bit length. -/
def padded (data : Bytes) : Bytes := pad 64 8 data

/-- The five words, big-endian. -/
def output (h : Hash) : Bytes :=
  [h.h0, h.h1, h.h2, h.h3, h.h4].flatMap fun w => toBytes 4 w.toNat

def digest (data : Bytes) : Bytes :=
  output ((blocks 64 (padded data)).foldl compress
    ⟨0x67452301, 0xEFCDAB89, 0x98BADCFE, 0x10325476, 0xC3D2E1F0⟩)

/-! ### Words -/

theorem leftrotate_eq {n : UInt32} (x : UInt32) (h0 : 0 < n.toNat) (h : n.toNat < 32) :
    leftrotate x n = rotl n.toNat x := by
  rw [← UInt32.toBitVec_inj, leftrotate, rotl, BitVec.rotateLeft_def, UInt32.toBitVec_or,
    UInt32.toBitVec_shiftLeft, UInt32.toBitVec_shiftRight, BitVec.shiftLeft_eq',
    BitVec.ushiftRight_eq']
  have hsub : (32 - n).toNat = 32 - n.toNat := UInt32.toNat_sub_of_le _ _ (by
    rw [UInt32.le_iff_toNat_le]; exact h.le)
  congr 2
  simp only [BitVec.toNat_umod, UInt32.toNat_toBitVec, hsub, Nat.mod_eq_of_lt h]
  exact Nat.mod_eq_of_lt (Nat.sub_lt (by omega) h0)

theorem ch_eq (x y z : UInt32) : (x &&& y) ||| (~~~x &&& z) = ch x y z := by
  rw [ch, ← UInt32.toBitVec_inj]
  refine BitVec.eq_of_getLsbD_eq fun i hi => ?_
  simp only [UInt32.toBitVec_or, UInt32.toBitVec_and, UInt32.toBitVec_not, UInt32.toBitVec_xor,
    BitVec.getLsbD_or, BitVec.getLsbD_and, BitVec.getLsbD_not, BitVec.getLsbD_xor, hi]
  cases x.toBitVec.getLsbD i <;> simp

theorem maj_eq (x y z : UInt32) : (x &&& y) ||| (x &&& z) ||| (y &&& z) = maj x y z := by
  rw [maj, ← UInt32.toBitVec_inj]
  refine BitVec.eq_of_getLsbD_eq fun i hi => ?_
  simp only [UInt32.toBitVec_or, UInt32.toBitVec_and, UInt32.toBitVec_xor, BitVec.getLsbD_or,
    BitVec.getLsbD_and, BitVec.getLsbD_xor]
  cases x.toBitVec.getLsbD i <;> cases y.toBitVec.getLsbD i <;> simp

/-! ### One block -/

theorem round_eq {w : List UInt32} {m : Bytes} {t : Nat} (h : w.getD t 0 = schedule m t)
    (s : Hash) : round w s t = step m s t := by
  have h5 : ∀ x, leftrotate x 5 = rotl 5 x := fun x => leftrotate_eq x (by decide) (by decide)
  have h30 : ∀ x, leftrotate x 30 = rotl 30 x := fun x => leftrotate_eq x (by decide) (by decide)
  simp only [round, step, f, k, h, h5, h30]
  split_ifs
  · simp only [ch_eq]
  · rfl
  · simp only [maj_eq]
  · rfl

/-- The next word behind `w[0 .. 16 + i)`. -/
def nextWord (w : List UInt32) (i : Nat) : List UInt32 :=
  w ++ [leftrotate (w.getD (16 + i - 3) 0 ^^^ w.getD (16 + i - 8) 0 ^^^ w.getD (16 + i - 14) 0 ^^^
    w.getD (16 + i - 16) 0) 1]

/-- The first words of a list that hold the schedule. -/
def Scheduled (m : Bytes) (n : Nat) (w : List UInt32) : Prop :=
  w.length = n ∧ ∀ t < n, w.getD t 0 = schedule m t

theorem Scheduled.nextWord {m : Bytes} {i : Nat} {w : List UInt32} (h : Scheduled m (16 + i) w) :
    Scheduled m (16 + (i + 1)) (nextWord w i) := by
  obtain ⟨hlen, hw⟩ := h
  refine ⟨by simp [Fips.nextWord, hlen]; omega, fun t ht => ?_⟩
  obtain hlt | rfl : t < 16 + i ∨ t = 16 + i := by omega
  · rw [Fips.nextWord, List.getD_append _ _ _ _ (by omega), hw t hlt]
  · rw [Fips.nextWord, List.getD_append_right _ _ _ _ (by omega), hlen, Nat.sub_self,
      List.getD_cons_zero, hw (16 + i - 3) (by omega), hw (16 + i - 8) (by omega),
      hw (16 + i - 14) (by omega), hw (16 + i - 16) (by omega),
      leftrotate_eq _ (by decide) (by decide), schedule.eq_1 m (16 + i), if_neg (by omega)]
    rfl

theorem loadWords_scheduled {m : Bytes} (h : m.length = 64) : Scheduled m 16 (loadWords m) := by
  refine ⟨by simp [loadWords], fun t ht => ?_⟩
  have hfour : (m.drop (4 * t)).take 4 =
      [m.getD (t * 4) 0, m.getD (t * 4 + 1) 0, m.getD (t * 4 + 2) 0, m.getD (t * 4 + 3) 0] := by
    rw [Nat.mul_comm, ← map_getD_range (by omega)]
    rfl
  rw [schedule, if_pos ht, hfour, ← word_of_bytes, UInt32.ofNat_toNat, loadWords,
    List.getD_eq_getElem?_getD, List.getElem?_map, List.getElem?_range ht]
  rfl

theorem extendWords_scheduled {m : Bytes} (h : m.length = 64) :
    Scheduled m 80 (extendWords (loadWords m)) := by
  have hrun : ∀ i, Scheduled m (16 + i) ((List.range i).foldl Fips.nextWord (loadWords m)) := by
    intro i
    induction i with
    | zero => exact loadWords_scheduled h
    | succ i ih =>
      rw [List.range_succ, List.foldl_concat]
      exact ih.nextWord
  exact hrun 64

theorem processBlock_eq {m : Bytes} (hm : m.length = 64) (h : Hash) :
    processBlock m h = compress h m := by
  have hw := (extendWords_scheduled hm).2
  have hrounds : (List.range 80).foldl (round (extendWords (loadWords m))) h =
      (List.range 80).foldl (step m) h :=
    List.foldl_ext _ _ _ fun s t ht => round_eq (hw t (List.mem_range.mp ht)) s
  simp only [processBlock, compress, hrounds, UInt32.add_comm]

/-! ### The message -/

theorem processBlocks_eq (data : Bytes) (h : Hash) :
    processBlocks data h =
      ((blocks 64 data).foldl compress h, data.drop (64 * (data.length / 64))) := by
  induction data, h using processBlocks.induct with
  | case1 data h hlen ih =>
    have hdiv : data.length / 64 = (data.length - 64) / 64 + 1 :=
      Nat.div_eq_sub_div (by omega) hlen
    rw [processBlocks, if_pos hlen, ih, blocks_cons (by omega) hlen, List.foldl_cons,
      processBlock_eq (List.length_take_of_le hlen), List.drop_drop, List.length_drop, hdiv,
      Nat.mul_succ, Nat.add_comm]
  | case2 data h hlen =>
    rw [processBlocks, if_neg hlen, blocks_of_lt (by omega), Nat.div_eq_of_lt (by omega)]
    rfl

theorem lengthBytes_eq (bits : UInt64) :
    (List.range 8).map (fun i => (bits >>> UInt64.ofNat ((8 - 1 - i) * 8)).toUInt8) =
      toBytes 8 bits.toNat := by
  rw [toBytes_eq_map]
  refine List.map_congr_left fun i _ => ?_
  have hshift : (UInt64.ofNat ((8 - 1 - i) * 8)).toNat = 8 * (8 - 1 - i) := by
    rw [UInt64.toNat_ofNat']
    omega
  rw [byte_of_shift64 (by omega), hshift, Nat.pow_mul]

/-- The tail in order. -/
theorem buildTail_eq {rem : Bytes} {n : Nat} (bits : UInt64) (h : rem.length + 9 ≤ n)
    (hn : n ≤ 128) :
    buildTail rem n bits = rem ++ 0x80 :: List.replicate (n - (rem.length + 9)) 0 ++
      toBytes 8 bits.toNat ++ List.replicate (128 - n) 0 := by
  let front := rem ++ 0x80 :: List.replicate (n - (rem.length + 9)) (0 : UInt8)
  have hfront : front.length + 8 = n := by
    simp only [front, List.length_append, List.length_cons, List.length_replicate]
    omega
  have hcount : 128 - rem.length = n - (rem.length + 9) + 8 + (128 - n) + 1 := by omega
  have htail : (rem ++ List.replicate (128 - rem.length) 0).set rem.length 0x80 =
      front ++ List.replicate 8 0 ++ List.replicate (128 - n) 0 := by
    rw [List.set_append_right _ _ le_rfl, Nat.sub_self, hcount, List.replicate_succ,
      List.set_cons_zero, ← List.replicate_append_replicate, ← List.replicate_append_replicate]
    simp only [front, List.append_assoc, List.cons_append]
  have hgap : (List.replicate 8 (0 : UInt8)).length = 8 := rfl
  have hwrite := foldl_set_back (fun i => (bits >>> UInt64.ofNat (i * 8)).toUInt8) front
    (List.replicate (128 - n) 0) hgap
  rw [hfront, lengthBytes_eq] at hwrite
  rw [buildTail, htail]
  exact hwrite

/-- How many blocks the tail takes. -/
def tailBlocks (data : Bytes) : Nat := if data.length % 64 + 1 + 8 ≤ 64 then 1 else 2

/-- `tail`, as the code fills it. -/
def tail (data : Bytes) : Bytes :=
  buildTail (data.drop (64 * (data.length / 64))) (tailBlocks data * 64)
    (UInt64.ofNat data.length * 8)

theorem tailBlocks_fit (data : Bytes) :
    data.length % 64 + 9 ≤ tailBlocks data * 64 ∧ tailBlocks data * 64 ≤ 128 ∧
      zeros 64 8 data.length = tailBlocks data * 64 - (data.length % 64 + 9) := by
  have hmod := Nat.mod_lt data.length (show 0 < 64 by omega)
  unfold tailBlocks zeros
  split <;> omega

theorem tail_eq {data : Bytes} (hlen : data.length < 2 ^ 61) :
    tail data = data.drop (64 * (data.length / 64)) ++
      0x80 :: List.replicate (zeros 64 8 data.length) 0 ++ toBytes 8 (8 * data.length) ++
        List.replicate (128 - tailBlocks data * 64) 0 := by
  have hbits : (UInt64.ofNat data.length * 8).toNat = 8 * data.length := by
    have h8 : (8 : UInt64).toNat = 8 := rfl
    rw [UInt64.toNat_mul, UInt64.toNat_ofNat', h8]
    omega
  have hrem : (data.drop (64 * (data.length / 64))).length = data.length % 64 := by
    rw [List.length_drop]
    omega
  obtain ⟨hroom, hmax, hzeros⟩ := tailBlocks_fit data
  rw [tail, buildTail_eq _ (by omega) hmax, hrem, hbits, hzeros]

theorem length_tail {data : Bytes} (hlen : data.length < 2 ^ 61) : (tail data).length = 128 := by
  obtain ⟨hroom, hmax, hzeros⟩ := tailBlocks_fit data
  simp only [tail_eq hlen, hzeros, List.length_append, List.length_cons, List.length_drop,
    List.length_replicate, length_toBytes]
  omega

/-- What is left of the message is padded as the whole message is. -/
theorem padded_eq {data : Bytes} (hlen : data.length < 2 ^ 61) :
    padded data =
      data.take (64 * (data.length / 64)) ++ (tail data).take (tailBlocks data * 64) := by
  obtain ⟨hroom, hmax, hzeros⟩ := tailBlocks_fit data
  rw [tail_eq hlen, List.take_left' (by
    simp only [List.length_append, List.length_cons, List.length_drop, List.length_replicate,
      length_toBytes]
    omega), padded, pad, ← List.append_assoc, ← List.append_assoc, List.take_append_drop]

/-! ### The digest -/

theorem foldl_tail {data : Bytes} (hlen : data.length < 2 ^ 61) (h : Hash) :
    (blocks 64 ((tail data).take (tailBlocks data * 64))).foldl compress h =
      if tailBlocks data = 2 then
        processBlock ((tail data).drop 64) (processBlock ((tail data).take 64) h)
      else processBlock ((tail data).take 64) h := by
  have htail := length_tail hlen
  have htake : ((tail data).take 64).length = 64 := List.length_take_of_le (by omega)
  have hdrop : ((tail data).drop 64).length = 64 := by rw [List.length_drop]; omega
  rw [processBlock_eq htake, processBlock_eq hdrop]
  obtain hone | htwo : tailBlocks data = 1 ∨ tailBlocks data = 2 := by
    unfold tailBlocks
    split <;> simp
  · rw [hone, Nat.one_mul, blocks_single (by omega) htake, if_neg (by omega)]
    rfl
  · rw [htwo, List.take_of_length_le (by omega), blocks_cons (by omega) (by omega),
      blocks_single (by omega) hdrop, if_pos rfl]
    rfl

theorem wordBytes_eq (w : UInt32) : wordBytes w = toBytes 4 w.toNat := by
  have h24 : (24 : UInt32).toNat = 24 := rfl
  have h16 : (16 : UInt32).toNat = 16 := rfl
  have h8 : (8 : UInt32).toNat = 8 := rfl
  have hlow : w.toUInt8 = UInt8.ofNat w.toNat := rfl
  rw [wordBytes, byte_of_shift32 (by omega), byte_of_shift32 (by omega),
    byte_of_shift32 (by omega), h24, h16, h8, hlow, toBytes_eq_map]
  simp [List.range_succ]

theorem sha1_eq (data : Bytes) :
    sha1 data =
      let h := (blocks 64 data).foldl compress initialHash
      output (if tailBlocks data = 2 then
        processBlock ((tail data).drop 64) (processBlock ((tail data).take 64) h)
      else processBlock ((tail data).take 64) h) := by
  have hrem : (data.drop (64 * (data.length / 64))).length = data.length % 64 := by
    rw [List.length_drop]
    omega
  simp only [sha1, processBlocks_eq, hrem, wordBytes_eq, output, List.flatMap_cons,
    List.flatMap_nil, List.append_nil, List.append_assoc]
  rfl

theorem blocks_padded {data : Bytes} (hlen : data.length < 2 ^ 61) :
    blocks 64 (padded data) =
      blocks 64 data ++ blocks 64 ((tail data).take (tailBlocks data * 64)) := by
  have hfront : (data.take (64 * (data.length / 64))).length = 64 * (data.length / 64) :=
    List.length_take_of_le (Nat.mul_div_le ..)
  have hrest : (data.drop (64 * (data.length / 64))).length < 64 := by
    rw [List.length_drop]
    omega
  have hdata := blocks_append (data.drop (64 * (data.length / 64))) (by omega) hfront
  rw [List.take_append_drop, blocks_of_lt hrest, List.append_nil] at hdata
  rw [padded_eq hlen, blocks_append _ (by omega) hfront, hdata]

/-- What the standard asks of the digest of a message. -/
structure Standard (data : Bytes) : Prop where
  /-- Padding gives whole blocks, -/
  whole : (padded data).length % 64 = 0
  /-- with the fewest zeros that do. -/
  least : ∀ z, (data.length + 1 + z + 8) % 64 = 0 → zeros 64 8 data.length ≤ z
  /-- The blocks that the code compresses are those of the padded message. -/
  split : padded data =
    data.take (64 * (data.length / 64)) ++ (tail data).take (tailBlocks data * 64)
  digest : sha1 data = digest data

theorem sha1_standard {data : Bytes} (h : data.length < 2 ^ 61) : Standard data where
  whole := by
    rw [padded, length_pad]
    exact zeros_fill (by omega) ..
  least z hz := zeros_le (by omega) hz
  split := padded_eq h
  digest := by
    rw [sha1_eq, Fips.digest, blocks_padded h, List.foldl_append, foldl_tail h]
    rfl

/-- The standard's own example, `abc`. -/
theorem sha1_standard_abc :
    Standard [0x61, 0x62, 0x63] ∧ digest [0x61, 0x62, 0x63] =
      [0xA9, 0x99, 0x3E, 0x36, 0x47, 0x06, 0x81, 0x6A, 0xBA, 0x3E, 0x25, 0x71,
        0x78, 0x50, 0xC2, 0x6C, 0x9C, 0xD0, 0xD8, 0x9D] := by
  have h : Standard [0x61, 0x62, 0x63] := sha1_standard (by decide)
  exact ⟨h, h.digest.symm.trans (by decide +kernel)⟩

end PongPp.Util.Fips
