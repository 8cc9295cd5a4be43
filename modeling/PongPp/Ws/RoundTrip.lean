import PongPp.Ws.Codec

/-!
# The frame codec

`maskFrame` turns what `EncodeFrame` makes into the frame a client would send: it is `clientFrame`
(`maskFrame_encodeFrame`). `ParseFrame` undoes it, and it undoes `ParseFrame` on every frame whose
length is written in its shortest form (`round_trip`).
-/

namespace PongPp.Ws

open Lib

/-- The bytes of the length field behind the second byte of a frame. -/
def extLen (b1 : UInt8) : Nat :=
  if b1 &&& 0x7F = 126 then 2 else if b1 &&& 0x7F = 127 then 8 else 0

/-- A server's frame as a client would send it: the mask bit set, the key behind the length field,
the payload under the key. -/
def maskFrame (key : Key) : Bytes → Bytes
  | b0 :: b1 :: rest =>
    b0 :: (0x80 ||| b1) :: rest.take (extLen b1) ++
      (List.ofFn key ++ mask key (rest.drop (extLen b1)))
  | frame => frame

/-- The key of the frame at the front of `buf`. -/
def keyOf (buf : Bytes) : Key := fun i => buf.getD (2 + extLen (buf.getD 1 0) + i) 0

/-- The length `n` is written in as few bytes as a frame with the second byte `b1` can have. -/
def Shortest (b1 : UInt8) (n : Nat) : Prop :=
  (b1 &&& 0x7F = 126 → 126 ≤ n) ∧ (b1 &&& 0x7F = 127 → 65536 ≤ n)

instance (b1 : UInt8) (n : Nat) : Decidable (Shortest b1 n) := inferInstanceAs (Decidable (_ ∧ _))

theorem extLen_lengthCode {n : Nat} (hn : n < 2 ^ 64) :
    extLen (lengthCode n) = (lengthRest n).length := by
  have h7 := (secondByte (lengthCode_lt n)).2.2.2
  unfold extLen
  rw [h7]
  rcases length_cases hn with ⟨hlt, hc, hr⟩ | ⟨-, -, hc, hr⟩ | ⟨-, hc, hr⟩
  · have hne : ∀ c : UInt8, 126 ≤ c.toNat → lengthCode n ≠ c := fun c hge he => by
      rw [he] at hc
      omega
    rw [if_neg (hne 126 (by decide)), if_neg (hne 127 (by decide)), hr]
    rfl
  · rw [hc, hr, length_toBytes]
    rfl
  · rw [hc, hr, length_toBytes]
    rfl

theorem maskFrame_encodeFrame (opcode : Op) (key : Key) {payload : Bytes}
    (hlen : payload.length < 2 ^ 64) :
    maskFrame key (encodeFrame opcode payload) = clientFrame opcode key payload := by
  rw [encodeFrame_eq, List.cons_append, List.cons_append, maskFrame, extLen_lengthCode hlen,
    List.take_left, List.drop_left]
  rfl

/-! ## Back to the bytes -/

theorem toByte_ofByte (b : UInt8) : (Op.ofByte b).toByte = b := by
  unfold Op.ofByte
  split_ifs with h₁ h₂ h₃ h₄ h₅ h₆ <;> simp [Op.toByte, *]

theorem firstByte_eq {b : UInt8} (hrsv : b &&& 0x70 = 0) (hfin : b &&& 0x80 ≠ 0) :
    0x80 ||| (Op.ofByte (b &&& 0x0F)).toByte = b := by
  have key := byte_forall
    (P := fun b => b &&& 0x70 = 0 → b &&& 0x80 ≠ 0 → 0x80 ||| (b &&& 0x0F) = b)
    (by decide +kernel) b
  rw [toByte_ofByte]
  exact key hrsv hfin

theorem secondByte_eq {b : UInt8} (hmask : b &&& 0x80 ≠ 0) : 0x80 ||| (b &&& 0x7F) = b :=
  byte_forall (P := fun b => b &&& 0x80 ≠ 0 → 0x80 ||| (b &&& 0x7F) = b) (by decide +kernel) b hmask

theorem lowBits_lt (b : UInt8) : (b &&& 0x7F).toNat < 128 :=
  byte_forall (P := fun b => (b &&& 0x7F).toNat < 128) (by decide +kernel) b

theorem extended {buf : Bytes} {k : Nat} (hk : k ≤ 8) (h : 2 + k ≤ buf.length) :
    (UInt64.ofNat (ofBytes ((buf.drop 2).take k))).toNat = ofBytes ((buf.drop 2).take k) ∧
      ofBytes ((buf.drop 2).take k) < 256 ^ k ∧
      toBytes k (ofBytes ((buf.drop 2).take k)) = (buf.drop 2).take k := by
  have hlen : ((buf.drop 2).take k).length = k := by
    rw [List.length_take, List.length_drop]
    omega
  have hlt := ofBytes_lt ((buf.drop 2).take k)
  have hback := toBytes_ofBytes ((buf.drop 2).take k)
  rw [hlen] at hlt hback
  have h64 : (256 : Nat) ^ k ≤ 2 ^ 64 :=
    (Nat.pow_le_pow_right (by omega) hk).trans (by omega)
  exact ⟨UInt64.toNat_ofNat_of_lt' (hlt.trans_le h64), hlt, hback⟩

theorem shortest_length {buf : Bytes} {p1 : UInt8} {len hl : UInt64}
    (h : payloadLen buf p1 = some (len, hl)) (hs : Shortest p1 len.toNat) :
    hl.toNat = 2 + extLen p1 ∧ lengthCode len.toNat = p1 &&& 0x7F ∧
      lengthRest len.toNat = (buf.drop 2).take (extLen p1) := by
  have hcases := length_cases len.toNat_lt
  obtain ⟨h126, h127⟩ := hs
  rw [payloadLen_eq] at h
  unfold extLen
  split_ifs at h with hp hshort hp' hshort
  · cases h
    have hlen : 2 + 2 ≤ buf.length := by omega
    obtain ⟨hval, hlt, hback⟩ := extended (by omega) hlen
    rw [hval] at hcases h126 ⊢
    rw [if_pos hp, hp]
    have hge := h126 hp
    rcases hcases with ⟨hlt', -⟩ | ⟨-, -, hc, hr⟩ | ⟨hge', -⟩
    · omega
    · exact ⟨rfl, hc, hr.trans hback⟩
    · omega
  · cases h
    have hlen : 2 + 8 ≤ buf.length := by omega
    obtain ⟨hval, hlt, hback⟩ := extended le_rfl hlen
    rw [hval] at hcases h127 ⊢
    rw [if_neg hp, if_pos hp', hp']
    have hge := h127 hp'
    rcases hcases with ⟨hlt', -⟩ | ⟨-, hlt', -⟩ | ⟨-, hc, hr⟩
    · omega
    · omega
    · exact ⟨rfl, hc, hr.trans hback⟩
  · cases h
    have hlow := lowBits_lt p1
    have hval : (UInt64.ofNat (p1 &&& 0x7F).toNat).toNat = (p1 &&& 0x7F).toNat :=
      UInt64.toNat_ofNat_of_lt' (hlow.trans (by decide))
    have hne : ∀ c : UInt8, p1 &&& 0x7F ≠ c → (p1 &&& 0x7F).toNat ≠ c.toNat := fun c h he =>
      h (UInt8.toNat_inj.mp he)
    have h126' : (p1 &&& 0x7F).toNat ≠ 126 := hne 126 hp
    have h127' : (p1 &&& 0x7F).toNat ≠ 127 := hne 127 hp'
    rw [hval] at hcases ⊢
    rw [if_neg hp, if_neg hp']
    rcases hcases with ⟨-, hc, hr⟩ | ⟨hge, -⟩ | ⟨hge, -⟩
    · exact ⟨rfl, UInt8.toNat_inj.mp hc, hr⟩
    · omega
    · omega

theorem mask_unmask {buf : Bytes} {hl n : Nat} (h : hl + 4 + n ≤ buf.length) {key : Key}
    (hkey : ∀ i, key i = buf.getD (hl + i) 0) :
    mask key (unmask buf hl n) = (buf.drop (hl + 4)).take n := by
  rw [← map_getD_range h]
  have hlen : (unmask buf hl n).length = n := by simp [unmask]
  rw [mask, hlen]
  refine List.map_congr_left fun i hi => ?_
  have hi := List.mem_range.mp hi
  have hmod := Nat.mod_lt i (show 4 > 0 by omega)
  have hbyte : (List.ofFn key).getD (i % 4) 0 = buf.getD (hl + i % 4) 0 := by
    rw [← hkey ⟨i % 4, hmod⟩, List.getD_eq_getElem?_getD, List.getElem?_ofFn, dif_pos hmod]
    rfl
  have hun : (unmask buf hl n).getD i 0 =
      buf.getD (hl + 4 + i) 0 ^^^ buf.getD (hl + i % 4) 0 := by
    simp [unmask, List.getD_eq_getElem?_getD, hi]
  rw [hun, hbyte, UInt8.xor_assoc, UInt8.xor_self, UInt8.xor_zero]

theorem two_bytes {buf : Bytes} (h : 2 ≤ buf.length) :
    buf.getD 0 0 :: buf.getD 1 0 :: buf.drop 2 = buf := by
  rcases buf with _ | ⟨b0, _ | ⟨b1, tl⟩⟩
  · cases h
  · simp at h
  · rfl

/-- **Parsed frames** encode back to the bytes they were parsed from. -/
theorem maskFrame_parsed {buf rest : Bytes} {f : Frame} (h : parseFrame buf = (.got f, rest))
    (hfin : f.fin = true) (hs : Shortest (buf.getD 1 0) f.payload.length) :
    maskFrame (keyOf buf) (encodeFrame f.opcode f.payload) ++ rest = buf := by
  rcases parseFrame_cases buf with h' | ⟨h', -⟩ | ⟨len, hl, H, hb, h'⟩ <;> rw [h'] at h <;> cases h
  have hn : (unmask buf hl.toNat len.toNat).length = len.toNat := by simp [unmask]
  simp only [Header.frame, decide_eq_true_eq] at hs hfin ⊢
  rw [hn] at hs
  obtain ⟨hhl, hcode, hrest⟩ := shortest_length H.size hs
  have hkey : List.ofFn (keyOf buf) = (buf.drop hl.toNat).take 4 := by
    rw [← map_getD_range (by omega), hhl]
    rfl
  have hmask : mask (keyOf buf) (unmask buf hl.toNat len.toNat) =
      (buf.drop (hl.toNat + 4)).take len.toNat :=
    mask_unmask hb fun i => by rw [keyOf, ← hhl]
  rw [maskFrame_encodeFrame _ _ (hn.symm ▸ len.toNat_lt), clientFrame, hn, hcode, hrest,
    firstByte_eq H.rsv hfin, secondByte_eq H.masked, hkey, hmask]
  -- `buf` is cut behind its first two bytes, its header, its key and its payload
  have hcut : ∀ a k : Nat, (buf.drop a).take k ++ buf.drop (a + k) = buf.drop a := fun a k => by
    rw [← List.drop_drop, List.take_append_drop]
  rw [List.append_assoc, List.append_assoc, hcut (hl.toNat + 4), hcut hl.toNat, hhl,
    List.cons_append, List.cons_append, hcut 2, two_bytes H.two]

/-! ## The round trip -/

structure RoundTrip : Prop where
  /-- What a client makes of an encoded frame parses back, whatever follows it. -/
  decode : ∀ {opcode : Op}, opcode.Named → ∀ (key : Key) {payload : Bytes},
    payload.length ≤ 2 ^ 20 → ∀ t,
      parseFrame (maskFrame key (encodeFrame opcode payload) ++ t) =
        (.got ⟨true, opcode, payload⟩, t)
  /-- A stream of such frames parses back to the list they were made from. -/
  stream : ∀ fs : List (Op × Key × Bytes), (∀ f ∈ fs, f.1.Named ∧ f.2.2.length ≤ 2 ^ 20) →
    frames.Reads (fs.map fun f => ⟨true, f.1, f.2.2⟩)
      (fs.flatMap fun f => maskFrame f.2.1 (encodeFrame f.1 f.2.2)) []
  /-- What was parsed from an unfragmented frame encodes back to it, byte by byte. -/
  encode : ∀ {buf rest : Bytes} {f : Frame}, parseFrame buf = (.got f, rest) → f.fin = true →
    Shortest (buf.getD 1 0) f.payload.length →
      maskFrame (keyOf buf) (encodeFrame f.opcode f.payload) ++ rest = buf
  /-- A longer payload, of any length that a `std::string` can have, is refused. -/
  tooLong : ∀ {opcode : Op}, opcode.Named → ∀ (key : Key) {payload : Bytes},
    2 ^ 20 < payload.length → payload.length < 2 ^ 64 → ∀ t,
      parseFrame (maskFrame key (encodeFrame opcode payload) ++ t) =
        (.bad, maskFrame key (encodeFrame opcode payload) ++ t)

/-- **The frame codec** loses nothing, in either direction. -/
theorem round_trip : RoundTrip where
  decode hop key payload hlen t := by
    rw [maskFrame_encodeFrame _ _ (by omega)]
    exact parseFrame_clientFrame hop key hlen t
  stream fs hfs := by
    refine Decoder.reads_flatMap rfl fun f hf t => ?_
    obtain ⟨hop, hlen⟩ := hfs f hf
    rw [maskFrame_encodeFrame _ _ (by omega)]
    simp only [frames, parseFrame_clientFrame hop f.2.1 hlen t]
  encode := maskFrame_parsed
  tooLong hop key payload hlong hlen t := by
    rw [maskFrame_encodeFrame _ _ hlen]
    exact parseFrame_tooLong hop key hlong hlen t

end PongPp.Ws
