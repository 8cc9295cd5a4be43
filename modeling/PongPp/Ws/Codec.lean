import PongPp.Lib.BigEndian
import PongPp.Ws.Connection

/-!
# Client frames

`clientFrame` is `encodeFrame` the way a client sends it: masked. Both share the length field,
which `payloadLen` reads back (`payloadLen_field`), so that `parseFrame` undoes `clientFrame`
(`parseFrame_clientFrame`).
-/

namespace PongPp.Ws

open Lib

/-- A masking key. -/
abbrev Key := Fin 4 → UInt8

/-- The seven bits of the length and the bytes that extend it. -/
def lengthCode (n : Nat) : UInt8 :=
  let len : UInt64 := UInt64.ofNat n
  if len < 126 then len.toUInt8 else if len < 65536 then 126 else 127

def lengthRest (n : Nat) : Bytes :=
  let len : UInt64 := UInt64.ofNat n
  if len < 126 then []
  else if len < 65536 then [((len >>> 8) &&& 0xFF).toUInt8, (len &&& 0xFF).toUInt8]
  else [(7 : UInt64), 6, 5, 4, 3, 2, 1, 0].map fun i => ((len >>> (i * 8)) &&& 0xFF).toUInt8

/-- The payload under the key, repeated. -/
def mask (key : Key) (payload : Bytes) : Bytes :=
  (List.range payload.length).map fun i => payload.getD i 0 ^^^ (List.ofFn key).getD (i % 4) 0

/-- `encodeFrame` with the mask bit set, the key behind the length and the payload masked. -/
def clientFrame (opcode : Op) (key : Key) (payload : Bytes) : Bytes :=
  (0x80 ||| opcode.toByte) :: (0x80 ||| lengthCode payload.length) :: lengthRest payload.length ++
    (List.ofFn key ++ mask key payload)

theorem encodeFrame_eq (opcode : Op) (payload : Bytes) :
    encodeFrame opcode payload =
      (0x80 ||| opcode.toByte) :: lengthCode payload.length :: lengthRest payload.length ++
        payload := by
  unfold encodeFrame lengthCode lengthRest
  simp only
  split
  · rfl
  · split <;> rfl

/-! ## The first two bytes -/

/-- An enumerator of `Op`. -/
def Op.Named (opcode : Op) : Prop := ∀ b, opcode ≠ .reserved b

theorem Op.text_named : Op.text.Named := nofun

theorem firstByte {opcode : Op} (h : opcode.Named) :
    (0x80 ||| opcode.toByte) &&& 0x70 = 0 ∧ (0x80 ||| opcode.toByte) &&& 0x80 ≠ 0 ∧
      Op.ofByte ((0x80 ||| opcode.toByte) &&& 0x0F) = opcode := by
  cases opcode with
  | reserved b => exact absurd rfl (h b)
  | _ => decide

theorem lengthCode_lt (n : Nat) : (lengthCode n).toNat < 128 := by
  unfold lengthCode
  simp only
  split
  · rename_i h
    have hlt := UInt64.lt_iff_toNat_lt.mp h
    rw [UInt64.toNat_toUInt8]
    exact (Nat.mod_le _ _).trans_lt (hlt.trans (by decide))
  · split <;> decide

theorem secondByte {b : UInt8} (h : b.toNat < 128) :
    (0x80 ||| b) &&& 0x80 ≠ 0 ∧ (0x80 ||| b) &&& 0x7F = b ∧ b &&& 0x80 = 0 ∧ b &&& 0x7F = b := by
  have key : ∀ n : Fin 128, let b := UInt8.ofNat n.val
      (0x80 ||| b) &&& 0x80 ≠ 0 ∧ (0x80 ||| b) &&& 0x7F = b ∧ b &&& 0x80 = 0 ∧
        b &&& 0x7F = b := by decide +kernel
  have hb := key ⟨b.toNat, h⟩
  simpa using hb

/-! ## The length -/

theorem eq_ofNat {v : UInt64} {n : Nat} (h : v.toNat = n) : v = UInt64.ofNat n := by
  rw [← h, UInt64.ofNat_toNat]

theorem payloadLen_eq (buf : Bytes) (p1 : UInt8) :
    payloadLen buf p1 =
      if p1 &&& 0x7F = 126 then
        if buf.length < 4 then none
        else some (UInt64.ofNat (ofBytes ((buf.drop 2).take 2)), 4)
      else if p1 &&& 0x7F = 127 then
        if buf.length < 10 then none
        else some (UInt64.ofNat (ofBytes ((buf.drop 2).take 8)), 10)
      else some (UInt64.ofNat (p1 &&& 0x7F).toNat, 2) := by
  have hcode : ∀ c : UInt8, (p1 &&& 0x7F).toUInt64 = c.toUInt64 ↔ p1 &&& 0x7F = c := fun c => by
    rw [← UInt64.toNat_inj, UInt8.toNat_toUInt64, UInt8.toNat_toUInt64, UInt8.toNat_inj]
  have h126 : (p1 &&& 0x7F).toUInt64 = 126 ↔ p1 &&& 0x7F = 126 := hcode 126
  have h127 : (p1 &&& 0x7F).toUInt64 = 127 ↔ p1 &&& 0x7F = 127 := hcode 127
  have hbytes : ∀ k ≤ 8, 2 + k ≤ buf.length →
      (List.range k).foldl (fun (n : UInt64) i => (n <<< 8) ||| (buf.getD (2 + i) 0).toUInt64) 0 =
        UInt64.ofNat (ofBytes ((buf.drop 2).take k)) := fun k hk hlen => by
    apply eq_ofNat
    rw [← map_getD_range hlen, ← foldl_shift_or (by simpa using hk), List.foldl_map]
  simp only [payloadLen, h126, h127]
  split
  · split
    · rfl
    · rw [← hbytes 2 (by omega) (by omega)]
      simp [List.range_succ]
  · split
    · split
      · rfl
      · rw [← hbytes 8 (by omega) (by omega)]
    · exact congrArg some (Prod.ext (eq_ofNat (UInt8.toNat_toUInt64 _)) rfl)

theorem length_cases {n : Nat} (hn : n < 2 ^ 64) :
    (n < 126 ∧ (lengthCode n).toNat = n ∧ lengthRest n = []) ∨
    (126 ≤ n ∧ n < 65536 ∧ lengthCode n = 126 ∧ lengthRest n = toBytes 2 n) ∨
    (65536 ≤ n ∧ lengthCode n = 127 ∧ lengthRest n = toBytes 8 n) := by
  have h64 : (UInt64.ofNat n).toNat = n := UInt64.toNat_ofNat_of_lt' hn
  have h1 : UInt64.ofNat n < 126 ↔ n < 126 := by rw [UInt64.lt_iff_toNat_lt, h64]; rfl
  have h2 : UInt64.ofNat n < 65536 ↔ n < 65536 := by rw [UInt64.lt_iff_toNat_lt, h64]; rfl
  have hbyte : ∀ s : UInt64, s.toNat < 64 →
      ((UInt64.ofNat n >>> s) &&& 0xFF).toUInt8 = UInt8.ofNat (n / 2 ^ s.toNat) := fun s hs => by
    rw [byte_of_shift hs, h64]
  have hlast := hbyte 0 (by decide)
  rw [UInt64.shiftRight_zero] at hlast
  simp only [lengthCode, lengthRest, h1, h2]
  split_ifs
  · refine .inl ⟨‹_›, ?_, rfl⟩
    rw [UInt64.toNat_toUInt8, h64]
    omega
  · refine .inr (.inl ⟨by omega, ‹_›, rfl, ?_⟩)
    rw [hlast, hbyte 8 (by decide), toBytes_eq_map]
    rfl
  · refine .inr (.inr ⟨by omega, rfl, ?_⟩)
    simp only [List.map_cons, List.map_nil]
    rw [hbyte (7 * 8) (by decide), hbyte (6 * 8) (by decide), hbyte (5 * 8) (by decide),
      hbyte (4 * 8) (by decide), hbyte (3 * 8) (by decide), hbyte (2 * 8) (by decide),
      hbyte (1 * 8) (by decide), hbyte (0 * 8) (by decide), toBytes_eq_map]
    rfl

theorem lengthRest_length {n : Nat} (hn : n < 2 ^ 64) : (lengthRest n).length ≤ 8 := by
  rcases length_cases hn with ⟨-, -, h⟩ | ⟨-, -, -, h⟩ | ⟨-, -, h⟩ <;> simp [h]

/-- **The length field** reads back, whatever the mask bit beside it and the bytes behind. -/
theorem payloadLen_field {n : Nat} (hn : n < 2 ^ 64) {p0 p1 code : UInt8}
    (hcode : code &&& 0x7F = lengthCode n) (t : Bytes) :
    payloadLen (p0 :: p1 :: lengthRest n ++ t) code =
      some (UInt64.ofNat n, UInt64.ofNat (2 + (lengthRest n).length)) := by
  rw [payloadLen_eq, hcode]
  rcases length_cases hn with ⟨hlt, hc, hr⟩ | ⟨-, hlt, hc, hr⟩ | ⟨-, hc, hr⟩
  · have hne : ∀ c : UInt8, 126 ≤ c.toNat → lengthCode n ≠ c := fun c hge he => by
      rw [he] at hc
      omega
    rw [if_neg (hne 126 (by decide)), if_neg (hne 127 (by decide)), hc, hr]
    rfl
  · have htake : (((p0 :: p1 :: toBytes 2 n) ++ t).drop 2).take 2 = toBytes 2 n :=
      List.take_left' (length_toBytes 2 n)
    rw [hc, if_pos rfl, if_neg (by simp [hr]), hr, htake, ofBytes_toBytes (by omega),
      length_toBytes]
    rfl
  · have htake : (((p0 :: p1 :: toBytes 8 n) ++ t).drop 2).take 8 = toBytes 8 n :=
      List.take_left' (length_toBytes 8 n)
    rw [hc, if_neg (by decide), if_pos rfl, if_neg (by simp [hr]), hr, htake,
      ofBytes_toBytes (by omega), length_toBytes]
    rfl

/-! ## The payload -/

theorem length_mask (key : Key) (payload : Bytes) : (mask key payload).length = payload.length := by
  simp [mask]

theorem unmask_mask (head : Bytes) (key : Key) (payload t : Bytes) :
    unmask (head ++ (List.ofFn key ++ (mask key payload ++ t))) head.length payload.length =
      payload := by
  have hkey : (List.ofFn key).length = 4 := List.length_ofFn
  refine List.ext_getElem (by simp [unmask]) fun i _ hi => ?_
  have hmod := Nat.mod_lt i (show 4 > 0 by omega)
  have hmask : (mask key payload)[i]? = some (payload[i] ^^^ (List.ofFn key).getD (i % 4) 0) := by
    simp [mask, hi]
  simp only [unmask, List.getElem_map, List.getElem_range, List.getD_eq_getElem?_getD]
  rw [List.getElem?_append_right (by omega), List.getElem?_append_right (by omega),
    List.getElem?_append_left (by rw [length_mask]; omega),
    List.getElem?_append_right (by omega), List.getElem?_append_left (by omega),
    show head.length + 4 + i - head.length - (List.ofFn key).length = i by omega,
    Nat.add_sub_cancel_left, hmask, List.getD_eq_getElem?_getD]
  rw [Option.getD_some, UInt8.xor_assoc, UInt8.xor_self, UInt8.xor_zero]

/-! ## Round trips -/

theorem clientFrame_fields {opcode : Op} (hop : opcode.Named) (key : Key) {payload : Bytes}
    (hlen : payload.length < 2 ^ 64) (t : Bytes) :
    let buf := clientFrame opcode key payload ++ t
    2 ≤ buf.length ∧ buf.getD 0 0 &&& 0x70 = 0 ∧ buf.getD 1 0 &&& 0x80 ≠ 0 ∧
      payloadLen buf (buf.getD 1 0) = some (UInt64.ofNat payload.length,
        UInt64.ofNat (2 + (lengthRest payload.length).length)) := by
  refine ⟨by simp [clientFrame], (firstByte hop).1, (secondByte (lengthCode_lt _)).1, ?_⟩
  rw [clientFrame, List.append_assoc]
  exact payloadLen_field hlen (secondByte (lengthCode_lt _)).2.1 _

theorem header_clientFrame {opcode : Op} (hop : opcode.Named) (key : Key) {payload : Bytes}
    (hlen : payload.length ≤ 2 ^ 20) (t : Bytes) :
    Header (clientFrame opcode key payload ++ t) (UInt64.ofNat payload.length)
      (UInt64.ofNat (2 + (lengthRest payload.length).length)) := by
  have hn : payload.length < 2 ^ 64 := by omega
  obtain ⟨htwo, hrsv, hmasked, hsize⟩ := clientFrame_fields hop key hn t
  refine ⟨htwo, hrsv, hmasked, hsize, ?_⟩
  have hcap : kMaxFramePayload.toNat = 2 ^ 20 := by decide
  rw [UInt64.lt_iff_toNat_lt, UInt64.toNat_ofNat_of_lt' hn]
  omega

theorem parseFrame_tooLong {opcode : Op} (hop : opcode.Named) (key : Key) {payload : Bytes}
    (hlong : 2 ^ 20 < payload.length) (hlen : payload.length < 2 ^ 64) (t : Bytes) :
    parseFrame (clientFrame opcode key payload ++ t) =
      (.bad, clientFrame opcode key payload ++ t) := by
  obtain ⟨htwo, hrsv, hmasked, hsize⟩ := clientFrame_fields hop key hlen t
  have hcap : kMaxFramePayload < UInt64.ofNat payload.length := by
    have hval : kMaxFramePayload.toNat = 2 ^ 20 := by decide
    rw [UInt64.lt_iff_toNat_lt, UInt64.toNat_ofNat_of_lt' hlen]
    omega
  unfold parseFrame
  simp only [not_lt.mpr htwo, hrsv, hmasked, hsize, hcap, ne_eq, not_true_eq_false, if_true,
    if_false]

/-- **Client frames** parse back, whatever follows. -/
theorem parseFrame_clientFrame {opcode : Op} (hop : opcode.Named) (key : Key) {payload : Bytes}
    (hlen : payload.length ≤ 2 ^ 20) (t : Bytes) :
    parseFrame (clientFrame opcode key payload ++ t) = (.got ⟨true, opcode, payload⟩, t) := by
  have h64 : ∀ n : Nat, n < 2 ^ 64 → (UInt64.ofNat n).toNat = n := fun n hn =>
    UInt64.toNat_ofNat_of_lt' hn
  have hrest := lengthRest_length (n := payload.length) (by omega)
  obtain ⟨head, hhead, hsplit⟩ : ∃ head : Bytes,
      head.length = 2 + (lengthRest payload.length).length ∧
        clientFrame opcode key payload ++ t =
          head ++ (List.ofFn key ++ (mask key payload ++ t)) :=
    ⟨(0x80 ||| opcode.toByte) :: (0x80 ||| lengthCode payload.length) ::
      lengthRest payload.length, by simp; omega, by simp [clientFrame]⟩
  have hkey : (List.ofFn key).length = 4 := List.length_ofFn
  have hmask := length_mask key payload
  have H := header_clientFrame hop key hlen t
  have hframe : Header.frame (clientFrame opcode key payload ++ t) (UInt64.ofNat payload.length)
      (UInt64.ofNat (2 + (lengthRest payload.length).length)) = ⟨true, opcode, payload⟩ := by
    obtain ⟨-, hfin, hopcode⟩ := firstByte hop
    rw [Header.frame, h64 _ (by omega), h64 _ (by omega), hsplit, ← hhead, unmask_mask, ← hsplit]
    exact congrArg₂ (Frame.mk · · payload) (decide_eq_true hfin) hopcode
  rw [H.parse_eq, hframe, h64 _ (by omega), h64 _ (by omega), if_neg (by simp [hsplit]; omega),
    hsplit]
  refine Prod.ext rfl ?_
  rw [← hhead, ← List.append_assoc, ← List.append_assoc]
  exact List.drop_left' (by simp [hmask]; omega)

end PongPp.Ws
