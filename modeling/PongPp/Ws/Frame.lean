import PongPp.Util.Bytes

/-!
# WebSocket frames

`parseFrame` takes one client frame from the front of the input buffer; `encodeFrame` makes
one server frame. The last section says what `parseFrame` does with a buffer that grows:
a frame or an error once found stays found, and `got` always shortens the buffer.
-/

namespace PongPp.Ws

/-- `enum class Op : uint8_t`. The parser casts any nibble to it, so values that name no
enumerator exist at run time; they are `reserved`. -/
inductive Op where
  | continuation
  | text
  | binary
  | close
  | ping
  | pong
  | reserved (nibble : UInt8)
  deriving DecidableEq, Repr

/-- `static_cast<Op>(opcode)`. -/
def Op.ofByte (b : UInt8) : Op :=
  if b = 0x0 then .continuation else if b = 0x1 then .text else if b = 0x2 then .binary
  else if b = 0x8 then .close else if b = 0x9 then .ping else if b = 0xA then .pong
  else .reserved b

/-- `static_cast<uint8_t>(opcode)`. -/
def Op.toByte : Op → UInt8
  | .continuation => 0x0
  | .text => 0x1
  | .binary => 0x2
  | .close => 0x8
  | .ping => 0x9
  | .pong => 0xA
  | .reserved b => b

structure Frame where
  fin : Bool
  opcode : Op
  /-- Already unmasked. -/
  payload : Bytes
  deriving DecidableEq, Repr

/-- `ParseResult`, with the out parameter that `Got` fills in. -/
inductive ParseResult where
  | needMore
  | bad
  | got (out : Frame)
  deriving DecidableEq, Repr

/-- Cap on a single frame's payload size. -/
def kMaxFramePayload : UInt64 := (1 : UInt64) <<< 20

/-- The payload length and header length of a frame whose second byte is `p1`, `none` when
the extended length bytes have not all arrived. -/
def payloadLen (buf : Bytes) (p1 : UInt8) : Option (UInt64 × UInt64) :=
  let len := (p1 &&& 0x7F).toUInt64
  if len = 126 then
    if buf.length < 4 then none
    else some (((buf.getD 2 0).toUInt64 <<< 8) ||| (buf.getD 3 0).toUInt64, 4)
  else if len = 127 then
    if buf.length < 10 then none
    else some ((List.range 8).foldl (fun n i => (n <<< 8) ||| (buf.getD (2 + i) 0).toUInt64) 0, 10)
  else some (len, 2)

/-- `out.payload[i] = payload_src[i] ^ mask_key[i % 4]` for `i < payload_len`. -/
def unmask (buf : Bytes) (headerLen payloadLen : Nat) : Bytes :=
  (List.range payloadLen).map fun i =>
    buf.getD (headerLen + 4 + i) 0 ^^^ buf.getD (headerLen + i % 4) 0

/-- One frame from the front of `buf`, and the buffer afterwards. -/
def parseFrame (buf : Bytes) : ParseResult × Bytes :=
  if buf.length < 2 then (.needMore, buf)
  else
    let p0 := buf.getD 0 0
    let p1 := buf.getD 1 0
    if p0 &&& 0x70 ≠ 0 then (.bad, buf)
    else if p1 &&& 0x80 = 0 then (.bad, buf)
    else
      match payloadLen buf p1 with
      | none => (.needMore, buf)
      | some (len, headerLen) =>
        if kMaxFramePayload < len then (.bad, buf)
        else
          let total := headerLen + 4 + len
          if buf.length < total.toNat then (.needMore, buf)
          else
            (.got ⟨p0 &&& 0x80 ≠ 0, .ofByte (p0 &&& 0x0F), unmask buf headerLen.toNat len.toNat⟩,
              buf.drop total.toNat)

/-- A server-side frame: FIN set, never masked. -/
def encodeFrame (opcode : Op) (payload : Bytes) : Bytes :=
  let len : UInt64 := UInt64.ofNat payload.length
  let header :=
    if len < 126 then [len.toUInt8]
    else if len < 65536 then [126, ((len >>> 8) &&& 0xFF).toUInt8, (len &&& 0xFF).toUInt8]
    else 127 :: [(7 : UInt64), 6, 5, 4, 3, 2, 1, 0].map fun i =>
      ((len >>> (i * 8)) &&& 0xFF).toUInt8
  (0x80 ||| opcode.toByte) :: header ++ payload

/-! ## The header -/

theorem payloadLen_header {buf : Bytes} {p1 : UInt8} {len hl : UInt64}
    (h : payloadLen buf p1 = some (len, hl)) :
    (hl = 2 ∨ hl = 4 ∨ hl = 10) ∧ (2 ≤ buf.length → hl.toNat ≤ buf.length) := by
  unfold payloadLen at h
  simp only at h
  split at h
  · split at h
    · cases h
    · cases h; exact ⟨.inr (.inl rfl), fun _ => by simp; omega⟩
  · split at h
    · split at h
      · cases h
      · cases h; exact ⟨.inr (.inr rfl), fun _ => by simp; omega⟩
    · cases h; exact ⟨.inl rfl, fun h2 => h2⟩

theorem payloadLen_none {buf : Bytes} {p1 : UInt8} (h : payloadLen buf p1 = none) :
    buf.length < 10 := by
  unfold payloadLen at h
  simp only at h
  split at h
  · split at h
    · omega
    · cases h
  · split at h
    · split at h
      · assumption
      · cases h
    · cases h

theorem getD_append {buf : Bytes} {i : Nat} (h : i < buf.length) (t : Bytes) :
    (buf ++ t).getD i 0 = buf.getD i 0 := by
  simp [List.getD, List.getElem?_append_left h]

theorem payloadLen_append {buf : Bytes} {p1 : UInt8} {x : UInt64 × UInt64}
    (h : payloadLen buf p1 = some x) (t : Bytes) : payloadLen (buf ++ t) p1 = some x := by
  unfold payloadLen at h ⊢
  simp only [List.length_append] at h ⊢
  split
  · rename_i h126
    rw [if_pos h126] at h
    split at h
    · cases h
    · rw [if_neg (by omega), getD_append (by omega), getD_append (by omega)]
      exact h
  · rename_i h126
    rw [if_neg h126] at h
    split
    · rename_i h127
      rw [if_pos h127] at h
      split at h
      · cases h
      · rw [if_neg (by omega), ← h]
        congr 2
        refine List.foldl_ext _ _ _ fun n i hi => ?_
        rw [getD_append (by have := List.mem_range.mp hi; omega)]
    · rename_i h127
      rwa [if_neg h127] at h

theorem unmask_append {buf : Bytes} {hl len : Nat} (h : hl + 4 + len ≤ buf.length) (t : Bytes) :
    unmask (buf ++ t) hl len = unmask buf hl len := by
  refine List.map_congr_left fun i hi => ?_
  have := List.mem_range.mp hi
  have := Nat.mod_lt i (show 4 > 0 by omega)
  rw [getD_append (by omega), getD_append (by omega)]

theorem toNat_le_of_cap {len : UInt64} (hcap : ¬ kMaxFramePayload < len) : len.toNat ≤ 2 ^ 20 := by
  rw [UInt64.lt_iff_toNat_lt] at hcap
  simpa [kMaxFramePayload] using hcap

theorem total_toNat {len hl : UInt64} (hcap : ¬ kMaxFramePayload < len)
    (hhl : hl = 2 ∨ hl = 4 ∨ hl = 10) :
    (hl + 4 + len).toNat = hl.toNat + 4 + len.toNat := by
  have hlen := toNat_le_of_cap hcap
  rcases hhl with rfl | rfl | rfl <;> simp only [UInt64.toNat_add, UInt64.reduceToNat] <;> omega

/-! ## What the parser says -/

/-- A complete, acceptable header at the front of `buf`, with `len` bytes of payload. -/
structure Header (buf : Bytes) (len hl : UInt64) : Prop where
  two : 2 ≤ buf.length
  rsv : buf.getD 0 0 &&& 0x70 = 0
  masked : buf.getD 1 0 &&& 0x80 ≠ 0
  size : payloadLen buf (buf.getD 1 0) = some (len, hl)
  cap : ¬ kMaxFramePayload < len

/-- The frame a complete header announces. -/
def Header.frame (buf : Bytes) (len hl : UInt64) : Frame :=
  ⟨buf.getD 0 0 &&& 0x80 ≠ 0, .ofByte (buf.getD 0 0 &&& 0x0F), unmask buf hl.toNat len.toNat⟩

namespace Header

variable {buf : Bytes} {len hl : UInt64}

theorem append (h : Header buf len hl) (t : Bytes) : Header (buf ++ t) len hl where
  two := by have := h.two; simp; omega
  rsv := by rw [getD_append (by have := h.two; omega)]; exact h.rsv
  masked := by rw [getD_append (by have := h.two; omega)]; exact h.masked
  size := by
    rw [getD_append (by have := h.two; omega)]
    exact payloadLen_append h.size t
  cap := h.cap

theorem total (h : Header buf len hl) : (hl + 4 + len).toNat = hl.toNat + 4 + len.toNat :=
  total_toNat h.cap (payloadLen_header h.size).1

theorem parse_eq (h : Header buf len hl) :
    parseFrame buf = if buf.length < hl.toNat + 4 + len.toNat then (.needMore, buf)
      else (.got (frame buf len hl), buf.drop (hl.toNat + 4 + len.toNat)) := by
  have h2 : ¬ buf.length < 2 := by have := h.two; omega
  unfold parseFrame
  simp only [h2, h.rsv, h.masked, h.size, h.cap, h.total, frame, ne_eq, not_true_eq_false, if_false]

theorem frame_append (h : Header buf len hl) (hb : hl.toNat + 4 + len.toNat ≤ buf.length)
    (t : Bytes) : frame (buf ++ t) len hl = frame buf len hl := by
  unfold frame
  rw [getD_append (by have := h.two; omega), unmask_append hb]

end Header

theorem parseFrame_cases (buf : Bytes) :
    (parseFrame buf = (.needMore, buf)) ∨
    (parseFrame buf = (.bad, buf) ∧ ∀ t, parseFrame (buf ++ t) = (.bad, buf ++ t)) ∨
    ∃ len hl, Header buf len hl ∧ hl.toNat + 4 + len.toNat ≤ buf.length ∧
      parseFrame buf = (.got (Header.frame buf len hl), buf.drop (hl.toNat + 4 + len.toNat)) := by
  by_cases h2 : buf.length < 2
  · exact .inl (by simp [parseFrame, h2])
  have h2' : ∀ t : Bytes, ¬ (buf ++ t).length < 2 := fun t => by simp; omega
  have g0 : ∀ t, (buf ++ t).getD 0 0 = buf.getD 0 0 := fun t => getD_append (by omega) t
  have g1 : ∀ t, (buf ++ t).getD 1 0 = buf.getD 1 0 := fun t => getD_append (by omega) t
  by_cases hr : buf.getD 0 0 &&& 0x70 = 0
  · by_cases hm : buf.getD 1 0 &&& 0x80 = 0
    · refine .inr (.inl ⟨?_, fun t => ?_⟩)
      · unfold parseFrame; simp only [h2, hr, hm, ne_eq, not_true_eq_false, if_true, if_false]
      · unfold parseFrame
        simp only [h2' t, g0 t, g1 t, hr, hm, ne_eq, not_true_eq_false, if_true, if_false]
    · cases hp : payloadLen buf (buf.getD 1 0) with
      | none =>
        left; unfold parseFrame; simp only [h2, hr, hm, hp, ne_eq, not_true_eq_false, if_false]
      | some x =>
        obtain ⟨len, hl⟩ := x
        by_cases hcap : kMaxFramePayload < len
        · refine .inr (.inl ⟨?_, fun t => ?_⟩)
          · unfold parseFrame
            simp only [h2, hr, hm, hp, hcap, ne_eq, not_true_eq_false, if_true, if_false]
          · unfold parseFrame
            simp only [h2' t, g0 t, g1 t, hr, hm, payloadLen_append hp t, hcap, ne_eq,
              not_true_eq_false, if_true, if_false]
        · have H : Header buf len hl := ⟨by omega, hr, hm, hp, hcap⟩
          by_cases hb : buf.length < hl.toNat + 4 + len.toNat
          · exact .inl (by rw [H.parse_eq, if_pos hb])
          · exact .inr (.inr ⟨len, hl, H, by omega, by rw [H.parse_eq, if_neg hb]⟩)
  · refine .inr (.inl ⟨?_, fun t => ?_⟩)
    · unfold parseFrame; simp only [h2, hr, ne_eq, not_false_eq_true, if_true, if_false]
    · unfold parseFrame; simp only [h2' t, g0 t, hr, ne_eq, not_false_eq_true, if_true, if_false]

theorem parseFrame_needMore {buf rest : Bytes} (h : parseFrame buf = (.needMore, rest)) :
    rest = buf := by
  rcases parseFrame_cases buf with h' | ⟨h', -⟩ | ⟨len, hl, -, -, h'⟩ <;> rw [h'] at h <;> cases h
  rfl

theorem parseFrame_bad {buf rest : Bytes} (h : parseFrame buf = (.bad, rest)) : rest = buf := by
  rcases parseFrame_cases buf with h' | ⟨h', -⟩ | ⟨len, hl, -, -, h'⟩ <;> rw [h'] at h <;> cases h
  rfl

theorem parseFrame_needMore_lt {buf rest : Bytes} (h : parseFrame buf = (.needMore, rest)) :
    buf.length < 2 ^ 20 + 14 := by
  by_contra hlong
  have h2 : ¬ buf.length < 2 := by omega
  unfold parseFrame at h
  simp only [h2, if_false] at h
  split at h
  · cases h
  · split at h
    · cases h
    · split at h
      · rename_i hp
        have := payloadLen_none hp
        omega
      · rename_i len hl hp
        split at h
        · cases h
        · rename_i hcap
          have hlen := toNat_le_of_cap hcap
          have hhl := (payloadLen_header hp).1
          rw [total_toNat hcap hhl] at h
          split at h
          · rcases hhl with rfl | rfl | rfl <;> simp at * <;> omega
          · cases h

theorem parseFrame_got_lt {buf rest : Bytes} {f : Frame} (h : parseFrame buf = (.got f, rest)) :
    rest.length + 6 ≤ buf.length := by
  rcases parseFrame_cases buf with h' | ⟨h', -⟩ | ⟨len, hl, H, hb, h'⟩ <;> rw [h'] at h <;> cases h
  have h6 : 2 ≤ hl.toNat := by rcases (payloadLen_header H.size).1 with rfl | rfl | rfl <;> decide
  rw [List.length_drop]
  omega

theorem parseFrame_got_append {buf rest : Bytes} {f : Frame}
    (h : parseFrame buf = (.got f, rest)) (t : Bytes) :
    parseFrame (buf ++ t) = (.got f, rest ++ t) := by
  rcases parseFrame_cases buf with h' | ⟨h', -⟩ | ⟨len, hl, H, hb, h'⟩ <;> rw [h'] at h <;> cases h
  rw [(H.append t).parse_eq, if_neg (by simp; omega), H.frame_append hb,
    List.drop_append_of_le_length hb]

theorem parseFrame_bad_append {buf rest : Bytes} (h : parseFrame buf = (.bad, rest)) (t : Bytes) :
    parseFrame (buf ++ t) = (.bad, buf ++ t) := by
  rcases parseFrame_cases buf with h' | ⟨-, hall⟩ | ⟨len, hl, -, -, h'⟩
  · rw [h'] at h; cases h
  · exact hall t
  · rw [h'] at h; cases h

end PongPp.Ws
