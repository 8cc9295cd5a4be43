import PongPp.Web.Signaling
import PongPp.Ws.Codec

/-!
# The browser's end of a connection

A browser reads unmasked frames off the socket and passes the data of every message to
`handleMessage`. It reads back what `encodeFrame` writes (`parse_encodeFrame`), however the bytes
arrive. Fragments are not put together: the server sends none.
-/

namespace PongPp.Web

open Lib

/-- One server frame off the front of the bytes that arrived. -/
def parseFrame (buf : Bytes) : Parse UInt8 Ws.Frame :=
  if buf.length < 2 then .needMore
  else
    let p0 := buf.getD 0 0
    let p1 := buf.getD 1 0
    if p0 &&& 0x70 ≠ 0 then .bad
    else if p1 &&& 0x80 ≠ 0 then .bad
    else
      match Ws.payloadLen buf p1 with
      | none => .needMore
      | some (len, headerLen) =>
        let total := headerLen.toNat + len.toNat
        if buf.length < total then .needMore
        else .got ⟨p0 &&& 0x80 ≠ 0, .ofByte (p0 &&& 0x0F), (buf.take total).drop headerLen.toNat⟩
          (buf.drop total)

theorem parseFrame_got_lt {buf rest : Bytes} {f : Ws.Frame} (h : parseFrame buf = .got f rest) :
    rest.length < buf.length := by
  unfold parseFrame at h
  simp only at h
  split_ifs at h with h2
  split at h
  · cases h
  · rename_i len hl hp
    split_ifs at h
    cases h
    have hpos : 2 ≤ hl.toNat := by
      rcases (Ws.payloadLen_header hp).1 with rfl | rfl | rfl <;> decide
    rw [List.length_drop]
    omega

theorem parseFrame_append {buf : Bytes} (h : parseFrame buf ≠ .needMore) (t : Bytes) :
    parseFrame (buf ++ t) =
      match parseFrame buf with
      | .needMore => .needMore
      | .bad => .bad
      | .got f rest => .got f (rest ++ t) := by
  unfold parseFrame at h ⊢
  by_cases h2 : buf.length < 2
  · exact absurd (if_pos h2) h
  have h2' : ¬ (buf ++ t).length < 2 := by rw [List.length_append]; omega
  simp only [if_neg h2, if_neg h2', Ws.getD_append (show 0 < buf.length by omega),
    Ws.getD_append (show 1 < buf.length by omega)] at h ⊢
  split_ifs at h ⊢
  · rfl
  · rfl
  · cases hp : Ws.payloadLen buf (buf.getD 1 0) with
    | none => rw [hp] at h; exact absurd rfl h
    | some x =>
      rw [hp] at h
      simp only [Ws.payloadLen_append hp] at h ⊢
      by_cases hb : buf.length < x.2.toNat + x.1.toNat
      · exact absurd (if_pos hb) h
      · have hb' : ¬ (buf ++ t).length < x.2.toNat + x.1.toNat := by
          rw [List.length_append]
          omega
        simp only [if_neg hb, if_neg hb']
        rw [List.take_append_of_le_length (by omega), List.drop_append_of_le_length (by omega)]

/-- `parseFrame` as a decoder. -/
def frames : Decoder UInt8 Ws.Frame where
  parse := parseFrame
  got_lt := parseFrame_got_lt
  got_append h t := by rw [parseFrame_append (by rw [h]; exact nofun), h]
  bad_append h t := by rw [parseFrame_append (by rw [h]; exact nofun), h]

/-- What a frame makes the page's `Signaling` do, and whether the browser goes on reading.
`handleMessage` ignores data that is not a string; a Text frame that is not UTF-8 fails the
connection. -/
def react (f : Ws.Frame) : List Call × Option Unit :=
  if !f.fin then ([], some ())
  else
    match f.opcode with
    | .text =>
      match utf8Decode f.payload with
      | some data => ((Signaling.handleMessage data).toList, none)
      | none => ([], some ())
    | .binary | .ping | .pong => ([], none)
    | .close | .continuation | .reserved _ => ([], some ())

/-- The calls that the bytes `chunks` lead to, read by a browser that has no part of a frame
yet. -/
def receive (chunks : List Bytes) : List Call := (frames.feed react chunks []).1

/-! ## Server frames -/

theorem parse_encodeFrame {opcode : Ws.Op} (hop : opcode.Named) {payload : Bytes}
    (hlen : payload.length < 2 ^ 63) (t : Bytes) :
    frames.parse (Ws.encodeFrame opcode payload ++ t) = .got ⟨true, opcode, payload⟩ t := by
  obtain ⟨hrsv, hfin, hopcode⟩ := Ws.firstByte hop
  obtain ⟨-, -, hmask, hcode⟩ := Ws.secondByte (Ws.lengthCode_lt payload.length)
  have hn : payload.length < 2 ^ 64 := by omega
  have hrest := Ws.lengthRest_length hn
  obtain ⟨head, hhead, hsplit⟩ : ∃ head : Bytes,
      head.length = 2 + (Ws.lengthRest payload.length).length ∧
        Ws.encodeFrame opcode payload ++ t = head ++ (payload ++ t) :=
    ⟨(0x80 ||| opcode.toByte) :: Ws.lengthCode payload.length :: Ws.lengthRest payload.length,
      by simp; omega, by simp [Ws.encodeFrame_eq]⟩
  obtain ⟨len, hl, hsize, hlen64, hhl⟩ : ∃ len hl : UInt64,
      Ws.payloadLen (head ++ (payload ++ t)) (Ws.lengthCode payload.length) = some (len, hl) ∧
        len.toNat = payload.length ∧ hl.toNat = head.length := by
    have hhead64 : head.length < 2 ^ 64 := by omega
    refine ⟨_, _, ?_, UInt64.toNat_ofNat_of_lt' hn, UInt64.toNat_ofNat_of_lt' hhead64⟩
    rw [← hsplit, Ws.encodeFrame_eq, List.append_assoc, hhead]
    exact Ws.payloadLen_field hn hcode _
  have h0 : (head ++ (payload ++ t)).getD 0 0 = 0x80 ||| opcode.toByte := by rw [← hsplit]; rfl
  have h1 : (head ++ (payload ++ t)).getD 1 0 = Ws.lengthCode payload.length := by
    rw [← hsplit, Ws.encodeFrame_eq]
    rfl
  have htotal : (head ++ (payload ++ t)).length = head.length + payload.length + t.length := by
    simp only [List.length_append, Nat.add_assoc]
  rw [hsplit]
  show parseFrame _ = _
  unfold parseFrame
  simp only [h0, h1, hrsv, hmask, hsize, hlen64, hhl, htotal, hopcode, ne_eq, not_true_eq_false,
    if_false, hfin, not_false_eq_true, decide_true]
  have hboth : (head ++ payload).length = head.length + payload.length := List.length_append
  rw [if_neg (by omega), if_neg (by omega), ← List.append_assoc, List.take_left' hboth,
    List.drop_left, List.drop_left' hboth]

theorem react_relay (body : Str) :
    react ⟨true, .text, utf8Encode (Signaling.relay body)⟩ = ([.onRelay body], none) := by
  simp [react, utf8Decode_encode, Signaling.handleMessage_relay]

/-- **Relayed lines** in server frames come out as calls of `onRelay`, however they arrive. -/
theorem receive_relays {bodies : List Str} {chunks : List Bytes}
    (hlen : ∀ body ∈ bodies, (utf8Encode (Signaling.relay body)).length < 2 ^ 63)
    (h : chunks.flatten =
      bodies.flatMap fun body => Ws.encodeFrame .text (utf8Encode (Signaling.relay body))) :
    receive chunks = bodies.map .onRelay := by
  have hread : frames.Reads
      (bodies.map fun body => ⟨true, .text, utf8Encode (Signaling.relay body)⟩)
      ([] ++ chunks.flatten) [] := by
    rw [List.nil_append, h]
    exact Decoder.reads_flatMap rfl fun body hb t =>
      parse_encodeFrame Ws.Op.text_named (hlen body hb) t
  have hreact : ∀ f ∈ bodies.map fun body =>
      (⟨true, .text, utf8Encode (Signaling.relay body)⟩ : Ws.Frame), (react f).2 = none := by
    intro f hf
    obtain ⟨body, -, rfl⟩ := List.mem_map.mp hf
    rw [react_relay]
  rcases chunks with _ | ⟨c, cs⟩
  · cases bodies with
    | nil => rfl
    | cons body bodies => cases h
  · rw [receive, hread.feed (List.cons_ne_nil c cs) hreact]
    simp only [List.flatMap_map, react_relay]
    exact (List.map_eq_flatMap ..).symm

end PongPp.Web
