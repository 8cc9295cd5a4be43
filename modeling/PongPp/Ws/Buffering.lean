import PongPp.Ws.Pipeline

/-!
# How much a connection buffers

An open connection waits for the rest of one frame, and `ParseFrame` refuses frames whose payload
is longer than its cap. What is left behind the upgrade request came with the read that brought
its end. So the input buffer stays short, whatever a client sends (`buffered`).
-/

namespace PongPp.Ws

variable {σ : Type*} (io : Io σ)

/-- The size of the array that `Read` reads into. -/
def readSize : Nat := 4096

theorem handshake_leftover {buf chunk : Bytes} {e : Nat} (hbuf : find (crlf ++ crlf) buf = none)
    (h : find (crlf ++ crlf) (buf ++ chunk) = some e) :
    ((buf ++ chunk).drop (e + 4)).length < chunk.length := by
  have hlen : (crlf ++ crlf).length = 4 := rfl
  have hwithin := find_length_le h
  -- otherwise the blank line would have been found before
  have hend : buf.length < e + 4 := by
    by_contra hend
    rw [find_of_append h (by omega)] at hbuf
    cases hbuf
  rw [hlen, List.length_append] at hwithin
  rw [List.length_drop, List.length_append]
  omega

theorem handleFrames_leftover {buf rest : Bytes} {w w' : σ}
    (h : handleFrames io buf w = (.needMore, rest, w')) : rest.length ≤ 2 ^ 20 + 13 :=
  Nat.le_of_lt_succ (parseFrame_needMore_lt (handleFrames_needMore io h))

/-- After every read of the run that ends well in the open state, the buffer is short. -/
def Buffered (w : σ) (cs : List Bytes) : Prop :=
  ∀ pre post, cs = pre ++ post → ∀ buf w', readAll io pre .fresh w = (.ok, ⟨.open, buf⟩, w') →
    buf.length ≤ 2 ^ 20 + 13

/-- **Bounded buffering.** However the client's bytes are cut into reads, an open connection holds
less than a frame of the largest size; and `ParseFrame` computes that size without wrapping, for
every length field that it accepts. -/
theorem buffered (w : σ) {cs : List Bytes} (hcs : ∀ chunk ∈ cs, chunk.length ≤ readSize) :
    Buffered io w cs ∧
      ∀ buf p1 len headerLen, payloadLen buf p1 = some (len, headerLen) →
        ¬ kMaxFramePayload < len →
          (headerLen + 4 + len).toNat = headerLen.toNat + 4 + len.toNat := by
  refine ⟨?_, fun buf p1 len headerLen h hcap => total_toNat hcap (payloadLen_header h).1⟩
  rintro pre post rfl buf w' hr
  rcases List.eq_nil_or_concat' pre with rfl | ⟨pre, chunk, rfl⟩
  · cases hr
  obtain ⟨⟨s, b⟩, w₁, hpre, hread⟩ := readAll_concat_ok io hr
  cases s with
  | handshake =>
    obtain ⟨rfl, hnone, -⟩ := readAll_handshake io hpre
    obtain ⟨-, ⟨-, he⟩ | ⟨e, hf, -, he⟩⟩ := read_handshake io hread
    · cases he
    · cases he
      have hlt := handshake_leftover hnone hf
      have hsize : chunk.length ≤ 4096 := hcs chunk (by simp)
      omega
  | «open» =>
    obtain ⟨-, rest, hh, he⟩ := read_open_ok io hread
    cases he
    exact handleFrames_leftover io hh

/-- An upgrade request, and half of a frame behind it. -/
theorem buffered_half :
    Buffered trace [] [plainRequest ++ [0x81, 0xFE], [0xFF]] ∧
      ∀ buf p1 len headerLen, payloadLen buf p1 = some (len, headerLen) →
        ¬ kMaxFramePayload < len →
          (headerLen + 4 + len).toNat = headerLen.toNat + 4 + len.toNat :=
  buffered trace [] (by decide)

end PongPp.Ws
