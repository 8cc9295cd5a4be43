import PongPp.Server.Handlers
import PongPp.Ws.Violations

/-!
# Protocol errors

A frame with a reserved opcode or an oversized control frame is an error of the protocol. The
server notices it only where it is a fragment, uses a reserved bit or is above the payload cap; in
runs in which no other such frame comes by, whatever control frame the server writes is small and
whatever frame it accepts has one of the six opcodes (`protocol_errors`).
-/

namespace PongPp.Server

open Lib Signaling

/-- The frames that a read of an open connection comes by. -/
def frames (s : State) (p : PlayerId) (chunk : Bytes) : List Ws.Frame :=
  Ws.frames.taken Ws.react ((s.conn p).inBuf ++ chunk)

/-- A read of an open connection comes by no frame that the protocol does not allow, fragments
apart. -/
def Decent : Label → State → Prop
  | (_, .accept), _ => True
  | (_, .readable p chunk), s => p ∈ s.world.players → (s.conn p).state = .open →
      ∀ f ∈ frames s p chunk, f.fin = true → ¬ f.Illegal

/-- The protocol's limit for control frames. -/
def SmallControl (b : Bytes) : Prop :=
  ∀ (opcode : Ws.Op) (payload : Bytes), Ws.IsControl opcode.toByte →
    b = Ws.encodeFrame opcode payload → payload.length ≤ 125

/-- What becomes of a frame, and of the frames of a run. -/
structure ProtocolErrors (frame : Bytes) (len hl : UInt64) (ls : List Label) : Prop where
  /-- A complete masked frame that the protocol does not allow fails the connection, with nothing
  called for it or for what follows, just where one of three other things is wrong with it. -/
  refused : Ws.Complete frame len hl → Ws.Illegal (frame.getD 0 0 &&& 0x0F) len.toNat →
    (Ws.Refused frame ↔
      frame.getD 0 0 &&& 0x80 = 0 ∨ frame.getD 0 0 &&& 0x70 ≠ 0 ∨ 2 ^ 20 < len.toNat)
  written : Guarded step Decent ls .init → ∀ {q : PlayerId} {b : Bytes},
    (q, .raw b) ∈ (run step ls .init).world.wire → SmallControl b
  accepted : Guarded step Decent ls .init → ∀ {ls₁ ls₂ o p chunk},
    ls = ls₁ ++ (o, .readable p chunk) :: ls₂ →
      let s := run step ls₁ .init
      p ∈ s.world.players → (s.conn p).state = .open →
        ∀ f ∈ frames s p chunk, (Ws.react f).2 ≠ some .bad → f.opcode.Named

theorem smallControl_encodeFrame {opcode : Ws.Op} {payload : Bytes} (h : payload.length ≤ 125) :
    SmallControl (Ws.encodeFrame opcode payload) := by
  intro opcode' payload' _ heq
  have hlen := congrArg List.length heq
  rcases Ws.length_cases (n := payload.length) (by omega) with ⟨-, -, hr⟩ | ⟨hge, -⟩ | ⟨hge, -⟩
  · rw [Ws.encodeFrame_eq, Ws.encodeFrame_eq, hr] at hlen
    simp at hlen
    omega
  · omega
  · omega

theorem smallControl_of_head {b : Bytes} (h : b.head? = some 0x48) : SmallControl b := by
  rintro opcode payload hop rfl
  rw [Ws.encodeFrame_eq] at h
  have hhead : 0x80 ||| opcode.toByte = 0x48 := Option.some.inj h
  rcases hop with hop | hop | hop <;> rw [hop] at hhead <;> exact absurd hhead (by decide)

/-- **Protocol errors**, one by one and in runs of the server. -/
theorem protocol_errors (frame : Bytes) (len hl : UInt64) (ls : List Label) :
    ProtocolErrors frame len hl ls where
  refused := Ws.refused_iff
  written hls := by
    refine raw_run (fun o p chunk s hs hp b hb => ?_) hls
    rcases written_frame hb with ⟨-, hhead⟩ | ⟨hopen, f, hf, hfin, ⟨hop, rfl⟩ | ⟨-, rfl⟩⟩
    · exact smallControl_of_head hhead
    · refine smallControl_encodeFrame (not_lt.mp fun hlong => ?_)
      refine hs hp hopen f hf hfin (.inr ⟨?_, hlong⟩)
      rw [hop]
      exact .inr (.inl rfl)
    · exact smallControl_encodeFrame (by decide)
  accepted hls := by
    rintro ls₁ ls₂ o p chunk rfl s hp hopen f hf hacc
    have hs := (Guarded.append.mp hls).2.1 hp hopen f hf
    have hfin : f.fin = true := by
      by_contra hfin
      rw [Bool.not_eq_true] at hfin
      exact hacc (by rw [Ws.react_fragment hfin])
    obtain ⟨buf, rest, hparse⟩ := Decoder.mem_taken hf
    simp only [Ws.frames] at hparse
    rcases hp' : Ws.parseFrame buf with ⟨_ | _ | g, r⟩ <;> rw [hp'] at hparse <;> cases hparse
    exact Ws.named_of_parsed hp' (hs hfin)

end PongPp.Server
