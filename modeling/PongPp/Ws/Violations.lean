import PongPp.Ws.RoundTrip

/-!
# Frames that break the protocol

A reserved opcode, or a control frame with more than 125 bytes of payload. Neither `ParseFrame` nor
`HandleFrames` looks for one: such a frame fails the connection only when something else is wrong
with it (`refused_iff`).
-/

namespace PongPp.Ws

open Lib

/-- An opcode that the protocol reserves. -/
def Reserved (b : UInt8) : Prop := 0x3 ≤ b ∧ b ≤ 0x7 ∨ 0xB ≤ b ∧ b ≤ 0xF

/-- Close, ping or pong. -/
def IsControl (b : UInt8) : Prop := b = 0x8 ∨ b = 0x9 ∨ b = 0xA

/-- A frame that the protocol does not allow, by its opcode and the length of its payload. -/
def Illegal (opcode : UInt8) (n : Nat) : Prop := Reserved opcode ∨ IsControl opcode ∧ 125 < n

instance (b : UInt8) : Decidable (Reserved b) := inferInstanceAs (Decidable (_ ∨ _))
instance (b : UInt8) : Decidable (IsControl b) := inferInstanceAs (Decidable (_ ∨ _))
instance (b : UInt8) (n : Nat) : Decidable (Illegal b n) := inferInstanceAs (Decidable (_ ∨ _))

def Frame.Illegal (f : Frame) : Prop := Ws.Illegal f.opcode.toByte f.payload.length

/-- One complete masked frame, whatever else is in its header. -/
structure Complete (frame : Bytes) (len hl : UInt64) : Prop where
  two : 2 ≤ frame.length
  masked : frame.getD 1 0 &&& 0x80 ≠ 0
  size : payloadLen frame (frame.getD 1 0) = some (len, hl)
  whole : frame.length = hl.toNat + 4 + len.toNat

/-- `HandleFrames` fails at the frame, without calling anything for it or for what follows. -/
def Refused (frame : Bytes) : Prop :=
  ∀ t, ∃ rest, handleFrames trace (frame ++ t) [] = (.bad, rest, [])

variable {σ : Type*} (io : Io σ)

theorem handleFrames_nil (w : σ) : handleFrames io [] w = (.needMore, [], w) := by
  rw [handleFrames]
  rfl

/-- Unless it is a fragment, a frame that the protocol does not allow is none of those that
`HandleFrames` fails at. -/
theorem react_illegal {f : Frame} (hfin : f.fin = true) (hbad : f.Illegal) :
    (react f).2 ≠ some .bad := by
  have hcont : f.opcode ≠ .continuation := fun h => by
    have := hbad
    rw [Frame.Illegal, h] at this
    rcases this with h | ⟨h, -⟩ <;> revert h <;> decide
  unfold react
  rw [hfin]
  cases hop : f.opcode <;> simp_all

/-- The parser casts any nibble to an opcode; only the reserved ones name none. -/
theorem named_of_parsed {buf rest : Bytes} {f : Frame} (h : parseFrame buf = (.got f, rest))
    (hlegal : ¬ f.Illegal) : f.opcode.Named := by
  rcases parseFrame_cases buf with h' | ⟨h', -⟩ | ⟨len, hl, -, -, h'⟩ <;> rw [h'] at h <;> cases h
  have hnibble : ∀ b : UInt8, ¬ Reserved (b &&& 0x0F) →
      (Op.ofByte (b &&& 0x0F)) ∈ [Op.continuation, .text, .binary, .close, .ping, .pong] :=
    byte_forall (by decide +kernel)
  have hres : ¬ Reserved (buf.getD 0 0 &&& 0x0F) := fun hr => hlegal (.inl (by
    rw [Header.frame, toByte_ofByte]
    exact hr))
  have hmem : (Header.frame buf len hl).opcode ∈ _ := hnibble _ hres
  intro b hb
  rw [hb] at hmem
  simp at hmem

theorem react_fragment {f : Frame} (hfin : f.fin = false) : react f = ([], some .bad) := by
  simp [react, hfin]

/-- **Exactly which** of the frames that the protocol does not allow fail the connection: those
that are fragments, use a reserved bit or are longer than the cap. -/
theorem refused_iff {frame : Bytes} {len hl : UInt64} (h : Complete frame len hl)
    (hbad : Illegal (frame.getD 0 0 &&& 0x0F) len.toNat) :
    Refused frame ↔
      frame.getD 0 0 &&& 0x80 = 0 ∨ frame.getD 0 0 &&& 0x70 ≠ 0 ∨ 2 ^ 20 < len.toNat := by
  have hcap : kMaxFramePayload < len ↔ 2 ^ 20 < len.toNat := by
    rw [UInt64.lt_iff_toNat_lt]
    rfl
  have htwo : ∀ t : Bytes, ¬ (frame ++ t).length < 2 := fun t => by
    have := h.two
    simp
    omega
  have g0 : ∀ t, (frame ++ t).getD 0 0 = frame.getD 0 0 := fun t =>
    getD_append (by have := h.two; omega) t
  have g1 : ∀ t, (frame ++ t).getD 1 0 = frame.getD 1 0 := fun t =>
    getD_append (by have := h.two; omega) t
  have hsize := fun t => payloadLen_append h.size t
  by_cases hrsv : frame.getD 0 0 &&& 0x70 = 0
  · by_cases hlong : kMaxFramePayload < len
    · -- above the cap
      have hparse : ∀ t, parseFrame (frame ++ t) = (.bad, frame ++ t) := fun t => by
        unfold parseFrame
        simp only [htwo t, g0 t, g1 t, hrsv, h.masked, hsize t, hlong, ne_eq, not_true_eq_false,
          if_true, if_false]
      exact iff_of_true (fun t => ⟨_, handleFrames_bad trace (hparse t) []⟩)
        (.inr (.inr (hcap.mp hlong)))
    · have H : Header frame len hl := ⟨h.two, hrsv, h.masked, h.size, hlong⟩
      have hgot : parseFrame frame = (.got (Header.frame frame len hl), []) := by
        rw [H.parse_eq, if_neg (by have := h.whole; omega),
          List.drop_eq_nil_of_le (by have := h.whole; omega)]
      have hlen : (Header.frame frame len hl).payload.length = len.toNat := by
        simp [Header.frame, unmask]
      by_cases hfin : frame.getD 0 0 &&& 0x80 = 0
      · -- a fragment
        refine iff_of_true (fun t => ⟨t, ?_⟩) (.inl hfin)
        have hfrag : (Header.frame frame len hl).fin = false := decide_eq_false (not_not.mpr hfin)
        rw [handleFrames_got trace (parseFrame_got_append hgot t), react_fragment hfrag]
        rfl
      · refine iff_of_false (fun hr => ?_) (by
          rintro (h | h | h)
          exacts [hfin h, h hrsv, hlong (hcap.mpr h)])
        have hill : (Header.frame frame len hl).Illegal := by
          rw [Frame.Illegal, hlen, Header.frame, toByte_ofByte]
          exact hbad
        have hnot := react_illegal (decide_eq_true hfin) hill
        obtain ⟨rest, hrest⟩ := hr []
        rw [List.append_nil, handleFrames_got trace hgot] at hrest
        rcases hre : react (Header.frame frame len hl) with ⟨es, _ | _ | _⟩ <;>
          rw [hre] at hrest hnot
        · simp [handleFrames_nil] at hrest
        · exact hnot rfl
        · simp [phaseOf] at hrest
  · -- a reserved bit
    have hparse : ∀ t, parseFrame (frame ++ t) = (.bad, frame ++ t) := fun t => by
      unfold parseFrame
      simp only [htwo t, g0 t, hrsv, ne_eq, not_false_eq_true, if_true, if_false]
    exact iff_of_true (fun t => ⟨_, handleFrames_bad trace (hparse t) []⟩) (.inr (.inl hrsv))

/-- An empty frame with the reserved opcode 3. -/
def reservedFrame : Bytes := [0x83, 0x80, 0, 0, 0, 0]

theorem reservedFrame_tolerated : ¬ ∀ (frame : Bytes) (len hl : UInt64), Complete frame len hl →
    Illegal (frame.getD 0 0 &&& 0x0F) len.toNat → Refused frame := by
  intro h
  obtain ⟨rest, hrest⟩ := h reservedFrame 0 2 ⟨by decide, by decide, by decide, by decide⟩
    (by decide) []
  revert hrest
  have hlate : (handleFrames trace (reservedFrame ++ []) []).1 = .needMore := by decide +kernel
  intro hrest
  rw [hrest] at hlate
  cases hlate

end PongPp.Ws
