import PongPp.Signaling.World
import PongPp.Util.Decimal

/-!
# Lines

What a client's message says is in its `line`: the message without its trailing newlines. The
lines a server sends are ASCII but for the body of a `RELAY`, which is a client's
(`utf8_text`); that body is UTF-8 just when the client's message is (`utf8_relay`).
-/

namespace PongPp.Signaling

/-! ## Client lines -/

def isNewline (b : UInt8) : Bool := b == 0x0A || b == 0x0D

/-- A message without its maximal trailing run of CR and LF. -/
def line (m : Bytes) : Bytes := m.rdropWhile isNewline

theorem line_append (m : Bytes) : ∃ t, m = line m ++ t ∧ ∀ b ∈ t, isNewline b = true := by
  refine ⟨m.rtakeWhile isNewline, (List.rdropWhile_append_rtakeWhile ..).symm, fun b hb => ?_⟩
  exact List.mem_rtakeWhile_imp hb

theorem line_eq_self {m : Bytes} (h : ∀ b ∈ m.getLast?, isNewline b = false) : line m = m := by
  rw [line, List.rdropWhile_eq_self_iff]
  intro hne
  rw [h _ (List.getLast?_eq_some_getLast hne)]
  simp

/-- The body of a line that is `RELAY`, or `RELAY`, a space and a body. -/
def relayBody (m : Bytes) : Option Bytes :=
  if line m = ascii "RELAY" then some []
  else if ascii "RELAY " <+: line m then some ((line m).drop 6)
  else none

theorem relayBody_eq_some {m b : Bytes} :
    relayBody m = some b ↔
      (line m = ascii "RELAY" ∧ b = []) ∨ line m = ascii "RELAY " ++ b := by
  have hne : ∀ b : Bytes, ascii "RELAY" ≠ ascii "RELAY " ++ b := fun b h => by
    have := congrArg List.length h
    rw [List.length_append] at this
    have h5 : (ascii "RELAY").length = 5 := rfl
    have h6 : (ascii "RELAY ").length = 6 := rfl
    omega
  unfold relayBody
  split_ifs with h₁ h₂
  · rw [h₁, or_iff_left (hne b)]
    simp [eq_comm]
  · obtain ⟨c, hc⟩ := h₂
    rw [← hc]
    have hdrop : (ascii "RELAY " ++ c).drop 6 = c := List.drop_left' rfl
    rw [hdrop, or_iff_right (fun h => hne c h.1.symm), List.append_cancel_left_eq,
      Option.some_inj]
  · refine iff_of_false (by simp) ?_
    rintro (⟨h, -⟩ | h)
    · exact h₁ h
    · exact h₂ ⟨b, h.symm⟩

theorem parseVerb_relay {m b : Bytes} : parseVerb m = .relay b ↔ relayBody m = some b := by
  have hline : ∀ b : Bytes, ascii "RELAY " ++ b = ascii "RELAY" ++ 0x20 :: b := fun b => rfl
  have hparse : parseVerb m = .relay b ↔
      (line m).takeWhile (· != 0x20) = ascii "RELAY" ∧
        ((line m).dropWhile (· != 0x20)).drop 1 = b := by
    have hl : m.rdropWhile (fun b => b == 0x0A || b == 0x0D) = line m := rfl
    simp only [parseVerb, hl]
    refine ⟨?_, ?_⟩
    · intro h
      split_ifs at h with h₁ h₂ h₃ h₄
      cases h
      exact ⟨h₄, rfl⟩
    · rintro ⟨hv, rfl⟩
      rw [hv, if_neg (by decide), if_neg (by decide), if_neg (by decide), if_pos rfl]
  rw [hparse, relayBody_eq_some, hline]
  refine ⟨?_, ?_⟩
  · rintro ⟨hv, rfl⟩
    rcases eq_of_takeWhile hv with ⟨hl, hb⟩ | hl
    · exact .inl ⟨hl, hb⟩
    · exact .inr hl
  · rintro (⟨hl, rfl⟩ | hl)
    · rw [hl]
      decide
    · rw [hl]
      exact split_append (by decide) b

/-! ## UTF-8 -/

theorem ascii_toString (n : Nat) : Ascii (toString n) := fun b hb => by
  have hdigit := isDigit_iff.mp (isDigit_toString b hb)
  omega

/-- **Server lines** are UTF-8, but for what is relayed in them. -/
theorem utf8_text (msg : Msg) : Utf8 msg.text ↔ ∀ b, msg = .relay b → Utf8 b := by
  have hother : Ascii msg.text → (∀ b, msg ≠ .relay b) →
      (Utf8 msg.text ↔ ∀ b, msg = .relay b → Utf8 b) :=
    fun ha hne => iff_of_true ha.utf8 fun b hb => absurd hb (hne b)
  cases msg with
  | rooms codes =>
    refine hother ?_ (by simp)
    refine Ascii.append (by decide) fun x hx => ?_
    obtain ⟨c, -, hx⟩ := List.mem_flatMap.mp hx
    exact Ascii.append (by decide) (ascii_toString _) x hx
  | created code => exact hother (Ascii.append (by decide) (ascii_toString _)) (by simp)
  | relay body =>
    have hpre : Utf8 (ascii "RELAY " ++ body) ↔ Utf8 body := utf8_append_left (by decide)
    simpa [Msg.text] using hpre
  | error reason => exact hother (by cases reason <;> decide) (by simp)
  | _ => exact hother (by decide) (by simp)

theorem utf8_relay {m b : Bytes} (h : parseVerb m = .relay b) : Utf8 m ↔ Utf8 b := by
  obtain ⟨t, hm, ht⟩ := line_append m
  have hascii : Ascii t := fun x hx => by
    have hx := ht x hx
    simp only [isNewline, Bool.or_eq_true, beq_iff_eq] at hx
    rcases hx with rfl | rfl <;> decide
  have hline : Utf8 m ↔ Utf8 (line m) := by
    conv_lhs => rw [hm]
    exact utf8_append_right hascii
  rw [hline]
  rcases relayBody_eq_some.mp (parseVerb_relay.mp h) with ⟨hl, rfl⟩ | hl
  · rw [hl]
    decide
  · rw [hl]
    exact utf8_append_left (by decide)

end PongPp.Signaling
