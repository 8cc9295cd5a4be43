import PongPp.Server.Handlers
import PongPp.Signaling.Lines

/-!
# The Text frames of a run

Nothing on the way from one client to another looks at the encoding: what a client relays goes
out in a Text frame byte by byte, whether it came in a Text or a Binary frame. So the Text frames
of a run are UTF-8 just when everything is that was relayed in it (`text_frames`).
-/

namespace PongPp.Server

open Lib Signaling

/-- If the event makes somebody relay a message, that message is UTF-8. -/
def RelaysUtf8 (l : Signaling.Label) (w : World) : Prop :=
  ∀ p m b q, l.2 = .message p m → p ∈ w.players → parseVerb m = .relay b → w.peerOf p = some q →
    Utf8 m

structure TextFrames (ls : List Label) : Prop where
  /-- Text frames are written by `Player::Send` only: what the connections write themselves
  starts with another byte. -/
  raw : ∀ q b, (q, .raw b) ∈ (run step ls .init).world.wire → b.head? ≠ some 0x81
  /-- What the server words itself is UTF-8. -/
  worded : ∀ q m, (q, .text m) ∈ (run step ls .init).world.wire → (∀ b, m ≠ .relay b) → Utf8 m.text
  /-- The rest is what the peer of the recipient sent. -/
  relayed : ∀ q b, (q, .text (.relay b)) ∈ (run step ls .init).world.wire →
    ∃ ls₁ o p m ls₂, eventsOf ls .init = ls₁ ++ (o, .message p m) :: ls₂ ∧
      parseVerb m = .relay b ∧ (run Signaling.step ls₁ .init).peerOf p = some q
  exact : (∀ q m, (q, .text m) ∈ (run step ls .init).world.wire → Utf8 m.text) ↔
    Guarded Signaling.step RelaysUtf8 (eventsOf ls .init) .init

/-! ## What connections write themselves -/

theorem calls_write (s : State) (p : PlayerId) (chunk : Bytes) :
    ∀ b, .write b ∈ (calls s p chunk).2 → b.head? ≠ some 0x81 := by
  intro b hb
  rcases written_frame hb with ⟨-, hhead⟩ | ⟨-, f, -, -, ⟨-, rfl⟩ | ⟨-, rfl⟩⟩
  · rw [hhead]
    decide
  · exact fun h => absurd (Option.some.inj h) (by decide)
  · decide

/-! ## What players are told -/

theorem utf8_sent {w : World} (hw : Wf w) (l : Signaling.Label) :
    (∀ x ∈ Signaling.sent l w, ∀ m, x.2 = .text m → Utf8 m.text) ↔ RelaysUtf8 l w := by
  refine ⟨?_, ?_⟩
  · intro h p m b q hl hp hv hq
    have hmem := (relay_mem_sent hw (l := l)).mpr ⟨p, m, hl, hp, hv, hq⟩
    exact (utf8_relay hv).mpr ((utf8_text _).mp (h _ hmem _ rfl) b rfl)
  · rintro h ⟨q, k⟩ hx m rfl
    refine (utf8_text m).mpr fun b hb => ?_
    subst hb
    obtain ⟨p, m, hl, hp, hv, hq⟩ := (relay_mem_sent hw).mp hx
    exact (utf8_relay hv).mp (h p m b q hl hp hv hq)

theorem mem_texts {w : World} {q : PlayerId} {m : Msg} :
    (q, .text m) ∈ (texts w).wire ↔ (q, .text m) ∈ w.wire := by
  simp [texts]

/-- The messages of a run are those of its signaling events. -/
theorem text_mem {ls : List Label} {q : PlayerId} {m : Msg} :
    (q, .text m) ∈ (run step ls .init).world.wire ↔
      (q, .text m) ∈ outputs Signaling.step Signaling.sent (eventsOf ls .init) .init := by
  have hw : Wf State.init.world := .init
  have hrun := run_wire (wf_texts hw) (eventsOf ls .init)
  rw [← mem_texts, texts_run hw, hrun]
  rfl

/-- **Text frames** are UTF-8 exactly in the runs in which no client relays anything else to a
peer; all that is not relayed is UTF-8 in any run. -/
theorem text_frames (ls : List Label) : TextFrames ls where
  raw q b h := raw_run (G := fun _ _ => True) (fun _ p chunk s _ _ => calls_write s p chunk)
    (Guarded.of_forall (fun _ _ => trivial) ls State.init) h
  worded q m _ hm := (utf8_text m).mpr fun b hb => absurd hb (hm b)
  relayed q b h := by
    obtain ⟨ls₁, ⟨o, e⟩, ls₂, hls, hx⟩ := mem_outputs.mp (text_mem.mp h)
    obtain ⟨p, m, rfl, -, hv, hq⟩ := (relay_mem_sent (Wf.init.run ls₁)).mp hx
    exact ⟨ls₁, o, p, m, ls₂, hls, hv, hq⟩
  exact := by
    have hiff : (∀ q m, (q, .text m) ∈ (run step ls .init).world.wire → Utf8 m.text) ↔
        ∀ x ∈ outputs Signaling.step Signaling.sent (eventsOf ls .init) .init,
          ∀ m, x.2 = .text m → Utf8 m.text := by
      refine ⟨?_, ?_⟩
      · rintro h ⟨q, k⟩ hx m rfl
        exact h q m (text_mem.mpr hx)
      · exact fun h q m hx => h _ (text_mem.mp hx) m rfl
    rw [hiff, forall_outputs]
    exact Guarded.congr_inv (I := Wf) (fun l _ _ hw => hw.step l) (fun l _ hw => utf8_sent hw l)
      .init

/-- A guest relays the byte 0xFF, and its host is sent a Text frame with it. -/
theorem text_frames_broken : ¬ ∀ (ls : List Label) (q : PlayerId) (m : Msg),
    (q, .text m) ∈ (run step ls .init).world.wire → Utf8 m.text := by
  intro h
  have hbad := h [(.id, .accept), (.id, .readable 0 Ws.plainRequest), (.id, .accept),
    (.id, .readable 1 Ws.plainRequest),
    (.id, .readable 0 ([0x81, 0x86, 0, 0, 0, 0] ++ ascii "CREATE")),
    (.id, .readable 1 ([0x81, 0x86, 0, 0, 0, 0] ++ ascii "JOIN 1")),
    (.id, .readable 1 ([0x81, 0x87, 0, 0, 0, 0] ++ ascii "RELAY " ++ [0xFF]))] 0 (.relay [0xFF])
    (by decide +kernel)
  revert hbad
  decide

end PongPp.Server
