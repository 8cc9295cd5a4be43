import PongPp.Ws.Connection

/-!
# Frames behind the upgrade request

The input buffer serves the handshake and then the frames. `drained_iff`: a connection is
drained after every read exactly when no read brings, with the end of the upgrade request, a
whole frame behind it; such a frame stays in the buffer until the client sends more.
-/

namespace PongPp.Ws

variable {σ : Type*} (io : Io σ)

theorem readAll_concat (cs : List Bytes) (chunk : Bytes) (c : Connection) (w : σ) :
    readAll io (cs ++ [chunk]) c w =
      match readAll io cs c w with
      | (.ok, c, w) => read io c chunk w
      | (.err, c, w) => (.err, c, w) := by
  induction cs generalizing c w with
  | nil =>
    simp only [List.nil_append, readAll]
    rcases read io c chunk w with ⟨_ | _, c', w'⟩ <;> rfl
  | cons d cs ih =>
    simp only [List.cons_append, readAll]
    rcases read io c d w with ⟨_ | _, c', w'⟩
    · exact ih c' w'
    · rfl

theorem readAll_concat_ok {cs : List Bytes} {chunk : Bytes} {c c' : Connection} {w w' : σ}
    (h : readAll io (cs ++ [chunk]) c w = (.ok, c', w')) :
    ∃ c₁ w₁, readAll io cs c w = (.ok, c₁, w₁) ∧ read io c₁ chunk w₁ = (.ok, c', w') := by
  rw [readAll_concat] at h
  rcases hr : readAll io cs c w with ⟨_ | _, c₁, w₁⟩ <;> rw [hr] at h
  · exact ⟨c₁, w₁, rfl, h⟩
  · cases h

theorem processHandshake_none {buf : Bytes} (h : find (crlf ++ crlf) buf = none) :
    processHandshake buf = (.needMore, [], buf) := by
  simp [processHandshake, h]

theorem read_handshake {buf chunk : Bytes} {c' : Connection} {w w' : σ}
    (h : read io ⟨.handshake, buf⟩ chunk w = (.ok, c', w')) :
    chunk ≠ [] ∧ ((find (crlf ++ crlf) (buf ++ chunk) = none ∧ c' = ⟨.handshake, buf ++ chunk⟩) ∨
      ∃ e, find (crlf ++ crlf) (buf ++ chunk) = some e ∧
        findHeader (buf ++ chunk) (ascii "Sec-WebSocket-Key") ≠ [] ∧
        c' = ⟨.open, (buf ++ chunk).drop (e + 4)⟩) := by
  by_cases hc : chunk = []
  · simp [read, hc] at h
  refine ⟨hc, ?_⟩
  simp only [read, if_neg hc, handleHandshake] at h
  cases hf : find (crlf ++ crlf) (buf ++ chunk) with
  | none =>
    simp only [processHandshake_none hf, Prod.mk.injEq, true_and] at h
    exact .inl ⟨rfl, h.1.symm⟩
  | some e =>
    by_cases hk : findHeader (buf ++ chunk) (ascii "Sec-WebSocket-Key") = []
    · simp [processHandshake, hf, hk] at h
    · simp only [processHandshake, hf, hk, if_false, Prod.mk.injEq, true_and] at h
      exact .inr ⟨e, rfl, hk, h.1.symm⟩

theorem read_open_ok {buf chunk : Bytes} {c' : Connection} {w w' : σ}
    (h : read io ⟨.open, buf⟩ chunk w = (.ok, c', w')) :
    chunk ≠ [] ∧ ∃ rest, handleFrames io (buf ++ chunk) w = (.needMore, rest, w') ∧
      c' = ⟨.open, rest⟩ := by
  by_cases hc : chunk = []
  · simp [read, hc] at h
  refine ⟨hc, ?_⟩
  simp only [read, if_neg hc] at h
  rcases hh : handleFrames io (buf ++ chunk) w with ⟨_ | _ | _, rest, w''⟩ <;> rw [hh] at h <;>
    cases h
  exact ⟨rest, rfl, rfl⟩

theorem readAll_handshake {cs : List Bytes} {buf : Bytes} {w w' : σ}
    (h : readAll io cs .fresh w = (.ok, ⟨.handshake, buf⟩, w')) :
    buf = cs.flatten ∧ find (crlf ++ crlf) buf = none ∧ [] ∉ cs := by
  induction cs using List.reverseRecOn generalizing buf w' with
  | nil =>
    cases h
    exact ⟨rfl, rfl, List.not_mem_nil⟩
  | append_singleton cs chunk ih =>
    obtain ⟨⟨s, b⟩, w₁, hpre, hread⟩ := readAll_concat_ok io h
    cases s with
    | handshake =>
      obtain ⟨rfl, -, hne⟩ := ih hpre
      obtain ⟨hc, ⟨hf, he⟩ | ⟨e, -, -, he⟩⟩ := read_handshake io hread
      · cases he
        exact ⟨by simp, hf, by simp [hne, Ne.symm hc]⟩
      · cases he
    | «open» =>
      obtain ⟨-, rest, -, he⟩ := read_open_ok io hread
      cases he

theorem readAll_waiting {cs : List Bytes} (hne : [] ∉ cs)
    (hf : find (crlf ++ crlf) cs.flatten = none) (w : σ) :
    readAll io cs .fresh w = (.ok, ⟨.handshake, cs.flatten⟩, w) := by
  induction cs using List.reverseRecOn with
  | nil => rfl
  | append_singleton cs chunk ih =>
    rw [List.flatten_append, List.flatten_singleton] at hf ⊢
    have hpre : find (crlf ++ crlf) cs.flatten = none := by
      by_contra hsome
      obtain ⟨e, he⟩ := Option.ne_none_iff_exists'.mp hsome
      rw [find_append (by decide) he] at hf
      cases hf
    simp only [List.mem_append, List.mem_singleton, not_or] at hne
    rw [readAll_concat, ih hne.1 hpre]
    simp [read, Ne.symm hne.2, handleHandshake, processHandshake_none hf]

theorem readAll_upgrade (pre : List Bytes) (chunk : Bytes) (e : Nat) (hne : [] ∉ pre ++ [chunk])
    (hpre : find (crlf ++ crlf) pre.flatten = none)
    (hf : find (crlf ++ crlf) (pre.flatten ++ chunk) = some e)
    (hk : findHeader (pre.flatten ++ chunk) (ascii "Sec-WebSocket-Key") ≠ []) (w : σ) :
    ∃ w', readAll io (pre ++ [chunk]) .fresh w =
      (.ok, ⟨.open, (pre.flatten ++ chunk).drop (e + 4)⟩, w') := by
  simp only [List.mem_append, List.mem_singleton, not_or] at hne
  rw [readAll_concat, readAll_waiting io hne.1 hpre]
  simp [read, Ne.symm hne.2, handleHandshake, processHandshake, hf, hk]

/-- After every read of the run that ends well in the open state, the parser wants more. -/
def Drained (w : σ) (cs : List Bytes) : Prop :=
  ∀ pre post, cs = pre ++ post → ∀ buf w', readAll io pre .fresh w = (.ok, ⟨.open, buf⟩, w') →
    (parseFrame buf).1 = .needMore

/-- Some read brings the end of an upgrade request and a whole frame (or a malformed one)
behind it. -/
def PipelinedFrame (cs : List Bytes) : Prop :=
  ∃ pre chunk post e, cs = pre ++ chunk :: post ∧ [] ∉ pre ++ [chunk] ∧
    find (crlf ++ crlf) pre.flatten = none ∧
    find (crlf ++ crlf) (pre.flatten ++ chunk) = some e ∧
    findHeader (pre.flatten ++ chunk) (ascii "Sec-WebSocket-Key") ≠ [] ∧
    (parseFrame ((pre.flatten ++ chunk).drop (e + 4))).1 ≠ .needMore

/-- **No complete frame waits**, except behind the upgrade request in the read that brings its
end. -/
theorem drained_iff (w : σ) (cs : List Bytes) : Drained io w cs ↔ ¬ PipelinedFrame cs := by
  refine ⟨?_, ?_⟩
  · rintro hd ⟨pre, chunk, post, e, rfl, hne, hpre, hf, hk, hp⟩
    obtain ⟨w', hr⟩ := readAll_upgrade io pre chunk e hne hpre hf hk w
    exact hp (hd (pre ++ [chunk]) post (by simp) _ _ hr)
  · rintro hnp pre post rfl buf w' hr
    rcases List.eq_nil_or_concat' pre with rfl | ⟨pre, chunk, rfl⟩
    · cases hr
    obtain ⟨⟨s, b⟩, w₁, hpre, hread⟩ := readAll_concat_ok io hr
    cases s with
    | handshake =>
      obtain ⟨rfl, hpre', hne⟩ := readAll_handshake io hpre
      obtain ⟨hc, ⟨-, he⟩ | ⟨e, hf, hk, he⟩⟩ := read_handshake io hread
      · cases he
      · cases he
        by_contra hp
        exact hnp ⟨pre, chunk, post, e, by simp, by simp [hne, Ne.symm hc], hpre', hf, hk, hp⟩
    | «open» =>
      obtain ⟨-, rest, hh, he⟩ := read_open_ok io hread
      cases he
      rw [handleFrames_needMore io hh]

/-- An upgrade request with a masked `LIST` frame behind it in one read. -/
def upgradeWithList : Bytes :=
  plainRequest ++ [0x81, 0x84, 0, 0, 0, 0] ++ ascii "LIST"

theorem upgradeWithList_waits : ¬ Drained trace [] [upgradeWithList] := by
  intro h
  obtain ⟨w', hr⟩ := readAll_upgrade trace [] upgradeWithList 59 (by decide +kernel) (by decide)
    (by decide +kernel) (by decide +kernel) []
  exact absurd (h [upgradeWithList] [] rfl _ _ hr) (by decide +kernel)

end PongPp.Ws
