import PongPp.Lib.Run
import PongPp.Signaling.Sent
import PongPp.Ws.Connection

/-!
# The server's handlers

`main` registers two handlers with the event loop: `accept` makes a player and its connection,
`readable` reads from one client's connection and cleans up when that ends. A run of the server
is any sequence of the two. `texts_input` connects it to the signaling layer: what one read
does to the memory, and the messages it sends, are those of the signaling events it brings.
-/

namespace PongPp.Server

open Function Lib Signaling

structure State where
  world : World
  /-- `Player::conn_`. -/
  conn : PlayerId → Ws.Connection
  /-- Every byte read off each socket so far. -/
  received : PlayerId → Bytes

def State.init : State := ⟨.init, fun _ => .fresh, fun _ => []⟩

/-- What the event loop reports: a client to accept, or a client's socket with the bytes that
one `read` gets off it (`[]` at end of file or on an error). -/
inductive Input where
  | accept
  | readable (p : PlayerId) (chunk : Bytes)
  deriving DecidableEq, Repr

/-- What `p`'s connection calls: `Player::OnMessage`, and its socket. -/
def io (o : Order) (p : PlayerId) : Ws.Io World where
  onMessage m w := w.onMessage o p m
  write b w := w.emit [(p, .raw b)]

namespace State

variable (s : State)

/-- The listener's handler. -/
def accept : State :=
  { s with world := s.world.register
           conn := update s.conn s.world.nextPlayer .fresh }

/-- The per-client handler. -/
def readable (o : Order) (p : PlayerId) (chunk : Bytes) : State :=
  if s.world.alive p then
    let (result, c, w) := Ws.read (io o p) (s.conn p) chunk s.world
    let w := if result = .err then w.cleanup o p else w
    ⟨w.release p, update s.conn p c, update s.received p (s.received p ++ chunk)⟩
  else s

end State

abbrev Label := Order × Input

def step : Label → State → State
  | (_, .accept), s => s.accept
  | (o, .readable p chunk), s => s.readable o p chunk

/-- The writes of one step. -/
def sent (l : Label) (s : State) : List (PlayerId × Packet) :=
  (step l s).world.wire.drop s.world.wire.length

theorem sent_eq {l : Label} {s : State} {ps : List (PlayerId × Packet)}
    (h : (step l s).world.wire = s.world.wire ++ ps) : sent l s = ps := by
  rw [sent, h, List.drop_left]

/-! ## One read, call by call -/

/-- The result of a read and the calls it makes. -/
def calls (s : State) (p : PlayerId) (chunk : Bytes) : Ws.ReadResult × List Ws.Effect :=
  ((Ws.read Ws.trace (s.conn p) chunk []).1, (Ws.read Ws.trace (s.conn p) chunk []).2.2)

/-- The memory after the calls `es` of `p`'s connection. -/
def after (o : Order) (p : PlayerId) (es : List Ws.Effect) (w : World) : World :=
  es.foldl (io o p).apply w

theorem read_calls (o : Order) (s : State) (p : PlayerId) (chunk : Bytes) (w : World) :
    (Ws.read (io o p) (s.conn p) chunk w).1 = (calls s p chunk).1 ∧
      (Ws.read (io o p) (s.conn p) chunk w).2.2 = after o p (calls s p chunk).2 w := by
  unfold calls after
  rcases s.conn p with ⟨_ | _, buf⟩
  · by_cases hc : chunk = []
    · simp [Ws.read, hc]
    · simp only [Ws.read, if_neg hc, Ws.handleHandshake]
      rcases Ws.processHandshake (buf ++ chunk) with ⟨_ | _ | _ | _, response, rest⟩ <;>
        simp [Ws.trace, Ws.Io.apply]
  · by_cases hc : chunk = []
    · simp [Ws.read, hc]
    · simp [Ws.read_open _ buf hc, Ws.foldl_trace]

section Calls

variable {o : Order} {p : PlayerId} {w : World}

@[simp] theorem after_nil : after o p [] w = w := rfl

@[simp] theorem after_cons (e : Ws.Effect) (es : List Ws.Effect) :
    after o p (e :: es) w = after o p es ((io o p).apply w e) := rfl

theorem message_effect (hp : p ∈ w.players) (m : Bytes) :
    ∃ w' ps, Effect w o (.message p m) w' ps ∧ (io o p).apply w (.message m) = w'.emit ps ∧
      w'.players = w.players := by
  obtain ⟨w', ps, he⟩ := exists_effect o hp m
  exact ⟨w', ps, he, he.onMessage_eq hp⟩

theorem message_step (hw : Wf w) (hp : p ∈ w.players) (m : Bytes) :
    (io o p).apply w (.message m) = Signaling.step (o, .message p m) w := by
  obtain ⟨w', ps, he, heq, -⟩ := message_effect (o := o) hp m
  exact heq.trans (he.step_eq (l := (o, .message p m)) hw).symm

/-- Calls of `p`'s connection leave the memory well-formed and everybody registered, and write
to registered players only. -/
structure Grown (w w' : World) : Prop where
  wf : Wf w'
  players : w'.players = w.players
  nextPlayer : w'.nextPlayer = w.nextPlayer
  nextRoom : w.nextRoom ≤ w'.nextRoom
  wire : ∃ ps, w'.wire = w.wire ++ ps ∧ ∀ x ∈ ps, x.1 ∈ w.players

theorem Grown.refl (hw : Wf w) : Grown w w :=
  ⟨hw, rfl, rfl, le_rfl, [], by simp, by simp⟩

theorem Grown.trans {w₁ w₂ w₃ : World} (h₁ : Grown w₁ w₂) (h₂ : Grown w₂ w₃) : Grown w₁ w₃ := by
  obtain ⟨ps, hps, hin⟩ := h₁.wire
  obtain ⟨qs, hqs, hin'⟩ := h₂.wire
  refine ⟨h₂.wf, h₂.players.trans h₁.players, h₂.nextPlayer.trans h₁.nextPlayer,
    h₁.nextRoom.trans h₂.nextRoom, ps ++ qs, by rw [hqs, hps, List.append_assoc], ?_⟩
  intro x hx
  rcases List.mem_append.mp hx with hx | hx
  · exact hin x hx
  · exact h₁.players ▸ hin' x hx

theorem grown_apply (hw : Wf w) (hp : p ∈ w.players) (e : Ws.Effect) :
    Grown w ((io o p).apply w e) := by
  cases e with
  | write b =>
    exact ⟨hw.emit _, rfl, rfl, le_rfl, [(p, .raw b)], rfl, by simpa using hp⟩
  | message m =>
    obtain ⟨w', ps, he, heq, hplayers⟩ := message_effect (o := o) hp m
    rw [heq]
    refine ⟨(hw.effect he).emit ps, hplayers, ?_, ?_, ps, ?_, ?_⟩
    · cases he <;> rfl
    · cases he <;> first | exact le_rfl | exact Nat.le_succ _
    · rw [World.emit_wire, he.wire_eq]
    · exact fun x hx => he.recipient hw hx

theorem grown_after (hw : Wf w) (hp : p ∈ w.players) (es : List Ws.Effect) :
    Grown w (after o p es w) := by
  induction es generalizing w with
  | nil => exact .refl hw
  | cons e es ih =>
    have h := grown_apply (o := o) hw hp e
    exact h.trans (ih h.wf (h.players.symm ▸ hp))

/-- What holds of every message, and of what the calls write themselves, holds of all that goes
out. -/
theorem after_packets {P : Packet → Prop} (htext : ∀ m, P (.text m)) (hw : Wf w)
    (hp : p ∈ w.players) {es : List Ws.Effect} (hes : ∀ b, .write b ∈ es → P (.raw b)) :
    ∃ ps, (after o p es w).wire = w.wire ++ ps ∧ ∀ x ∈ ps, P x.2 := by
  induction es generalizing w with
  | nil => exact ⟨[], by simp, by simp⟩
  | cons e es ih =>
    have hg := grown_apply (o := o) hw hp e
    obtain ⟨qs, hqs, hto⟩ := ih hg.wf (hg.players.symm ▸ hp)
      fun b hb => hes b (List.mem_cons_of_mem _ hb)
    cases e with
    | write b =>
      refine ⟨(p, .raw b) :: qs, by rw [after_cons, hqs]; simp [io, Ws.Io.apply], ?_⟩
      exact List.forall_mem_cons.mpr ⟨hes b (List.mem_cons_self ..), hto⟩
    | message m =>
      obtain ⟨w', ps, he, heq, -⟩ := message_effect (o := o) hp m
      refine ⟨ps ++ qs, ?_, ?_⟩
      · rw [after_cons, hqs, heq, World.emit_wire, he.wire_eq, List.append_assoc]
      · intro x hx
        rcases List.mem_append.mp hx with hx | hx
        · obtain ⟨m, hm⟩ := he.text x hx
          exact hm ▸ htext m
        · exact hto x hx

end Calls

theorem readable_world {s : State} (hw : Wf s.world) (o : Order) {p : PlayerId}
    (hp : p ∈ s.world.players) (chunk : Bytes) :
    (s.readable o p chunk).world =
      let w := after o p (calls s p chunk).2 s.world
      if (calls s p chunk).1 = .err then (w.departed p).emit (w.farewell o p) else w := by
  obtain ⟨hres, hworld⟩ := read_calls o s p chunk s.world
  have hgrown := grown_after (o := o) hw hp (calls s p chunk).2
  have hmem : p ∈ (after o p (calls s p chunk).2 s.world).players := hgrown.players.symm ▸ hp
  simp only [State.readable, if_pos ((hw.alive_iff p).mpr hp), hres, hworld]
  split
  · have halive := (hgrown.wf.alive_iff p).mpr hmem
    rw [← World.handle_cleanup _ o halive hgrown.wf.nodup, World.handle, if_pos halive]
  · rw [World.release, if_pos hmem]

theorem readable_absent {s : State} (o : Order) {p : PlayerId} (chunk : Bytes) (hw : Wf s.world)
    (hp : p ∉ s.world.players) : s.readable o p chunk = s := by
  simp [State.readable, hw.not_alive hp]

theorem wf_step {s : State} (hw : Wf s.world) (l : Label) : Wf (step l s).world := by
  obtain ⟨o, i⟩ := l
  cases i with
  | accept => exact hw.register
  | readable p chunk =>
    by_cases hp : p ∈ s.world.players
    · have hg := grown_after (o := o) hw hp (calls s p chunk).2
      simp only [step, readable_world hw o hp]
      split
      · exact (hg.wf.departed p).emit _
      · exact hg.wf
    · rw [step, readable_absent o chunk hw hp]
      exact hw

/-! ## What connections write themselves -/

theorem written_frame {s : State} {p : PlayerId} {chunk b : Bytes}
    (h : .write b ∈ (calls s p chunk).2) :
    ((s.conn p).state = .handshake ∧ b.head? = some 0x48) ∨
      (s.conn p).state = .open ∧
        ∃ f ∈ Ws.frames.taken Ws.react ((s.conn p).inBuf ++ chunk), f.fin = true ∧
          ((f.opcode = .ping ∧ b = Ws.encodeFrame .pong f.payload) ∨
            (f.opcode = .close ∧ b = Ws.encodeFrame .close [])) := by
  unfold calls at h
  generalize s.conn p = c at h ⊢
  rcases c with ⟨_ | _, buf⟩
  · refine .inl ⟨rfl, ?_⟩
    by_cases hc : chunk = []
    · simp [Ws.read, hc] at h
    · simp only [Ws.read, if_neg hc, Ws.handleHandshake] at h
      rcases hp : Ws.processHandshake (buf ++ chunk) with ⟨_ | _ | _ | _, response, rest⟩ <;>
        rw [hp] at h <;> simp [Ws.trace] at h
      · rw [h, Ws.processHandshake_notUpgrade hp]
        decide
      · obtain ⟨accept, rfl⟩ := Ws.processHandshake_done hp
        rw [h]
        rfl
  · refine .inr ⟨rfl, ?_⟩
    by_cases hc : chunk = []
    · simp [Ws.read, hc] at h
    · rw [Ws.read_open _ buf hc, Ws.foldl_trace, List.nil_append, Decoder.drain_taken] at h
      obtain ⟨f, hf, hb⟩ := List.mem_flatMap.mp h
      unfold Ws.react at hb
      split at hb
      · cases hb
      · rename_i hfin
        refine ⟨f, hf, by simp at hfin; exact hfin.1, ?_⟩
        split at hb <;> simp_all

section Raw

variable {P : Bytes → Prop}

theorem readable_raw {s : State} (hw : Wf s.world) (o : Order) {p : PlayerId}
    (hp : p ∈ s.world.players) {chunk : Bytes}
    (hP : ∀ b, .write b ∈ (calls s p chunk).2 → P b) :
    ∃ ps, (s.readable o p chunk).world.wire = s.world.wire ++ ps ∧
      ∀ x ∈ ps, ∀ b, x.2 = .raw b → P b := by
  obtain ⟨ps, hps, hto⟩ := after_packets (o := o) (P := fun k => ∀ b, k = .raw b → P b)
    (fun m b hb => by cases hb) hw hp fun b hb b' hb' => Packet.raw.inj hb' ▸ hP b hb
  have hgrown := grown_after (o := o) hw hp (calls s p chunk).2
  rw [readable_world hw o hp]
  simp only
  split
  · have he : Effect _ o (.disconnect p) _ _ := .disconnect p (hgrown.players.symm ▸ hp)
    refine ⟨ps ++ (after o p (calls s p chunk).2 s.world).farewell o p, ?_, ?_⟩
    · rw [World.emit_wire, he.wire_eq, hps, List.append_assoc]
    · intro x hx b hb
      rcases List.mem_append.mp hx with hx | hx
      · exact hto x hx b hb
      · obtain ⟨m, hm⟩ := he.text x hx
        rw [hm] at hb
        cases hb
  · exact ⟨ps, hps, hto⟩

/-- **Raw writes.** What holds of all that connections write in the reads of a run holds of all
raw writes of the run. -/
theorem raw_run {G : Label → State → Prop}
    (hG : ∀ o p chunk s, G (o, .readable p chunk) s → p ∈ s.world.players →
      ∀ b, .write b ∈ (calls s p chunk).2 → P b)
    {ls : List Label} (hls : Guarded step G ls .init) {q : PlayerId} {b : Bytes}
    (h : (q, .raw b) ∈ (run step ls .init).world.wire) : P b := by
  have hrun := run_inv_guarded
    (I := fun s => Wf s.world ∧ ∀ x ∈ s.world.wire, ∀ b, x.2 = .raw b → P b)
    (fun l s hl hs => ⟨wf_step hs.1 l, ?_⟩) hls ⟨.init, fun x hx => by cases hx⟩
  · exact hrun.2 _ h b rfl
  obtain ⟨hw, hwire⟩ := hs
  obtain ⟨o, i⟩ := l
  cases i with
  | accept => exact hwire
  | readable p chunk =>
    by_cases hp : p ∈ s.world.players
    · obtain ⟨ps, hps, hto⟩ := readable_raw hw o hp (hG o p chunk s hl hp)
      have hstep : (step (o, .readable p chunk) s).world.wire = s.world.wire ++ ps := hps
      rw [hstep]
      exact List.forall_mem_append.mpr ⟨hwire, hto⟩
    · rw [step, readable_absent o chunk hw hp]
      exact hwire

end Raw

/-! ## A run of the server is a run of events -/

/-- The memory, with what the players were told and nothing else on the wire. -/
def texts (w : World) : World :=
  { w with wire := w.wire.filter fun x => match x.2 with | .text _ => true | .raw _ => false }

theorem texts_emit_raw (w : World) (p : PlayerId) (b : Bytes) :
    texts (w.emit [(p, .raw b)]) = texts w := by
  simp [texts, World.emit]

theorem texts_emit {w : World} {ps : List (PlayerId × Packet)}
    (h : ∀ x ∈ ps, ∃ m, x.2 = .text m) : texts (w.emit ps) = (texts w).emit ps := by
  have hps : ps.filter (fun x => match x.2 with | .text _ => true | .raw _ => false) = ps := by
    rw [List.filter_eq_self]
    intro x hx
    obtain ⟨m, hm⟩ := h x hx
    rw [hm]
  simp only [texts, World.emit, List.filter_append, hps]

theorem wf_texts {w : World} (hw : Wf w) : Wf (texts w) := by
  cases hw; constructor <;> assumption

theorem effect_texts {w w' : World} {o : Order} {e : Event} {ps : List (PlayerId × Packet)}
    (he : Effect w o e w' ps) : Effect (texts w) o e (texts w') ps := by
  cases he with
  | connect => exact .connect
  | goneMessage p m hp => exact .goneMessage p m hp
  | goneDisconnect p hp => exact .goneDisconnect p hp
  | list p m hp hv => exact .list p m hp hv
  | create p m hp hv => exact .create p m hp hv
  | join p m body r hp hv hj => exact .join p m body r hp hv hj
  | joinFailed p m body hp hv hn => exact .joinFailed p m body hp hv hn
  | relay p m body q hp hv hq => exact .relay p m body q hp hv hq
  | relayFailed p m body hp hv hq => exact .relayFailed p m body hp hv hq
  | unknown p m hp hv => exact .unknown p m hp hv
  | disconnect p hp => exact .disconnect p hp

/-- An event does the same to the memory whatever else is on the wire. -/
theorem texts_step {w : World} (hw : Wf w) (l : Signaling.Label) :
    texts (Signaling.step l w) = Signaling.step l (texts w) := by
  obtain ⟨w', he, hs⟩ := step_effect hw l
  rw [hs, texts_emit he.text, ← (effect_texts he).step_eq (wf_texts hw)]

/-- The messages among the calls of a connection. -/
def messages (es : List Ws.Effect) : List Bytes :=
  es.filterMap fun
    | .message m => some m
    | .write _ => none

/-- The signaling events of one input. -/
def events (s : State) : Input → List Event
  | .accept => [.connect]
  | .readable p chunk =>
    if p ∈ s.world.players then
      (messages (calls s p chunk).2).map (.message p) ++
        if (calls s p chunk).1 = .err then [.disconnect p] else []
    else []

theorem texts_after {w : World} {o : Order} {p : PlayerId} (hw : Wf w) (hp : p ∈ w.players)
    (es : List Ws.Effect) :
    texts (after o p es w) =
      run Signaling.step (((messages es).map (.message p)).map (o, ·)) (texts w) := by
  induction es generalizing w with
  | nil => rfl
  | cons e es ih =>
    have hg := grown_apply (o := o) hw hp e
    rw [after_cons, ih hg.wf (hg.players.symm ▸ hp)]
    cases e with
    | write b =>
      have hraw : texts ((io o p).apply w (.write b)) = texts w := texts_emit_raw w p b
      rw [hraw]
      rfl
    | message m =>
      rw [message_step hw hp, texts_step hw]
      rfl

/-- **One input is its signaling events.** -/
theorem texts_input {s : State} (hw : Wf s.world) (o : Order) (i : Input) :
    texts (step (o, i) s).world = run Signaling.step ((events s i).map (o, ·)) (texts s.world) := by
  cases i with
  | accept =>
    exact texts_step hw (o, .connect)
  | readable p chunk =>
    by_cases hp : p ∈ s.world.players
    · have hg := grown_after (o := o) hw hp (calls s p chunk).2
      simp only [step, readable_world hw o hp, events, if_pos hp, List.map_append, run_append,
        ← texts_after hw hp]
      split
      · have hmem := hg.players.symm ▸ hp
        have he : Effect _ o (.disconnect p) _ _ := .disconnect p hmem
        rw [← he.step_eq (l := (o, .disconnect p)) hg.wf, texts_step hg.wf]
        rfl
      · rfl
    · simp [step, readable_absent o chunk hw hp, events, hp]

/-- The signaling events of a run. -/
def eventsOf (ls : List Label) (s : State) : List Signaling.Label :=
  outputs step (fun l s => (events s l.2).map (l.1, ·)) ls s

/-- **A run of the server is a run of signaling events.** -/
theorem texts_run {s : State} (hw : Wf s.world) (ls : List Label) :
    texts (run step ls s).world = run Signaling.step (eventsOf ls s) (texts s.world) := by
  refine (run_outputs (G := fun _ _ => True) (R := fun s w => Wf s.world ∧ texts s.world = w) ?_
    (Guarded.of_forall (fun _ _ => trivial) ls s) ⟨hw, rfl⟩).2
  rintro l s - - ⟨hw, rfl⟩
  exact ⟨wf_step hw l, texts_input hw l.1 l.2⟩

end PongPp.Server
