import PongPp.Server.Relaying
import PongPp.Ws.Pipeline
import PongPp.Ws.Upgrade

/-!
# One client's bytes

What a client's bytes mean is a matter of that client alone: however the event loop cuts them into
reads and whatever other clients do in between, the messages that are handled for it are those of
its bytes read as one stream (`streams_apart`).
-/

namespace PongPp.Server

open Function Lib Signaling Ws

/-- The messages of a client whose bytes are read as one stream. -/
def streamMessages (b : Bytes) : List Bytes :=
  match processHandshake b with
  | (.done, _, rest) => messages (Ws.frames.drain react rest).1
  | _ => []

/-- A message that is handled for `p`. -/
def messageOf (p : PlayerId) : Signaling.Label → Option Bytes
  | (_, .message q m) => if q = p then some m else none
  | _ => none

/-- What has been handled for `p` in the events `es`. -/
def messagesOf (p : PlayerId) (es : List Signaling.Label) : List Bytes := es.filterMap (messageOf p)

/-! ## One connection -/

/-- A connection that has read `b` and handled the messages `ms`. -/
inductive Heard (b : Bytes) : List Bytes → Connection → Prop where
  | waiting : find (crlf ++ crlf) b = none → Heard b [] ⟨.handshake, b⟩
  | reading (q : Request) (rest : Bytes) (es : List Ws.Effect) (inBuf : Bytes) :
      b = q.bytes ++ rest → q.keyValue.dropWhile isBlank ≠ [] →
      Ws.frames.Passes react rest es inBuf → Heard b (messages es) ⟨.open, inBuf⟩

section Heard

variable {b : Bytes} {ms : List Bytes} {c : Connection}

theorem messages_append (es fs : List Ws.Effect) :
    messages (es ++ fs) = messages es ++ messages fs := List.filterMap_append

theorem streamMessages_request {q : Request} {rest : Bytes}
    (h : q.keyValue.dropWhile isBlank ≠ []) :
    streamMessages (q.bytes ++ rest) = messages (Ws.frames.drain react rest).1 := by
  unfold streamMessages
  rw [processHandshake_eq]
  simp only [answer, if_neg h]

theorem Heard.handled (h : Heard b ms c) : ms <+: streamMessages b := by
  cases h with
  | waiting => exact List.nil_prefix
  | reading q rest es inBuf hb hkey hpass =>
    have hdrain := hpass.drain []
    rw [List.append_nil, List.append_nil] at hdrain
    rw [hb, streamMessages_request hkey, hdrain, messages_append]
    exact List.prefix_append _ _

/-- Nothing that is complete is left when the buffer has no complete frame. -/
theorem Heard.all (h : Heard b ms c) (hc : c.state = .open)
    (hmore : Ws.frames.parse c.inBuf = .needMore) : ms = streamMessages b := by
  cases h with
  | waiting => cases hc
  | reading q rest es inBuf hb hkey hpass =>
    have hdrain := hpass.drain []
    rw [List.append_nil, List.append_nil, Decoder.drain_needMore hmore, List.append_nil] at hdrain
    rw [hb, streamMessages_request hkey, hdrain]

/-- **One read**: what is handled is what the bytes say, and a connection that goes on has handled
all that went by. -/
theorem Heard.read (h : Heard b ms c) (chunk : Bytes) :
    ms ++ messages (Ws.read trace c chunk []).2.2 <+: streamMessages (b ++ chunk) ∧
      ((Ws.read trace c chunk []).1 = .ok →
        Heard (b ++ chunk) (ms ++ messages (Ws.read trace c chunk []).2.2)
          (Ws.read trace c chunk []).2.1) := by
  by_cases hchunk : chunk = []
  · subst hchunk
    have hread : Ws.read trace c [] [] = (.err, c, []) := if_pos rfl
    rw [hread, List.append_nil]
    exact ⟨(List.append_nil ms).symm ▸ h.handled, fun hok => ReadResult.noConfusion hok⟩
  cases h with
  | waiting hnone =>
    cases hfind : find (crlf ++ crlf) (b ++ chunk) with
    | none =>
      have hread : Ws.read trace ⟨.handshake, b⟩ chunk [] =
          (.ok, ⟨.handshake, b ++ chunk⟩, []) := by
        simp only [Ws.read, if_neg hchunk, handleHandshake, processHandshake_none hfind]
      rw [hread]
      exact ⟨List.nil_prefix, fun _ => .waiting hfind⟩
    | some e =>
      obtain ⟨q, rest, hq⟩ := exists_request (exists_find.mp ⟨e, hfind⟩)
      have hanswer := processHandshake_eq q rest
      rw [← hq] at hanswer
      by_cases hkey : q.keyValue.dropWhile isBlank = []
      · have hread : Ws.read trace ⟨.handshake, b⟩ chunk [] =
            (.err, ⟨.handshake, rest⟩, [.write upgradeRequired]) := by
          simp only [Ws.read, if_neg hchunk, handleHandshake, hanswer, answer, if_pos hkey]
          rfl
        rw [hread]
        exact ⟨List.nil_prefix, fun hok => ReadResult.noConfusion hok⟩
      · have hread : Ws.read trace ⟨.handshake, b⟩ chunk [] = (.ok, ⟨.open, rest⟩,
            [.write (switchingProtocols (Util.base64Encode
              (Util.sha1 (q.keyValue.dropWhile isBlank ++ kWebSocketGuid))))]) := by
          simp only [Ws.read, if_neg hchunk, handleHandshake, hanswer, answer, if_neg hkey]
          rfl
        rw [hread]
        exact ⟨List.nil_prefix, fun _ => .reading q rest [] rest hq hkey (.refl rest)⟩
  | reading q rest es inBuf hb hkey hpass =>
    have hbytes : b ++ chunk = q.bytes ++ (rest ++ chunk) := by rw [hb, List.append_assoc]
    have hdrain := hpass.drain chunk
    rw [read_open trace inBuf hchunk, foldl_trace, List.nil_append]
    refine ⟨?_, fun hok => ?_⟩
    · rw [hbytes, streamMessages_request hkey, hdrain, messages_append]
    · rw [← messages_append]
      refine .reading q (rest ++ chunk) _ _ hbytes hkey ?_
      have hmore : (Ws.frames.drain react (inBuf ++ chunk)).2.1 = .more := resultOf_ok.mp hok
      exact hpass.more (Prod.ext rfl (Prod.ext hmore rfl))

end Heard

theorem read_conn {σ τ : Type*} (io : Io σ) (jo : Io τ) (c : Connection) (chunk : Bytes) (w : σ)
    (v : τ) : (Ws.read io c chunk w).2.1 = (Ws.read jo c chunk v).2.1 := by
  by_cases hchunk : chunk = []
  · simp only [Ws.read, if_pos hchunk]
  · obtain ⟨_ | _, buf⟩ := c
    · simp only [Ws.read, if_neg hchunk, handleHandshake]
      rcases processHandshake (buf ++ chunk) with ⟨_ | _ | _ | _, response, rest⟩ <;> rfl
    · rw [read_open io buf hchunk, read_open jo buf hchunk]

/-! ## All connections -/

/-- The events `es` are what the bytes of every client say so far. -/
structure Streamed (es : List Signaling.Label) (s : State) : Prop where
  wf : Wf s.world
  heard : ∀ p ∈ s.world.players, Heard (s.received p) (messagesOf p es) (s.conn p)
  handled : ∀ p, messagesOf p es <+: streamMessages (s.received p)
  fresh : ∀ p, s.world.nextPlayer ≤ p → s.received p = [] ∧ messagesOf p es = []

namespace Streamed

variable {es : List Signaling.Label} {s : State} {p q : PlayerId}

theorem messagesOf_append (p : PlayerId) (es fs : List Signaling.Label) :
    messagesOf p (es ++ fs) = messagesOf p es ++ messagesOf p fs := List.filterMap_append

theorem init : Streamed [] .init :=
  ⟨.init, fun _ hp => absurd hp List.not_mem_nil, fun _ => List.nil_prefix, fun _ _ => ⟨rfl, rfl⟩⟩

theorem accept (h : Streamed es s) (o : Order) :
    Streamed (es ++ [(o, .connect)]) s.accept := by
  have hes : ∀ p, messagesOf p (es ++ [(o, .connect)]) = messagesOf p es := fun p => by
    rw [messagesOf_append]
    exact List.append_nil _
  refine ⟨h.wf.register, fun p hp => ?_, fun p => ?_, fun p hp => ?_⟩
  · rw [hes]
    show Heard (s.received p) _ (update s.conn s.world.nextPlayer .fresh p)
    by_cases hnew : p = s.world.nextPlayer
    · subst hnew
      obtain ⟨hreceived, hnone⟩ := h.fresh _ le_rfl
      rw [update_self, hreceived, hnone]
      exact .waiting (by decide)
    · rw [update_of_ne hnew]
      exact h.heard p ((List.mem_insert_iff.mp hp).resolve_left hnew)
  · rw [hes]
    exact h.handled p
  · rw [hes]
    exact h.fresh p (Nat.le_of_succ_le hp)

theorem messagesOf_messages (o : Order) (p q : PlayerId) (ms : List Bytes) :
    messagesOf q ((ms.map (.message p)).map (o, ·)) = if p = q then ms else [] := by
  induction ms with
  | nil => simp [messagesOf]
  | cons m ms ih =>
    rw [List.map_cons, List.map_cons, messagesOf, List.filterMap_cons, ← messagesOf, ih]
    by_cases hpq : p = q <;> simp [messageOf, hpq]

theorem messagesOf_events (o : Order) (hp : p ∈ s.world.players) (chunk : Bytes) (q : PlayerId) :
    messagesOf q ((events s (.readable p chunk)).map (o, ·)) =
      if p = q then messages (calls s p chunk).2 else [] := by
  have hend : messagesOf q ((if (calls s p chunk).1 = .err then [Event.disconnect p] else []).map
      (o, ·)) = [] := by
    split <;> rfl
  rw [events, if_pos hp, List.map_append, messagesOf_append, hend, List.append_nil,
    messagesOf_messages]

/-- **One read** of one client. -/
theorem readable (h : Streamed es s) (o : Order) (hp : p ∈ s.world.players) (chunk : Bytes) :
    Streamed (es ++ (events s (.readable p chunk)).map (o, ·)) (s.readable o p chunk) := by
  obtain ⟨hwire, hnext, hplayers⟩ := readable_grown o chunk h.wf hp
  have hconn := readable_conn o chunk h.wf hp
  have hreceived := readable_received o chunk h.wf hp
  have hes : ∀ q, messagesOf q (es ++ (events s (.readable p chunk)).map (o, ·)) =
      messagesOf q es ++ if p = q then messages (calls s p chunk).2 else [] := fun q => by
    rw [messagesOf_append, messagesOf_events o hp]
  obtain ⟨hhandled, hok⟩ := (h.heard p hp).read chunk
  refine ⟨wf_step h.wf (o, .readable p chunk), fun q hq => ?_, fun q => ?_, fun q hq => ?_⟩
  · obtain ⟨hq, hstays⟩ := (hplayers q).mp hq
    rw [hes, hconn, hreceived]
    by_cases hpq : p = q
    · subst hpq
      rw [update_self, update_self, if_pos rfl, read_conn (io o p) trace]
      refine hok ?_
      cases hres : (Ws.read trace (s.conn p) chunk []).1 with
      | ok => rfl
      | err => exact absurd rfl (hstays hres)
    · rw [update_of_ne (Ne.symm hpq), update_of_ne (Ne.symm hpq), if_neg hpq, List.append_nil]
      exact h.heard q hq
  · rw [hes, hreceived]
    by_cases hpq : p = q
    · subst hpq
      rw [update_self, if_pos rfl]
      exact hhandled
    · rw [update_of_ne (Ne.symm hpq), if_neg hpq, List.append_nil]
      exact h.handled q
  · rw [hnext] at hq
    have hpq : p ≠ q := fun heq => absurd (heq ▸ h.wf.player_lt p hp) (not_lt.mpr hq)
    rw [hes, hreceived, update_of_ne (Ne.symm hpq), if_neg hpq, List.append_nil]
    exact h.fresh q hq

theorem step (h : Streamed es s) (l : Label) :
    Streamed (es ++ (events s l.2).map (l.1, ·)) (step l s) := by
  obtain ⟨o, i⟩ := l
  cases i with
  | accept => exact h.accept o
  | readable p chunk =>
    by_cases hp : p ∈ s.world.players
    · exact h.readable o hp chunk
    · have hnone : events s (.readable p chunk) = [] := if_neg hp
      have hsame : Server.step (o, .readable p chunk) s = s := readable_absent o chunk h.wf hp
      rw [hnone, List.map_nil, List.append_nil, hsame]
      exact h

theorem run (h : Streamed es s) (ls : List Label) :
    Streamed (es ++ eventsOf ls s) (run Server.step ls s) := by
  induction ls generalizing es s with
  | nil => exact (List.append_nil es).symm ▸ h
  | cons l ls ih =>
    have hcons : eventsOf (l :: ls) s =
        (events s l.2).map (l.1, ·) ++ eventsOf ls (Server.step l s) := rfl
    rw [hcons, ← List.append_assoc]
    exact ih (h.step l)

end Streamed

/-- The server has handled what the bytes of each client say: up to what is incomplete, unless the
client has gone, or has just been upgraded and its next read is still to come. -/
structure Apart (ls : List Label) : Prop where
  /-- The server's memory, and what it tells the players, is what the events make it. -/
  world : texts (run step ls .init).world = run Signaling.step (eventsOf ls .init) .init
  handled : ∀ p, messagesOf p (eventsOf ls .init) <+:
    streamMessages ((run step ls .init).received p)
  all : ∀ p ∈ (run step ls .init).world.players, ((run step ls .init).conn p).state = .open →
    Ws.frames.parse ((run step ls .init).conn p).inBuf = .needMore →
      messagesOf p (eventsOf ls .init) = streamMessages ((run step ls .init).received p)

/-- **Streams apart.** In every run of the server, whatever the order in which the event loop serves
its clients and however it cuts what they send, the events of the signaling layer hold for each
client the messages that its own bytes are, in their order, and the server's memory is what these
events make it. -/
theorem streams_apart (ls : List Label) : Apart ls := by
  have h := Streamed.init.run ls
  rw [List.nil_append] at h
  exact ⟨texts_run .init ls, h.handled, fun p hp hopen hmore => (h.heard p hp).all hopen hmore⟩

end PongPp.Server
