import PongPp.Server.Quiet

/-!
# The handshake comes first

A player is registered when its client is accepted, and a broadcast goes to every registered
player in no room, so it reaches clients whose handshake is not done. `handshake_first` says
when the server keeps to the order on every socket: exactly in the runs in which nobody causes
a broadcast while somebody else is still in the handshake.
-/

namespace PongPp.Server

open Function Lib Signaling

/-! ## The property -/

/-- All bytes written to `p`'s socket. -/
def written (s : State) (p : PlayerId) : Bytes := (inbox p s.world.wire).flatMap Packet.bytes

/-- `ProcessHandshake` answers `response` when it has got some prefix of `received`. -/
def Response (received response : Bytes) : Prop :=
  ∃ buf, buf <+: received ∧
    ((Ws.processHandshake buf).1 = .done ∨ (Ws.processHandshake buf).1 = .notUpgrade) ∧
    (Ws.processHandshake buf).2.1 = response

/-- What was written to `p` starts with the whole response to its handshake. -/
def Greeted (s : State) (p : PlayerId) : Prop :=
  ∃ response, Response (s.received p) response ∧ response <+: written s p

/-- A step writes nothing but the response to a client that is in the handshake before it. -/
def ResponseOnly (l : Label) (s : State) : Prop :=
  ∀ p ∈ s.world.players, (s.conn p).state = .handshake → ∀ k, (p, k) ∈ sent l s →
    ∃ response, Response ((step l s).received p) response ∧ k = .raw response

structure HandshakeFirst (ls : List Label) : Prop where
  greeted : ∀ p, written (run step ls .init) p = [] ∨ Greeted (run step ls .init) p
  responseOnly : Guarded step ResponseOnly ls .init

/-! ## The invariant -/

/-- `p` has sent part of its request and got nothing. -/
structure Waiting (s : State) (p : PlayerId) : Prop where
  state : (s.conn p).state = .handshake
  silent : inbox p s.world.wire = []
  buf : (s.conn p).inBuf = s.received p
  seatless : ∀ r < s.world.nextRoom, ¬ (s.world.room r).Has p

structure Inv (s : State) : Prop where
  wf : Wf s.world
  present : ∀ p ∈ s.world.players, Waiting s p ∨ (s.conn p).state = .open ∧ Greeted s p
  gone : ∀ p ∉ s.world.players, written s p = [] ∨ Greeted s p
  fresh : ∀ p, s.world.nextPlayer ≤ p → inbox p s.world.wire = [] ∧ s.received p = []

theorem Waiting.roomless {s : State} {p : PlayerId} (h : Waiting s p) (hw : Wf s.world) :
    s.world.roomOf p = none := by
  cases hr : s.world.roomOf p with
  | none => rfl
  | some r => exact absurd (hw.seated p r hr) (h.seatless r (hw.room_lt p r hr))

theorem Inv.waiting {s : State} (h : Inv s) {p : PlayerId} (hp : p ∈ s.world.players)
    (hs : (s.conn p).state = .handshake) : Waiting s p := by
  rcases h.present p hp with hwait | ⟨hopen, -⟩
  · exact hwait
  · rw [hs] at hopen
    cases hopen

/-! ## Reads in the handshake -/

section Read

variable {s : State} {p : PlayerId} (o : Order) (chunk : Bytes)

theorem waiting_read (h : Waiting s p) :
    let buf := s.received p ++ chunk
    let c := (Ws.read (io o p) (s.conn p) chunk s.world).2.1
    calls s p chunk = (.err, []) ∨
    (calls s p chunk = (.ok, []) ∧ c = ⟨.handshake, buf⟩) ∨
    ((Ws.processHandshake buf).1 = .notUpgrade ∧
      calls s p chunk = (.err, [.write (Ws.processHandshake buf).2.1])) ∨
    ((Ws.processHandshake buf).1 = .done ∧
      calls s p chunk = (.ok, [.write (Ws.processHandshake buf).2.1]) ∧ c.state = .open) := by
  obtain ⟨hstate, -, hbuf, -⟩ := h
  unfold calls
  rcases hc : s.conn p with ⟨st, b⟩
  rw [hc] at hstate hbuf
  simp only at hstate hbuf
  subst hstate hbuf
  by_cases hchunk : chunk = []
  · exact .inl (by simp [Ws.read, hchunk])
  · simp only [Ws.read, if_neg hchunk, Ws.handleHandshake]
    rcases hp : Ws.processHandshake (s.received p ++ chunk) with ⟨_ | _ | _ | _, response, rest⟩
    · refine .inr (.inl ⟨rfl, ?_⟩)
      unfold Ws.processHandshake at hp
      split at hp
      · cases hp; rfl
      · simp only at hp
        split at hp <;> cases hp
    · exact .inl rfl
    · exact .inr (.inr (.inl ⟨rfl, rfl⟩))
    · exact .inr (.inr (.inr ⟨rfl, rfl, rfl⟩))

theorem waiting_wire (hw : Wf s.world) (h : Waiting s p) (hp : p ∈ s.world.players) :
    (s.readable o p chunk).world.wire = (after o p (calls s p chunk).2 s.world).wire := by
  have hroom : (after o p (calls s p chunk).2 s.world).roomOf p = none := by
    rcases waiting_read o chunk h with hc | ⟨hc, -⟩ | ⟨-, hc⟩ | ⟨-, hc, -⟩ <;> rw [hc] <;>
      exact h.roomless hw
  rw [readable_world hw o hp]
  simp only
  split
  · show _ ++ World.farewell _ o p = _
    rw [World.farewell, hroom, List.append_nil]
    rfl
  · rfl

end Read

/-! ## The invariant is kept -/

theorem Greeted.mono {s s' : State} {p : PlayerId} (h : Greeted s p)
    (hr : s.received p <+: s'.received p) (hw : written s p <+: written s' p) : Greeted s' p := by
  obtain ⟨response, ⟨buf, hbuf, hres⟩, hpre⟩ := h
  exact ⟨response, ⟨buf, hbuf.trans hr, hres⟩, hpre.trans hw⟩

theorem written_append {s s' : State} {ps : List (PlayerId × Packet)}
    (h : s'.world.wire = s.world.wire ++ ps) (p : PlayerId) :
    written s' p = written s p ++ (inbox p ps).flatMap Packet.bytes := by
  simp [written, h]

/-- A client in the handshake that is not the reader notices nothing of a quiet read. -/
theorem Waiting.other {s : State} {o : Order} {p q : PlayerId} {chunk : Bytes} (h : Waiting s q)
    (hw : Wf s.world) (hp : p ∈ s.world.players) (hq : q ∈ s.world.players) (hne : q ≠ p)
    (hquiet : Quiet (o, .readable p chunk) s) :
    Waiting (s.readable o p chunk) q ∧ ∀ k, (q, k) ∉ sent (o, .readable p chunk) s := by
  obtain ⟨hm, hl⟩ := hquiet hp ⟨q, hq, hne, h.state⟩
  obtain ⟨⟨ps, hps, hto⟩, hroom, hnext⟩ := readable_quiet o chunk hw hp hm hl
  have hnot : ∀ x ∈ ps, x.1 ≠ q := by
    rintro x hx rfl
    rcases hto x hx with hxp | hpeer
    · exact hne hxp
    · obtain ⟨r, hr, ho⟩ := Option.bind_eq_some_iff.mp hpeer
      exact h.seatless r (hw.room_lt p r hr) (s.world.mem_otherPlayer ho).1
  refine ⟨⟨?_, ?_, ?_, ?_⟩, fun k hk => ?_⟩
  · rw [readable_conn o chunk hw hp, update_of_ne hne]; exact h.state
  · rw [hps, inbox_append, h.silent, inbox_eq_nil hnot, List.append_nil]
  · rw [readable_conn o chunk hw hp, readable_received o chunk hw hp, update_of_ne hne,
      update_of_ne hne]
    exact h.buf
  · rw [hroom, hnext]; exact h.seatless
  · rw [sent_eq (l := (o, .readable p chunk)) hps] at hk
    exact hnot _ hk rfl

theorem Waiting.written {s : State} {p : PlayerId} (h : Waiting s p) : written s p = [] := by
  rw [Server.written, h.silent, List.flatMap_nil]

/-- The response to a request, when it is the first thing written. -/
theorem greeted_of_response {s s' : State} {p : PlayerId} {buf : Bytes} (h : Waiting s p)
    (hr : s'.received p = buf)
    (hres : (Ws.processHandshake buf).1 = .done ∨ (Ws.processHandshake buf).1 = .notUpgrade)
    (hwire : s'.world.wire = s.world.wire ++ [(p, .raw (Ws.processHandshake buf).2.1)]) :
    Greeted s' p := by
  refine ⟨_, ⟨buf, hr ▸ List.prefix_refl _, hres, rfl⟩, ?_⟩
  rw [written_append hwire, h.written]
  simp [Packet.bytes]

/-- The reader's own read in the handshake: it leaves, it still waits, or it is answered. -/
theorem Waiting.self {s : State} {p : PlayerId} (h : Waiting s p) (o : Order) (chunk : Bytes)
    (hw : Wf s.world) (hp : p ∈ s.world.players) :
    (∀ k, (p, k) ∈ sent (o, .readable p chunk) s →
      ∃ response, Response ((s.readable o p chunk).received p) response ∧ k = .raw response) ∧
    ((calls s p chunk).1 = .err ∧
        (Server.written (s.readable o p chunk) p = [] ∨ Greeted (s.readable o p chunk) p) ∨
      Waiting (s.readable o p chunk) p ∨
      ((s.readable o p chunk).conn p).state = .open ∧ Greeted (s.readable o p chunk) p) := by
  have hwire := waiting_wire o chunk hw h hp
  have hrecv : (s.readable o p chunk).received p = s.received p ++ chunk := by
    rw [readable_received o chunk hw hp, update_self]
  have hconn : (s.readable o p chunk).conn p =
      (Ws.read (io o p) (s.conn p) chunk s.world).2.1 := by
    rw [readable_conn o chunk hw hp, update_self]
  have hsilent : (calls s p chunk).2 = [] →
      (s.readable o p chunk).world.wire = s.world.wire ++ [] := fun hc => by
    rw [hwire, hc, after_nil, List.append_nil]
  have hanswer : ∀ {b}, (calls s p chunk).2 = [.write b] →
      (s.readable o p chunk).world.wire = s.world.wire ++ [(p, .raw b)] := fun hc => by
    rw [hwire, hc]; rfl
  have honly : ∀ {b}, (calls s p chunk).2 = [.write b] →
      Response ((s.readable o p chunk).received p) b → ∀ k,
      (p, k) ∈ sent (o, .readable p chunk) s →
      ∃ response, Response ((s.readable o p chunk).received p) response ∧ k = .raw response :=
    fun hc hb k hk => by
      rw [sent_eq (l := (o, .readable p chunk)) (hanswer hc), List.mem_singleton] at hk
      cases hk
      exact ⟨_, hb, rfl⟩
  have hnone : (calls s p chunk).2 = [] → ∀ k, (p, k) ∉ sent (o, .readable p chunk) s :=
    fun hc k hk => by
      rw [sent_eq (l := (o, .readable p chunk)) (hsilent hc)] at hk
      cases hk
  rcases waiting_read o chunk h with hc | ⟨hc, hstate⟩ | ⟨hres, hc⟩ | ⟨hres, hc, hstate⟩
  · have hc₂ : (calls s p chunk).2 = [] := by rw [hc]
    refine ⟨fun k hk => absurd hk (hnone hc₂ k), .inl ⟨by rw [hc], .inl ?_⟩⟩
    rw [written_append (hsilent hc₂), h.written]
    rfl
  · have hc₂ : (calls s p chunk).2 = [] := by rw [hc]
    refine ⟨fun k hk => absurd hk (hnone hc₂ k), .inr (.inl ⟨?_, ?_, ?_, ?_⟩)⟩
    · rw [hconn, hstate]
    · rw [hsilent hc₂, List.append_nil]; exact h.silent
    · rw [hconn, hstate, hrecv]
    · rw [readable_world hw o hp, hc]; exact h.seatless
  · have hc₂ : (calls s p chunk).2 =
        [.write (Ws.processHandshake (s.received p ++ chunk)).2.1] := by rw [hc]
    refine ⟨honly hc₂ ⟨_, hrecv ▸ List.prefix_refl _, .inr hres, rfl⟩, .inl ⟨by rw [hc], .inr ?_⟩⟩
    exact greeted_of_response h hrecv (.inr hres) (hanswer hc₂)
  · have hc₂ : (calls s p chunk).2 =
        [.write (Ws.processHandshake (s.received p ++ chunk)).2.1] := by rw [hc]
    refine ⟨honly hc₂ ⟨_, hrecv ▸ List.prefix_refl _, .inl hres, rfl⟩,
      .inr (.inr ⟨by rw [hconn, hstate], ?_⟩)⟩
    exact greeted_of_response h hrecv (.inl hres) (hanswer hc₂)

namespace Inv

variable {s : State}

theorem init : Inv State.init where
  wf := .init
  present p hp := by simp [State.init, World.init] at hp
  gone p _ := .inl rfl
  fresh p _ := ⟨rfl, rfl⟩

theorem accept (h : Inv s) : Inv s.accept := by
  have hmem : ∀ q, q ∈ s.accept.world.players ↔ q = s.world.nextPlayer ∨ q ∈ s.world.players :=
    fun q => List.mem_insert_iff
  have hconn : ∀ {q}, q ≠ s.world.nextPlayer → s.accept.conn q = s.conn q :=
    fun hq => update_of_ne hq _ _
  have old : ∀ {q}, q ∈ s.world.players → q ≠ s.world.nextPlayer := fun hq =>
    (h.wf.player_lt _ hq).ne
  refine ⟨h.wf.register, ?_, ?_, ?_⟩
  · intro q hq
    rcases (hmem q).mp hq with rfl | hq
    · obtain ⟨hsilent, hrecv⟩ := h.fresh _ le_rfl
      have hfresh : s.accept.conn s.world.nextPlayer = .fresh := update_self ..
      refine .inl ⟨by rw [hfresh]; rfl, hsilent, by rw [hfresh]; exact hrecv.symm, ?_⟩
      exact fun r hr hhas => absurd (h.wf.seat_lt r hr _ hhas) (lt_irrefl _)
    · rcases h.present q hq with ⟨h₁, h₂, h₃, h₄⟩ | ⟨hopen, hg⟩
      · exact .inl ⟨by rw [hconn (old hq)]; exact h₁, h₂, by rw [hconn (old hq)]; exact h₃, h₄⟩
      · exact .inr ⟨by rw [hconn (old hq)]; exact hopen, hg⟩
  · intro q hq
    exact h.gone q fun hq' => hq ((hmem q).mpr (.inr hq'))
  · exact fun q hq => h.fresh q (Nat.le_of_succ_le hq)

theorem readable (h : Inv s) {o : Order} {p : PlayerId} {chunk : Bytes}
    (hquiet : Quiet (o, .readable p chunk) s) : Inv (s.readable o p chunk) := by
  by_cases hp : p ∈ s.world.players
  swap
  · rwa [readable_absent o chunk h.wf hp]
  obtain ⟨⟨ps, hps, hin⟩, hnext, hmem⟩ := readable_grown o chunk h.wf hp
  have hrecv : ∀ q, s.received q <+: (s.readable o p chunk).received q := fun q => by
    rw [readable_received o chunk h.wf hp]
    by_cases hq : q = p
    · subst hq; rw [update_self]; exact List.prefix_append ..
    · simp only [update_of_ne hq, List.prefix_rfl]
  have hgreeted : ∀ {q}, Greeted s q → Greeted (s.readable o p chunk) q := fun hg =>
    hg.mono (hrecv _) (by rw [written_append hps]; exact List.prefix_append ..)
  have habsent : ∀ {q}, q ∉ s.world.players → inbox q ps = [] := fun hq =>
    inbox_eq_nil fun x hx hxq => hq (hxq ▸ hin x hx)
  refine ⟨wf_step h.wf (o, .readable p chunk), ?_, ?_, ?_⟩
  · intro q hq'
    obtain ⟨hq, hok⟩ := (hmem q).mp hq'
    by_cases hqp : q = p
    · subst hqp
      have hok : (calls s q chunk).1 ≠ .err := fun he => hok he rfl
      rcases h.present q hq with hwait | ⟨hopen, hg⟩
      · rcases (hwait.self o chunk h.wf hq).2 with ⟨he, -⟩ | hw' | hdone
        · exact absurd he hok
        · exact .inl hw'
        · exact .inr hdone
      · refine .inr ⟨?_, hgreeted hg⟩
        rw [readable_conn o chunk h.wf hq, update_self, open_stays o chunk hopen]
    · rcases h.present q hq with hwait | ⟨hopen, hg⟩
      · exact .inl (hwait.other h.wf hp hq hqp hquiet).1
      · exact .inr ⟨by rw [readable_conn o chunk h.wf hp, update_of_ne hqp, hopen], hgreeted hg⟩
  · intro q hq
    by_cases hq' : q ∈ s.world.players
    · -- only the reader can have left
      obtain rfl : q = p := by
        by_contra hne
        exact hq ((hmem q).mpr ⟨hq', fun _ => hne⟩)
      rcases h.present q hq' with hwait | ⟨-, hg⟩
      · rcases (hwait.self o chunk h.wf hq').2 with ⟨-, hd⟩ | hw' | ⟨-, hg⟩
        · exact hd
        · exact .inl hw'.written
        · exact .inr hg
      · exact .inr (hgreeted hg)
    · rcases h.gone q hq' with hnil | hg
      · refine .inl ?_
        rw [written_append hps, hnil, habsent hq']
        rfl
      · exact .inr (hgreeted hg)
  · intro q hq
    rw [hnext] at hq
    obtain ⟨hsilent, hr⟩ := h.fresh q hq
    have hq' : q ∉ s.world.players := fun hm => absurd (h.wf.player_lt q hm) (not_lt.mpr hq)
    have hne : q ≠ p := fun he => hq' (he ▸ hp)
    refine ⟨by rw [hps, inbox_append, hsilent, habsent hq', List.append_nil], ?_⟩
    rw [readable_received o chunk h.wf hp, update_of_ne hne, hr]

theorem step (h : Inv s) {l : Label} (hq : Quiet l s) : Inv (step l s) := by
  obtain ⟨o, i⟩ := l
  cases i with
  | accept => exact h.accept
  | readable p chunk => exact h.readable hq

theorem responseOnly (h : Inv s) {l : Label} (hq : Quiet l s) : ResponseOnly l s := by
  intro q hmem hstate k hk
  have hwait := h.waiting hmem hstate
  obtain ⟨o, i⟩ := l
  cases i with
  | accept =>
    rw [sent_eq (l := (o, .accept)) (List.append_nil _).symm] at hk
    cases hk
  | readable p chunk =>
    by_cases hp : p ∈ s.world.players
    · by_cases hqp : q = p
      · subst hqp
        exact (hwait.self o chunk h.wf hmem).1 k hk
      · exact absurd hk ((hwait.other h.wf hp hmem hqp hq).2 k)
    · have hsame : Server.step (o, .readable p chunk) s = s := readable_absent o chunk h.wf hp
      have hwire : (Server.step (o, .readable p chunk) s).world.wire = s.world.wire ++ [] := by
        rw [hsame, List.append_nil]
      rw [sent_eq hwire] at hk
      cases hk

/-- A step that is not quiet writes a room list to somebody in the handshake. -/
theorem quiet_of_responseOnly (h : Inv s) {l : Label} (hr : ResponseOnly l s) : Quiet l s := by
  obtain ⟨o, i⟩ := l
  cases i with
  | accept => trivial
  | readable p chunk =>
    rintro hp ⟨q, hq, hne, hstate⟩
    by_contra hloud
    obtain ⟨codes, hmem⟩ := readable_loud o chunk h.wf hp hq hne
      ((h.waiting hq hstate).roomless h.wf) hloud
    obtain ⟨response, -, hk⟩ := hr q hq hstate _ hmem
    cases hk

end Inv

/-- **The handshake comes first** on every socket, exactly in the runs in which nobody causes a
broadcast while somebody else is in the handshake. -/
theorem handshake_first (ls : List Label) : HandshakeFirst ls ↔ Guarded step Quiet ls .init := by
  refine ⟨?_, ?_⟩
  · rintro ⟨-, hr⟩
    exact hr.of_inv (I := Inv) (fun _ _ hr h => h.step (h.quiet_of_responseOnly hr))
      (fun _ _ hr h => h.quiet_of_responseOnly hr) .init
  · intro hg
    have h : Inv (run step ls .init) := run_inv_guarded (fun _ _ hq h => h.step hq) hg .init
    refine ⟨fun p => ?_, hg.of_inv (I := Inv) (fun _ _ hq h => h.step hq)
      (fun _ _ hq h => h.responseOnly hq) .init⟩
    by_cases hp : p ∈ (run step ls .init).world.players
    · rcases h.present p hp with hwait | ⟨-, hgreet⟩
      · exact .inl hwait.written
      · exact .inr hgreet
    · exact h.gone p hp

/-- A `CREATE` in one masked frame. -/
def createFrame : Bytes := [0x81, 0x86, 0, 0, 0, 0] ++ ascii "CREATE"

/-- Nobody is overtaken by a client that is alone. -/
example : Guarded step Quiet [(.id, .accept), (.id, .readable 0 Ws.plainRequest),
    (.id, .readable 0 createFrame), (.id, .accept)] .init := by
  decide +kernel

/-- A client that creates a room while another has only connected has the room list written to
the other's socket. -/
theorem handshake_overtaken : ¬ ∀ ls : List Label, HandshakeFirst ls := by
  intro h
  have hg := (h [(.id, .accept), (.id, .readable 0 Ws.plainRequest), (.id, .accept),
    (.id, .readable 0 createFrame)]).greeted 1
  rcases hg with hnil | ⟨response, ⟨buf, hbuf, hres, -⟩, -⟩
  · revert hnil
    decide +kernel
  · have hrecv : (run step [(.id, .accept), (.id, .readable 0 Ws.plainRequest), (.id, .accept),
        (.id, .readable 0 createFrame)] State.init).received 1 = [] := by decide +kernel
    rw [hrecv, List.prefix_nil] at hbuf
    subst hbuf
    revert hres
    decide +kernel

end PongPp.Server
