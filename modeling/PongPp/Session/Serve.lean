import PongPp.Session.Phase

/-!
# The server handles a line

What the next line of a page does to the page's own player: its phase after the event is where the
lines it is written take it (`serve_self`), and the line is a `CREATE` or `JOIN` only in the lobby.
-/

namespace PongPp.Session

open Function Lib Signaling

/-! ## What a line says -/

theorem verb_list : parseVerb (utf8Encode Web.Line.list.text) = .list := by
  have h : utf8Encode Web.Line.list.text = ascii "LIST" := utf8Encode_ascii (by decide)
  rw [h]
  decide

theorem verb_create : parseVerb (utf8Encode Web.Line.create.text) = .create := by
  have h : utf8Encode Web.Line.create.text = ascii "CREATE" := utf8Encode_ascii (by decide)
  rw [h]
  decide

theorem verb_join (code : Web.Str) :
    ∃ body, parseVerb (utf8Encode (Web.Line.join code).text) = .join body := by
  have hverb : utf8Encode "JOIN ".toList = ascii "JOIN " := utf8Encode_ascii (by decide)
  refine ⟨line (utf8Encode code), parseVerb_join ?_⟩
  show line (utf8Encode ("JOIN ".toList ++ code)) = _
  rw [utf8Encode_append, hverb]
  have hstop : (ascii "JOIN ").reverse.dropWhile isNewline = (ascii "JOIN ").reverse := by decide
  unfold line List.rdropWhile
  rw [List.reverse_append, List.dropWhile_append, hstop]
  split
  · rename_i hnil
    rw [List.isEmpty_iff.mp hnil, List.reverse_nil, List.append_nil, List.reverse_reverse]
  · rw [List.reverse_append, List.reverse_reverse]

theorem verb_relay {body : Web.Str} (h : Server.Endable body) :
    parseVerb (utf8Encode (Web.Line.relay body).text) = .relay (utf8Encode body) :=
  parseVerb_relay.mpr (Server.relayBody_relay h)

/-! ## The answers -/

theorem Effect.sent_eq {w w' : World} (hw : Wf w) {l : Label} {ps : List (PlayerId × Packet)}
    (he : Effect w l.1 l.2 w' ps) : sent l w = ps := by
  rw [sent, he.step_eq hw, World.emit_wire, he.wire_eq, List.drop_left]

/-- A player that is written `ps` gets to a phase that goes with where it is then and with the
lines that it has left. -/
def Leaves (w : World) (p : PlayerId) (ps : List Packet) (φ : Phase) (c : Client) : Prop :=
  ∃ φ', Seat w p φ' ∧ φ.after (itemsOf (w.roomOf p) ps) = some φ' ∧ Admits c φ'

theorem Leaves.emit {w : World} {p : PlayerId} {ps : List Packet} {φ : Phase} {c : Client}
    (h : Leaves w p ps φ c) (xs : List (PlayerId × Packet)) : Leaves (w.emit xs) p ps φ c := by
  obtain ⟨φ', hseat, hafter, hadmits⟩ := h
  exact ⟨φ', hseat.congr rfl fun _ _ => rfl, hafter, hadmits⟩

section Serve

variable {w w' : World} {o : Order} {p : PlayerId} {φ : Phase} {c : Client}

theorem Leaves.of_effect (hw : Wf w) {l : Label} {ps : List (PlayerId × Packet)}
    (he : Effect w l.1 l.2 w' ps) (h : Leaves w' p (inbox p ps) φ c) :
    Leaves (Signaling.step l w) p (inbox p (sent l w)) φ c := by
  rw [Effect.sent_eq hw he, he.step_eq hw]
  exact h.emit ps

/-- A line of somebody in the lobby that asks for no seat. -/
theorem serve_quiet (hw : Wf w) (hp : p ∈ w.players) (hr : w.roomOf p = none)
    (hφ : φ = .idle ∨ φ = .asking) {line : Web.Line} (hline : Quiet line) (hadm : Admits c φ) :
    Leaves (Signaling.step (o, .message p (utf8Encode line.text)) w) p
      (inbox p (sent (o, .message p (utf8Encode line.text)) w)) φ c := by
  have hseat : Seat w p φ := by rcases hφ with rfl | rfl <;> exact hr
  rcases hline with rfl | ⟨body, rfl, hend⟩
  · have he : Effect w o (.message p _) _ _ := .list p _ hp verb_list
    refine Leaves.of_effect (l := (o, .message p _)) hw he ⟨φ, hseat, ?_, hadm⟩
    rcases hφ with rfl | rfl <;> simp [World.roomsLine, Phase.after_cons, Phase.next]
  · have he : Effect w o (.message p _) _ _ :=
      .relayFailed p _ _ hp (verb_relay hend) (World.peerOf_roomless hr)
    refine Leaves.of_effect (l := (o, .message p _)) hw he ⟨φ, hseat, ?_, hadm⟩
    rcases hφ with rfl | rfl <;> simp [Phase.after_cons, Phase.next]

theorem serve_create (hw : Orderly w) (hp : p ∈ w.players) (hc : c.upgraded = true ∧ c.up = []) :
    Leaves (Signaling.step (o, .message p (utf8Encode Web.Line.create.text)) w) p
      (inbox p (sent (o, .message p (utf8Encode Web.Line.create.text)) w)) .asking c := by
  have he : Effect w o (.message p _) _ _ := .create p _ hp verb_create
  have hw' : Wf (w.hosted p) := hw.wf.hosted hp
  have hroom : (w.hosted p).roomOf p = some w.nextRoom := by rw [World.hosted_roomOf, if_pos rfl]
  refine Leaves.of_effect (l := (o, .message p _)) hw.wf he
    ⟨.waiting w.nextRoom w.nextCode, ?_, ?_, hc⟩
  · rw [Seat, World.hosted_room_new]
    exact ⟨hroom, rfl, rfl, rfl⟩
  · rw [inbox_append, inbox_roomList hw'.nodup, hroom]
    simp [Phase.after_cons, Phase.next]

theorem serve_join (hw : Orderly w) (hp : p ∈ w.players) (hr : w.roomOf p = none) (code : Web.Str)
    (hc : c.upgraded = true ∧ c.up = []) :
    Leaves (Signaling.step (o, .message p (utf8Encode (Web.Line.join code).text)) w) p
      (inbox p (sent (o, .message p (utf8Encode (Web.Line.join code).text)) w)) .asking c := by
  obtain ⟨body, hverb⟩ := verb_join code
  by_cases hj : ∃ r, w.Joinable (parseCode body) r
  · obtain ⟨r, hj⟩ := hj
    have he : Effect w o (.message p _) _ _ := .join p _ body r hp hverb hj
    have hw' : Wf (w.guested p r) := hw.wf.guested hp hj
    have hroom : (w.guested p r).roomOf p = some r := by rw [World.guested_roomOf, if_pos rfl]
    have hready : inbox p (w.readies p r) = [.text .readyGuest] := by
      unfold World.readies
      cases hlock : (w.lock (w.room r).host).filter (· ≠ p) with
      | none => simp
      | some h =>
        have hne : h ≠ p := by simpa using (Option.filter_eq_some_iff.mp hlock).2
        simp [hne.symm]
    refine Leaves.of_effect (l := (o, .message p _)) hw.wf he ⟨.playing r .guest, ?_, ?_, hc.1, ?_⟩
    · exact ⟨hroom, by rw [World.guested_guest, if_pos rfl]⟩
    · rw [inbox_append, inbox_roomList hw'.nodup, hroom, hready]
      simp [Phase.after_cons, Phase.next]
    · rw [hc.2]
      exact fun x hx => absurd hx List.not_mem_nil
  · have he : Effect w o (.message p _) _ _ := .joinFailed p _ body hp hverb (not_exists.mp hj)
    refine Leaves.of_effect (l := (o, .message p _)) hw.wf he ⟨.idle, hr, ?_, hc.1, ?_⟩
    · simp [Phase.after_cons, Phase.next]
    · rw [hc.2]
      exact fun x hx => absurd hx List.not_mem_nil

theorem Seat.peer {r : RoomId} {role : Web.Role} (h : Seat w p (.playing r role)) (hw : Orderly w) :
    w.roomOf p = some r ∧ ∃ q, q ≠ p ∧ w.peerOf p = some q ∧ w.roomOf q = some r := by
  cases role with
  | host =>
    obtain ⟨hr, hhost, hguest⟩ := h
    obtain ⟨g, hg⟩ := Option.ne_none_iff_exists'.mp hguest
    have hgr := hw.tidy r (.inr ⟨p, hr⟩) g (.inr hg)
    have hne : g ≠ p := fun h => hw.apart r (.inr ⟨p, hr⟩) p hhost (h ▸ hg)
    exact ⟨hr, g, hne, hw.wf.peerOf_eq hr hgr hne, hgr⟩
  | guest =>
    obtain ⟨hr, hg⟩ := h
    obtain ⟨x, hx⟩ := hw.wf.has_host r (hw.wf.room_lt p r hr)
    have hxr := hw.tidy r (.inr ⟨p, hr⟩) x (.inl hx)
    have hne : x ≠ p := fun h => hw.apart r (.inr ⟨p, hr⟩) p (h ▸ hx) hg
    exact ⟨hr, x, hne, hw.wf.peerOf_eq hr hxr hne, hxr⟩

theorem serve_relay (hw : Orderly w) (hp : p ∈ w.players) {r : RoomId} {role : Web.Role}
    (h : Seat w p (.playing r role)) {body : Web.Str} (hend : Server.Endable body)
    (hadm : Admits c (.playing r role)) :
    Leaves (Signaling.step (o, .message p (utf8Encode (Web.Line.relay body).text)) w) p
      (inbox p (sent (o, .message p (utf8Encode (Web.Line.relay body).text)) w)) (.playing r role)
      c := by
  obtain ⟨-, q, hqp, hpeer, -⟩ := h.peer hw
  have he : Effect w o (.message p _) _ _ := .relay p _ _ q hp (verb_relay hend) hpeer
  refine Leaves.of_effect (l := (o, .message p _)) hw.wf he ⟨_, h, ?_, hadm⟩
  simp [hqp.symm]

/-- **The next line** of a page takes its player where the answer takes the page, and asks for a
seat only in the lobby. -/
theorem serve_self (hw : Orderly w) (hp : p ∈ w.players) (h : Seat w p φ)
    {x : Option RoomId × Web.Line} {up : List (Option RoomId × Web.Line)} (hup : c.up = x :: up)
    (hadm : Admits c φ) :
    Disciplined (o, .message p (utf8Encode x.2.text)) w ∧
      Leaves (Signaling.step (o, .message p (utf8Encode x.2.text)) w) p
        (inbox p (sent (o, .message p (utf8Encode x.2.text)) w)) φ { c with up } := by
  have hlobby : w.roomOf p = none → Disciplined (o, .message p (utf8Encode x.2.text)) w :=
    fun hr _ _ => hr
  cases φ with
  | connecting => exact absurd (hadm.1.symm.trans hup) nofun
  | failed => exact absurd (hadm.symm.trans hup) nofun
  | waiting => exact absurd (hadm.2.symm.trans hup) nofun
  | idle =>
    obtain ⟨hupgraded, hquiet⟩ := hadm
    rw [hup] at hquiet
    obtain ⟨hx, hrest⟩ := List.forall_mem_cons.mp hquiet
    exact ⟨hlobby h, serve_quiet hw.wf hp h (.inl rfl) hx ⟨hupgraded, hrest⟩⟩
  | asking =>
    obtain ⟨hupgraded, xs, y, hxs, hquiet, hreq⟩ := hadm
    refine ⟨hlobby h, ?_⟩
    rw [hup] at hxs
    cases xs with
    | nil =>
      obtain ⟨rfl, rfl⟩ := List.cons.inj hxs
      obtain ⟨tag, line⟩ := x
      cases line with
      | create => exact serve_create hw hp ⟨hupgraded, rfl⟩
      | join code => exact serve_join hw hp h code ⟨hupgraded, rfl⟩
      | list | relay => cases hreq
    | cons x' xs =>
      obtain ⟨rfl, rfl⟩ := List.cons.inj hxs
      obtain ⟨hx, hrest⟩ := List.forall_mem_cons.mp hquiet
      exact serve_quiet hw.wf hp h (.inr rfl) hx ⟨hupgraded, xs, y, rfl, hrest, hreq⟩
  | playing r role =>
    obtain ⟨hupgraded, hrelay⟩ := hadm
    rw [hup] at hrelay
    obtain ⟨⟨-, body, hbody, hend⟩, hrest⟩ := List.forall_mem_cons.mp hrelay
    rw [hbody]
    refine ⟨fun _ hseats => ?_, serve_relay hw hp h hend ⟨hupgraded, hrest⟩⟩
    rw [verb_relay hend] at hseats
    cases hseats

end Serve

end PongPp.Session
