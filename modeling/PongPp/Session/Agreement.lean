import PongPp.Session.Sound

/-!
# What pages and server agree on

With patient users the pages ask for a seat from the lobby only (`pages_disciplined`), so all that
the server guarantees to such clients it guarantees to the pages. Every line comes to a page that
expects it (`page_expects`), a request is on its way until its answer is (`asked_once`), and a page
that has nothing on its way to it shows its player's seat (`page_agrees`).
-/

namespace PongPp.Session

open Function Lib Signaling

/-! ## The server's run -/

section Events

variable {s : System}

theorem world_step (l : Order × Move) (s : System) :
    (step l s).world = run Signaling.step (s.event l).toList s.world := by
  obtain ⟨o, m⟩ := l
  have hmodify : ∀ p f, (s.modify p f).world = s.world := fun p f => by
    unfold System.modify
    split <;> rfl
  cases m with
  | connect | hangup => rfl
  | serve p =>
    cases hup : (s.client p).up with
    | nil => simp [step, System.event, hup]
    | cons x up =>
      simp only [step, System.event, hup, List.head?_cons, Option.map_some, Option.toList_some,
        run_cons, run_nil]
      exact congrArg (Signaling.step (o, .message p (utf8Encode x.2.text))) (hmodify p _)
  | upgrade p =>
    simp only [step, System.event, Option.toList_none, run_nil]
    split
    · exact hmodify p _
    · rfl
  | happen p e =>
    simp only [step, System.event, Option.toList_none, run_nil]
    split
    · exact hmodify p _
    · rfl
  | deliver p => exact hmodify p _
  | lost p => exact hmodify p _

theorem world_run (ls : List (Order × Move)) (s : System) :
    (run step ls s).world = run Signaling.step (events ls s) s.world := by
  refine run_outputs (G := fun _ _ => True) (R := fun s w => s.world = w) ?_
    (Guarded.of_forall (fun _ _ => trivial) ls s) rfl
  rintro l s - - rfl
  exact world_step l s

theorem events_guarded {G : Label → World → Prop} {ls : List (Order × Move)}
    (h : Guarded step (fun l s => ∀ e ∈ s.event l, G e s.world) ls s) :
    Guarded Signaling.step G (events ls s) s.world := by
  induction ls generalizing s with
  | nil => trivial
  | cons l ls ih =>
    obtain ⟨hl, hls⟩ := h
    have hcons : events (l :: ls) s = (s.event l).toList ++ events ls (step l s) := rfl
    rw [hcons, Guarded.append, ← world_step]
    refine ⟨?_, ih hls⟩
    cases he : s.event l with
    | none => trivial
    | some e => exact ⟨hl e he, trivial⟩

end Events

/-- **Pages keep the discipline**: with patient users, what the pages send makes a run of the
server in which a `CREATE` or `JOIN` comes from the lobby only. -/
theorem pages_disciplined (ls : List (Order × Move)) (h : Guarded step Fair ls .init) :
    (run step ls .init).world = run Signaling.step (events ls .init) .init ∧
      Guarded Signaling.step Disciplined (events ls .init) .init := by
  refine ⟨world_run ls .init, events_guarded (s := .init) ?_⟩
  exact h.of_inv (I := Sound) (fun l s hl hs => (hs.step hl).1) (fun l s hl hs => (hs.step hl).2)
    .init

/-- A page hosts a room, and another one, which asked for the list of rooms, joins it. -/
def pairUp : List (Order × Move) :=
  [(.id, .connect), (.id, .upgrade 0), (.id, .deliver 0), (.id, .connect), (.id, .upgrade 1),
    (.id, .deliver 1), (.id, .happen 0 .clickHost), (.id, .serve 0), (.id, .serve 0),
    (.id, .serve 1), (.id, .deliver 1), (.id, .deliver 1), (.id, .happen 1 (.clickRoom 0)),
    (.id, .serve 1), (.id, .deliver 1), (.id, .deliver 0), (.id, .deliver 0), (.id, .deliver 0)]

theorem pages_disciplined_pair :
    (run step pairUp .init).world = run Signaling.step (events pairUp .init) .init ∧
      Guarded Signaling.step Disciplined (events pairUp .init) .init :=
  pages_disciplined pairUp (by decide +kernel)

/-- A user hosts a room, and presses Enter before the answer is there: the handler of the disabled
`JOIN` button is called all the same, and the server gets a `JOIN` from inside a room. -/
theorem pages_impatient : ¬ ∀ ls : List (Order × Move),
    Guarded Signaling.step Disciplined (events ls .init) .init := by
  intro h
  have hd := h [(.id, .connect), (.id, .upgrade 0), (.id, .deliver 0),
    (.id, .happen 0 (.input "1".toList)), (.id, .happen 0 .clickHost), (.id, .happen 0 .enter),
    (.id, .serve 0), (.id, .serve 0), (.id, .serve 0)]
  revert hd
  decide +kernel

/-! ## Lines come as expected -/

/-- The page is one that the next thing is meant for. -/
def Expects (c : Client) : Option RoomId × Item → Prop
  | (_, .response) => False
  | (_, .line (.rooms _)) => c.page.currentScreen = .menu
  | (_, .line (.created _)) => c.page.currentScreen = .menu ∧ c.asked = true
  | (_, .line .readyGuest) => c.page.currentScreen = .menu ∧ c.asked = true
  | (_, .line .readyHost) => c.page.currentScreen = .waiting
  | (room, .line (.relay body)) =>
    c.page.currentScreen = .game ∧ c.page.pc.isSome = true ∧ c.page.wasm.inGame = true ∧
      c.game = room ∧ Utf8 body
  | (_, .line .peerLeft) => c.page.currentScreen = .game
  | (_, .line (.error .joinFailed)) => c.page.currentScreen = .menu ∧ c.asked = true
  | (_, .line (.error .notInRoom)) => c.page.currentScreen = .menu
  | (_, .line (.error .unknownVerb)) => False

theorem Expects.of_next {c : Client} {φ φ' : Phase} (h : c.Shows φ) (hws : c.page.ws = .open)
    {x : Option RoomId × Item} (hx : φ.next x = some φ') : Expects c x := by
  obtain ⟨room, item⟩ := x
  cases φ with
  | connecting => exact absurd (hws.symm.trans h.1.ws) nofun
  | failed => exact h.elim
  | idle | asking =>
    obtain ⟨hb, hasked⟩ := h
    cases item with
    | response => cases hx
    | line msg =>
      cases msg with
      | rooms codes => exact hb.currentScreen
      | error reason =>
        cases reason with
        | notInRoom => exact hb.currentScreen
        | joinFailed => first | exact ⟨hb.currentScreen, hasked⟩ | cases hx
        | unknownVerb => cases hx
      | _ => first | exact ⟨hb.currentScreen, hasked⟩ | cases hx
  | waiting r code =>
    cases item with
    | response => cases hx
    | line msg =>
      cases msg with
      | readyHost => exact h.1.currentScreen
      | _ => cases hx
  | playing r role =>
    obtain ⟨hp, -, hgame⟩ := h
    cases item with
    | response => cases hx
    | line msg =>
      cases msg with
      | relay body =>
        obtain ⟨⟨hroom, hdec⟩, -⟩ := Option.ite_none_right_eq_some.mp hx
        obtain ⟨s, hs⟩ := Option.isSome_iff_exists.mp hdec
        refine ⟨hp.currentScreen, ?_, hp.inGame, hgame.trans hroom.symm, s,
          utf8Decode_eq_some.mp hs⟩
        rw [hp.pc]
        rfl
      | peerLeft => exact hp.currentScreen
      | _ => cases hx

theorem Expects.means {room : Option RoomId} {msg : Msg} (h : Expects c (room, .line msg)) :
    ∃ call, Means msg call := by
  cases msg with
  | rooms codes => exact ⟨_, .rooms codes⟩
  | created code => exact ⟨_, .created code⟩
  | readyHost => exact ⟨_, .readyHost⟩
  | readyGuest => exact ⟨_, .readyGuest⟩
  | relay body =>
    obtain ⟨-, -, -, -, s, rfl⟩ := h
    exact ⟨_, .relay s⟩
  | peerLeft => exact ⟨_, .peerLeft⟩
  | error reason =>
    cases reason with
    | unknownVerb => exact h.elim
    | joinFailed => exact ⟨_, .joinFailed⟩
    | notInRoom => exact ⟨_, .notInRoom⟩

/-- What the next delivery does to a client. -/
inductive Delivers (c : Client) : Client → Prop where
  | nothing : c.down = [] → Delivers c c
  /-- Nothing is heard any more. -/
  | ended : c.page.ws = .closing ∨ c.page.ws = .closed →
      Delivers c { c with down := c.down.tail }
  | opened (room : Option RoomId) (down : List (Option RoomId × Item)) :
      c.down = (room, .response) :: down → c.page.ws = .connecting →
      Delivers c ({ c with down }.happen .wsOpen)
  | failed (x : Option RoomId × Item) (down : List (Option RoomId × Item)) :
      c.down = x :: down → Delivers c { c with down }.fail
  | called (room : Option RoomId) (msg : Msg) (call : Web.Call)
      (down : List (Option RoomId × Item)) : c.down = (room, .line msg) :: down →
      c.page.ws = .open → Expects c (room, .line msg) → Means msg call →
      Delivers c ({ c with down }.hear room msg)

theorem Fits.delivers {w : World} {p : PlayerId} {c : Client} {φ : Phase} (h : Fits w p c φ) :
    Delivers c c.deliver := by
  cases hdown : c.down with
  | nil =>
    have hsame : c.deliver = c := by
      unfold Client.deliver
      rw [hdown]
    rw [hsame]
    exact .nothing hdown
  | cons x down =>
    rcases ws_cases c.page with hws | hws
    · obtain ⟨φ₀, hshows, hafter⟩ := h.view hws
      rw [hdown, Phase.after_cons] at hafter
      obtain ⟨φ₁, hnext, -⟩ := Option.bind_eq_some_iff.mp hafter
      obtain ⟨room, item⟩ := x
      rcases hws with hws | hws
      · cases item with
        | response =>
          have hdel : c.deliver = { c with down }.happen .wsOpen := by
            unfold Client.deliver
            rw [hdown]
            exact if_pos hws
          rw [hdel]
          exact .opened room down hdown hws
        | line msg =>
          have hdel : c.deliver = { c with down }.fail := by
            rw [deliver_line hdown]
            unfold Client.hear
            simp only [hws]
          rw [hdel]
          exact .failed _ down hdown
      · have hexp : Expects c (room, item) := .of_next hshows hws hnext
        cases item with
        | response => exact hexp.elim
        | line msg =>
          obtain ⟨call, hm⟩ := hexp.means
          rw [deliver_line hdown]
          exact .called room msg call down hdown hws hexp hm
    · rw [deliver_ended hws]
      exact .ended hws

/-- What comes next to an open page is meant for it. -/
def Awaited (c : Client) : Prop := c.page.ws = .open → ∀ x ∈ c.down.head?, Expects c x

theorem Sound.open_page {s : System} (h : Sound s) {p : PlayerId}
    (hopen : (s.client p).page.ws = .open) :
    ∃ φ φ₀, Fits s.world p (s.client p) φ ∧ (s.client p).Shows φ₀ ∧
      φ₀.after (s.client p).down = some φ := by
  have hlt : p < s.world.nextPlayer := by
    by_contra hge
    rw [h.unborn p (not_lt.mp hge)] at hopen
    cases hopen
  obtain ⟨φ, hφ⟩ := h.fits p hlt
  obtain ⟨φ₀, hshows, hafter⟩ := hφ.view (.inr hopen)
  exact ⟨φ, φ₀, hφ, hshows, hafter⟩

theorem Sound.awaited {s : System} (h : Sound s) (p : PlayerId) : Awaited (s.client p) := by
  intro hopen x hx
  obtain ⟨φ, φ₀, -, hshows, hafter⟩ := h.open_page hopen
  cases hdown : (s.client p).down with
  | nil =>
    rw [hdown] at hx
    cases hx
  | cons y down =>
    rw [hdown] at hx hafter
    cases hx
    obtain ⟨φ₁, hnext, -⟩ := Option.bind_eq_some_iff.mp ((Phase.after_cons ..).symm.trans hafter)
    exact .of_next hshows hopen hnext

/-- **Nothing comes unexpected**: in every run with patient users, what comes next to an open page
is meant for the screen it shows. -/
theorem page_expects (ls : List (Order × Move)) (h : Guarded step Fair ls .init) (p : PlayerId) :
    Awaited ((run step ls .init).client p) := (Sound.run h).awaited p

/-- The host is to be told that somebody has joined. -/
theorem page_expects_pair : Awaited ((run step (pairUp.take 16) .init).client 0) :=
  page_expects (pairUp.take 16) (by decide +kernel) 0

/-! ## Requests and answers -/

/-- What answers a `CREATE` or `JOIN`. -/
def Item.isReply : Item → Bool
  | .line (.created _) | .line .readyGuest | .line (.error .joinFailed) => true
  | _ => false

def Client.requests (c : Client) : Nat := c.up.countP fun x => x.2.isRequest

def Client.replies (c : Client) : Nat := c.down.countP fun x => x.2.isReply

/-- Answers that are to come. -/
def Phase.owed : Phase → Nat
  | .asking => 1
  | _ => 0

/-- The connection has been made. -/
def Phase.Made (φ : Phase) : Prop := φ ≠ .connecting ∧ φ ≠ .failed

theorem Phase.owed_next {φ φ' : Phase} (hφ : φ.Made) {x : Option RoomId × Item}
    (hx : φ.next x = some φ') : φ'.Made ∧ x.2.isReply.toNat + φ'.owed = φ.owed := by
  obtain ⟨room, item⟩ := x
  cases φ with
  | connecting => exact absurd rfl hφ.1
  | failed => exact absurd rfl hφ.2
  | idle | asking =>
    cases item with
    | response => cases hx
    | line msg =>
      cases msg with
      | error reason => cases reason <;> cases hx <;> exact ⟨⟨nofun, nofun⟩, rfl⟩
      | created | readyGuest => cases room <;> cases hx <;> exact ⟨⟨nofun, nofun⟩, rfl⟩
      | _ => cases hx <;> exact ⟨⟨nofun, nofun⟩, rfl⟩
  | waiting r code =>
    cases item with
    | response => cases hx
    | line msg =>
      cases msg with
      | readyHost =>
        obtain ⟨-, heq⟩ := Option.ite_none_right_eq_some.mp hx
        cases heq
        exact ⟨⟨nofun, nofun⟩, rfl⟩
      | _ => cases hx
  | playing r role =>
    cases item with
    | response => cases hx
    | line msg =>
      cases msg with
      | relay body =>
        obtain ⟨-, heq⟩ := Option.ite_none_right_eq_some.mp hx
        cases heq
        exact ⟨⟨nofun, nofun⟩, rfl⟩
      | peerLeft =>
        cases hx
        exact ⟨⟨nofun, nofun⟩, rfl⟩
      | _ => cases hx

theorem Phase.owed_after {φ φ' : Phase} {xs : List (Option RoomId × Item)} (hφ : φ.Made)
    (h : φ.after xs = some φ') : xs.countP (fun x => x.2.isReply) + φ'.owed = φ.owed := by
  induction xs generalizing φ with
  | nil =>
    cases h
    exact Nat.zero_add _
  | cons x xs ih =>
    obtain ⟨φ₁, hnext, hafter⟩ := Option.bind_eq_some_iff.mp ((after_cons ..).symm.trans h)
    obtain ⟨hmade, howed⟩ := owed_next hφ hnext
    have hrest := ih hmade hafter
    rw [List.countP_cons]
    cases hr : x.2.isReply <;> simp [hr] at howed ⊢ <;> omega

theorem Client.Shows.made {c : Client} {φ : Phase} (h : c.Shows φ) (hws : c.page.ws = .open) :
    φ.Made ∧ φ.owed = c.asked.toNat := by
  cases φ with
  | connecting => exact absurd (hws.symm.trans h.1.ws) nofun
  | failed => exact h.elim
  | idle | asking => exact ⟨⟨nofun, nofun⟩, by rw [h.2]; rfl⟩
  | waiting | playing => exact ⟨⟨nofun, nofun⟩, by rw [h.2.1]; rfl⟩

theorem Admits.requests {c : Client} {φ : Phase} (h : Admits c φ) : c.requests = φ.owed := by
  have quiet : ∀ {xs : List (Option RoomId × Web.Line)}, (∀ x ∈ xs, Quiet x.2) →
      xs.countP (fun x => x.2.isRequest) = 0 := fun hxs => by
    refine List.countP_eq_zero.mpr fun x hx => ?_
    rcases hxs x hx with hl | ⟨body, hl, -⟩ <;> rw [hl] <;> exact nofun
  unfold Client.requests
  cases φ with
  | connecting => rw [h.1]; rfl
  | failed => rw [show c.up = [] from h]; rfl
  | idle => exact quiet h.2
  | asking =>
    obtain ⟨-, xs, x, hup, hxs, hx⟩ := h
    rw [hup, List.countP_append, quiet hxs]
    simp [hx, Phase.owed]
  | waiting => rw [h.2]; rfl
  | playing r role =>
    refine quiet fun x hx => ?_
    obtain ⟨-, body, hbody, hend⟩ := h.2 x hx
    exact .inr ⟨body, hbody, hend⟩

/-- **One answer for one request**: with patient users, a connected page that waits for an answer
has one request on its way to the server or one answer on its way back, and a page that waits for
none has neither. -/
theorem asked_once (ls : List (Order × Move)) (h : Guarded step Fair ls .init) (p : PlayerId)
    (hp : p ∈ (run step ls .init).world.players)
    (hopen : ((run step ls .init).client p).page.ws = .open) :
    ((run step ls .init).client p).requests + ((run step ls .init).client p).replies =
      ((run step ls .init).client p).asked.toNat := by
  obtain ⟨φ, φ₀, hφ, hshows, hafter⟩ := (Sound.run h).open_page hopen
  obtain ⟨hmade, howed⟩ := hshows.made hopen
  rw [← howed, ← Phase.owed_after hmade hafter, (hφ.seat hp).2.requests, Nat.add_comm]
  rfl

/-- The guest's `JOIN` has been handled. -/
theorem asked_once_pair :
    ((run step (pairUp.take 14) .init).client 1).requests +
        ((run step (pairUp.take 14) .init).client 1).replies =
      ((run step (pairUp.take 14) .init).client 1).asked.toNat :=
  asked_once (pairUp.take 14) (by decide +kernel) 1 (by decide +kernel) (by decide +kernel)

/-! ## A page that has caught up -/

/-- The page shows where the server has its player. -/
inductive Agrees (w : World) (p : PlayerId) (page : Web.Page) : Prop where
  | lobby : w.roomOf p = none → Bare page .open .menu → Agrees w p page
  /-- The code that is shown is the room's. -/
  | waiting (r : RoomId) : w.roomOf p = some r → (w.room r).host = some p → w.peerOf p = none →
      Bare page .open .waiting → page.waitingCode = decimal (w.room r).code → Agrees w p page
  | host (r : RoomId) (q : PlayerId) : w.roomOf p = some r → (w.room r).host = some p →
      w.peerOf p = some q → Plays page .host → Agrees w p page
  | guest (r : RoomId) (q : PlayerId) : w.roomOf p = some r → (w.room r).guest = some p →
      w.peerOf p = some q → Plays page .guest → Agrees w p page

theorem Agrees.of_shows {w : World} (hw : Orderly w) {p : PlayerId} {c : Client} {φ : Phase}
    (hseat : Seat w p φ) (hshows : c.Shows φ) (hopen : c.page.ws = .open) :
    Agrees w p c.page := by
  cases φ with
  | connecting => exact absurd (hopen.symm.trans hshows.1.ws) nofun
  | failed => exact hshows.elim
  | idle | asking => exact .lobby hseat hshows.1
  | waiting r code =>
    obtain ⟨hb, -, hcode⟩ := hshows
    obtain ⟨hr, hhost, hguest, rfl⟩ := hseat
    refine .waiting r hr hhost ?_ hb hcode
    cases hpeer : w.peerOf p with
    | none => rfl
    | some q =>
      have hseat : Seat w p (.waiting r (w.room r).code) := ⟨hr, hhost, hguest, rfl⟩
      obtain ⟨role, hrole⟩ := hseat.playing hw hpeer hr
      cases hrole
  | playing r role =>
    obtain ⟨hr, q, -, hpeer, -⟩ := hseat.peer hw
    cases role with
    | host => exact .host r q hr hseat.2.1 hpeer hshows.1
    | guest => exact .guest r q hr hseat.2 hpeer hshows.1

/-- **Pages and server agree**: with patient users, a connected page that has nothing on its way
to it shows its player's seat, with the peer connection and the engine of that seat. -/
theorem page_agrees (ls : List (Order × Move)) (h : Guarded step Fair ls .init) (p : PlayerId)
    (hp : p ∈ (run step ls .init).world.players)
    (hopen : ((run step ls .init).client p).page.ws = .open)
    (hdown : ((run step ls .init).client p).down = []) :
    Agrees (run step ls .init).world p ((run step ls .init).client p).page := by
  have hs := Sound.run h
  obtain ⟨φ, φ₀, hφ, hshows, hafter⟩ := hs.open_page hopen
  rw [hdown, Phase.after_nil] at hafter
  cases hafter
  exact .of_shows hs.orderly (hφ.seat hp).1 hshows hopen

/-- The guest's page when all has arrived. -/
theorem page_agrees_pair :
    Agrees (run step pairUp .init).world 1 ((run step pairUp .init).client 1).page :=
  page_agrees pairUp (by decide +kernel) 1 (by decide +kernel) (by decide +kernel)
    (by decide +kernel)

end PongPp.Session
