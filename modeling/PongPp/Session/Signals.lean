import PongPp.Session.Rooms
import PongPp.Signaling.Games

/-!
# What two pages tell each other

The peer connection of a game is set up through `RELAY`. Whatever the rest of the world does, a
page hears in a game what the other page of that game has said in it, in the same order
(`game_in_order`), and all of it once nothing is on the way (`game_whole`).
-/

namespace PongPp.Session

open Function Lib Signaling

/-! ## What is said and heard in a game -/

def inGame (r : RoomId) (xs : List (RoomId × Web.Str)) : List Web.Str :=
  xs.filterMap fun x => if x.1 = r then some x.2 else none

/-- A line that was relayed in `r`. -/
def relayedUp (r : RoomId) : Option RoomId × Web.Line → Option Web.Str
  | (room, .relay body) => if room = some r then some body else none
  | _ => none

def relayedDown (r : RoomId) : Option RoomId × Item → Option Web.Str
  | (room, .line (.relay body)) => if room = some r then utf8Decode body else none
  | _ => none

namespace Client

variable (c : Client) (r : RoomId)

def saidIn : List Web.Str := inGame r c.said

def heardIn : List Web.Str := inGame r c.heard

/-- What is on its way from the page. -/
def upIn : List Web.Str := c.up.filterMap (relayedUp r)

/-- What is on its way to the page. -/
def downIn : List Web.Str := c.down.filterMap (relayedDown r)

/-- The page listens, or is going to. -/
def Live : Prop := c.page.ws = .connecting ∨ c.page.ws = .open

instance : Decidable c.Live := inferInstanceAs (Decidable (_ ∨ _))

/-- What the page has heard and is going to hear. -/
def gets : List Web.Str := c.heardIn r ++ if c.Live then c.downIn r else []

end Client

/-- What a page does by itself, or when something arrives: it hears what was on its way, and what
it says goes on its way. -/
structure Keeps (c c' : Client) : Prop where
  live : c'.Live → c.Live
  gets : ∀ r, c'.gets r <+: c.gets r
  all : c'.Live → ∀ r, c'.gets r = c.gets r
  speaks : ∀ r, ∃ bodies, c'.upIn r = c.upIn r ++ bodies ∧ c'.saidIn r = c.saidIn r ++ bodies

namespace Keeps

variable {c c' c'' : Client}

theorem refl (c : Client) : Keeps c c :=
  ⟨id, fun _ => List.prefix_rfl, fun _ _ => rfl,
    fun _ => ⟨[], (List.append_nil _).symm, (List.append_nil _).symm⟩⟩

theorem trans (h : Keeps c c') (h' : Keeps c' c'') : Keeps c c'' := by
  refine ⟨fun hl => h.live (h'.live hl), fun r => (h'.gets r).trans (h.gets r),
    fun hl r => (h'.all hl r).trans (h.all (h'.live hl) r), fun r => ?_⟩
  obtain ⟨bs, hup, hsaid⟩ := h.speaks r
  obtain ⟨bs', hup', hsaid'⟩ := h'.speaks r
  exact ⟨bs ++ bs', by rw [hup', hup, List.append_assoc], by rw [hsaid', hsaid, List.append_assoc]⟩

theorem of_down (hlive : c'.Live → c.Live) (hheard : c'.heard = c.heard)
    (hdown : ∀ r, c'.downIn r = c.downIn r)
    (hspeaks : ∀ r, ∃ bodies, c'.upIn r = c.upIn r ++ bodies ∧ c'.saidIn r = c.saidIn r ++ bodies) :
    Keeps c c' := by
  have hheardIn : ∀ r, c'.heardIn r = c.heardIn r := fun r => congrArg (inGame r) hheard
  have hall : c'.Live → ∀ r, c'.gets r = c.gets r := fun hl r => by
    rw [Client.gets, Client.gets, if_pos hl, if_pos (hlive hl), hheardIn, hdown]
  refine ⟨hlive, fun r => ?_, hall, hspeaks⟩
  by_cases hl : c'.Live
  · rw [hall hl r]
  · rw [Client.gets, if_neg hl, List.append_nil, hheardIn]
    exact List.prefix_append _ _

theorem of_dead (hdead : ¬ c'.Live) (hheard : c'.heard = c.heard)
    (hspeaks : ∀ r, ∃ bodies, c'.upIn r = c.upIn r ++ bodies ∧ c'.saidIn r = c.saidIn r ++ bodies) :
    Keeps c c' := by
  refine ⟨fun h => absurd h hdead, fun r => ?_, fun h => absurd h hdead, hspeaks⟩
  rw [Client.gets, if_neg hdead, List.append_nil, Client.heardIn, hheard]
  exact List.prefix_append _ _

theorem happen_speaks (c : Client) (e : Web.Event) (r : RoomId) :
    ∃ bodies, (c.happen e).upIn r = c.upIn r ++ bodies ∧
      (c.happen e).saidIn r = c.saidIn r ++ bodies := by
  generalize hl : Web.linesOf (c.page.step e).2 = lines
  rw [happen_eq hl]
  refine ⟨lines.filterMap fun line => relayedUp r (c.game, line), ?_, ?_⟩
  · simp [Client.upIn, List.filterMap_append, List.filterMap_map]
  · simp only [Client.saidIn, inGame, List.filterMap_append, List.filterMap_filterMap]
    refine congrArg _ (List.filterMap_congr fun line _ => ?_)
    cases line with
    | relay body =>
      cases hgame : c.game with
      | none => simp [relayedUp]
      | some s => simp [relayedUp]
    | _ => rfl

theorem happen (e : Web.Event) (hlive : (c.happen e).Live → c.Live) : Keeps c (c.happen e) :=
  of_down hlive rfl (fun _ => rfl) (happen_speaks c e)

theorem local_happen {e : Web.Event} (he : e.isLocal = true) : Keeps c (c.happen e) := by
  refine happen e fun hlive => ?_
  rcases c.page.step_local he with hcore | ⟨-, rfl, hstep⟩
  · exact hlive.imp hcore.ws.symm.trans hcore.ws.symm.trans
  · by_contra hdead
    have hconn : ¬ (c.page.ws = .connecting ∨ c.page.ws = .open) := hdead
    have hws : (c.happen .clickCancel).page.ws = c.page.ws := by
      show (c.page.step .clickCancel).1.ws = _
      rw [hstep, Web.Page.clickCancel_ws, if_neg hconn]
    exact hdead (hlive.imp hws.symm.trans hws.symm.trans)

theorem lost (c : Client) : Keeps c (c.happen .wsClose) := by
  refine happen _ fun hlive => ?_
  rcases hlive with h | h <;> exact absurd ((lost_eq c).1.symm.trans h) nofun

theorem fail_speaks (c : Client) (r : RoomId) :
    ∃ bodies, c.fail.upIn r = c.upIn r ++ bodies ∧ c.fail.saidIn r = c.saidIn r ++ bodies := by
  obtain ⟨bs, hup, hsaid⟩ := happen_speaks c .wsError r
  obtain ⟨bs', hup', hsaid'⟩ := happen_speaks (c.happen .wsError) .wsClose r
  refine ⟨bs ++ bs', ?_, ?_⟩
  · rw [← List.append_assoc, ← hup]
    exact hup'
  · rw [← List.append_assoc, ← hsaid]
    exact hsaid'

theorem upgrade (c : Client) : Keeps c c.upgrade := by
  unfold Client.upgrade
  split
  · exact refl c
  · refine of_down id rfl (fun r => ?_) fun r => ⟨[], ?_, ?_⟩
    · simp [Client.downIn, List.filterMap_append, relayedDown]
    · exact (List.append_nil _).symm
    · exact (List.append_nil _).symm

/-- A line is heard as it comes. -/
theorem hear {room : Option RoomId} {msg : Msg} {call : Web.Call}
    {down : List (Option RoomId × Item)} (hdown : c.down = (room, .line msg) :: down)
    (hws : c.page.ws = .open) (h : Expects c (room, .line msg)) (hm : Means msg call) :
    Keeps c ({ c with down }.hear room msg) := by
  rw [hear_eq (c := { c with down }) hws hm]
  have hlive : c.Live := .inr hws
  have hgets : ∀ r, inGame r (c.note room call).heard ++ down.filterMap (relayedDown r) =
      c.gets r := fun r => by
    rw [Client.gets, if_pos hlive, Client.downIn, hdown, List.filterMap_cons]
    cases hm with
    | relay s =>
      obtain ⟨-, hpc, -, hgame, -⟩ := h
      simp only [Client.note, hpc, if_true, hgame, relayedDown, utf8Decode_encode]
      cases room with
      | none => simp [Client.heardIn]
      | some s => by_cases hrs : s = r <;> simp [Client.heardIn, inGame, hrs]
    | _ => rfl
  refine ⟨fun _ => hlive, fun r => ?_, fun hl r => ?_, fun r => ⟨[], ?_, (List.append_nil _).symm⟩⟩
  · rw [← hgets r, Client.gets]
    split
    · exact List.prefix_rfl
    · rw [List.append_nil]
      exact List.prefix_append _ _
  · rw [← hgets r, Client.gets, if_pos hl]
    rfl
  · simp only [Client.upIn, List.filterMap_append]
    rcases linesOf_onCall c.page call with hl | hl <;> simp [hl, relayedUp]

theorem deliver (h : Delivers c c') : Keeps c c' := by
  have same : ∀ r, ∃ bodies, c.upIn r = c.upIn r ++ bodies ∧ c.saidIn r = c.saidIn r ++ bodies :=
    fun r => ⟨[], (List.append_nil _).symm, (List.append_nil _).symm⟩
  cases h with
  | nothing => exact refl c
  | ended hws =>
    refine of_dead (fun hlive => ?_) rfl same
    rcases hws with h | h <;> rcases hlive with h' | h' <;> exact absurd (h.symm.trans h') nofun
  | opened room down hdown hws =>
    have hdrop : Keeps c { c with down } := by
      refine of_down id rfl (fun r => ?_) same
      rw [Client.downIn, Client.downIn, hdown]
      rfl
    exact hdrop.trans (happen _ fun _ => .inl hws)
  | failed x down hdown =>
    refine of_dead (fun hlive => ?_) rfl (fail_speaks { c with down })
    rcases hlive with h | h <;> exact absurd ((fail_eq _).1.symm.trans h) nofun
  | called room msg call down hdown hws hexp hm => exact hear hdown hws hexp hm

end Keeps

/-! ## From one page to the other -/

/-- What `p` gets in `r` is what `q` has said there, up to what is on its way to the server. -/
structure Relays (w : World) (r : RoomId) (p q : PlayerId) (cp cq : Client) : Prop where
  order : cp.gets r <+: cq.saidIn r
  whole : cp.Live → w.roomOf p = some r → w.roomOf q = some r →
    cp.gets r ++ cq.upIn r = cq.saidIn r

namespace Relays

variable {w w' : World} {l : Label} {r : RoomId} {p q : PlayerId} {cp cp' cq cq' : Client}

theorem keeps (h : Relays w r p q cp cq) (hp : Keeps cp cp') (hq : Keeps cq cq') :
    Relays w r p q cp' cq' := by
  obtain ⟨bodies, hup, hsaid⟩ := hq.speaks r
  refine ⟨?_, fun hlive hpr hqr => ?_⟩
  · rw [hsaid]
    exact ((hp.gets r).trans h.order).trans (List.prefix_append _ _)
  · rw [hp.all hlive r, hup, hsaid, ← List.append_assoc, h.whole (hp.live hlive) hpr hqr]

theorem quiet (hw : Orderly w) (hopp : Opposite w r p q) (h : Relays w r p q cp cq)
    (hlive : cp'.Live → cp.Live) (hgets : cp'.gets r = cp.gets r)
    (hsaid : cq'.saidIn r = cq.saidIn r)
    (hup : w.roomOf p = some r → w.roomOf q = some r → cq'.upIn r = cq.upIn r) :
    Relays (Signaling.step l w) r p q cp' cq' := by
  refine ⟨by rw [hgets, hsaid]; exact h.order, fun hl hp hq => ?_⟩
  replace hp := hopp.back hw hp
  replace hq := hopp.back hw hq
  rw [hgets, hsaid, hup hp hq, h.whole (hlive hl) hp hq]

theorem relayed {body : Web.Str} (h : Relays w r p q cp cq) (hp : w.roomOf p = some r)
    (hq : w.roomOf q = some r) (hlive : cp'.Live ↔ cp.Live)
    (hgets : cp'.gets r = cp.gets r ++ if cp.Live then [body] else [])
    (hsaid : cq'.saidIn r = cq.saidIn r) (hup : cq.upIn r = body :: cq'.upIn r) :
    Relays w' r p q cp' cq' := by
  have whole : cp.Live → cp'.gets r ++ cq'.upIn r = cq'.saidIn r := fun hl => by
    rw [hgets, if_pos hl, hsaid, List.append_assoc, List.singleton_append, ← hup]
    exact h.whole hl hp hq
  refine ⟨?_, fun hl _ _ => whole (hlive.mp hl)⟩
  by_cases hl : cp.Live
  · rw [← whole hl]
    exact List.prefix_append _ _
  · rw [hgets, if_neg hl, List.append_nil, hsaid]
    exact h.order

end Relays

/-- What a list of packets relays in `r`. -/
def relaysIn (r : RoomId) (room : Option RoomId) (ps : List Packet) : List Web.Str :=
  (itemsOf room ps).filterMap (relayedDown r)

section Receive

variable {c : Client} {r : RoomId} {room : Option RoomId} {ps : List Packet}

theorem gets_receive (c : Client) (r : RoomId) (room : Option RoomId) (ps : List Packet) :
    (c.receive room ps).gets r = c.gets r ++ if c.Live then relaysIn r room ps else [] := by
  show c.heardIn r ++
    (if c.Live then (c.down ++ itemsOf room ps).filterMap (relayedDown r) else []) = _
  unfold Client.gets
  split
  · rw [List.filterMap_append, List.append_assoc]
    rfl
  · simp only [List.append_nil]

theorem relaysIn_nil (h : ∀ body, .text (.relay body) ∉ ps) : relaysIn r room ps = [] := by
  refine List.filterMap_eq_nil_iff.mpr fun x hx => ?_
  obtain ⟨msg, hmsg, rfl⟩ := mem_itemsOf.mp hx
  cases msg with
  | relay body => exact absurd hmsg (h body)
  | _ => rfl

end Receive

theorem popped_relay {w : World} (hw : Orderly w) {p q : PlayerId} {r : RoomId} {c : Client}
    {φ : Phase} (h : Fits w p c φ) (hopp : Opposite w r p q) (hr : w.roomOf p = some r)
    {x : Option RoomId × Web.Line} {up : List (Option RoomId × Web.Line)} (hup : c.up = x :: up) :
    ∃ body, x = (some r, .relay body) ∧ Server.Endable body := by
  obtain ⟨hseat, hadm⟩ := h.seat (hw.wf.registered p r hr)
  have hroomy : ¬ φ.Roomless → ∃ body, x = (some r, .relay body) ∧ Server.Endable body := by
    intro hφ
    cases φ with
    | waiting s code => exact absurd (hadm.2.symm.trans hup) nofun
    | playing s role =>
      obtain rfl : s = r := Option.some.inj ((hseat.peer hw).1.symm.trans hr)
      obtain ⟨htag, body, hbody, hend⟩ := hadm.2 x (hup ▸ List.mem_cons_self ..)
      exact ⟨body, Prod.ext htag hbody, hend⟩
    | _ => exact absurd trivial hφ
  refine hroomy fun hφ => ?_
  have hnone : w.roomOf p = none := by
    cases φ with
    | waiting | playing => exact hφ.elim
    | _ => exact hseat
  exact absurd (hr.symm.trans hnone) nofun

/-- The next line of the one that an event is a message of has been handled. -/
structure Popped (s : System) (l : Label) (client : PlayerId → Client) : Prop where
  same : ∀ p, (∀ m, l.2 ≠ .message p m) → client p = s.client p
  popped : ∀ p m, l.2 = .message p m → ∃ x up, (s.client p).up = x :: up ∧
    m = utf8Encode x.2.text ∧ client p = { s.client p with up }

theorem Popped.eq {s : System} {l : Label} {client : PlayerId → Client} (h : Popped s l client)
    (p : PlayerId) :
    ∃ up, client p = { s.client p with up } ∧ ∀ x ∈ up, x ∈ (s.client p).up := by
  by_cases hm : ∃ m, l.2 = .message p m
  · obtain ⟨m, hm⟩ := hm
    obtain ⟨x, up, hup, -, heq⟩ := h.popped p m hm
    exact ⟨up, heq, fun y hy => hup ▸ List.mem_cons_of_mem _ hy⟩
  · exact ⟨_, h.same p (not_exists.mp hm), fun _ hx => hx⟩

/-- **An event of the server** relays the next line of a player in a game, or nothing in it. -/
theorem relays_serverEvent {s : System} (hs : Sound s) {l : Label} {client : PlayerId → Client}
    (hpop : Popped s l client) {r : RoomId} {p q : PlayerId} (hopp : Opposite s.world r p q)
    (h : Relays s.world r p q (s.client p) (s.client q)) :
    Relays (Signaling.step l s.world) r p q
      ((System.serverEvent ⟨s.world, client⟩ l).client p)
      ((System.serverEvent ⟨s.world, client⟩ l).client q) := by
  have hw := hs.orderly
  show Relays _ r p q ((client p).receive _ (inbox p (sent l s.world)))
    ((client q).receive _ (inbox q (sent l s.world)))
  obtain ⟨upp, hcp, -⟩ := hpop.eq p
  obtain ⟨upq, hcq, -⟩ := hpop.eq q
  have hgets : ∀ room ps, ((client p).receive room ps).gets r =
      (s.client p).gets r ++ if (s.client p).Live then relaysIn r room ps else [] :=
        fun room ps => by
    rw [hcp]
    exact gets_receive _ r room ps
  have hlive : ∀ room ps, ((client p).receive room ps).Live ↔ (s.client p).Live := fun room ps => by
    rw [hcp]
    exact Iff.rfl
  have hsaid : ∀ room ps, ((client q).receive room ps).saidIn r = (s.client q).saidIn r :=
    fun room ps => by
      rw [hcq]
      rfl
  -- what the next line of `q` is when both are in the game
  have hnext : s.world.roomOf q = some r → ∀ m, l.2 = .message q m → ∃ body,
      m = utf8Encode (Web.Line.relay body).text ∧ parseVerb m = .relay (utf8Encode body) ∧
        (s.client q).upIn r = body :: (client q).upIn r := fun hq m hm => by
    obtain ⟨x, up, hup, rfl, heq⟩ := hpop.popped q m hm
    obtain ⟨φ, hφ⟩ := hs.fits q (hw.wf.player_lt q (hw.wf.registered q r hq))
    obtain ⟨body, rfl, hend⟩ := popped_relay hw hφ hopp.symm hq hup
    refine ⟨body, rfl, verb_relay hend, ?_⟩
    rw [heq, Client.upIn, hup]
    simp [Client.upIn, relayedUp]
  rcases relays_sent hw.wf l with hno | ⟨x, m, body, z, hl, hx, hv, hpeer, hsent, hrooms⟩
  · refine h.quiet hw hopp (hlive _ _).mp ?_ (hsaid _ _) fun hp hq => ?_
    · rw [hgets, relaysIn_nil fun body hb => hno p body (mem_inbox.mp hb)]
      simp
    · by_cases hm : ∃ m, l.2 = .message q m
      · obtain ⟨m, hm⟩ := hm
        obtain ⟨body, -, hv, -⟩ := hnext hq m hm
        refine absurd ?_ (hno p (utf8Encode body))
        exact (relay_mem_sent hw.wf).mpr
          ⟨q, m, hm, hw.wf.registered q r hq, hv, hopp.symm.peer hw hq hp⟩
      · show (client q).upIn r = _
        rw [hpop.same q (not_exists.mp hm)]
  · obtain ⟨r₀, hxr, hzr, hxz⟩ := Opposite.of_peer hw hpeer
    by_cases hto : p = z ∧ r = r₀
    · obtain ⟨rfl, rfl⟩ := hto
      obtain rfl : x = q := hopp.unique hxz.symm
      obtain ⟨text, rfl, hv', hup⟩ := hnext hxr m hl
      obtain rfl : body = utf8Encode text := by
        rw [hv'] at hv
        cases hv
        rfl
      refine h.relayed hzr hxr (hlive _ _) ?_ (hsaid _ _) hup
      rw [hgets, hsent, hrooms, hzr]
      simp [relaysIn, relayedDown, utf8Decode_encode]
    · refine h.quiet hw hopp (hlive _ _).mp ?_ (hsaid _ _) fun hp hq => ?_
      · rw [hgets, hsent, hrooms]
        have hnil : relaysIn r (s.world.roomOf p) (inbox p [(z, .text (.relay body))]) = [] := by
          by_cases hpz : p = z
          · subst hpz
            have hne : r₀ ≠ r := fun heq => hto ⟨rfl, heq.symm⟩
            simp [relaysIn, relayedDown, hzr, hne]
          · simp [relaysIn, hpz]
        rw [hnil]
        simp
      · have hqx : ∀ m, l.2 ≠ .message q m := fun m' hm' => by
          obtain ⟨rfl, -⟩ := Signaling.Event.message.inj (hl.symm.trans hm')
          obtain rfl : r₀ = r := Option.some.inj (hxr.symm.trans hq)
          exact hto ⟨hxz.unique hopp.symm, rfl⟩
        show (client q).upIn r = _
        rw [hpop.same q hqx]

/-! ## Who is in a game -/

/-- Something that a page says, has heard or is going to hear is in the game of `r`. -/
inductive Client.In (c : Client) (r : RoomId) : Prop where
  | game : c.game = some r → c.In r
  | said (body : Web.Str) : (r, body) ∈ c.said → c.In r
  | heard (body : Web.Str) : (r, body) ∈ c.heard → c.In r
  | up (line : Web.Line) : (some r, line) ∈ c.up → c.In r
  | down (msg : Msg) : msg.isGame → (some r, .line msg) ∈ c.down → c.In r

namespace Client.In

variable {c c' : Client} {r : RoomId}

theorem happen {e : Web.Event} (h : (c.happen e).In r) : c.In r := by
  generalize hl : Web.linesOf (c.page.step e).2 = lines at h
  rw [happen_eq hl] at h
  cases h with
  | game h => exact .game h
  | said body h =>
    rcases List.mem_append.mp h with h | h
    · exact .said body h
    · obtain ⟨line, -, hline⟩ := List.mem_filterMap.mp h
      cases line with
      | relay b =>
        obtain ⟨s, hs, heq⟩ := Option.map_eq_some_iff.mp hline
        cases heq
        exact .game hs
      | _ => cases hline
  | heard body h => exact .heard body h
  | up line h =>
    rcases List.mem_append.mp h with h | h
    · exact .up line h
    · obtain ⟨line', -, heq⟩ := List.mem_map.mp h
      exact .game (Prod.mk.inj heq).1
  | down msg hm h => exact .down msg hm h

theorem of_tail {down : List (Option RoomId × Item)} (hd : ∀ x ∈ down, x ∈ c.down)
    (h : { c with down }.In r) : c.In r := by
  cases h with
  | game h => exact .game h
  | said body h => exact .said body h
  | heard body h => exact .heard body h
  | up line h => exact .up line h
  | down msg hm h => exact .down msg hm (hd _ h)

theorem upgrade (h : c.upgrade.In r) : c.In r := by
  unfold Client.upgrade at h
  split at h
  · exact h
  · cases h with
    | game h => exact .game h
    | said body h => exact .said body h
    | heard body h => exact .heard body h
    | up line h => exact .up line h
    | down msg hm h =>
      rcases List.mem_append.mp h with h | h
      · exact .down msg hm h
      · cases (Prod.mk.inj (List.mem_singleton.mp h)).2

theorem hear {room : Option RoomId} {msg : Msg} {call : Web.Call}
    {down : List (Option RoomId × Item)} (hdown : c.down = (room, .line msg) :: down)
    (hws : c.page.ws = .open) (hm : Means msg call)
    (h : ({ c with down }.hear room msg).In r) : c.In r := by
  have hmem : ∀ x ∈ down, x ∈ c.down := fun x hx => hdown ▸ List.mem_cons_of_mem _ hx
  have hgame : (c.note room call).game = some r → c.In r := fun h => by
    cases hm with
    | readyHost | readyGuest =>
      obtain rfl : room = some r := h
      exact .down _ rfl (hdown ▸ List.mem_cons_self ..)
    | peerLeft => cases h
    | _ => exact .game h
  rw [hear_eq (c := { c with down }) hws hm] at h
  cases h with
  | game h => exact hgame h
  | said body h => exact .said body h
  | heard body h =>
    cases hm with
    | relay s =>
      simp only [Client.note] at h
      split at h
      · rcases List.mem_append.mp h with h | h
        · exact .heard body h
        · obtain ⟨s, hs, heq⟩ := Option.map_eq_some_iff.mp (Option.mem_toList.mp h)
          cases heq
          exact .game hs
      · exact .heard body h
    | _ => exact .heard body h
  | up line h =>
    rcases List.mem_append.mp h with h | h
    · exact .up line h
    · obtain ⟨line', -, heq⟩ := List.mem_map.mp h
      exact hgame (Prod.mk.inj heq).1
  | down msg' hm' h => exact .down msg' hm' (hmem _ h)

theorem deliver (hd : Delivers c c') (h : c'.In r) : c.In r := by
  cases hd with
  | nothing => exact h
  | ended => exact h.of_tail fun x hx => List.mem_of_mem_tail hx
  | opened room down hdown =>
    exact h.happen.of_tail fun x hx => hdown ▸ List.mem_cons_of_mem _ hx
  | failed y down hdown =>
    exact h.happen.happen.of_tail fun x hx => hdown ▸ List.mem_cons_of_mem _ hx
  | called room msg call down hdown hws hexp hm => exact h.hear hdown hws hm

theorem of_pop {up : List (Option RoomId × Web.Line)} (hup : ∀ x ∈ up, x ∈ c.up)
    (h : { c with up }.In r) : c.In r := by
  cases h with
  | game h => exact .game h
  | said body h => exact .said body h
  | heard body h => exact .heard body h
  | up line h => exact .up line (hup _ h)
  | down msg hm h => exact .down msg hm h

theorem receive {room : Option RoomId} {ps : List Packet} (h : (c.receive room ps).In r) :
    c.In r ∨ room = some r ∧ ∃ msg, msg.isGame ∧ .text msg ∈ ps := by
  cases h with
  | game h => exact .inl (.game h)
  | said body h => exact .inl (.said body h)
  | heard body h => exact .inl (.heard body h)
  | up line h => exact .inl (.up line h)
  | down msg hm h =>
    rcases List.mem_append.mp h with h | h
    · exact .inl (.down msg hm h)
    · obtain ⟨msg', hmsg, heq⟩ := mem_itemsOf.mp h
      cases heq
      exact .inr ⟨rfl, msg, hm, hmsg⟩

theorem not_in (h : ¬ c.In r) : c.gets r = [] ∧ c.upIn r = [] ∧ c.saidIn r = [] := by
  have hno : ∀ xs : List (RoomId × Web.Str), (∀ body, (r, body) ∉ xs) → inGame r xs = [] :=
    fun xs hxs => List.filterMap_eq_nil_iff.mpr fun x hx =>
      if_neg fun (hr : x.1 = r) => hxs x.2 (hr ▸ hx)
  have hdown : c.downIn r = [] := by
    refine List.filterMap_eq_nil_iff.mpr fun x hx => ?_
    obtain ⟨room, item⟩ := x
    rcases item with _ | msg
    · rfl
    · cases msg with
      | relay body =>
        exact if_neg fun (hr : room = some r) => h (.down (.relay body) rfl (hr ▸ hx))
      | _ => rfl
  have hup : c.upIn r = [] := by
    refine List.filterMap_eq_nil_iff.mpr fun x hx => ?_
    obtain ⟨room, line⟩ := x
    cases line with
    | relay body => exact if_neg fun (hr : room = some r) => h (.up (.relay body) (hr ▸ hx))
    | _ => rfl
  refine ⟨?_, hup, hno _ fun body hb => h (.said body hb)⟩
  rw [Client.gets, hdown, Client.heardIn, hno _ fun body hb => h (.heard body hb)]
  simp

end Client.In

/-! ## Runs -/

/-- Whoever is in a game is one of its two players, and what one of them gets is what the other
has said. -/
structure Told (s : System) : Prop where
  owned : ∀ p r, (s.client p).In r → ∃ q, Opposite s.world r p q
  relays : ∀ p q r, Opposite s.world r p q → Relays s.world r p q (s.client p) (s.client q)

namespace Told

variable {s : System}

theorem init : Told .init := by
  have hno : ∀ r, ¬ Client.init.In r := fun r h => by
    cases h with
    | game h => cases h
    | said _ h | heard _ h | up _ h | down _ _ h => cases h
  exact ⟨fun _ r h => absurd h (hno r), fun _ _ r h => absurd h.lt (Nat.not_lt_zero r)⟩

theorem modify (h : Told s) {p : PlayerId} {f : Client → Client}
    (hin : ∀ r, (f (s.client p)).In r → (s.client p).In r)
    (hkeeps : p < s.world.nextPlayer → Keeps (s.client p) (f (s.client p))) :
    Told (s.modify p f) := by
  unfold System.modify
  split
  · rename_i hp
    have hclient : ∀ q, (∀ r, (update s.client p (f (s.client p)) q).In r → (s.client q).In r) ∧
        Keeps (s.client q) (update s.client p (f (s.client p)) q) := fun q => by
      by_cases hqp : q = p
      · subst hqp
        rw [update_self]
        exact ⟨hin, hkeeps hp⟩
      · rw [update_of_ne hqp]
        exact ⟨fun _ h => h, .refl _⟩
    exact ⟨fun q r hq => h.owned q r ((hclient q).1 r hq),
      fun q x r hopp => (h.relays q x r hopp).keeps (hclient q).2 (hclient x).2⟩
  · exact h

theorem serverEvent (hs : Sound s) (h : Told s) {l : Label} {client : PlayerId → Client}
    (hpop : Popped s l client) (hw' : Orderly (Signaling.step l s.world)) :
    Told (System.serverEvent ⟨s.world, client⟩ l) := by
  have hin : ∀ p r, (client p).In r → (s.client p).In r := fun p r hp => by
    obtain ⟨up, heq, hup⟩ := hpop.eq p
    rw [heq] at hp
    exact hp.of_pop hup
  refine ⟨fun p r hp => ?_, fun p q r hopp => ?_⟩
  · rcases Client.In.receive hp with hp | ⟨hroom, msg, hmsg, hmem⟩
    · obtain ⟨q, hopp⟩ := h.owned p r (hin p r hp)
      exact ⟨q, hopp.step hs.orderly l⟩
    · obtain ⟨r', q, hr', hopp⟩ := game_sent hs.orderly hw' hmsg (mem_inbox.mp hmem)
      obtain rfl := Option.some.inj (hr'.symm.trans hroom)
      exact ⟨q, hopp⟩
  · rcases Opposite.of_step hs.orderly hopp with hopp | ⟨hnew, hno⟩
    · exact relays_serverEvent hs hpop hopp (h.relays p q r hopp)
    · -- a new pair: nothing has been said in the game yet
      have hnot : ∀ x, ¬ (client x).In r := fun x hx => by
        obtain ⟨y, hy⟩ := h.owned x r (hin x r hx)
        exact hnew x y hy
      obtain ⟨hgets, -, -⟩ := Client.In.not_in (hnot p)
      obtain ⟨-, hup, hsaid⟩ := Client.In.not_in (hnot q)
      have hnil : ((System.serverEvent ⟨s.world, client⟩ l).client p).gets r = [] := by
        show ((client p).receive _ (inbox p (sent l s.world))).gets r = []
        rw [gets_receive, hgets, relaysIn_nil fun body hb => hno p body (mem_inbox.mp hb)]
        simp
      refine ⟨?_, fun _ _ _ => ?_⟩
      · rw [hnil]
        exact List.nil_prefix
      · rw [hnil]
        exact hup.trans hsaid.symm

/-- **A fair move.** -/
theorem step (hs : Sound s) (h : Told s) {l : Order × Move} (hl : Fair l s) :
    Told (step l s) := by
  have hs' := (hs.step hl).1
  obtain ⟨o, m⟩ := l
  cases m with
  | connect | hangup =>
    refine serverEvent hs h ⟨fun _ _ => rfl, fun p m hm => ?_⟩ hs'.orderly
    cases hm
  | upgrade p =>
    simp only [Session.step]
    split
    · exact h.modify (fun _ h => h.upgrade) fun _ => .upgrade _
    · exact h
  | happen p e =>
    simp only [Session.step]
    split
    · exact h.modify (fun _ h => h.happen) fun _ => .local_happen ‹_›
    · exact h
  | serve p =>
    cases hup : (s.client p).up with
    | nil =>
      have hsame : Session.step (o, .serve p) s = s := by simp only [Session.step, hup]
      rw [hsame]
      exact h
    | cons x up =>
      have hlt : p < s.world.nextPlayer := by
        by_contra hge
        rw [hs.unborn p (not_lt.mp hge)] at hup
        cases hup
      have hstep : Session.step (o, .serve p) s =
          System.serverEvent ⟨s.world, update s.client p { s.client p with up }⟩
            (o, .message p (utf8Encode x.2.text)) := by
        simp only [Session.step, hup, System.modify, if_pos hlt]
      rw [hstep] at hs' ⊢
      refine serverEvent hs h ⟨fun q hq => ?_, fun q m hq => ?_⟩ hs'.orderly
      · have hqp : q ≠ p := by
          rintro rfl
          exact hq _ rfl
        exact update_of_ne hqp _ _
      · obtain ⟨rfl, rfl⟩ := Signaling.Event.message.inj hq
        exact ⟨x, up, hup, rfl, update_self ..⟩
  | deliver p =>
    by_cases hp : p < s.world.nextPlayer
    · obtain ⟨φ, hφ⟩ := hs.fits p hp
      exact h.modify (fun _ h => h.deliver hφ.delivers) fun _ => .deliver hφ.delivers
    · have hsame : Session.step (o, .deliver p) s = s := if_neg hp
      rw [hsame]
      exact h
  | lost p => exact h.modify (f := (·.happen .wsClose)) (fun _ h => h.happen) fun _ => .lost _

theorem run {ls : List (Order × Move)} (h : Guarded Session.step Fair ls .init) :
    Sound (run Session.step ls .init) ∧ Told (run Session.step ls .init) :=
  run_inv_guarded (I := fun s => Sound s ∧ Told s)
    (fun _ _ hl hs => ⟨(hs.1.step hl).1, step hs.1 hs.2 hl⟩) h ⟨.init, .init⟩

end Told

/-- `p` and `q` hear in `r` what the other one has said there, and nobody else is in it. -/
structure Private (s : System) (r : RoomId) (p q : PlayerId) : Prop where
  opposite : Opposite s.world r p q
  left : (s.client p).heardIn r <+: (s.client q).saidIn r
  right : (s.client q).heardIn r <+: (s.client p).saidIn r
  only : ∀ x, (s.client x).In r → x = p ∨ x = q

/-- **A game is private and in order**: with patient users, a page that says or hears anything in a
game shares it with one other page; each of the two has heard what the other has said, from the
start, in the order it was said, and nothing else. -/
theorem game_in_order (ls : List (Order × Move)) (h : Guarded step Fair ls .init) (p : PlayerId)
    (r : RoomId) (hp : ((run step ls .init).client p).In r) :
    ∃ q, Private (run step ls .init) r p q := by
  obtain ⟨-, ht⟩ := Told.run h
  obtain ⟨q, hopp⟩ := ht.owned p r hp
  have order : ∀ x y, Opposite (run step ls .init).world r x y →
      ((run step ls .init).client x).heardIn r <+: ((run step ls .init).client y).saidIn r :=
    fun x y hxy => (List.prefix_append _ _).trans (ht.relays x y r hxy).order
  refine ⟨q, hopp, order p q hopp, order q p hopp.symm, fun x hx => ?_⟩
  obtain ⟨y, hxy⟩ := ht.owned x r hx
  rcases hxy.seats with ⟨hh, hg⟩ | ⟨hh, hg⟩ <;> rcases hopp.seats with ⟨hh', hg'⟩ | ⟨hh', hg'⟩
  · exact .inl (Option.some.inj (hh.symm.trans hh'))
  · exact .inr (Option.some.inj (hh.symm.trans hh'))
  · exact .inr (Option.some.inj (hg.symm.trans hg'))
  · exact .inl (Option.some.inj (hg.symm.trans hg'))

/-- The guest of a room, who knew its code, sends an envelope to the host. -/
def signalUp : List (Order × Move) :=
  [(.id, .connect), (.id, .upgrade 0), (.id, .deliver 0), (.id, .happen 0 .clickHost),
    (.id, .serve 0), (.id, .serve 0), (.id, .connect), (.id, .upgrade 1), (.id, .deliver 1),
    (.id, .happen 1 (.input "1".toList)), (.id, .happen 1 .clickJoin), (.id, .serve 1),
    (.id, .serve 1), (.id, .deliver 1), (.id, .deliver 1),
    (.id, .happen 1 (.signal "candidate".toList)), (.id, .serve 1)]

theorem game_in_order_signal : ∃ q, Private (run step signalUp .init) 0 1 q :=
  game_in_order signalUp (by decide +kernel) 1 0 (.said "candidate".toList (by decide +kernel))

/-- **Nothing is lost in a game**: with patient users, all that the peer of an open page has said in
their game the page has heard, or it is on its way to it, or on its way to the server. -/
theorem game_whole (ls : List (Order × Move)) (h : Guarded step Fair ls .init) (p q : PlayerId)
    (r : RoomId) (hopen : ((run step ls .init).client p).page.ws = .open)
    (hr : (run step ls .init).world.roomOf p = some r)
    (hpeer : (run step ls .init).world.peerOf p = some q) :
    ((run step ls .init).client q).saidIn r = ((run step ls .init).client p).heardIn r ++
      (((run step ls .init).client p).downIn r ++ ((run step ls .init).client q).upIn r) := by
  obtain ⟨hs, ht⟩ := Told.run h
  obtain ⟨r', hp, hq, hopp⟩ := Opposite.of_peer hs.orderly hpeer
  obtain rfl := Option.some.inj (hp.symm.trans hr)
  have hlive : ((run step ls .init).client p).Live := .inr hopen
  have hwhole := (ht.relays p q _ hopp).whole hlive hp hq
  rw [Client.gets, if_pos hlive, List.append_assoc] at hwhole
  exact hwhole.symm

theorem game_whole_signal :
    ((run step signalUp .init).client 1).saidIn 0 =
      ((run step signalUp .init).client 0).heardIn 0 ++
      (((run step signalUp .init).client 0).downIn 0 ++
        ((run step signalUp .init).client 1).upIn 0) :=
  game_whole signalUp (by decide +kernel) 0 1 0 (by decide +kernel) (by decide +kernel)
    (by decide +kernel)

end PongPp.Session
