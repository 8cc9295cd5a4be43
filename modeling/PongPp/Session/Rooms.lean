import PongPp.Session.Agreement
import PongPp.Signaling.Lobby

/-!
# The room list of a page

What the server broadcasts, and what it answers to the `LIST` that a page sends whenever it comes
to the menu, keep the page's buttons up to date: a page on the menu with nothing on its way offers
just the rooms that can be joined (`rooms_current`).
-/

namespace PongPp.Session

open Function Lib Signaling

/-- The codes are those of the joinable rooms, each once. -/
def Lists (w : World) (codes : List Web.Str) : Prop :=
  ∃ cs : List RoomCode, cs.Nodup ∧ {c | c ∈ cs} = w.joinable ∧ codes = cs.map decimal

/-! ## What the server says about rooms -/

section Server

variable {w : World} {l : Label} {q : PlayerId}

theorem Orderly.stays (hw : Orderly w) (p : PlayerId) : ¬ w.LeavesBehind p := by
  rintro ⟨c, s, hl, hg, hne⟩
  exact hne s (hw.filed_room hl (.inr hg)) (hw.wf.filed_code c s hl).symm

theorem rooms_sent (hw : Orderly w) {cs : List RoomCode}
    (h : (q, .text (.rooms cs)) ∈ sent l w) : Lists (Signaling.step l w) (cs.map decimal) := by
  suffices cs.Nodup ∧ {c | c ∈ cs} = (Signaling.step l w).joinable from ⟨cs, this.1, this.2, rfl⟩
  obtain ⟨w', he, hs⟩ := step_effect hw.wf l
  rw [hs]
  suffices cs.Nodup ∧ {c | c ∈ cs} = w'.joinable from this
  generalize sent l w = ps at he h
  obtain ⟨o, e⟩ := l
  have line : ∀ {v : World}, Packet.text (.rooms cs) = .text (v.roomsLine o) →
      cs.Nodup ∧ {c | c ∈ cs} = v.joinable := fun {v} heq => by
    obtain rfl : cs = v.joinableCodes o := by simpa [World.roomsLine] using heq
    exact ⟨nodup_joinableCodes v o, World.joinableCodes_eq o⟩
  cases he with
  | connect | goneMessage | goneDisconnect => cases h
  | list p m => exact line (Prod.mk.inj (List.mem_singleton.mp h)).2
  | create p m =>
    rcases List.mem_append.mp h with h | h
    · exact line ((World.mem_roomList _ o).mp h).2.2
    · cases (Prod.mk.inj (List.mem_singleton.mp h)).2
  | join p m body r =>
    rcases List.mem_append.mp h with h | h
    · exact line ((World.mem_roomList _ o).mp h).2.2
    · rcases World.mem_readies.mp h with ⟨-, -, hk⟩ | ⟨-, hk⟩ <;> cases hk
  | joinFailed | relay | relayFailed | unknown => cases (Prod.mk.inj (List.mem_singleton.mp h)).2
  | disconnect p =>
    obtain rfl := World.rooms_mem_farewell h
    rw [World.joinable_departed (Orderly.stays hw p)]
    exact ⟨nodup_joinableCodes _ o, World.joinableCodes_eq o⟩

/-- Who is in the lobby and is sent no list was there before, and nothing has changed. -/
theorem lobby_unchanged (hw : Orderly w) (hq : q ∈ w.players)
    (hq' : q ∈ (Signaling.step l w).players) (hr : (Signaling.step l w).roomOf q = none)
    (hno : ∀ cs, (q, .text (.rooms cs)) ∉ sent l w) :
    (Signaling.step l w).joinable = w.joinable ∧ w.roomOf q = none := by
  refine ⟨?_, ?_⟩
  · by_contra hne
    have hfresh : Fresh l w := by
      refine hw.wf.fresh ?_
      rintro ⟨p, -, -, hbehind, -⟩
      exact Orderly.stays hw p hbehind
    obtain ⟨codes, hlast, -⟩ := hfresh hne q hq' hr
    exact hno codes (mem_of_lastRooms hlast)
  · obtain ⟨w', he, hs⟩ := step_effect hw.wf l
    rw [hs] at hq' hr
    replace hq' : q ∈ w'.players := hq'
    replace hr : w'.roomOf q = none := hr
    generalize sent l w = ps at he hno
    obtain ⟨o, e⟩ := l
    cases he with
    | connect => rwa [hw.wf.roomOf_register] at hr
    | create p m =>
      rw [World.hosted_roomOf] at hr
      split at hr
      · cases hr
      · exact hr
    | join p m body r =>
      rw [World.guested_roomOf] at hr
      split at hr
      · cases hr
      · exact hr
    | disconnect p hp =>
      have hqp : q ≠ p := (hw.wf.nodup.mem_erase_iff.mp hq').1
      rw [World.departed_roomOf] at hr
      split at hr
      · rename_i hor
        -- the peer of the one that leaves is sent the list
        have hpeer := hor.resolve_left hqp
        obtain ⟨-, r, hpr, -⟩ := hw.tidy.peer_room hpeer
        have hsome : (w.rooms.lookup (w.room r).code).isSome = true := by
          rw [hw.filed.filed p r hpr]
          rfl
        have hmem : (q, .text ((w.leaving p).roomsLine o)) ∈ (w.leaving p).roomList o :=
          (World.mem_roomList _ o).mpr ⟨hq, if_pos hpeer, rfl⟩
        refine absurd ?_ (hno ((w.leaving p).joinableCodes o))
        simp only [World.farewell, hpr, hsome, if_true]
        exact List.mem_append_right _ hmem
      · exact hr
    | _ => exact hr

end Server

/-! ## What a page is going to show -/

/-- The codes of the buttons when all that is on its way has arrived. -/
def roomsShown (codes : List Web.Str) : List (Option RoomId × Item) → List Web.Str
  | [] => codes
  | (_, .line (.rooms cs)) :: xs => roomsShown (cs.map decimal) xs
  | _ :: xs => roomsShown codes xs

theorem roomsShown_append (codes : List Web.Str) (xs ys : List (Option RoomId × Item)) :
    roomsShown codes (xs ++ ys) = roomsShown (roomsShown codes xs) ys := by
  fun_induction roomsShown codes xs with
  | case1 codes => rfl
  | case2 codes room cs xs ih => exact ih
  | case3 codes x xs hx ih =>
    rw [List.cons_append, roomsShown]
    · exact ih
    · exact hx

theorem roomsShown_cases (codes : List Web.Str) (xs : List (Option RoomId × Item)) :
    (roomsShown codes xs = codes ∧ ∀ x ∈ xs, ∀ cs, x.2 ≠ .line (.rooms cs)) ∨
      ∃ x ∈ xs, ∃ cs, x.2 = .line (.rooms cs) ∧ roomsShown codes xs = cs.map decimal := by
  fun_induction roomsShown codes xs with
  | case1 codes => exact .inl ⟨rfl, fun x hx => absurd hx List.not_mem_nil⟩
  | case2 codes room cs xs ih =>
    refine .inr ?_
    rcases ih with ⟨heq, -⟩ | ⟨y, hy, cs', hcs, heq⟩
    · exact ⟨_, List.mem_cons_self .., cs, rfl, heq⟩
    · exact ⟨y, List.mem_cons_of_mem _ hy, cs', hcs, heq⟩
  | case3 codes x xs hx ih =>
    rcases ih with ⟨heq, hno⟩ | ⟨y, hy, cs, hcs, heq⟩
    · refine .inl ⟨heq, fun y hy cs hcs => ?_⟩
      rcases List.mem_cons.mp hy with rfl | hy
      · exact hx y.1 cs (Prod.ext rfl hcs)
      · exact hno y hy cs hcs
    · exact .inr ⟨y, List.mem_cons_of_mem _ hy, cs, hcs, heq⟩

def codesOf (p : Web.Page) : List Web.Str := p.roomList.map (·.code)

def Client.latest (c : Client) : List Web.Str := roomsShown (codesOf c.page) c.down

/-- In the lobby, a page has asked for the list or is going to show it. -/
def Current (w : World) (p : PlayerId) (c : Client) : Prop :=
  p ∈ w.players → c.page.ws = .open → w.roomOf p = none →
    (∃ game, (game, .list) ∈ c.up) ∨ Lists w c.latest

section Current

variable {w : World} {l : Label} {p q : PlayerId} {c : Client}

theorem mem_itemsOf {room : Option RoomId} {ps : List Packet} {x : Option RoomId × Item} :
    x ∈ itemsOf room ps ↔ ∃ msg, .text msg ∈ ps ∧ x = (room, .line msg) := by
  unfold itemsOf
  rw [List.mem_filterMap]
  refine ⟨?_, ?_⟩
  · rintro ⟨k, hk, heq⟩
    cases k with
    | raw => cases heq
    | text msg => cases heq; exact ⟨msg, hk, rfl⟩
  · rintro ⟨msg, hmsg, rfl⟩
    exact ⟨_, hmsg, rfl⟩

/-- An event of the server. A list that is sent is all that counts; without one, what held of the
page before it still does. -/
theorem Current.receive (hw : Orderly w) (hlt : q < w.nextPlayer)
    (h : (∀ cs, (q, .text (.rooms cs)) ∉ sent l w) → Current w q c) :
    Current (Signaling.step l w) q
      (c.receive ((Signaling.step l w).roomOf q) (inbox q (sent l w))) := by
  intro hq' hopen hr
  have hlatest : (c.receive ((Signaling.step l w).roomOf q) (inbox q (sent l w))).latest =
      roomsShown c.latest (itemsOf ((Signaling.step l w).roomOf q) (inbox q (sent l w))) :=
    roomsShown_append _ _ _
  rw [hlatest]
  rcases roomsShown_cases c.latest (itemsOf ((Signaling.step l w).roomOf q) (inbox q (sent l w)))
    with ⟨heq, hno⟩ | ⟨x, hx, cs, hcs, heq⟩
  · have hnone : ∀ cs, (q, .text (.rooms cs)) ∉ sent l w := fun cs hcs =>
      hno _ (mem_itemsOf.mpr ⟨_, mem_inbox.mpr hcs, rfl⟩) cs rfl
    have hq : q ∈ w.players := by
      by_contra hq
      exact gone_step hw.wf l hlt hq hq'
    obtain ⟨hsame, hr⟩ := lobby_unchanged hw hq hq' hr hnone
    rcases h hnone hq hopen hr with hup | hlists
    · exact .inl hup
    · refine .inr ?_
      rw [heq, Lists, hsame]
      exact hlists
  · obtain ⟨msg, hmsg, rfl⟩ := mem_itemsOf.mp hx
    cases hcs
    rw [heq]
    exact .inr (rooms_sent hw (mem_inbox.mp hmsg))

theorem codesOf_disabled (p : Web.Page) (b : Bool) :
    codesOf (p.setButtonsDisabled b) = codesOf p := by
  simp [codesOf, Web.Page.setButtonsDisabled]

theorem codesOf_rendered (p : Web.Page) (codes : List Web.Str) :
    codesOf (p.renderRoomList codes) = codes := by
  show (codes.map _).map _ = codes
  rw [List.map_map]
  exact List.map_id codes

theorem Current.upgrade (h : Current w p c) : Current w p c.upgrade := by
  unfold Client.upgrade
  split
  · exact h
  · intro hp hopen hr
    rcases h hp hopen hr with hup | hlists
    · exact .inl hup
    · refine .inr ?_
      have hlatest : ({ c with upgraded := true, down := c.down ++ [(none, .response)] } :
          Client).latest = c.latest := roomsShown_append _ _ _
      rw [hlatest]
      exact hlists

theorem Current.happen (h : Current w p c) {e : Web.Event} (he : e.isLocal = true) :
    Current w p (c.happen e) := by
  intro hp hopen hr
  rcases c.page.step_local he with hcore | ⟨-, rfl, hstep⟩
  · have hws : c.page.ws = .open := hcore.ws.symm.trans hopen
    rcases h hp hws hr with ⟨game, hup⟩ | hlists
    · exact .inl ⟨game, List.mem_append_left _ hup⟩
    · refine .inr ?_
      have hcodes : codesOf (c.happen e).page = codesOf c.page := hcore.codes
      rw [Client.latest, hcodes]
      exact hlists
  · have hclosed : (c.happen .clickCancel).page.ws ≠ .open := by
      show (c.page.step .clickCancel).1.ws ≠ .open
      rw [hstep, Web.Page.clickCancel_ws]
      split
      · exact nofun
      · rename_i hno
        exact fun h => hno (.inr h)
    exact absurd hopen hclosed

theorem latest_hear {room : Option RoomId} {msg : Msg} {call : Web.Call}
    {down : List (Option RoomId × Item)} (hdown : c.down = (room, .line msg) :: down)
    (hws : c.page.ws = .open) (h : Expects c (room, .line msg)) (hm : Means msg call) :
    (∃ lines, ({ c with down }.hear room msg).up = c.up ++ lines) ∧
      ({ c with down }.hear room msg).latest = c.latest := by
  rw [hear_eq (c := { c with down }) hws hm]
  refine ⟨⟨_, rfl⟩, ?_⟩
  show roomsShown (codesOf (c.page.onCall call).1) down = roomsShown (codesOf c.page) c.down
  rw [hdown]
  cases hm with
  | rooms codes =>
    have hmenu : c.page.currentScreen = .menu := h
    have hpage : (c.page.onCall (.onRooms (codes.map decimal))).1 =
        c.page.renderRoomList (codes.map decimal) := if_pos hmenu
    rw [hpage, codesOf_rendered]
    rfl
  | peerLeft =>
    have hcodes := codesOf_disabled (c.page.closeRtc.stopGame.showScreen .menu) false
    exact congrArg (roomsShown · down) hcodes
  | unknownVerb => exact h.elim
  | joinFailed =>
    exact congrArg (roomsShown · down) (codesOf_disabled (c.page.showError _) false)
  | notInRoom =>
    exact congrArg (roomsShown · down) (codesOf_disabled (c.page.showError _) false)
  | _ => rfl

theorem Current.deliver {φ : Phase} (hφ : Fits w p c φ) (h : Current w p c) :
    Current w p c.deliver := by
  have hdel := hφ.delivers
  generalize c.deliver = c' at hdel
  intro hp hopen hr
  cases hdel with
  | nothing => exact h hp hopen hr
  | ended hws => rcases hws with hws | hws <;> exact absurd (hopen.symm.trans hws) nofun
  | opened room down hdown hws =>
    -- the page opens, and asks for the list
    have hout : (c.page.step .wsOpen).2 = [.line .list] := by
      simp [Web.Page.step, hws, Web.Page.onOpen, Web.Page.send, Web.Page.setButtonsDisabled]
    refine .inl ⟨c.game, ?_⟩
    simp only [Client.happen, hout]
    simp [Web.linesOf]
  | failed x down =>
    rw [(fail_eq _).1] at hopen
    cases hopen
  | called room msg call down hdown hws hexp hm =>
    obtain ⟨⟨lines, hup⟩, hlatest⟩ := latest_hear hdown hws hexp hm
    rcases h hp hws hr with ⟨game, hmem⟩ | hlists
    · refine .inl ⟨game, ?_⟩
      rw [hup]
      exact List.mem_append_left _ hmem
    · rw [hlatest]
      exact .inr hlists

/-- The next line of a page has been handled. Who asked for the list is sent it. -/
theorem Current.popped (hw : Orderly w) (o : Order) {x : Option RoomId × Web.Line}
    {up : List (Option RoomId × Web.Line)} (hup : c.up = x :: up) (h : Current w p c)
    (hno : ∀ cs, (p, .text (.rooms cs)) ∉ sent (o, .message p (utf8Encode x.2.text)) w) :
    Current w p { c with up } := by
  intro hp hopen hr
  rcases h hp hopen hr with ⟨game, hmem⟩ | hlists
  · rw [hup] at hmem
    rcases List.mem_cons.mp hmem with rfl | hmem
    · have he : Effect w o (.message p _) _ _ := .list p _ hp verb_list
      refine absurd ?_ (hno (w.joinableCodes o))
      rw [Effect.sent_eq (l := (o, .message p _)) hw.wf he]
      exact List.mem_singleton.mpr rfl
    · exact .inl ⟨game, hmem⟩
  · exact .inr hlists

end Current

/-! ## Runs -/

section Runs

variable {s : System}

theorem current_serverEvent (hs : Sound s) (client : PlayerId → Client) {l : Label}
    (hws : ∀ q, (client q).page = (s.client q).page)
    (h : ∀ q, (∀ cs, (q, .text (.rooms cs)) ∉ sent l s.world) → Current s.world q (client q))
    (q : PlayerId) :
    Current (Signaling.step l s.world) q
      ((System.serverEvent ⟨s.world, client⟩ l).client q) := by
  by_cases hq : q < s.world.nextPlayer
  · exact Current.receive hs.orderly hq (h q)
  · intro _ hopen
    have hpage : (s.client q).page.ws = .open := by
      rw [← hws q]
      exact hopen
    rw [hs.unborn q (not_lt.mp hq)] at hpage
    cases hpage

theorem current_modify (h : ∀ q, Current s.world q (s.client q)) {p : PlayerId}
    {f : Client → Client}
    (hf : p < s.world.nextPlayer → Current s.world p (f (s.client p))) (q : PlayerId) :
    Current (s.modify p f).world q ((s.modify p f).client q) := by
  unfold System.modify
  split
  · rename_i hp
    by_cases hqp : q = p
    · subst hqp
      show Current s.world q (update s.client q _ q)
      rw [update_self]
      exact hf hp
    · show Current s.world q (update s.client p _ q)
      rw [update_of_ne hqp]
      exact h q
  · exact h q

/-- **A fair move** leaves the list of every page in the lobby asked for, or right. -/
theorem current_step (hs : Sound s) (h : ∀ q, Current s.world q (s.client q)) {l : Order × Move}
    (q : PlayerId) : Current (step l s).world q ((step l s).client q) := by
  obtain ⟨o, m⟩ := l
  cases m with
  | connect | hangup => exact current_serverEvent hs s.client (fun _ => rfl) (fun q _ => h q) q
  | upgrade p =>
    simp only [step]
    split
    · exact current_modify h (fun _ => (h p).upgrade) q
    · exact h q
  | happen p e =>
    simp only [step]
    split
    · exact current_modify h (fun _ => (h p).happen ‹_›) q
    · exact h q
  | serve p =>
    cases hup : (s.client p).up with
    | nil =>
      have hsame : step (o, .serve p) s = s := by simp only [step, hup]
      rw [hsame]
      exact h q
    | cons x up =>
      have hstep : step (o, .serve p) s =
          (s.modify p ({ · with up })).serverEvent (o, .message p (utf8Encode x.2.text)) := by
        simp only [step, hup]
      rw [hstep]
      unfold System.modify
      split
      · refine current_serverEvent hs (update s.client p _) (fun q => ?_)
          (fun q hno => ?_) q
        · by_cases hqp : q = p
          · subst hqp
            rw [update_self]
          · rw [update_of_ne hqp]
        · by_cases hqp : q = p
          · subst hqp
            rw [update_self]
            exact (h q).popped hs.orderly o hup hno
          · rw [update_of_ne hqp]
            exact h q
      · exact current_serverEvent hs s.client (fun _ => rfl) (fun q _ => h q) q
  | deliver p =>
    refine current_modify h (fun hp => ?_) q
    obtain ⟨φ, hφ⟩ := hs.fits p hp
    exact (h p).deliver hφ
  | lost p =>
    refine current_modify h (f := (·.happen .wsClose)) (fun _ _ hopen => ?_) q
    rw [(lost_eq _).1] at hopen
    cases hopen

end Runs

/-- **The list is right**: with patient users, a connected page on the menu that has nothing on its
way to it, and whose own `LIST` is not on its way either, offers just the rooms that can be
joined. -/
theorem rooms_current (ls : List (Order × Move)) (h : Guarded step Fair ls .init) (p : PlayerId)
    (hp : p ∈ (run step ls .init).world.players)
    (hopen : ((run step ls .init).client p).page.ws = .open)
    (hmenu : ((run step ls .init).client p).page.currentScreen = .menu)
    (hdown : ((run step ls .init).client p).down = [])
    (hup : ∀ game, (game, .list) ∉ ((run step ls .init).client p).up) :
    Lists (run step ls .init).world (codesOf ((run step ls .init).client p).page) := by
  have hinv := run_inv_guarded (I := fun s => Sound s ∧ ∀ q, Current s.world q (s.client q))
    (fun _ s hl hs => ⟨(hs.1.step hl).1, current_step hs.1 hs.2⟩) h
    ⟨.init, fun _ hq => absurd hq List.not_mem_nil⟩
  obtain ⟨hs, hcur⟩ := hinv
  obtain ⟨φ, φ₀, hφ, hshows, hafter⟩ := hs.open_page hopen
  rw [hdown, Phase.after_nil] at hafter
  cases hafter
  have hroom : (run step ls .init).world.roomOf p = none := by
    cases Agrees.of_shows hs.orderly (hφ.seat hp).1 hshows hopen with
    | lobby hr => exact hr
    | waiting r _ _ _ hb => exact absurd (hmenu.symm.trans hb.currentScreen) nofun
    | host r q _ _ _ hplays => exact absurd (hmenu.symm.trans hplays.currentScreen) nofun
    | guest r q _ _ _ hplays => exact absurd (hmenu.symm.trans hplays.currentScreen) nofun
  rcases hcur p hp hopen hroom with ⟨game, hmem⟩ | hlists
  · exact absurd hmem (hup game)
  · rw [Client.latest, hdown] at hlists
    exact hlists

/-- The other page of `pairUp` before it asks for the room that it is offered. -/
theorem rooms_current_pair :
    Lists (run step (pairUp.take 12) .init).world
      (codesOf ((run step (pairUp.take 12) .init).client 1).page) :=
  rooms_current (pairUp.take 12) (by decide +kernel) 1 (by decide +kernel) (by decide +kernel)
    (by decide +kernel) (by decide +kernel) (by
      have hup : ((run step (pairUp.take 12) .init).client 1).up = [] := by decide +kernel
      rw [hup]
      exact fun _ => List.not_mem_nil)

end PongPp.Session
