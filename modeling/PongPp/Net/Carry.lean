import PongPp.Net.Frames
import PongPp.Net.System
import PongPp.Server.Relaying
import PongPp.Session.Settling

/-!
# What is on its way

The bytes between a browser and the server stand for lines (`Tied`, `Sends`). What the server does,
call by call, and what happens at a page, they keep doing so (`Carries.serveAll`, `Carries.hangup`,
`Sends.happen`).
-/

namespace PongPp.Net

open Function Lib Signaling Session

/-- All that the server has written to `p`. -/
def bytesTo (p : PlayerId) (w : World) : Bytes := (inbox p w.wire).flatMap Packet.bytes

/-- The page still listens. -/
def Listens (page : Web.Page) : Prop := page.ws = .connecting ∨ page.ws = .open

/-- A tab and its client, when `sent` is all that was written to it. -/
structure Tied (sent : Bytes) (t : Tab) (c : Client) : Prop where
  page : c.page = t.page
  asked : c.asked = t.asked
  down : Listens t.page → t.buf ++ sent.drop t.taken = streamOf t.request c.down
  taken : t.taken ≤ sent.length
  short : ∀ x ∈ c.down, Short x.2

/-- What is on its way from a tab to the server, behind what the connection has not read yet. -/
inductive Sends (conn : Ws.Connection) (t : Tab) (c : Client) : Prop where
  | greeting : conn.state = .handshake → c.upgraded = false → c.up = [] → t.page.ws ≠ .open →
      conn.inBuf ++ t.out = t.request.bytes → Sends conn t c
  | talking : conn.state = .open → c.upgraded = true →
      Ws.frames.Reads (c.up.map fun x => lineFrame x.2) (conn.inBuf ++ t.out) [] → Sends conn t c
  | leaving : conn.state = .open → c.upgraded = true →
      (t.page.ws = .closing ∨ t.page.ws = .closed) →
      Ws.frames.Reads ((c.up.map fun x => lineFrame x.2) ++ [closeFrame]) (conn.inBuf ++ t.out) [] →
      Sends conn t c

/-- The tabs stand for the pages of `s`, the memory and what was written for its server. -/
structure Carries (w : World) (tab : PlayerId → Tab) (s : System) : Prop where
  sound : Sound s
  wf : Wf w
  world : Server.texts w = s.world
  tied : ∀ p < s.world.nextPlayer, Tied (bytesTo p w) (tab p) (s.client p)
  unborn : ∀ p, s.world.nextPlayer ≤ p → inbox p w.wire = []

/-! ## What the server writes -/

section Write

variable {sent : Bytes} {t : Tab} {c c' : Client} {room : Option RoomId} {ps : List Packet}

theorem Tied.congr (h : Tied sent t c) (hpage : c'.page = c.page) (hasked : c'.asked = c.asked)
    (hdown : c'.down = c.down) : Tied sent t c' :=
  ⟨hpage.trans h.page, hasked.trans h.asked, fun hl => hdown ▸ h.down hl, h.taken,
    hdown ▸ h.short⟩

theorem streamOf_append (q : Upgrade) (xs ys : List (Option RoomId × Item)) :
    streamOf q (xs ++ ys) = streamOf q xs ++ streamOf q ys := List.flatMap_append

theorem streamOf_itemsOf (q : Upgrade) (h : ∀ k ∈ ps, ∃ m, k = .text m) :
    streamOf q (itemsOf room ps) = ps.flatMap Packet.bytes := by
  induction ps with
  | nil => rfl
  | cons k ps ih =>
    obtain ⟨⟨m, rfl⟩, hps⟩ := List.forall_mem_cons.mp h
    rw [itemsOf_cons, List.flatMap_cons, ← ih hps]
    rfl

theorem length_text (m : Msg) : m.text.length ≤ (Packet.text m).bytes.length := by
  rw [Packet.bytes, Ws.encodeFrame_eq, List.length_append]
  exact Nat.le_add_left ..

theorem short_itemsOf (h : ∀ k ∈ ps, k.bytes.length < 2 ^ 63) :
    ∀ x ∈ itemsOf room ps, Short x.2 := by
  intro x hx
  obtain ⟨k, hk, hkx⟩ := List.mem_filterMap.mp hx
  cases k with
  | raw b => cases hkx
  | text m =>
    cases hkx
    exact (length_text m).trans_lt (h _ hk)

theorem Tied.receive (h : Tied sent t c) (htext : ∀ k ∈ ps, ∃ m, k = .text m)
    (hshort : ∀ k ∈ ps, k.bytes.length < 2 ^ 63) :
    Tied (sent ++ ps.flatMap Packet.bytes) t (c.receive room ps) := by
  refine ⟨h.page, h.asked, fun hl => ?_, ?_, ?_⟩
  · show _ = streamOf t.request (c.down ++ itemsOf room ps)
    rw [streamOf_append, ← h.down hl, streamOf_itemsOf _ htext,
      List.drop_append_of_le_length h.taken, List.append_assoc]
  · rw [List.length_append]
    exact h.taken.trans (Nat.le_add_right ..)
  · exact List.forall_mem_append.mpr ⟨h.short, short_itemsOf hshort⟩

/-- Anything is written to a page that does not listen any more. -/
theorem Tied.write (h : Tied sent t c) (hl : ¬ Listens t.page) (b : Bytes) :
    Tied (sent ++ b) t c := by
  refine ⟨h.page, h.asked, fun hlive => absurd hlive hl, ?_, h.short⟩
  rw [List.length_append]
  exact h.taken.trans (Nat.le_add_right ..)

theorem Tied.upgrade (h : Tied sent t c) (hup : c.upgraded = false) :
    Tied (sent ++ t.request.accept) t c.upgrade := by
  have heq : c.upgrade = { c with upgraded := true, down := c.down ++ [(none, .response)] } := by
    unfold Client.upgrade
    rw [hup]
    rfl
  rw [heq]
  refine ⟨h.page, h.asked, fun hl => ?_, ?_, ?_⟩
  · show _ = streamOf t.request (c.down ++ [(none, .response)])
    rw [streamOf_append, ← h.down hl, List.drop_append_of_le_length h.taken, List.append_assoc]
    exact congrArg _ (congrArg _ (List.append_nil _).symm)
  · rw [List.length_append]
    exact h.taken.trans (Nat.le_add_right ..)
  · exact List.forall_mem_append.mpr ⟨h.short, by simp [Short]⟩

end Write

/-! ## Events of the server -/

theorem sent_texts {w : World} (hw : Wf w) (l : Label) :
    Signaling.sent l (Server.texts w) = Signaling.sent l w := by
  obtain ⟨w', he, -⟩ := step_effect hw l
  exact Effect.sent_eq (Server.wf_texts hw) (Server.effect_texts he)

theorem step_wire {w : World} (hw : Wf w) (l : Label) :
    (Signaling.step l w).wire = w.wire ++ Signaling.sent l w := by
  obtain ⟨w', he, hs⟩ := step_effect hw l
  rw [hs, World.emit_wire, he.wire_eq]

theorem bytesTo_append {w w' : World} {ps : List (PlayerId × Packet)} (h : w'.wire = w.wire ++ ps)
    (p : PlayerId) : bytesTo p w' = bytesTo p w ++ (inbox p ps).flatMap Packet.bytes := by
  rw [bytesTo, bytesTo, h, inbox_append, List.flatMap_append]

section Events

variable {w : World} {tab : PlayerId → Tab} {s : System} {p : PlayerId}

theorem Carries.event (h : Carries w tab s) {l : Label} {client : PlayerId → Client}
    (hpage : ∀ q, (client q).page = (s.client q).page)
    (hasked : ∀ q, (client q).asked = (s.client q).asked)
    (hdown : ∀ q, (client q).down = (s.client q).down) (hl : l.2 ≠ .connect)
    (hroomy : Roomy l s.world) (hs : Sound (System.serverEvent ⟨s.world, client⟩ l)) :
    Carries (Signaling.step l w) tab (System.serverEvent ⟨s.world, client⟩ l) := by
  have hw := h.sound.orderly.wf
  have hsent : Signaling.sent l s.world = Signaling.sent l w := by rw [← h.world, sent_texts h.wf]
  have hnext : (Signaling.step l s.world).nextPlayer = s.world.nextPlayer := nextPlayer_eq hw hl
  refine ⟨hs, h.wf.step l, ?_, fun q hq => ?_, fun q hq => ?_⟩
  · rw [Server.texts_step h.wf, h.world]
    rfl
  · replace hq : q < s.world.nextPlayer := hnext ▸ hq
    rw [bytesTo_append (step_wire h.wf l), ← hsent]
    refine ((h.tied q hq).congr (hpage q) (hasked q) (hdown q)).receive (fun k hk => ?_)
      fun k hk => hroomy.2 _ (mem_inbox.mp hk)
    obtain ⟨w', he, -⟩ := step_effect hw l
    exact he.text _ (mem_inbox.mp hk)
  · replace hq : s.world.nextPlayer ≤ q := hnext ▸ hq
    rw [step_wire h.wf, inbox_append, h.unborn q hq, List.nil_append, ← hsent]
    exact inbox_unregistered hw (h.sound.notMem hq)

/-- Nobody came or went, and nothing on its way to the server changed but what `p` says. -/
structure Served (s s' : System) (p : PlayerId) : Prop where
  nextPlayer : s'.world.nextPlayer = s.world.nextPlayer
  players : s'.world.players = s.world.players
  up : ∀ q ≠ p, (s'.client q).up = (s.client q).up
  upgraded : ∀ q ≠ p, (s'.client q).upgraded = (s.client q).upgraded

theorem Served.trans {s₁ s₂ s₃ : System} (h : Served s₁ s₂ p) (h' : Served s₂ s₃ p) :
    Served s₁ s₃ p :=
  ⟨h'.nextPlayer.trans h.nextPlayer, h'.players.trans h.players,
    fun q hq => (h'.up q hq).trans (h.up q hq),
    fun q hq => (h'.upgraded q hq).trans (h.upgraded q hq)⟩

theorem Carries.serve (h : Carries w tab s) (hp : p ∈ s.world.players) (o : Order)
    {x : Option RoomId × Web.Line} {up : List (Option RoomId × Web.Line)}
    (hup : (s.client p).up = x :: up)
    (hroomy : Roomy (o, .message p (utf8Encode x.2.text)) s.world) :
    Session.Fair (o, .serve p) s ∧
      Carries ((Server.io o p).apply w (.message (utf8Encode x.2.text))) tab
        (Session.step (o, .serve p) s) ∧
      Served s (Session.step (o, .serve p) s) p ∧
      ((Session.step (o, .serve p) s).client p).up = up ∧
      ((Session.step (o, .serve p) s).client p).upgraded = (s.client p).upgraded := by
  have hw := h.sound.orderly.wf
  have hlt := hw.player_lt p hp
  have hevent : s.event (o, .serve p) = some (o, .message p (utf8Encode x.2.text)) := by
    simp [System.event, hup]
  have hfair : Session.Fair (o, .serve p) s := by
    refine ⟨trivial, fun e he => ?_⟩
    rw [hevent] at he
    cases he
    exact hroomy.1
  have hstep : Session.step (o, .serve p) s =
      System.serverEvent ⟨s.world, update s.client p { s.client p with up }⟩
        (o, .message p (utf8Encode x.2.text)) := by
    simp only [Session.step, hup, System.modify, if_pos hlt]
  have hmem : p ∈ w.players := by
    have hplayers : (Server.texts w).players = w.players := rfl
    rw [← hplayers, h.world]
    exact hp
  have hsame : ∀ q, ∀ {α : Type} (f : Client → α), f { s.client p with up } = f (s.client p) →
      f (update s.client p { s.client p with up } q) = f (s.client q) := fun q _ f hf => by
    by_cases hqp : q = p
    · subst hqp
      rw [update_self, hf]
    · rw [update_of_ne hqp]
  have hsound := (h.sound.step hfair).1
  rw [hstep] at hsound ⊢
  refine ⟨hfair, ?_, ⟨nextPlayer_eq hw (by simp), players_message hw o p _,
    fun q hq => ?_, fun q _ => hsame q (·.upgraded) rfl⟩, ?_, hsame p (·.upgraded) rfl⟩
  · rw [Server.message_step h.wf hmem]
    exact h.event (fun q => hsame q (·.page) rfl) (fun q => hsame q (·.asked) rfl)
      (fun q => hsame q (·.down) rfl) (by simp) hroomy hsound
  · show (update s.client p { s.client p with up } q).up = _
    rw [update_of_ne hq]
  · show (update s.client p { s.client p with up } p).up = up
    rw [update_self]

/-- **The server handles lines**, one after the other. -/
theorem Carries.serveAll (o : Order) {xs up : List (Option RoomId × Web.Line)}
    (h : Carries w tab s) (hp : p ∈ s.world.players) (hup : (s.client p).up = xs ++ up)
    (hroomy : Guarded Signaling.step Roomy
      (xs.map fun x => (o, .message p (utf8Encode x.2.text))) s.world) :
    Reaches Session.step Session.Fair s fun s' =>
      Carries (Server.after o p (xs.map fun x => .message (utf8Encode x.2.text)) w) tab s' ∧
        Served s s' p ∧ (s'.client p).up = up ∧
          (s'.client p).upgraded = (s.client p).upgraded := by
  induction xs generalizing w s with
  | nil => exact .here ⟨h, ⟨rfl, rfl, fun _ _ => rfl, fun _ _ => rfl⟩, hup, rfl⟩
  | cons x xs ih =>
    obtain ⟨hx, hxs⟩ := hroomy
    obtain ⟨hfair, hcarries, hserved, hrest, hupgraded⟩ := h.serve hp o hup hx
    have hworld : (Session.step (o, .serve p) s).world =
        Signaling.step (o, .message p (utf8Encode x.2.text)) s.world := by
      simp only [Session.step, hup, List.cons_append, System.serverEvent, System.modify]
      split <;> rfl
    refine .next hfair (.bind (ih hcarries (hserved.players ▸ hp) hrest (hworld ▸ hxs)) ?_)
    rintro s' ⟨hcarries', hserved', hrest', hupgraded'⟩
    exact .here ⟨hcarries', hserved.trans hserved', hrest', hupgraded'.trans hupgraded⟩

theorem Carries.hangup (h : Carries w tab s) (o : Order) (p : PlayerId)
    (hroomy : Roomy (o, .disconnect p) s.world) :
    Session.Fair (o, .hangup p) s ∧
      Carries (Signaling.step (o, .disconnect p) w) tab (Session.step (o, .hangup p) s) := by
  have hfair : Session.Fair (o, .hangup p) s := by
    refine ⟨trivial, fun e he => ?_⟩
    cases he
    exact hroomy.1
  exact ⟨hfair, h.event (fun _ => rfl) (fun _ => rfl) (fun _ => rfl) (by simp) hroomy
    (h.sound.step hfair).1⟩

theorem Carries.raw (h : Carries w tab s) (hp : p < s.world.nextPlayer) {b : Bytes} {c : Client}
    (hs : Sound ⟨s.world, update s.client p c⟩) (hc : Tied (bytesTo p w ++ b) (tab p) c) :
    Carries (w.emit [(p, .raw b)]) tab ⟨s.world, update s.client p c⟩ := by
  refine ⟨hs, h.wf.emit _, ?_, fun q hq => ?_, fun q hq => ?_⟩
  · rw [Server.texts_emit_raw]
    exact h.world
  · rw [bytesTo_append (World.emit_wire ..)]
    show Tied _ _ (update s.client p c q)
    by_cases hqp : q = p
    · subst hqp
      rw [update_self]
      simpa [Packet.bytes] using hc
    · rw [update_of_ne hqp]
      simpa [hqp] using h.tied q hq
  · have hqp : q ≠ p := fun heq => absurd (heq ▸ hp) (not_lt.mpr hq)
    rw [World.emit_wire, inbox_append, h.unborn q hq]
    simp [hqp]

theorem Carries.write (h : Carries w tab s) (hl : ¬ Listens (tab p).page)
    (hp : p < s.world.nextPlayer) (b : Bytes) : Carries (w.emit [(p, .raw b)]) tab s := by
  have hsame : (⟨s.world, update s.client p (s.client p)⟩ : System) = s := by rw [update_eq_self]
  have hsound : Sound ⟨s.world, update s.client p (s.client p)⟩ := by
    rw [hsame]
    exact h.sound
  have hraw := h.raw hp hsound ((h.tied p hp).write hl b)
  rwa [hsame] at hraw

theorem Carries.upgrade (h : Carries w tab s) (hp : p ∈ s.world.players)
    (hup : (s.client p).upgraded = false) (o : Order) :
    Session.Fair (o, .upgrade p) s ∧
      Session.step (o, .upgrade p) s = ⟨s.world, update s.client p (s.client p).upgrade⟩ ∧
      Carries (w.emit [(p, .raw (tab p).request.accept)]) tab
        ⟨s.world, update s.client p (s.client p).upgrade⟩ := by
  have hlt := h.sound.orderly.wf.player_lt p hp
  have hfair : Session.Fair (o, .upgrade p) s := ⟨trivial, fun _ he => by cases he⟩
  have hstep : Session.step (o, .upgrade p) s =
      ⟨s.world, update s.client p (s.client p).upgrade⟩ := by
    simp only [Session.step, if_pos hp, System.modify, if_pos hlt]
  have hsound := (h.sound.step hfair).1
  rw [hstep] at hsound
  exact ⟨hfair, hstep, h.raw hlt hsound ((h.tied p hlt).upgrade hup)⟩

end Events

/-! ## Events at a page -/

section Page

variable {sent : Bytes} {conn : Ws.Connection} {t u : Tab} {c c' : Client} {e : Web.Event}

theorem Sends.congr (h : Sends conn t c) (hpage : u.page = t.page) (hout : u.out = t.out)
    (hrequest : u.request = t.request) (hup : c'.up = c.up)
    (hupgraded : c'.upgraded = c.upgraded) : Sends conn u c' := by
  cases h with
  | greeting hs hu hnil hws hb =>
    exact .greeting hs (hupgraded.trans hu) (hup.trans hnil) (hpage ▸ hws)
      (by rw [hout, hrequest]; exact hb)
  | talking hs hu hr => exact .talking hs (hupgraded.trans hu) (by rw [hup, hout]; exact hr)
  | leaving hs hu hws hr =>
    exact .leaving hs (hupgraded.trans hu) (hpage ▸ hws) (by rw [hup, hout]; exact hr)

/-- A page that does not listen is not heard from, and closes nothing. -/
theorem closing_shut (h : t.page.ws ≠ .open) : t.closing e = [] := if_neg fun hc => h hc.1

theorem Sends.happen (h : Sends conn t c)
    (hup : ∃ g, c'.up = c.up ++ (Web.linesOf (t.page.step e).2).map (g, ·))
    (hupgraded : c'.upgraded = c.upgraded)
    (hshort : ∀ line ∈ Web.linesOf (t.page.step e).2, (utf8Encode line.text).length ≤ 2 ^ 20)
    (hopens : e = .wsOpen → c.upgraded = true) : Sends conn (t.happen e) c' := by
  obtain ⟨g, hup⟩ := hup
  obtain ⟨bs, keys, heq, hreads⟩ := t.happen_eq e
  replace hreads := hreads hshort
  have hframes : c'.up.map (fun x => lineFrame x.2) =
      c.up.map (fun x => lineFrame x.2) ++ (Web.linesOf (t.page.step e).2).map lineFrame := by
    rw [hup, List.map_append, List.map_map]
    rfl
  rw [heq]
  cases h with
  | greeting hs hu hnil hws hb =>
    have he : e ≠ .wsOpen := fun he => Bool.false_ne_true (hu.symm.trans (hopens he))
    obtain ⟨hlines, hws'⟩ := t.page.step_shut he hws
    rw [hlines, closing_shut hws] at hreads
    obtain rfl : [] = bs := hreads.2
    refine .greeting hs (hupgraded.trans hu) ?_ hws' ?_
    · rw [hup, hnil, hlines]
      rfl
    · rw [List.append_nil]
      exact hb
  | talking hs hu hr =>
    have hboth := hr.append hreads
    rw [List.append_assoc, ← List.append_assoc (List.map _ _), ← hframes] at hboth
    unfold Tab.closing at hboth
    split at hboth
    · rename_i hclose
      exact .leaving hs (hupgraded.trans hu) (.inl hclose.2) hboth
    · rw [List.append_nil] at hboth
      exact .talking hs (hupgraded.trans hu) hboth
  | leaving hs hu hws hr =>
    have hopen : t.page.ws ≠ .open := by rcases hws with h | h <;> rw [h] <;> simp
    obtain ⟨hlines, hws'⟩ := t.page.step_ended (e := e) hws
    rw [hlines, closing_shut hopen] at hreads
    obtain rfl : [] = bs := hreads.2
    rw [hlines, List.map_nil, List.append_nil] at hframes
    refine .leaving hs (hupgraded.trans hu) hws' ?_
    rw [hframes, List.append_nil]
    exact hr

theorem listens_step (h : Listens (t.page.step e).1) : Listens t.page := by
  rcases ws_cases t.page with hl | hl
  · exact hl
  · rcases (t.page.step_ended (e := e) hl).2 with hw | hw <;>
      rcases h with h | h <;> exact absurd (hw.symm.trans h) (by simp)

theorem Tied.happen (h : Tied sent t c) (hpage : c'.page = (t.page.step e).1)
    (hasked : c'.asked =
      ((t.asked && !answers e) || (Web.linesOf (t.page.step e).2).any (·.isRequest)))
    (hdown : c'.down = c.down) : Tied sent (t.happen e) c' := by
  obtain ⟨bs, keys, heq, -⟩ := t.happen_eq e
  rw [heq]
  exact ⟨hpage, hasked, fun hl => hdown ▸ h.down (listens_step hl), h.taken, hdown ▸ h.short⟩

theorem Tied.step (h : Tied sent t c) (he : answers e = false) :
    Tied sent (t.happen e) (c.happen e) := by
  have hstep : c.page.step e = t.page.step e := by rw [h.page]
  rw [happen_eq (c := c) rfl, hstep]
  refine h.happen rfl ?_ rfl
  rw [he, ← h.asked, Bool.not_false, Bool.and_true]

theorem Sends.step (h : Sends conn t c) (hpage : c.page = t.page)
    (hshort : ∀ line ∈ Web.linesOf (t.page.step e).2, (utf8Encode line.text).length ≤ 2 ^ 20)
    (hopens : e = .wsOpen → c.upgraded = true) : Sends conn (t.happen e) (c.happen e) := by
  have hstep : c.page.step e = t.page.step e := by rw [hpage]
  rw [happen_eq (c := c) rfl, hstep]
  exact h.happen ⟨c.game, rfl⟩ rfl hshort hopens

/-- What is dropped does not matter to a page that does not listen. -/
theorem Tied.deaf (h : Tied sent t c) (hl : ¬ Listens t.page)
    {down : List (Option RoomId × Item)} (hdown : ∀ x ∈ down, x ∈ c.down) :
    Tied sent t { c with down } :=
  ⟨h.page, h.asked, fun hlive => absurd hlive hl, h.taken, fun x hx => h.short x (hdown x hx)⟩

theorem deliver_call {room : Option RoomId} {msg : Msg} {call : Web.Call}
    {down : List (Option RoomId × Item)} (hdown : c.down = (room, .line msg) :: down)
    (hws : c.page.ws = .open) (hm : Means msg call) :
    ∃ game heard, c.deliver =
      { c with
        page := (c.page.onCall call).1
        up := c.up ++ (Web.linesOf (c.page.onCall call).2).map (game, ·)
        down := down
        asked := c.asked && !isAnswer call
        game
        heard } :=
  ⟨_, _, (deliver_line hdown).trans (hear_eq (c := { c with down }) hws hm room)⟩

variable {room : Option RoomId} {msg : Msg} {call : Web.Call} {data : Web.Str}
  {down : List (Option RoomId × Item)}

theorem step_call (hopen : t.page.ws = .open)
    (hcall : Web.Signaling.handleMessage data = some call) :
    t.page.step (.wsMessage data) = t.page.onCall call := by
  simp only [Web.Page.step, hopen, if_true, hcall]

theorem Tied.hear (h : Tied sent t { c with down }) (hdown : c.down = (room, .line msg) :: down)
    (hopen : t.page.ws = .open) (hm : Means msg call)
    (hcall : Web.Signaling.handleMessage data = some call) :
    Tied sent (t.happen (.wsMessage data)) c.deliver := by
  have hpage : c.page = t.page := h.page
  have hasked : c.asked = t.asked := h.asked
  have hstep := step_call hopen hcall
  obtain ⟨game, heard, heq⟩ := deliver_call hdown (hpage ▸ hopen) hm
  have hlines : (Web.linesOf (t.page.onCall call).2).any (·.isRequest) = false := by
    rcases linesOf_onCall t.page call with hl | hl <;> rw [hl] <;> rfl
  rw [heq]
  refine h.happen ?_ ?_ rfl
  · rw [hstep, hpage]
  · rw [hstep, hlines, Bool.or_false, answers, hcall, hasked]
    rfl

theorem Sends.hear (h : Sends conn t c) (hdown : c.down = (room, .line msg) :: down)
    (hpage : c.page = t.page) (hopen : t.page.ws = .open) (hm : Means msg call)
    (hcall : Web.Signaling.handleMessage data = some call) :
    Sends conn (t.happen (.wsMessage data)) c.deliver := by
  have hstep := step_call hopen hcall
  obtain ⟨game, heard, heq⟩ := deliver_call hdown (hpage ▸ hopen) hm
  rw [heq]
  refine h.happen ⟨game, ?_⟩ rfl (fun line hline => ?_) (by simp)
  · rw [hstep, hpage]
  · rw [hstep] at hline
    rcases linesOf_onCall t.page call with hl | hl <;> rw [hl] at hline
    · cases hline
    · obtain rfl := List.mem_singleton.mp hline
      decide

end Page

end PongPp.Net
