import PongPp.Session.Serve
import PongPp.Session.View
import PongPp.Signaling.Departure

/-!
# Pages and server agree

`Sound` is the invariant of pages and server together: everything on its way to a page takes the
page from the phase it shows to a phase that goes with its seat, and the page's lines on their way
to the server are ones that phase allows. Every fair move keeps it (`Sound.step`).
-/

namespace PongPp.Session

open Function Lib Signaling

/-- What is on its way takes the page to `φ`, as long as its socket is not closed. -/
def Client.Heading (c : Client) (φ : Phase) : Prop :=
  c.page.ws = .connecting ∨ c.page.ws = .open → ∃ φ₀, c.Shows φ₀ ∧ φ₀.after c.down = some φ

/-- The phase that a client is going to be in. -/
structure Fits (w : World) (p : PlayerId) (c : Client) (φ : Phase) : Prop where
  seat : p ∈ w.players → Seat w p φ ∧ Admits c φ
  view : c.Heading φ

structure Sound (s : System) : Prop where
  orderly : Orderly s.world
  unborn : ∀ p, s.world.nextPlayer ≤ p → s.client p = .init
  fits : ∀ p < s.world.nextPlayer, ∃ φ, Fits s.world p (s.client p) φ

/-! ## Events of the server -/

section Server

variable {w : World} {l : Label} {p q : PlayerId} {c : Client} {φ : Phase}

theorem Admits.congr {c' : Client} (h : Admits c φ) (hup : c'.up = c.up)
    (hupgraded : c'.upgraded = c.upgraded) : Admits c' φ := by
  cases φ <;> (simp only [Admits, hup, hupgraded]; exact h)

theorem inbox_unregistered (hw : Wf w) (hq : q ∉ w.players) : inbox q (sent l w) = [] := by
  obtain ⟨w', he, -⟩ := step_effect hw l
  refine inbox_eq_nil fun x hx hxq => hq ?_
  obtain ⟨x, k⟩ := x
  obtain rfl : x = q := hxq
  exact he.recipient hw hx

theorem receive_nil (c : Client) (room : Option RoomId) : c.receive room [] = c := by
  unfold Client.receive
  rw [itemsOf_nil, List.append_nil]

theorem Client.Heading.receive {φ' : Phase} {room : Option RoomId} {ps : List Packet}
    (h : c.Heading φ) (hafter : φ.after (itemsOf room ps) = some φ') :
    (c.receive room ps).Heading φ' := by
  intro hws
  obtain ⟨φ₀, hshows, hφ⟩ := h hws
  refine ⟨φ₀, hshows, ?_⟩
  show φ₀.after (c.down ++ _) = _
  rw [Phase.after_append, hφ]
  exact hafter

theorem Fits.gone (h : Fits w p c φ) (hp : p ∉ (Signaling.step l w).players)
    (hinbox : inbox p (sent l w) = []) (room : Option RoomId) :
    Fits (Signaling.step l w) p (c.receive room (inbox p (sent l w))) φ := by
  rw [hinbox, receive_nil]
  exact ⟨fun h => absurd h hp, h.view⟩

theorem Fits.bystander (hw : Orderly w) (hd : Disciplined l w) (hc : CodeLeft l w)
    (hutf8 : ∀ p m, l.2 = .message p m → Utf8 m) (hlt : q < w.nextPlayer) (hspares : Spares q l.2)
    (h : Fits w q c φ) :
    ∃ φ', Fits (Signaling.step l w) q
      (c.receive ((Signaling.step l w).roomOf q) (inbox q (sent l w))) φ' := by
  by_cases hq : q ∈ w.players
  · obtain ⟨hseat, hadm⟩ := h.seat hq
    obtain ⟨φ', hseat', hafter, hadmits⟩ := Session.bystander hw hd hc hq hspares hutf8 hseat
    exact ⟨φ', fun _ => ⟨hseat', (hadmits c hadm).congr rfl rfl⟩, h.view.receive hafter⟩
  · exact ⟨φ, h.gone (gone_step hw.wf l hlt hq) (inbox_unregistered hw.wf hq) _⟩

theorem nextPlayer_eq (hw : Wf w) (hl : l.2 ≠ .connect) :
    (Signaling.step l w).nextPlayer = w.nextPlayer := by
  refine step_rule hw (P := fun v => v.nextPlayer = w.nextPlayer) (fun _ _ h => h)
    fun w' ps he => ?_
  obtain ⟨o, e⟩ := l
  cases he with
  | connect => exact absurd rfl hl
  | _ => rfl

end Server

namespace Sound

variable {s : System} {p : PlayerId}

theorem notMem (h : Sound s) (hp : s.world.nextPlayer ≤ p) : p ∉ s.world.players := fun hm =>
  absurd (h.orderly.wf.player_lt p hm) (not_lt.mpr hp)

theorem serverEvent (h : Sound s) (client : PlayerId → Client) {l : Label}
    (hd : Disciplined l s.world) (hc : CodeLeft l s.world)
    (hutf8 : ∀ p m, l.2 = .message p m → Utf8 m) (hl : l.2 ≠ .connect)
    (hother : ∀ q, Spares q l.2 ∨ s.world.nextPlayer ≤ q → client q = s.client q)
    (hself : ∀ p < s.world.nextPlayer, ¬ Spares p l.2 →
      ∃ φ, Fits (Signaling.step l s.world) p
        ((client p).receive ((Signaling.step l s.world).roomOf p) (inbox p (sent l s.world))) φ) :
    Sound (System.serverEvent ⟨s.world, client⟩ l) := by
  have hnext := nextPlayer_eq h.orderly.wf hl
  refine ⟨h.orderly.step hd hc, fun q hq => ?_, fun q hq => ?_⟩
  · replace hq : s.world.nextPlayer ≤ q := hnext ▸ hq
    show (client q).receive _ (inbox q (sent l s.world)) = _
    rw [hother q (.inr hq), inbox_unregistered h.orderly.wf (h.notMem hq), receive_nil,
      h.unborn q hq]
  · replace hq : q < s.world.nextPlayer := hnext ▸ hq
    by_cases hspares : Spares q l.2
    · obtain ⟨φ, hφ⟩ := h.fits q hq
      show ∃ φ, Fits _ q ((client q).receive _ _) φ
      rw [hother q (.inl hspares)]
      exact hφ.bystander h.orderly hd hc hutf8 hq hspares
    · exact hself q hq hspares

theorem connect (h : Sound s) (o : Order) : Sound (s.serverEvent (o, .connect)) := by
  have hw := h.orderly
  have hstep : Signaling.step (o, .connect) s.world = s.world.register := rfl
  have hd : Disciplined (o, .connect) s.world := trivial
  have hc : CodeLeft (o, .connect) s.world := fun h => by cases h
  refine ⟨hw.step hd hc, fun q hq => ?_, fun q hq => ?_⟩
  · have hlt : s.world.nextPlayer ≤ q := Nat.le_of_succ_le hq
    show (s.client q).receive _ (inbox q (sent _ s.world)) = _
    rw [inbox_unregistered hw.wf (h.notMem hlt), receive_nil, h.unborn q hlt]
  · show ∃ φ, Fits _ q ((s.client q).receive _ (inbox q (sent _ s.world))) φ
    rcases Nat.lt_succ_iff_lt_or_eq.mp hq with hlt | rfl
    · obtain ⟨φ, hφ⟩ := h.fits q hlt
      exact hφ.bystander hw hd hc (fun p m h => by cases h) hlt trivial
    · rw [inbox_unregistered hw.wf hw.wf.fresh_notMem, receive_nil, h.unborn _ le_rfl]
      refine ⟨.connecting, fun _ => ⟨?_, rfl, rfl⟩, fun _ => ⟨.connecting, ?_, rfl⟩⟩
      · show (Signaling.step (o, .connect) s.world).roomOf _ = none
        rw [hstep, hw.wf.roomOf_register]
        exact hw.wf.roomless hw.wf.fresh_notMem
      · exact ⟨⟨rfl, rfl, rfl, rfl⟩, rfl⟩

theorem hangup (h : Sound s) (o : Order) (p : PlayerId) :
    Sound (s.serverEvent (o, .disconnect p)) := by
  have hw := h.orderly
  refine h.serverEvent s.client (l := (o, .disconnect p)) trivial
    (fun h => by cases h) (fun p m h => by cases h) nofun (fun _ _ => rfl) fun q hq hself => ?_
  obtain rfl : p = q := not_not.mp hself
  obtain ⟨φ, hφ⟩ := h.fits p hq
  by_cases hp : p ∈ s.world.players
  · have he : Effect s.world o (.disconnect p) _ _ := .disconnect p hp
    have hgone : p ∉ (Signaling.step (o, .disconnect p) s.world).players := by
      rw [he.step_eq (l := (o, .disconnect p)) hw.wf]
      exact fun hm => (hw.wf.nodup.mem_erase_iff.mp hm).1 rfl
    refine ⟨φ, hφ.gone hgone ?_ _⟩
    rw [Effect.sent_eq (l := (o, .disconnect p)) hw.wf he]
    refine inbox_eq_nil fun x hx hxp => ?_
    obtain ⟨x, k⟩ := x
    obtain rfl : x = p := hxp
    have hself : s.world.peerOf x ≠ some x := fun hpeer => (hw.tidy.peer_room hpeer).1 rfl
    rcases World.mem_farewell hx with ⟨hpeer, -⟩ | hlist
    · exact hself hpeer
    · -- while the list is sent it still has its room, and without one there is no list
      have hroom : s.world.roomOf x = none :=
        (if_neg hself).symm.trans ((World.mem_roomList _ o).mp hlist).2.1
      rw [World.farewell, hroom] at hx
      cases hx
  · exact ⟨φ, hφ.gone (gone_step hw.wf _ hq hp) (inbox_unregistered hw.wf hp) _⟩

/-! ## The next line of a page -/

theorem serve (h : Sound s) (o : Order) {x : Option RoomId × Web.Line}
    {up : List (Option RoomId × Web.Line)} (hup : (s.client p).up = x :: up)
    (hc : CodeLeft (o, .message p (utf8Encode x.2.text)) s.world) :
    Disciplined (o, .message p (utf8Encode x.2.text)) s.world ∧
      Sound ((s.modify p ({ · with up })).serverEvent (o, .message p (utf8Encode x.2.text))) := by
  have hw := h.orderly
  have hlt : p < s.world.nextPlayer := by
    by_contra hge
    have hnil : (s.client p).up = [] := by rw [h.unborn p (not_lt.mp hge)]; rfl
    exact absurd (hup.symm.trans hnil) nofun
  obtain ⟨φ, hφ⟩ := h.fits p hlt
  have hd : Disciplined (o, .message p (utf8Encode x.2.text)) s.world := fun hp =>
    (serve_self (o := o) hw hp (hφ.seat hp).1 hup (hφ.seat hp).2).1 hp
  refine ⟨hd, ?_⟩
  rw [System.modify, if_pos hlt]
  refine h.serverEvent _ (l := (o, .message p (utf8Encode x.2.text))) hd hc ?_ nofun ?_ ?_
  · rintro q m ⟨⟩
    exact ⟨_, rfl⟩
  · intro q hq
    have hne : q ≠ p := by
      rintro rfl
      exact hq.elim (fun h => h rfl) (fun h => absurd hlt (not_lt.mpr h))
    exact update_of_ne hne _ _
  · intro q hq hself
    obtain rfl : p = q := not_not.mp hself
    rw [update_self]
    by_cases hp : p ∈ s.world.players
    · obtain ⟨hseat, hadm⟩ := hφ.seat hp
      obtain ⟨-, φ', hseat', hafter, hadm'⟩ := serve_self (o := o) hw hp hseat hup hadm
      exact ⟨φ', fun _ => ⟨hseat', hadm'.congr rfl rfl⟩,
        Client.Heading.receive (c := { s.client p with up }) hφ.view hafter⟩
    · exact ⟨φ, Fits.gone (c := { s.client p with up }) ⟨fun h => absurd h hp, hφ.view⟩
        (gone_step hw.wf _ hq hp) (inbox_unregistered hw.wf hp) _⟩

/-! ## Moves of one client -/

theorem modify (h : Sound s) {f : Client → Client}
    (hf : ∀ φ, Fits s.world p (s.client p) φ → ∃ φ', Fits s.world p (f (s.client p)) φ') :
    Sound (s.modify p f) := by
  unfold System.modify
  split
  · rename_i hp
    refine ⟨h.orderly, fun q hq => ?_, fun q hq => ?_⟩
    · have hne : q ≠ p := by
        rintro rfl
        exact absurd hp (not_lt.mpr hq)
      exact (update_of_ne hne _ _).trans (h.unborn q hq)
    · by_cases hqp : q = p
      · subst hqp
        obtain ⟨φ, hφ⟩ := h.fits q hq
        show ∃ φ, Fits s.world q (update s.client q _ q) φ
        rw [update_self]
        exact hf φ hφ
      · show ∃ φ, Fits s.world q (update s.client p _ q) φ
        rw [update_of_ne hqp]
        exact h.fits q hq
  · exact h

end Sound

section Client

variable {w : World} {p : PlayerId} {c : Client} {φ : Phase}

theorem Fits.upgrade (h : Fits w p c φ) (hp : p ∈ w.players) : ∃ φ', Fits w p c.upgrade φ' := by
  unfold Client.upgrade
  cases hup : c.upgraded with
  | true => exact ⟨φ, h⟩
  | false =>
    obtain ⟨hseat, hadm⟩ := h.seat hp
    have key : ∀ φ', φ.next (none, .response) = some φ' → Seat w p φ' →
        (∀ c', c'.up = c.up → c'.upgraded = true → Admits c' φ') →
        ∃ φ', Fits w p { c with upgraded := true, down := c.down ++ [(none, .response)] } φ' := by
      intro φ' hnext hseat' hadm'
      refine ⟨φ', fun _ => ⟨hseat', hadm' _ rfl rfl⟩, fun hws => ?_⟩
      obtain ⟨φ₀, hshows, hafter⟩ := h.view hws
      refine ⟨φ₀, hshows, ?_⟩
      show φ₀.after (c.down ++ _) = _
      rw [Phase.after_append, hafter]
      simp [Phase.after_cons, hnext]
    cases φ with
    | connecting =>
      refine key .idle rfl hseat fun c' hc hu => ⟨hu, ?_⟩
      rw [hc, hadm.1]
      exact fun x hx => absurd hx List.not_mem_nil
    | failed => exact key .failed rfl hseat fun c' hc _ => hc.trans hadm
    | _ => exact absurd (hup.symm.trans hadm.1) nofun

theorem Fits.ended {c' : Client} (h : Fits w p c φ)
    (hws : c'.page.ws = .closing ∨ c'.page.ws = .closed) (hup : c'.up = c.up)
    (hupgraded : c'.upgraded = c.upgraded) : Fits w p c' φ := by
  refine ⟨fun hp => ⟨(h.seat hp).1, (h.seat hp).2.congr hup hupgraded⟩, fun hopen => ?_⟩
  rcases hws with h | h <;> rw [h] at hopen <;> rcases hopen with h | h <;> cases h

theorem ws_cases (p : Web.Page) :
    (p.ws = .connecting ∨ p.ws = .open) ∨ p.ws = .closing ∨ p.ws = .closed := by
  cases p.ws <;> simp

theorem Fits.happen (h : Fits w p c φ) {e : Web.Event} (he : e.isLocal = true)
    (hask : (Web.linesOf (c.page.step e).2).any (·.isRequest) = true → c.asked = false)
    (hend : Envelope e) : ∃ φ', Fits w p (c.happen e) φ' := by
  rcases ws_cases c.page with hws | hws
  · obtain ⟨φ₀, hshows, hafter⟩ := h.view hws
    rcases happen_shows hshows he hask hend with ⟨hclosing, hup, -⟩ | ⟨φ₁, hshows', hacts⟩
    · exact ⟨φ, h.ended (.inl hclosing) hup rfl⟩
    · cases hacts with
      | stays _ hup =>
        exact ⟨φ, fun hp => ⟨(h.seat hp).1, (h.seat hp).2.congr hup rfl⟩,
          fun _ => ⟨φ₀, hshows', hafter⟩⟩
      | asks line hline hup =>
        obtain ⟨rfl, hasking⟩ := Phase.after_asking hafter
        refine ⟨.asking, fun hp => ⟨(h.seat hp).1, ?_⟩, fun _ => ⟨.asking, hshows', hasking⟩⟩
        obtain ⟨hupgraded, hquiet⟩ := (h.seat hp).2
        exact ⟨hupgraded, c.up, (c.game, line), hup, hquiet, hline⟩
      | signals r role body hbody hup =>
        refine ⟨φ, fun hp => ⟨(h.seat hp).1, ?_⟩, fun _ => ⟨_, hshows', hafter⟩⟩
        obtain ⟨-, hadm⟩ := h.seat hp
        rcases Phase.after_playing hafter with rfl | rfl
        · refine ⟨hadm.1, ?_⟩
          rw [hup, List.forall_mem_append]
          exact ⟨hadm.2, by simpa using hbody⟩
        · refine ⟨hadm.1, ?_⟩
          rw [hup, List.forall_mem_append]
          exact ⟨hadm.2, by simpa [Quiet] using hbody⟩
  · obtain ⟨hsame, hup, -⟩ := happen_ended hws he
    exact ⟨φ, h.ended (hsame ▸ hws) hup rfl⟩

theorem Fits.deliver (h : Fits w p c φ) : ∃ φ', Fits w p c.deliver φ' := by
  refine ⟨φ, ?_⟩
  rcases ws_cases c.page with hws | hws
  · cases hdown : c.down with
    | nil =>
      have hsame : c.deliver = c := by
        unfold Client.deliver
        rw [hdown]
      rw [hsame]
      exact h
    | cons x down =>
      obtain ⟨φ₀, hshows, hafter⟩ := h.view hws
      rw [hdown, Phase.after_cons] at hafter
      obtain ⟨φ₁, hnext, hrest⟩ := Option.bind_eq_some_iff.mp hafter
      obtain ⟨hdn, hupgraded, hview, hup⟩ := deliver_shows hshows hdown hnext
      refine ⟨fun hp => ⟨(h.seat hp).1, ?_⟩, fun hopen => ?_⟩
      · rcases hup with hup | ⟨rfl, game, hup⟩
        · exact (h.seat hp).2.congr hup hupgraded
        · obtain ⟨rfl, -⟩ := Phase.after_asking hrest
          obtain ⟨hadm, hquiet⟩ := (h.seat hp).2
          refine ⟨hupgraded.trans hadm, ?_⟩
          rw [hup, List.forall_mem_append]
          exact ⟨hquiet, by simp [Quiet]⟩
      · by_cases hfailed : φ₁ = .failed
        · rw [if_pos hfailed] at hview
          rcases hopen with h | h <;> exact absurd (hview.symm.trans h) nofun
        · rw [if_neg hfailed] at hview
          exact ⟨φ₁, hview, by rw [hdn]; exact hrest⟩
  · rw [deliver_ended hws]
    exact h.ended hws rfl rfl

theorem Fits.lost (h : Fits w p c φ) : Fits w p (c.happen .wsClose) φ := by
  obtain ⟨hws, hup, -⟩ := lost_eq c
  exact h.ended (.inr hws) hup rfl

end Client

/-! ## Moves -/

namespace Sound

variable {s : System}

theorem init : Sound .init :=
  ⟨orderly_init, fun _ _ => rfl, fun _ hp => absurd hp (Nat.not_lt_zero _)⟩

/-- **A fair move** keeps pages and server in step; what the server handles comes from the lobby
if it asks for a seat. -/
theorem step (h : Sound s) {l : Order × Move} (hl : Fair l s) :
    Sound (step l s) ∧ ∀ e ∈ s.event l, Disciplined e s.world := by
  obtain ⟨o, m⟩ := l
  obtain ⟨hpatient, hcodes⟩ := hl
  cases m with
  | connect =>
    refine ⟨h.connect o, fun e he => ?_⟩
    cases he
    trivial
  | upgrade p =>
    refine ⟨?_, nofun⟩
    simp only [Session.step]
    split
    · exact h.modify fun φ hφ => hφ.upgrade ‹_›
    · exact h
  | happen p e =>
    refine ⟨?_, nofun⟩
    simp only [Session.step]
    split
    · exact h.modify fun φ hφ => hφ.happen ‹_› hpatient.1 hpatient.2
    · exact h
  | serve p =>
    cases hup : (s.client p).up with
    | nil =>
      have hsame : Session.step (o, .serve p) s = s := by simp only [Session.step, hup]
      have hnone : s.event (o, .serve p) = none := by simp [System.event, hup]
      rw [hsame, hnone]
      exact ⟨h, nofun⟩
    | cons x up =>
      have hevent : s.event (o, .serve p) = some (o, .message p (utf8Encode x.2.text)) := by
        simp [System.event, hup]
      have hstep : Session.step (o, .serve p) s =
          (s.modify p ({ · with up })).serverEvent (o, .message p (utf8Encode x.2.text)) := by
        simp only [Session.step, hup]
      obtain ⟨hd, hs⟩ := h.serve o hup (hcodes _ hevent)
      rw [hstep, hevent]
      refine ⟨hs, fun e he => ?_⟩
      cases he
      exact hd
  | deliver p => exact ⟨h.modify fun φ hφ => hφ.deliver, nofun⟩
  | hangup p =>
    refine ⟨h.hangup o p, fun e he => ?_⟩
    cases he
    trivial
  | lost p => exact ⟨h.modify (f := (·.happen .wsClose)) fun φ hφ => ⟨φ, hφ.lost⟩, nofun⟩

theorem run {ls : List (Order × Move)} (h : Guarded Session.step Fair ls .init) :
    Sound (run Session.step ls .init) :=
  run_inv_guarded (fun _ _ hl h => (h.step hl).1) h init

end Sound

end PongPp.Session
