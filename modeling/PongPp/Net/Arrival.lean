import PongPp.Net.Carry

/-!
# What arrives at a page

`Refines` connects browsers and server with nothing but bytes between them to the system in which
lines are on their way. When bytes arrive at a page, the system delivers the lines that they
complete (`Refines.read`).
-/

namespace PongPp.Net

open Function Lib Signaling Session

/-- `s` is what the network is in terms of lines. -/
structure Refines (n : State) (s : System) : Prop extends Carries n.server.world n.tab s where
  sends : ∀ p ∈ s.world.players, Sends (n.server.conn p) (n.tab p) (s.client p)

/-- The system can follow to where the network is. -/
abbrev Follows (n : State) (s : System) : Prop := Reaches Session.step Session.Fair s (Refines n)

namespace Refines

variable {n : State} {s : System} {p : PlayerId}

/-! ## One tab -/

theorem move (h : Refines n s) {l : Order × Session.Move} {t : Tab} {c : Client}
    (hp : p < s.world.nextPlayer) (hfair : Session.Fair l s)
    (hstep : Session.step l s = ⟨s.world, update s.client p c⟩)
    (ht : Tied (bytesTo p n.server.world) t c)
    (hsends : p ∈ s.world.players → Sends (n.server.conn p) t c) :
    Refines ⟨n.server, update n.tab p t⟩ ⟨s.world, update s.client p c⟩ := by
  have hsound := (h.sound.step hfair).1
  rw [hstep] at hsound
  refine ⟨⟨hsound, h.wf, h.world, fun q hq => ?_, h.unborn⟩, fun q hq => ?_⟩
  · show Tied _ (update n.tab p t q) (update s.client p c q)
    by_cases hqp : q = p
    · subst hqp
      rw [update_self, update_self]
      exact ht
    · rw [update_of_ne hqp, update_of_ne hqp]
      exact h.tied q hq
  · show Sends _ (update n.tab p t q) (update s.client p c q)
    by_cases hqp : q = p
    · subst hqp
      rw [update_self, update_self]
      exact hsends hq
    · rw [update_of_ne hqp, update_of_ne hqp]
      exact h.sends q hq

theorem retab (h : Refines n s) {t : Tab}
    (ht : p < s.world.nextPlayer → Tied (bytesTo p n.server.world) t (s.client p))
    (hsends : p ∈ s.world.players → Sends (n.server.conn p) t (s.client p)) :
    Refines ⟨n.server, update n.tab p t⟩ s := by
  refine ⟨⟨h.sound, h.wf, h.world, fun q hq => ?_, h.unborn⟩, fun q hq => ?_⟩
  · show Tied _ (update n.tab p t q) _
    by_cases hqp : q = p
    · subst hqp
      rw [update_self]
      exact ht hq
    · rw [update_of_ne hqp]
      exact h.tied q hq
  · show Sends _ (update n.tab p t q) _
    by_cases hqp : q = p
    · subst hqp
      rw [update_self]
      exact hsends hq
    · rw [update_of_ne hqp]
      exact h.sends q hq

theorem deliver (h : Refines n s) {t : Tab} (hp : p < s.world.nextPlayer)
    (ht : Tied (bytesTo p n.server.world) t (s.client p).deliver)
    (hsends : p ∈ s.world.players → Sends (n.server.conn p) t (s.client p).deliver) :
    Session.Fair (.id, .deliver p) s ∧
      Session.step (.id, .deliver p) s =
        ⟨s.world, update s.client p (s.client p).deliver⟩ ∧
      Refines ⟨n.server, update n.tab p t⟩
        ⟨s.world, update s.client p (s.client p).deliver⟩ := by
  have hfair : Session.Fair (.id, .deliver p) s := ⟨trivial, fun _ he => by cases he⟩
  have hstep : Session.step (.id, .deliver p) s =
      ⟨s.world, update s.client p (s.client p).deliver⟩ := if_pos hp
  exact ⟨hfair, hstep, h.move hp hfair hstep ht hsends⟩

end Refines

/-! ## Bytes arrive -/

section Read

variable {server : Server.State} {tab : PlayerId → Tab} {s : System} {p : PlayerId} {t : Tab}

/-- A call leaves the socket open. -/
theorem onCall_ws (page : Web.Page) (call : Web.Call) : (page.onCall call).1.ws = page.ws := by
  cases call with
  | onRooms codes =>
    simp only [Web.Page.onCall, Web.Page.onRooms]
    split <;> rfl
  | onError reason =>
    simp only [Web.Page.onCall, Web.Page.onError]
    split_ifs <;> rfl
  | _ => rfl

theorem Refines.tied_at (h : Refines ⟨server, update tab p t⟩ s) (hp : p < s.world.nextPlayer) :
    Tied (bytesTo p server.world) t (s.client p) := by
  have htied := h.tied p hp
  simp only [update_self] at htied
  exact htied

theorem Refines.sends_at (h : Refines ⟨server, update tab p t⟩ s) (hp : p ∈ s.world.players) :
    Sends (server.conn p) t (s.client p) := by
  have hsends := h.sends p hp
  simp only [update_self] at hsends
  exact hsends

/-- **Frames arrive** at an open page: they are the lines that come next. -/
theorem Refines.readFrames (k : Nat) (h : Refines ⟨server, update tab p t⟩ s)
    (hp : p < s.world.nextPlayer) (hopen : t.page.ws = .open)
    (hk : (s.client p).down.length = k) :
    t.readFrames.page.ws = .open ∧ Follows ⟨server, update tab p t.readFrames⟩ s := by
  have htied := h.tied_at hp
  have hdown := htied.down (.inr hopen)
  induction k generalizing t s with
  | zero =>
    rw [List.length_eq_zero_iff.mp hk] at hdown
    have hnil : t.buf = [] := (List.append_eq_nil_iff.mp hdown).1
    rw [Tab.readFrames_needMore (by rw [hnil]; rfl)]
    exact ⟨hopen, .here h⟩
  | succ k ih =>
    have hws : (s.client p).page.ws = .open := htied.page ▸ hopen
    obtain ⟨⟨room, item⟩, down, hcons⟩ : ∃ x down, (s.client p).down = x :: down :=
      List.exists_cons_of_length_eq_add_one hk
    have hexp := h.sound.awaited p hws (room, item) (by rw [hcons]; rfl)
    cases item with
    | response => exact hexp.elim
    | line msg =>
      obtain ⟨call, hm⟩ := hexp.means
      obtain ⟨data, hdata, hcall⟩ := hm.text
      obtain ⟨hshort, hrest⟩ := List.forall_mem_cons.mp (hcons ▸ htied.short)
      have hstream : streamOf t.request (s.client p).down =
          Ws.encodeFrame .text msg.text ++ streamOf t.request down := by
        rw [hcons]
        rfl
      have hparse := parse_line hshort (streamOf t.request down)
      rw [← hstream, ← hdown] at hparse
      cases hb : Web.frames.parse t.buf with
      | needMore =>
        rw [Tab.readFrames_needMore hb]
        exact ⟨hopen, .here h⟩
      | bad =>
        rw [Web.frames.bad_append hb] at hparse
        cases hparse
      | got f r =>
        rw [Web.frames.got_append hb] at hparse
        obtain ⟨rfl, hr⟩ := Parse.got.inj hparse
        have ht : Tied (bytesTo p server.world) { t with buf := r } { s.client p with down } :=
          ⟨htied.page, htied.asked, fun _ => hr, htied.taken, hrest⟩
        have hsends : p ∈ s.world.players →
            Sends (server.conn p) ({ t with buf := r }.happen (.wsMessage data))
              (s.client p).deliver := fun hmem =>
          ((h.sends_at hmem).congr (u := { t with buf := r }) rfl rfl rfl rfl rfl).hear hcons
            htied.page hopen hm hcall
        obtain ⟨hfair, hstep, hnext⟩ := h.deliver hp (ht.hear hcons hopen hm hcall) hsends
        rw [update_idem] at hnext
        obtain ⟨game, heard, hdeliver⟩ := deliver_call hcons hws hm
        have hopen' : ({ t with buf := r }.happen (.wsMessage data)).page.ws = .open := by
          obtain ⟨bs, keys, heq, -⟩ := Tab.happen_eq { t with buf := r } (.wsMessage data)
          rw [heq]
          show (t.page.step (.wsMessage data)).1.ws = .open
          rw [step_call hopen hcall, onCall_ws, hopen]
        have hk' : (update s.client p (s.client p).deliver p).down.length = k := by
          rw [update_self, hdeliver]
          simpa [hcons] using hk
        have htied' := hnext.tied_at hp
        obtain ⟨hstays, hfollows⟩ := ih hnext hp hopen' hk' htied' (htied'.down (.inr hopen'))
        rw [Tab.readFrames_next hb (react_line hdata)]
        refine ⟨hstays, .next hfair ?_⟩
        rw [hstep]
        exact hfollows

theorem Sound.answered (h : Sound s) (hp : p ∈ s.world.players)
    (hws : (s.client p).page.ws = .connecting) {room : Option RoomId}
    {down : List (Option RoomId × Item)} (hdown : (s.client p).down = (room, .response) :: down) :
    (s.client p).upgraded = true := by
  obtain ⟨φ, hφ⟩ := h.fits p (h.orderly.wf.player_lt p hp)
  obtain ⟨φ₀, hshows, hafter⟩ := hφ.view (.inl hws)
  have hnext : φ₀ = .connecting := by
    cases φ₀ with
    | connecting => rfl
    | failed => exact hshows.elim
    | playing => exact absurd (hws.symm.trans hshows.1.ws) (by simp)
    | _ => exact absurd (hws.symm.trans hshows.1.ws) (by simp)
  subst hnext
  rw [hdown, Phase.after_cons] at hafter
  obtain ⟨rfl, -⟩ := Phase.after_asking hafter
  exact (hφ.seat hp).2.1

theorem Refines.opened (h : Refines ⟨server, update tab p t⟩ s) (hp : p < s.world.nextPlayer)
    (hws : t.page.ws = .connecting) {b : Bytes} (hbuf : t.buf = t.request.accept ++ b) :
    Follows ⟨server, update tab p ({ t with buf := b }.happen .wsOpen).readFrames⟩ s := by
  have htied := h.tied_at hp
  have hcws : (s.client p).page.ws = .connecting := htied.page ▸ hws
  have hdown := htied.down (.inl hws)
  obtain ⟨bs, hbs⟩ := accept_head t.request
  cases hcons : (s.client p).down with
  | nil =>
    rw [hcons, hbuf, hbs] at hdown
    cases hdown
  | cons x down =>
    obtain ⟨room, item⟩ := x
    rw [hcons] at hdown
    obtain ⟨-, hrest⟩ := List.forall_mem_cons.mp (hcons ▸ htied.short)
    cases item with
    | line msg =>
      have hne : t.buf ≠ [] := by
        rw [hbuf, hbs]
        simp
      exact absurd ⟨b, hbuf.symm⟩ (not_accept t.request hne hdown).1
    | response =>
      have hr : b ++ (bytesTo p server.world).drop t.taken = streamOf t.request down := by
        rw [hbuf, List.append_assoc] at hdown
        exact List.append_cancel_left hdown
      have ht : Tied (bytesTo p server.world) { t with buf := b } { s.client p with down } :=
        ⟨htied.page, htied.asked, fun _ => hr, htied.taken, hrest⟩
      have hdeliver : (s.client p).deliver = { s.client p with down }.happen .wsOpen := by
        unfold Client.deliver
        rw [hcons]
        exact if_pos hcws
      have hlines : Web.linesOf (t.page.step .wsOpen).2 = [.list] := by
        simp [Web.Page.step, hws, Web.Page.onOpen, Web.Page.send, Web.Page.setButtonsDisabled,
          Web.linesOf]
      have hsends : p ∈ s.world.players → Sends (server.conn p) ({ t with buf := b }.happen .wsOpen)
          (s.client p).deliver := fun hmem => by
        rw [hdeliver]
        refine Sends.step ((h.sends_at hmem).congr rfl rfl rfl rfl rfl) htied.page
          (fun line hline => ?_) fun _ => Sound.answered h.sound hmem hcws hcons
        obtain rfl := List.mem_singleton.mp (hlines ▸ hline)
        decide
      have hopen : ({ t with buf := b }.happen .wsOpen).page.ws = .open := by
        obtain ⟨bs, keys, heq, -⟩ := Tab.happen_eq { t with buf := b } .wsOpen
        rw [heq]
        show (t.page.step .wsOpen).1.ws = .open
        simp [Web.Page.step, hws, Web.Page.onOpen, Web.Page.setButtonsDisabled]
      obtain ⟨hfair, hstep, hnext⟩ := h.deliver hp (hdeliver ▸ ht.step rfl) hsends
      rw [update_idem] at hnext
      refine .next hfair ?_
      rw [hstep]
      exact (hnext.readFrames _ hp hopen rfl).2

/-- Something else comes in front of the answer to the upgrade request. -/
theorem Refines.failed (h : Refines ⟨server, update tab p t⟩ s) (hp : p < s.world.nextPlayer)
    (hws : t.page.ws = .connecting) (hmore : ¬ t.request.accept <+: t.buf)
    (hwait : ¬ t.buf <+: t.request.accept) : Follows ⟨server, update tab p t.fail⟩ s := by
  have htied := h.tied_at hp
  have hcws : (s.client p).page.ws = .connecting := htied.page ▸ hws
  have hdown := htied.down (.inl hws)
  cases hcons : (s.client p).down with
  | nil =>
    rw [hcons] at hdown
    have hnil : t.buf = [] := (List.append_eq_nil_iff.mp hdown).1
    exact absurd (hnil ▸ List.nil_prefix) hwait
  | cons x down =>
    obtain ⟨room, item⟩ := x
    cases item with
    | response =>
      rw [hcons] at hdown
      have hpre : t.request.accept <+: t.buf ++ (bytesTo p server.world).drop t.taken :=
        ⟨streamOf t.request down, hdown.symm⟩
      rcases List.prefix_or_prefix_of_prefix hpre (List.prefix_append ..) with hp | hp
      · exact absurd hp hmore
      · exact absurd hp hwait
    | line msg =>
      have hdeliver : (s.client p).deliver = { (s.client p).fail with down } := by
        rw [deliver_line hcons]
        unfold Client.hear
        simp only [hcws]
        rfl
      have hfail : t.fail = (t.happen .wsError).happen .wsClose := rfl
      have hclosed : ¬ Listens t.fail.page := by
        obtain ⟨bs, keys, heq, -⟩ := (t.happen .wsError).happen_eq .wsClose
        rw [hfail, heq]
        have hstep := ((t.happen .wsError).page.step_wsClose).1
        rintro (hl | hl) <;> exact absurd (hstep.symm.trans hl) (by simp)
      have hquiet : ∀ {u : Tab} {e : Web.Event}, e = .wsError ∨ e = .wsClose →
          ∀ line ∈ Web.linesOf (u.page.step e).2, (utf8Encode line.text).length ≤ 2 ^ 20 := by
        rintro u e (rfl | rfl) line hline
        · cases hline
        · rw [u.page.step_wsClose.2] at hline
          cases hline
      have herror := htied.step (e := .wsError) rfl
      have ht : Tied (bytesTo p server.world) t.fail (s.client p).deliver := by
        rw [hdeliver]
        refine (herror.step (e := .wsClose) rfl).deaf hclosed fun x hx => ?_
        show x ∈ (s.client p).down
        rw [hcons]
        exact List.mem_cons_of_mem _ hx
      have hsends : p ∈ s.world.players →
          Sends (server.conn p) t.fail (s.client p).deliver := fun hmem => by
        rw [hdeliver]
        exact (((h.sends_at hmem).step htied.page (hquiet (.inl rfl)) (by simp)).step herror.page
          (hquiet (.inr rfl)) (by simp)).congr rfl rfl rfl rfl rfl
      obtain ⟨hfair, hstep, hnext⟩ := h.deliver hp ht hsends
      rw [update_idem] at hnext
      refine .next hfair ?_
      rw [hstep]
      exact .here hnext

/-- **Bytes arrive** at a page. -/
theorem Refines.read (h : Refines ⟨server, update tab p t⟩ s) (hp : p < s.world.nextPlayer) :
    Follows ⟨server, update tab p t.read⟩ s := by
  unfold Tab.read
  cases hws : t.page.ws with
  | connecting =>
    simp only
    split_ifs with hmore hwait
    · obtain ⟨b, hb⟩ := hmore
      rw [← hb, List.drop_left]
      exact h.opened hp hws hb.symm
    · exact .here h
    · exact h.failed hp hws hmore hwait
  | «open» => exact (h.readFrames _ hp hws rfl).2
  | closing | closed => exact .here h

end Read

end PongPp.Net
