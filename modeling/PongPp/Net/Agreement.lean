import PongPp.Net.Refine

/-!
# Pages and server agree, byte for byte

What holds of pages that lines arrive at holds of pages that bytes arrive at: a page with nothing on
its way shows its player's seat (`network_agrees`), and no byte of either end makes the other give
up (`network_intact`).
-/

namespace PongPp.Net

open Function Lib Signaling Session

/-! ## A page that has caught up -/

/-- The page shows where the server has its player, and what rooms there are. -/
structure CaughtUp (n : State) (p : PlayerId) : Prop where
  agrees : Agrees n.server.world p (n.tab p).page
  current : n.server.world.roomOf p = none → Lists n.server.world (codesOf (n.tab p).page)
  answered : (n.tab p).asked = false

theorem agrees_texts {w : World} {p : PlayerId} {page : Web.Page}
    (h : Agrees (Server.texts w) p page) : Agrees w p page := by
  cases h with
  | lobby hr hb => exact .lobby hr hb
  | waiting r hr hh hp hb hc => exact .waiting r hr hh hp hb hc
  | host r q hr hh hp hb => exact .host r q hr hh hp hb
  | guest r q hr hg hp hb => exact .guest r q hr hg hp hb

theorem streamOf_eq_nil {q : Upgrade} {down : List (Option RoomId × Item)}
    (h : streamOf q down = []) : down = [] := by
  cases down with
  | nil => rfl
  | cons x down =>
    obtain ⟨room, item⟩ := x
    cases item with
    | response =>
      obtain ⟨bs, hbs⟩ := accept_head q
      have happ : q.accept ++ streamOf q down = [] := h
      rw [hbs] at happ
      cases happ
    | line msg => cases h

/-- **Pages and server agree**, byte for byte: an open page with nothing on its way in either
direction shows its player's seat and the rooms there are. -/
theorem network_agrees (ls : List (Order × Move)) (h : Guarded step Fair ls .init) (p : PlayerId)
    (hp : p ∈ (run step ls .init).server.world.players)
    (hopen : ((run step ls .init).tab p).page.ws = .open) (hread : AllRead (run step ls .init) p) :
    CaughtUp (run step ls .init) p := by
  obtain ⟨ms, hms, hR⟩ := network_refines ls h
  generalize run step ls .init = n at *
  obtain ⟨hs, hcur⟩ := run_inv_guarded (I := fun s => Sound s ∧ ∀ q, Current s.world q (s.client q))
    (fun _ s hl hs => ⟨(hs.1.step hl).1, current_step hs.1 hs.2⟩) hms
    ⟨.init, fun _ hq => absurd hq List.not_mem_nil⟩
  generalize run Session.step ms .init = s at *
  have hmem : p ∈ s.world.players := hR.players ▸ hp
  have htied := hR.tied p (hs.orderly.wf.player_lt p hmem)
  have hdown : (s.client p).down = [] := by
    refine streamOf_eq_nil (q := (n.tab p).request) ?_
    have hbytes : bytesTo p n.server.world = Server.written n.server p := rfl
    rw [← htied.down (.inr hopen), hread.buf, hread.taken, hbytes, List.drop_length]
    rfl
  have hnone : Ws.frames.parse [] = .needMore := rfl
  obtain ⟨hup, hupgraded⟩ : (s.client p).up = [] ∧ (s.client p).upgraded = true := by
    cases hR.sends p hmem with
    | greeting _ _ _ hws => exact absurd hopen hws
    | leaving _ _ hws => rcases hws with hw | hw <;> exact absurd (hw.symm.trans hopen) (by simp)
    | talking _ hu hr =>
      rw [hread.out, hread.inBuf] at hr
      exact ⟨List.map_eq_nil_iff.mp (hr.eq_nil hnone), hu⟩
  have hsettled := hs.settled (hcur p) hmem hup hdown hupgraded
  have hws : (s.client p).page.ws = .open := htied.page ▸ hopen
  refine ⟨agrees_texts ?_, fun hroom => ?_, ?_⟩
  · rw [hR.world, ← htied.page]
    exact hsettled.agrees hws
  · have hlists := hsettled.current hws (by rw [← hR.world]; exact hroom)
    rw [htied.page, ← hR.world] at hlists
    exact hlists
  · rw [← htied.asked]
    exact hsettled.answered hws

theorem network_agrees_pair : CaughtUp (run step pair .init) 1 :=
  network_agrees pair pair_fair.1 1 pair_fair.2.1 pair_fair.2.2.1 pair_fair.2.2.2.1

/-! ## Connections stay intact -/

/-- A page that listens is not cut off, and a socket that is open is not failed. -/
structure Intact (n : State) (p : PlayerId) : Prop where
  reads : p ∈ n.server.world.players → Listens (n.tab p).page → ∀ k, n.toRead p k ≠ [] →
    (Server.calls n.server p (n.toRead p k)).1 = .ok
  arrives : (n.tab p).page.ws = .open → ∀ k,
    ((n.tab p).receive (n.toArrive p k)).page.ws = .open

/-- What a listening page sends is never refused. -/
theorem Sends.ok {conn : Ws.Connection} {t : Tab} {c : Client} (h : Sends conn t c)
    (hl : Listens t.page) {chunk out : Bytes} (hchunk : chunk ≠ []) (hout : t.out = chunk ++ out) :
    (Ws.read Ws.trace conn chunk []).1 = .ok := by
  obtain ⟨state, buf⟩ := conn
  cases h with
  | greeting hs _ _ _ hb =>
    obtain rfl : state = .handshake := hs
    rw [hout] at hb
    rw [read_request t.request hchunk hb]
    split <;> rfl
  | talking hs _ hr =>
    obtain rfl : state = .open := hs
    have hreads : Ws.frames.Reads ((c.up.map fun x => lineFrame x.2) ++ [])
        (buf ++ chunk ++ out) [] := by
      rw [List.append_nil, List.append_assoc, ← hout]
      exact hr
    rw [Ws.read_open Ws.trace buf hchunk]
    rcases drain_lines (.inl rfl) hreads with ⟨xs, ys, r, -, hdrain, -⟩ | ⟨hnil, -⟩
    · rw [hdrain]
      rfl
    · cases hnil
  | leaving _ _ hws =>
    rcases hl with hl | hl <;> rcases hws with hw | hw <;> exact absurd (hw.symm.trans hl) (by simp)

/-- **Connections stay intact**: the server refuses nothing that a page with patient users sends,
and nothing that it writes makes a browser give up on an open socket. -/
theorem network_intact (ls : List (Order × Move)) (h : Guarded step Fair ls .init) (p : PlayerId)
    (hp : p < (run step ls .init).server.world.nextPlayer) : Intact (run step ls .init) p := by
  obtain ⟨ms, -, hR⟩ := network_refines ls h
  generalize run step ls .init = n at *
  generalize run Session.step ms .init = s at *
  refine ⟨fun hmem hl k hchunk => ?_, fun hopen k => ?_⟩
  · exact (hR.sends p (hR.players ▸ hmem)).ok hl hchunk (List.take_append_drop k _).symm
  · have hlt : p < s.world.nextPlayer := hR.nextPlayer ▸ hp
    obtain ⟨t, ht⟩ : ∃ t : Tab, t = { n.tab p with
        buf := (n.tab p).buf ++ n.toArrive p k
        taken := (n.tab p).taken + (n.toArrive p k).length } := ⟨_, rfl⟩
    have harrived := hR.arrived hlt k
    have hreceive : (n.tab p).receive (n.toArrive p k) = t.read := by rw [ht]; rfl
    have hws : t.page.ws = .open := by rw [ht]; exact hopen
    rw [← ht] at harrived
    rw [hreceive, Tab.read, hws]
    exact (harrived.readFrames _ hlt hws rfl).1

theorem network_intact_pair : Intact (run step pair .init) 1 :=
  network_intact pair pair_fair.1 1 pair_fair.2.2.2.2

end PongPp.Net
