import PongPp.Session.Rooms
import Mathlib.Algebra.BigOperators.Group.Finset.Basic
import Mathlib.Algebra.Order.BigOperators.Group.Finset

/-!
# The network comes to rest

When the users do nothing, what is on its way arrives and is answered, and that ends: every
delivery and every line that the server handles makes `System.work` smaller. At rest every page
that is connected agrees with the server and shows the rooms there are (`settles`).
-/

namespace PongPp.Session

open Function Lib Signaling

/-! ## Work -/

/-- What a line can cost: itself and what it makes the server write to `n` players. -/
def lineWork (n : Nat) (m : Bytes) : Nat :=
  match parseVerb m with
  | .create | .join _ => n + 3
  | _ => 2

/-- What can come of an item: the answer to an upgrade request, and `PEER_LEFT`, make the page ask
for the room list. -/
def Item.work : Item → Nat
  | .response | .line .peerLeft => 3
  | .line _ => 1

def Client.work (n : Nat) (c : Client) : Nat :=
  (c.up.map fun x => lineWork n (utf8Encode x.2.text)).sum + (c.down.map fun x => x.2.work).sum +
    if c.upgraded then 0 else 4

def System.work (s : System) : Nat :=
  ∑ p ∈ Finset.range s.world.nextPlayer, (s.client p).work s.world.players.length

/-- A move of the network: it answers an upgrade request, handles a line or delivers something. -/
def Works (l : Order × Move) (s : System) : Prop :=
  match l.2 with
  | .upgrade p => p ∈ s.world.players ∧ (s.client p).upgraded = false
  | .serve p => p < s.world.nextPlayer ∧ (s.client p).up ≠ []
  | .deliver p => p < s.world.nextPlayer ∧ (s.client p).down ≠ []
  | _ => False

instance (l : Order × Move) (s : System) : Decidable (Works l s) :=
  match l with
  | (_, .upgrade _) | (_, .serve _) | (_, .deliver _) => inferInstanceAs (Decidable (_ ∧ _))
  | (_, .connect) | (_, .happen ..) | (_, .hangup _) | (_, .lost _) => .isFalse id

/-- Nothing is on its way and everybody has been answered. -/
def AtRest (s : System) : Prop :=
  ∀ p < s.world.nextPlayer, (s.client p).up = [] ∧ (s.client p).down = [] ∧
    (p ∈ s.world.players → (s.client p).upgraded = true)

instance (s : System) : Decidable (AtRest s) :=
  inferInstanceAs (Decidable (∀ p < s.world.nextPlayer, _))

/-! ## What the server writes -/

section Sent

variable {w : World} {o : Order} {p : PlayerId}

theorem length_roomList (w : World) (o : Order) : (w.roomList o).length ≤ w.players.length := by
  unfold World.roomList
  rw [List.length_map, ← (o.players_perm w.players).length_eq]
  exact List.length_filter_le ..

theorem length_readies (w : World) (p : PlayerId) (r : RoomId) : (w.readies p r).length ≤ 2 := by
  unfold World.readies
  rw [List.length_append, List.length_map, List.length_singleton]
  exact Nat.succ_le_succ Option.length_toList_le

/-- A line makes the server write less than it costs. -/
theorem length_sent (hw : Wf w) (o : Order) (p : PlayerId) (m : Bytes) :
    (sent (o, .message p m) w).length < lineWork w.players.length m := by
  obtain ⟨w', he, -⟩ := step_effect hw (o, .message p m)
  generalize sent (o, .message p m) w = ps at he ⊢
  have hpos : 0 < lineWork w.players.length m := by
    unfold lineWork
    split <;> omega
  cases he with
  | goneMessage => exact hpos
  | list p m hp hv | relay p m body q hp hv | relayFailed p m body hp hv | unknown p m hp hv =>
    simp [lineWork, hv]
  | create p m hp hv =>
    have hle : (List.length _) ≤ w.players.length := length_roomList (w.hosted p) o
    simp only [lineWork, hv, List.length_append, List.length_singleton]
    omega
  | join p m body r hp hv hj =>
    have hle : (List.length _) ≤ w.players.length := length_roomList (w.guested p r) o
    have hready := length_readies w p r
    simp only [lineWork, hv, List.length_append]
    omega
  | joinFailed p m body hp hv =>
    simp [lineWork, hv]

end Sent

/-! ## One move -/

theorem sum_inbox (N : Nat) (ps : List (PlayerId × Packet)) :
    ∑ p ∈ Finset.range N, (inbox p ps).length ≤ ps.length := by
  induction ps with
  | nil => simp
  | cons x ps ih =>
    obtain ⟨x, k⟩ := x
    have hone : ∑ p ∈ Finset.range N, (if p = x then 1 else 0) ≤ 1 := by
      rw [Finset.sum_ite_eq']
      split <;> omega
    have hsplit : ∀ p, (inbox p ((x, k) :: ps)).length =
        (inbox p ps).length + if p = x then 1 else 0 := fun p => by
      rw [inbox_cons]
      split <;> simp
    simp only [hsplit, Finset.sum_add_distrib, List.length_cons]
    omega

theorem sum_update {N : Nat} (client : PlayerId → Client) {p : PlayerId} (hp : p < N)
    (f : Client → Nat) (c : Client) :
    ∑ q ∈ Finset.range N, f (update client p c q) + f (client p) =
      ∑ q ∈ Finset.range N, f (client q) + f c := by
  have hmem : p ∈ Finset.range N := Finset.mem_range.mpr hp
  have hrest : ∑ q ∈ (Finset.range N).erase p, f (update client p c q) =
      ∑ q ∈ (Finset.range N).erase p, f (client q) :=
    Finset.sum_congr rfl fun q hq => by rw [update_of_ne (Finset.ne_of_mem_erase hq)]
  have hnew := Finset.add_sum_erase (Finset.range N) (fun q => f (update client p c q)) hmem
  have hold := Finset.add_sum_erase (Finset.range N) (fun q => f (client q)) hmem
  simp only [update_self, hrest] at hnew hold
  omega

section Work

variable {w : World} {p : PlayerId} {c : Client} {s : System} {n : Nat}

theorem work_modify {f : Client → Client} (hp : p < s.world.nextPlayer)
    (hf : (f (s.client p)).work s.world.players.length <
      (s.client p).work s.world.players.length) : (s.modify p f).work < s.work := by
  have hsum := sum_update s.client hp (·.work s.world.players.length) (f (s.client p))
  unfold System.modify
  rw [if_pos hp]
  simp only [System.work] at hsum ⊢
  omega

theorem work_upgrade (h : c.upgraded = false) : c.upgrade.work n < c.work n := by
  have hup : c.upgrade = { c with upgraded := true, down := c.down ++ [(none, .response)] } := by
    unfold Client.upgrade
    rw [h]
    rfl
  rw [hup]
  simp [Client.work, Item.work, h]
  omega

theorem work_items (room : Option RoomId) {ps : List Packet} (h : ∀ k ∈ ps, k ≠ .text .peerLeft) :
    ((itemsOf room ps).map fun x => x.2.work).sum ≤ ps.length := by
  induction ps with
  | nil => exact le_rfl
  | cons k ps ih =>
    obtain ⟨hk, hps⟩ := List.forall_mem_cons.mp h
    have hrest := ih hps
    cases k with
    | raw b => exact Nat.le_succ_of_le hrest
    | text msg =>
      have hone : (Item.line msg).work = 1 := by
        cases msg with
        | peerLeft => exact absurd rfl hk
        | _ => rfl
      simp only [itemsOf_cons, List.map_cons, List.sum_cons, List.length_cons, hone]
      omega

theorem work_receive (room : Option RoomId) {ps : List Packet} (h : ∀ k ∈ ps, k ≠ .text .peerLeft) :
    (c.receive room ps).work n ≤ c.work n + ps.length := by
  have hitems := work_items room h
  have hsplit : (c.receive room ps).work n =
      c.work n + ((itemsOf room ps).map fun x => x.2.work).sum := by
    show _ + ((c.down ++ itemsOf room ps).map _).sum + _ = _
    rw [List.map_append, List.sum_append, Client.work]
    exact (congrArg (· + _) (Nat.add_assoc ..).symm).trans (Nat.add_right_comm ..)
  rw [hsplit]
  exact Nat.add_le_add_left hitems _

theorem work_hear {room : Option RoomId} {msg : Msg} {call : Web.Call}
    {down : List (Option RoomId × Item)} (hdown : c.down = (room, .line msg) :: down)
    (hws : c.page.ws = .open) (hm : Means msg call) :
    ({ c with down }.hear room msg).work n < c.work n := by
  have hlist : lineWork n (utf8Encode Web.Line.list.text) = 2 := by
    unfold lineWork
    rw [verb_list]
  have hlines : ((Web.linesOf (c.page.onCall call).2).map fun line =>
      lineWork n (utf8Encode line.text)).sum < (Item.line msg).work := by
    cases hm with
    | peerLeft =>
      rcases linesOf_onCall c.page .onPeerLeft with hl | hl <;> simp [hl, hlist, Item.work]
    | _ => exact Nat.one_pos
  rw [hear_eq (c := { c with down }) hws hm]
  simp only [Client.work, Client.note, hdown, List.map_append, List.sum_append, List.map_cons,
    List.sum_cons, List.map_map, Function.comp_def]
  omega

theorem work_deliver {c' : Client} (h : Delivers c c') (hdown : c.down ≠ []) :
    c'.work n < c.work n := by
  have hpos : ∀ item : Item, 0 < item.work := fun item => by
    unfold Item.work
    split <;> decide
  cases h with
  | nothing hnil => exact absurd hnil hdown
  | ended =>
    cases hcons : c.down with
    | nil => exact absurd hcons hdown
    | cons x down =>
      have := hpos x.2
      simp only [Client.work, hcons, List.tail_cons, List.map_cons, List.sum_cons]
      omega
  | opened room down hcons hws =>
    have hlines : Web.linesOf (c.page.step .wsOpen).2 = [.list] := by
      simp [Web.Page.step, hws, Web.Page.onOpen, Web.Page.send, Web.Page.setButtonsDisabled,
        Web.linesOf]
    have hlist : lineWork n (utf8Encode Web.Line.list.text) = 2 := by
      unfold lineWork
      rw [verb_list]
    rw [happen_eq (c := { c with down }) hlines]
    simp [Client.work, hcons, Item.work, hlist]
    omega
  | failed x down hcons =>
    have := hpos x.2
    obtain ⟨-, hup, hdn, hupgraded⟩ := fail_eq { c with down }
    simp only [Client.work, hup, hdn, hupgraded, hcons, List.map_cons, List.sum_cons]
    omega
  | called room msg call down hcons hws _ hm => exact work_hear hcons hws hm

theorem players_message (hw : Wf w) (o : Order) (p : PlayerId) (m : Bytes) :
    (Signaling.step (o, .message p m) w).players = w.players := by
  refine step_rule hw (P := fun v => v.players = w.players) (fun _ _ h => h) fun w' ps he => ?_
  cases he with
  | _ => rfl

theorem work_serve (hw : Wf s.world) (o : Order) (hp : p < s.world.nextPlayer)
    (hup : (s.client p).up ≠ []) : (step (o, .serve p) s).work < s.work := by
  obtain ⟨x, up, hcons⟩ := List.exists_cons_of_ne_nil hup
  obtain ⟨c, hc⟩ : ∃ c : Client, c = { s.client p with up } := ⟨_, rfl⟩
  have hstep : step (o, .serve p) s =
      System.serverEvent ⟨s.world, update s.client p c⟩ (o, .message p (utf8Encode x.2.text)) := by
    simp only [step, hcons, System.modify, if_pos hp, hc]
  generalize hl : (o, Signaling.Event.message p (utf8Encode x.2.text)) = l at hstep
  have hplayers : (Signaling.step l s.world).players = s.world.players := by
    rw [← hl]
    exact players_message hw o p _
  have hnext : (Signaling.step l s.world).nextPlayer = s.world.nextPlayer :=
    nextPlayer_eq hw (by rw [← hl]; exact Signaling.Event.noConfusion)
  have hsent : (sent l s.world).length <
      lineWork s.world.players.length (utf8Encode x.2.text) := by
    rw [← hl]
    exact length_sent hw o p _
  have hleft : ∀ q, ∀ k ∈ inbox q (sent l s.world), k ≠ .text .peerLeft := fun q k hk hleft => by
    obtain ⟨y, hy, -⟩ := (peerLeft_mem_sent hw).mp (hleft ▸ mem_inbox.mp hk)
    rw [← hl] at hy
    cases hy
  have hpop : (s.client p).work s.world.players.length =
      c.work s.world.players.length +
        lineWork s.world.players.length (utf8Encode x.2.text) := by
    simp only [hc, Client.work, hcons, List.map_cons, List.sum_cons]
    omega
  have hsum := sum_update s.client hp (·.work s.world.players.length) c
  have hinbox := sum_inbox s.world.nextPlayer (sent l s.world)
  have hbound : ∑ q ∈ Finset.range s.world.nextPlayer,
      ((update s.client p c q).receive ((Signaling.step l s.world).roomOf q)
        (inbox q (sent l s.world))).work s.world.players.length ≤
      ∑ q ∈ Finset.range s.world.nextPlayer,
        ((update s.client p c q).work s.world.players.length +
          (inbox q (sent l s.world)).length) :=
    Finset.sum_le_sum fun q _ => work_receive _ (hleft q)
  rw [Finset.sum_add_distrib] at hbound
  rw [hstep]
  simp only [System.work, System.serverEvent, hplayers, hnext] at hsum hbound ⊢
  omega

/-- **A move of the network** leaves less to do. -/
theorem work_step (hs : Sound s) {l : Order × Move} (hl : Works l s) :
    (step l s).work < s.work := by
  obtain ⟨o, m⟩ := l
  cases m with
  | connect | happen | hangup | lost => exact hl.elim
  | upgrade p =>
    obtain ⟨hp, hup⟩ := hl
    have hlt := hs.orderly.wf.player_lt p hp
    simp only [step, if_pos hp]
    exact work_modify hlt (work_upgrade hup)
  | serve p => exact work_serve hs.orderly.wf o hl.1 hl.2
  | deliver p =>
    obtain ⟨φ, hφ⟩ := hs.fits p hl.1
    exact work_modify (f := (·.deliver)) hl.1 (work_deliver hφ.delivers hl.2)

end Work

/-! ## Rest -/

theorem atRest_iff {s : System} (hw : Wf s.world) : AtRest s ↔ ∀ l, ¬ Works l s := by
  refine ⟨fun h l hl => ?_, fun h p hp => ⟨?_, ?_, fun hm => ?_⟩⟩
  · obtain ⟨o, m⟩ := l
    cases m with
    | connect | happen | hangup | lost => exact hl
    | upgrade p =>
      obtain ⟨hp, hup⟩ := hl
      rw [(h p (hw.player_lt p hp)).2.2 hp] at hup
      cases hup
    | serve p => exact hl.2 (h p hl.1).1
    | deliver p => exact hl.2 (h p hl.1).2.1
  · by_contra hup
    exact h (.id, .serve p) ⟨hp, hup⟩
  · by_contra hdown
    exact h (.id, .deliver p) ⟨hp, hdown⟩
  · by_contra hup
    exact h (.id, .upgrade p) ⟨hm, Bool.eq_false_iff.mpr hup⟩

/-- The page of a registered player has caught up, or has lost its connection. -/
structure Settled (s : System) (p : PlayerId) : Prop where
  connected : (s.client p).page.ws ≠ .connecting
  agrees : (s.client p).page.ws = .open → Agrees s.world p (s.client p).page
  current : (s.client p).page.ws = .open → s.world.roomOf p = none →
    Lists s.world (codesOf (s.client p).page)
  answered : (s.client p).page.ws = .open → (s.client p).asked = false

theorem Sound.settled {s : System} {p : PlayerId} (hs : Sound s)
    (hcur : Current s.world p (s.client p)) (hp : p ∈ s.world.players)
    (hup : (s.client p).up = []) (hdown : (s.client p).down = [])
    (hupgraded : (s.client p).upgraded = true) : Settled s p := by
  obtain ⟨φ, hφ⟩ := hs.fits p (hs.orderly.wf.player_lt p hp)
  have hview : ∀ hws : (s.client p).page.ws = .connecting ∨ (s.client p).page.ws = .open,
      (s.client p).Shows φ := fun hws => by
    obtain ⟨φ₀, hshows, hafter⟩ := hφ.view hws
    rw [hdown, Phase.after_nil] at hafter
    cases hafter
    exact hshows
  obtain ⟨hseat, hadm⟩ := hφ.seat hp
  refine ⟨fun hws => ?_, fun hopen => ?_, fun hopen hroom => ?_, fun hopen => ?_⟩
  · have hshows := hview (.inl hws)
    cases φ with
    | connecting => exact absurd (hupgraded.symm.trans hadm.2) (by simp)
    | failed => exact hshows.elim
    | playing => exact absurd (hws.symm.trans hshows.1.ws) (by simp)
    | _ => exact absurd (hws.symm.trans hshows.1.ws) (by simp)
  · exact .of_shows hs.orderly hseat (hview (.inr hopen)) hopen
  · rcases hcur hp hopen hroom with ⟨game, hmem⟩ | hlists
    · rw [hup] at hmem
      cases hmem
    · rw [Client.latest, hdown] at hlists
      exact hlists
  · obtain ⟨-, howed⟩ := (hview (.inr hopen)).made hopen
    have hreq := hadm.requests
    rw [howed, Client.requests, hup] at hreq
    exact Bool.toNat_eq_zero.mp hreq.symm

/-- **The network settles.** From every state that patient users and any order of moves can lead
to: when the users stop, each move of the network leaves less work, so that it has no more than
`work` moves to make, in whatever order it makes them, and when it is at rest, every connected page
shows its player's seat, a page in the lobby offers just the rooms that can be joined, and no
request waits for its answer. -/
theorem settles (ls ms : List (Order × Move)) (h : Guarded step Fair ls .init)
    (hms : Guarded step (fun l s => Works l s ∧ Fair l s) ms (run step ls .init)) :
    ms.length ≤ (run step ls .init).work ∧
      (∀ l, Works l (run step (ls ++ ms) .init) →
        (step l (run step (ls ++ ms) .init)).work < (run step (ls ++ ms) .init).work) ∧
      (AtRest (run step (ls ++ ms) .init) ↔ ∀ l, ¬ Works l (run step (ls ++ ms) .init)) ∧
      (AtRest (run step (ls ++ ms) .init) →
        ∀ p ∈ (run step (ls ++ ms) .init).world.players,
          Settled (run step (ls ++ ms) .init) p) := by
  have hfair : Guarded step Fair (ls ++ ms) .init :=
    Guarded.append.mpr ⟨h, hms.mono fun _ _ hl => hl.2⟩
  have hlen := hms.length_le (I := Sound) (μ := System.work) (fun l s hl hs => (hs.step hl.2).1)
    (fun l s hl hs => work_step hs hl.1) (.run h)
  obtain ⟨hs, hcur⟩ := run_inv_guarded (I := fun s => Sound s ∧ ∀ q, Current s.world q (s.client q))
    (fun _ s hl hs => ⟨(hs.1.step hl).1, current_step hs.1 hs.2⟩) hfair
    ⟨.init, fun _ hq => absurd hq List.not_mem_nil⟩
  refine ⟨by omega, fun l hl => work_step hs hl, atRest_iff hs.orderly.wf, fun hrest p hp => ?_⟩
  obtain ⟨hup, hdown, hupgraded⟩ := hrest p (hs.orderly.wf.player_lt p hp)
  exact hs.settled (hcur p) hp hup hdown (hupgraded hp)

/-- The guest has asked for the room, and the network does the rest. -/
theorem settles_pair : Settled (run step (pairUp.take 13 ++ pairUp.drop 13) .init) 1 :=
  (settles (pairUp.take 13) (pairUp.drop 13) (by decide +kernel) (by decide +kernel)).2.2.2
    (by decide +kernel) 1 (by decide +kernel)

end PongPp.Session
