import PongPp.Signaling.Departure
import PongPp.Signaling.Membership

/-!
# Room identity

Codes are spent in the order rooms are made, so until the counter wraps a room's code says which
room it is (`Serial`). A code that was deleted stays deleted (`Spent`), a room is the one its
`CREATED` line announced (`announced_run`), and the guest seat is its guest's until that guest's
connection ends (`Occupied`).
-/

namespace PongPp.Signaling

open Function Lib

variable {w : World} {r : RoomId}

/-! ## Codes and rooms -/

/-- The `n`-th room has code `n`, counting from 1. -/
structure Serial (w : World) : Prop where
  next : w.nextCode.toNat = w.nextRoom + 1
  code : ∀ r < w.nextRoom, (w.room r).code.toNat = r + 1

namespace Serial

theorem init : Serial World.init := ⟨rfl, fun _ h => absurd h (Nat.not_lt_zero _)⟩

theorem inj (h : Serial w) {s : RoomId} (hr : r < w.nextRoom) (hs : s < w.nextRoom)
    (hc : (w.room r).code = (w.room s).code) : r = s := by
  have hr' := h.code r hr
  rw [hc, h.code s hs] at hr'
  exact (Nat.succ.inj hr').symm

theorem lt_next (h : Serial w) (hr : r < w.nextRoom) : (w.room r).code < w.nextCode := by
  rw [UInt64.lt_iff_toNat_lt, h.next, h.code r hr]
  exact Nat.succ_lt_succ hr

theorem step (h : Serial w) (hw : Wf w) {l : Label} (hl : CodeLeft l w) :
    Serial (step l w) := by
  refine step_rule hw (fun _ _ h => ⟨h.1, h.2⟩) fun w' ps he => ?_
  obtain ⟨o, e⟩ := l
  cases he with
  | create p m hp hv =>
    have hnext := nextCode_succ (hl (by simp [Event.isCreate, hv]))
    refine ⟨?_, fun r hr => ?_⟩
    · show (w.nextCode + 1).toNat = w.nextRoom + 1 + 1
      rw [hnext, h.next]
    · rcases Nat.lt_succ_iff_lt_or_eq.mp hr with hr | rfl
      · rw [World.hosted_room_old hr]
        exact h.code r hr
      · rw [World.hosted_room_new]
        exact h.next
  | join p m body s hp hv hj =>
    refine ⟨h.next, fun r hr => ?_⟩
    rw [World.guested_code]
    exact h.code r hr
  | _ => exact ⟨h.next, h.code⟩

end Serial

/-- The code and the host of a room are those it was made with. -/
def Made (r : RoomId) (code : RoomCode) (host : Option PlayerId) (w : World) : Prop :=
  r < w.nextRoom ∧ (w.room r).code = code ∧ (w.room r).host = host

theorem made_step (hw : Wf w) (l : Label) {c : RoomCode} {h : Option PlayerId}
    (hm : Made r c h w) : Made r c h (step l w) := by
  obtain ⟨hlt, hc, hh⟩ := hm
  refine step_rule hw (P := Made r c h) (fun _ _ h => h) fun w' ps he => ?_
  obtain ⟨o, e⟩ := l
  cases he with
  | create =>
    refine ⟨Nat.lt_succ_of_lt hlt, ?_⟩
    rw [World.hosted_room_old hlt]
    exact ⟨hc, hh⟩
  | join => exact ⟨hlt, by rwa [World.guested_code], by rwa [World.guested_host]⟩
  | _ => exact ⟨hlt, hc, hh⟩

/-- Code `c` has been given to a room and is no longer in `rooms_`. -/
def Spent (c : RoomCode) (w : World) : Prop :=
  c.toNat < w.nextCode.toNat ∧ w.rooms.lookup c = none

theorem spent_step (hw : Wf w) {l : Label} (hl : CodeLeft l w) {c : RoomCode} (hs : Spent c w) :
    Spent c (step l w) := by
  obtain ⟨hlt, hnone⟩ := hs
  refine step_rule hw (P := Spent c) (fun _ _ h => h) fun w' ps he => ?_
  obtain ⟨o, e⟩ := l
  cases he with
  | create p m hp hv =>
    have hnext := nextCode_succ (hl (by simp [Event.isCreate, hv]))
    refine ⟨?_, ?_⟩
    · show c.toNat < (w.nextCode + 1).toNat
      omega
    · show (World.emplace w.rooms w.nextCode w.nextRoom).lookup c = none
      rw [World.lookup_emplace, if_neg, hnone]
      rintro ⟨rfl, -⟩
      exact lt_irrefl _ hlt
  | disconnect p hp =>
    refine ⟨hlt, ?_⟩
    cases hl : (w.departed p).rooms.lookup c with
    | none => rfl
    | some r => exact absurd (World.lookup_departed hl).1 (by simp [hnone])
  | _ => exact ⟨hlt, hnone⟩

/-! ## CREATED lines -/

/-- A `CREATED` line goes to the sender of the `CREATE` and has the code of the room it made. -/
theorem created_mem_sent (hw : Wf w) {l : Label} {p : PlayerId} {c : RoomCode} :
    (p, .text (.created c)) ∈ sent l w ↔
      ∃ m, l.2 = .message p m ∧ p ∈ w.players ∧ parseVerb m = .create ∧ c = w.nextCode := by
  obtain ⟨w', he, -⟩ := step_effect hw l
  generalize sent l w = ps at he ⊢
  obtain ⟨o, e⟩ := l
  cases he with
  | connect | goneDisconnect => simp
  | goneMessage p m hp =>
    refine iff_of_false List.not_mem_nil ?_
    rintro ⟨m, ⟨⟩, hq, -⟩
    exact hp hq
  | create p' m hp hv =>
    have hlist : (p, .text (.created c)) ∉ (w.hosted p').roomList o :=
      World.notMem_roomList (by simp)
    simp only [List.mem_append, hlist, false_or, List.mem_singleton, Prod.mk.injEq,
      Packet.text.injEq, Msg.created.injEq, Event.message.injEq]
    refine ⟨?_, ?_⟩
    · rintro ⟨rfl, rfl⟩
      exact ⟨m, ⟨rfl, rfl⟩, hp, hv, rfl⟩
    · rintro ⟨-, ⟨rfl, rfl⟩, -, -, rfl⟩
      exact ⟨rfl, rfl⟩
  | disconnect => simp [World.notMem_farewell]
  | _ => simp_all [World.notMem_roomList, World.mem_readies, World.roomsLine]

theorem nextRoom_step (hw : Wf w) (l : Label) :
    (step l w).nextRoom = w.nextRoom ∨
      (step l w).nextRoom = w.nextRoom + 1 ∧ ∃ p, (p, .text (.created w.nextCode)) ∈ sent l w := by
  obtain ⟨w', he, hs⟩ := step_effect hw l
  rw [hs]
  generalize sent l w = ps at he
  obtain ⟨o, e⟩ := l
  cases he with
  | create p m hp hv => exact .inr ⟨rfl, p, by simp⟩
  | _ => exact .inl rfl

theorem announced_run (ls : List Label) : ∀ r < (run step ls .init).nextRoom,
    ∃ ls₁ l ls₂ p, ls = ls₁ ++ l :: ls₂ ∧ (run step ls₁ .init).nextRoom = r ∧
      (p, .text (.created (run step ls₁ .init).nextCode)) ∈ sent l (run step ls₁ .init) := by
  induction ls using List.reverseRecOn with
  | nil => exact fun r hr => absurd hr (Nat.not_lt_zero r)
  | append_singleton ls l ih =>
    intro r hr
    by_cases hold : r < (run step ls .init).nextRoom
    · obtain ⟨ls₁, l', ls₂, p, rfl, hat, hsent⟩ := ih r hold
      exact ⟨ls₁, l', ls₂ ++ [l], p, by simp, hat, hsent⟩
    · rw [run_concat] at hr
      rcases nextRoom_step (Wf.init.run ls) l with hn | ⟨hn, p, hp⟩
      · exact absurd (hn ▸ hr) hold
      · rw [hn] at hr
        exact ⟨ls, l, [], p, rfl, (Nat.eq_of_lt_succ_of_not_lt hr hold).symm, hp⟩

/-! ## The guest seat -/

/-- The guest seat of `r` is `g`'s as long as `g` is registered. -/
def Occupied (g : PlayerId) (r : RoomId) (w : World) : Prop :=
  g < w.nextPlayer ∧ r < w.nextRoom ∧ (g ∈ w.players → (w.room r).guest = some g)

theorem occupied_step (hw : Wf w) (l : Label) {g : PlayerId} (h : Occupied g r w) :
    Occupied g r (step l w) := by
  obtain ⟨hg, hr, hseat⟩ := h
  refine step_rule hw (P := Occupied g r) (fun _ _ h => h) fun w' ps he => ?_
  obtain ⟨o, e⟩ := l
  cases he with
  | connect =>
    refine ⟨Nat.lt_succ_of_lt hg, hr, fun hmem => hseat ?_⟩
    exact (List.mem_insert_iff.mp hmem).resolve_left hg.ne
  | create p m hp =>
    refine ⟨hg, Nat.lt_succ_of_lt hr, fun hmem => ?_⟩
    rw [World.hosted_room_old hr]
    exact hseat hmem
  | join p m body s hp hv hj =>
    refine ⟨hg, hr, fun hmem => ?_⟩
    have hne : r ≠ s := by
      rintro rfl
      exact hw.notMem_of_expired hj.2.2 (hseat hmem) hmem
    rw [World.guested_guest, if_neg hne]
    exact hseat hmem
  | disconnect p hp => exact ⟨hg, hr, fun hmem => hseat (List.mem_of_mem_erase hmem)⟩
  | _ => exact ⟨hg, hr, hseat⟩

theorem occupied_join (hw : Wf w) {o : Order} {g : PlayerId} {m : Bytes} (hg : g ∈ w.players)
    (hj : w.joinTarget m = some r) : Occupied g r (step (o, .message g m) w) := by
  obtain ⟨body, hv, hj⟩ := w.joinTarget_eq_some.mp hj
  have he : Effect w o (.message g m) _ _ := .join g m body r hg hv hj
  rw [he.step_eq (l := (o, .message g m)) hw]
  refine ⟨hw.player_lt g hg, hw.filed_lt _ r hj.2.1, fun _ => ?_⟩
  show ((w.guested g r).room r).guest = some g
  rw [World.guested_guest, if_pos rfl]

theorem Occupied.refuses (hw : Wf w) (hc : Serial w) {g p : PlayerId} {m body : Bytes}
    (h : Occupied g r w) (hg : g ∈ w.players) (hp : p ∈ w.players)
    (hv : parseVerb m = .join body) (hcode : parseCode body = (w.room r).code) (o : Order) :
    step (o, .message p m) w = w.emit [(p, .text (.error .joinFailed))] := by
  obtain ⟨-, hr, hseat⟩ := h
  have hfail : ∀ s, ¬ w.Joinable (parseCode body) s := by
    rintro s ⟨-, hl, he⟩
    have hs := (hw.filed_code _ s hl).trans hcode
    obtain rfl := hc.inj (hw.filed_lt _ s hl) hr hs
    exact hw.notMem_of_expired he (hseat hg) hg
  have he : Effect w o (.message p m) _ _ := .joinFailed p m body hp hv hfail
  exact he.step_eq (l := (o, .message p m)) hw

/-! ## The law -/

/-- Which room is which over the run of `ls`, which ends in `w`. -/
structure Identity (ls : List Label) (w : World) : Prop where
  /-- `rooms_` files a room under its code, which was given out. -/
  filed : ∀ c r, w.rooms.lookup c = some r → (w.room r).code = c ∧ c < w.nextCode
  /-- No two rooms of the run have one code. -/
  unique : ∀ r < w.nextRoom, ∀ s < w.nextRoom, (w.room r).code = (w.room s).code → r = s
  /-- A room keeps the code and the host it was made with. -/
  made : ∀ ls₁ ls₂, ls = ls₁ ++ ls₂ → ∀ r < (run step ls₁ .init).nextRoom,
    (w.room r).code = ((run step ls₁ .init).room r).code ∧
      (w.room r).host = ((run step ls₁ .init).room r).host
  /-- A room that was deleted is never found again, and its code finds no other. -/
  spent : ∀ ls₁ ls₂, ls = ls₁ ++ ls₂ → ∀ r < (run step ls₁ .init).nextRoom,
    (run step ls₁ .init).rooms.lookup ((run step ls₁ .init).room r).code = none →
      ∀ s, ¬ w.Joinable ((run step ls₁ .init).room r).code s
  /-- A `JOIN` that finds a room finds the one whose `CREATED` line had the code. -/
  announced : ∀ c r, w.Joinable c r →
    (∃ ls₁ l ls₂ p, ls = ls₁ ++ l :: ls₂ ∧ (p, .text (.created c)) ∈ sent l (run step ls₁ .init)) ∧
      ∀ ls₁ l ls₂ p, ls = ls₁ ++ l :: ls₂ →
        (p, .text (.created c)) ∈ sent l (run step ls₁ .init) →
          r = (run step ls₁ .init).nextRoom ∧ (w.room r).host = some p
  /-- Between a guest's `JOIN` and its disconnection, every other one of the room fails. -/
  taken : ∀ ls₁ o g m ls₂ r, ls = ls₁ ++ (o, .message g m) :: ls₂ →
    g ∈ (run step ls₁ .init).players → (run step ls₁ .init).joinTarget m = some r →
      g ∈ w.players → ∀ o' p m' body, p ∈ w.players → parseVerb m' = .join body →
        parseCode body = (w.room r).code →
          step (o', .message p m') w = w.emit [(p, .text (.error .joinFailed))]

/-- A room is made, joined, and deleted with its host. -/
def roomDeleted : List Label :=
  [(.id, .connect), (.id, .connect), (.id, .message 0 (ascii "CREATE")),
    (.id, .message 1 (ascii "JOIN 1")), (.id, .disconnect 0)]

end PongPp.Signaling
