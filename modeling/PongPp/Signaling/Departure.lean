import PongPp.Signaling.Seats
import PongPp.Signaling.Sent

/-!
# Departures

When a player's connection ends, its rooms go and its peer is told, once; nobody else notices.
An identity that has left the hub never comes back (`gone_run`), a seat stays taken while its
room is held (`kept_run`) and a pair stays together until one of the two leaves
(`together_run`).
-/

namespace PongPp.Signaling

open Function Lib

variable {w : World} {p q : PlayerId} {r : RoomId}

/-! ## Players that have left -/

theorem nextPlayer_step (hw : Wf w) (l : Label) : w.nextPlayer ≤ (step l w).nextPlayer := by
  refine step_rule hw (P := fun v => w.nextPlayer ≤ v.nextPlayer) (fun _ _ h => h)
    fun w' ps he => ?_
  obtain ⟨o, e⟩ := l
  cases he with
  | connect => exact Nat.le_succ _
  | _ => exact le_rfl

theorem gone_step (hw : Wf w) (l : Label) (hlt : p < w.nextPlayer) (hp : p ∉ w.players) :
    p ∉ (step l w).players := by
  refine step_rule hw (P := fun v => p ∉ v.players) (fun _ _ h => h) fun w' ps he => ?_
  obtain ⟨o, e⟩ := l
  cases he with
  | connect =>
    simp only [World.register, List.mem_insert_iff, not_or]
    exact ⟨hlt.ne, hp⟩
  | disconnect x => exact fun h => hp (List.mem_of_mem_erase h)
  | _ => exact hp

theorem gone_run (hw : Wf w) (ls : List Label) (hlt : p < w.nextPlayer) (hp : p ∉ w.players) :
    p ∉ (run step ls w).players :=
  (hw.run_keeps (I := fun w => p < w.nextPlayer ∧ p ∉ w.players)
    (fun l _ hw h => ⟨h.1.trans_le (nextPlayer_step hw l), gone_step hw l h.1 h.2⟩) ls
    ⟨hlt, hp⟩).2

/-! ## Seats stay taken -/

/-- `p` has a seat in `r` as long as `r` is held. -/
def Kept (p : PlayerId) (r : RoomId) (w : World) : Prop :=
  r < w.nextRoom ∧ (w.Held r → (w.room r).Has p)

theorem kept_step (hw : Wf w) (ht : Tidy w) (l : Label) (h : Kept p r w) :
    Kept p r (step l w) := by
  obtain ⟨hlt, hkept⟩ := h
  refine step_rule hw (P := Kept p r) (fun _ _ h => h) fun w' ps he => ?_
  obtain ⟨o, e⟩ := l
  cases he with
  | connect =>
    refine ⟨hlt, fun hr => hkept ?_⟩
    rwa [World.Held, hw.roomOf_register] at hr
  | create x m =>
    refine ⟨Nat.lt_succ_of_lt hlt, fun hr => ?_⟩
    rw [World.hosted_room_old hlt]
    exact hkept (hr.of_hosted.resolve_left hlt.ne)
  | join x m body s hx _ hj =>
    refine ⟨hlt, fun hr => ?_⟩
    replace hr := hr.of_guested hj
    rw [Room.Has, World.guested_host, World.guested_guest]
    rcases hkept hr with hh | hg
    · exact .inl hh
    · refine .inr ?_
      rw [if_neg, hg]
      exact hw.guest_dead hj.2.2 (ht r hr p (.inr hg)) hg
  | disconnect x => exact ⟨hlt, fun hr => hkept (hr.of_departed hw).1⟩
  | _ => exact ⟨hlt, hkept⟩

theorem kept_run {ls : List Label} (hw : Wf w) (ht : Tidy w) (hg : Guarded step Settled ls w)
    (h : Kept p r w) : Kept p r (run step ls w) :=
  (hw.run_guarded (I := fun w => Tidy w ∧ Kept p r w)
    (fun l _ hw hl h => ⟨h.1.step hw hl, kept_step hw h.1 l h.2⟩) hg ⟨ht, h⟩).2

/-! ## Pairs stay together -/

/-- `p` and `q` are two players in `r`. -/
structure Together (p q : PlayerId) (r : RoomId) (w : World) : Prop where
  ne : q ≠ p
  left : w.roomOf p = some r
  right : w.roomOf q = some r

theorem Together.peerOf (h : Together p q r w) (hw : Wf w) : w.peerOf p = some q :=
  hw.peerOf_eq h.left h.right h.ne

theorem together_step (hw : Wf w) (ht : Tidy w) {l : Label} (hl : Settled l w)
    (h : Together p q r w) (hp : p ∈ (step l w).players) (hq : q ∈ (step l w).players)
    (htold : (q, .text .peerLeft) ∉ sent l w) : Together p q r (step l w) := by
  rw [peerLeft_mem_sent hw] at htold
  obtain ⟨w', he, hs⟩ := step_effect hw l
  rw [hs] at hp hq ⊢
  suffices Together p q r w' from ⟨this.ne, this.left, this.right⟩
  obtain ⟨hne, hpr, hqr⟩ := h
  generalize sent l w = ps at he
  obtain ⟨o, e⟩ := l
  cases he with
  | connect => exact ⟨hne, by rwa [hw.roomOf_register], by rwa [hw.roomOf_register]⟩
  | create x m hx hv =>
    have hx := (hl hx).1 hv
    have stay : ∀ y, w.roomOf y = some r → (w.hosted x).roomOf y = some r := fun y hy => by
      rw [World.hosted_roomOf, if_neg, hy]
      rintro rfl
      rw [hx] at hy
      cases hy
    exact ⟨hne, stay p hpr, stay q hqr⟩
  | join x m body s hx hv hj =>
    have hx := (hl hx).2 s (hj.target hv)
    have stay : ∀ y, w.roomOf y = some r → (w.guested x s).roomOf y = some r := fun y hy => by
      rw [World.guested_roomOf]
      split
      · rename_i hyx
        subst hyx
        rw [hy] at hx
        exact (hx.resolve_left (by simp)).symm
      · exact hy
    exact ⟨hne, stay p hpr, stay q hqr⟩
  | disconnect x hx =>
    have stay : ∀ y, y ∈ (w.departed x).players → w.roomOf y = some r →
        (w.departed x).roomOf y = some r := fun y hy hyr => by
      have hyx : y ≠ x := (hw.nodup.mem_erase_iff.mp hy).1
      have hqx : q ≠ x := (hw.nodup.mem_erase_iff.mp hq).1
      rw [World.departed_roomOf, if_neg, hyr]
      rintro (rfl | hpeer)
      · exact hyx rfl
      · -- the one who leaves would be in the room too, and `q` its peer
        obtain ⟨-, s, hxs, hys⟩ := ht.peer_room hpeer
        obtain rfl : r = s := Option.some.inj (hyr.symm.trans hys)
        exact htold ⟨x, rfl, hx, hw.peerOf_eq hxs hqr hqx⟩
    exact ⟨hne, stay p hp hpr, stay q hq hqr⟩
  | _ => exact ⟨hne, hpr, hqr⟩

theorem together_run {ls : List Label} (hw : Wf w) (ht : Tidy w) (hg : Guarded step Settled ls w)
    (h : Together p q r w) (hp : p ∈ (run step ls w).players) (hq : q ∈ (run step ls w).players)
    (htold : (q, .text .peerLeft) ∉ log ls w) : Together p q r (run step ls w) := by
  induction ls generalizing w with
  | nil => exact h
  | cons l ls ih =>
    rw [log_cons, List.mem_append, not_or] at htold
    have hw' := hw.step l
    have stays : ∀ {y}, w.roomOf y = some r → y ∈ (run step ls (step l w)).players →
        y ∈ (step l w).players := fun hy hmem => by
      by_contra hn
      have hlt := hw.player_lt _ (hw.registered _ r hy)
      exact gone_run hw' ls (hlt.trans_le (nextPlayer_step hw l)) hn hmem
    exact ih hw' (ht.step hw hg.1) hg.2
      (together_step hw ht hg.1 h (stays h.left hp) (stays h.right hq) htold.1) hp hq htold.2

/-! ## The departure law -/

/-- A `JOIN` of the run `ls` paired `p` and `q`, and `q` has not been told `PEER_LEFT` since. -/
def Paired (ls : List Label) (p q : PlayerId) : Prop :=
  ∃ ls₁ l ls₂, ls = ls₁ ++ l :: ls₂ ∧
    (let ps := sent l (run step ls₁ .init)
     ((p, .text .readyHost) ∈ ps ∧ (q, .text .readyGuest) ∈ ps) ∨
      ((q, .text .readyHost) ∈ ps ∧ (p, .text .readyGuest) ∈ ps)) ∧
    (q, .text .peerLeft) ∉ log ls₂ (run step (ls₁ ++ [l]) .init)

/-- What the departure of `p` after the run `ls` does; `later` is what happens next. -/
structure Departure (ls : List Label) (o : Order) (p : PlayerId) (later : List Label) : Prop where
  /-- No room `p` was ever in is in `rooms_`. -/
  entered : ∀ ls₁ ls₂ r, ls = ls₁ ++ ls₂ → (run step ls₁ .init).roomOf p = some r →
    ∀ c, (run step (ls ++ (o, .disconnect p) :: later) .init).rooms.lookup c ≠ some r
  /-- No room of `rooms_` has `p` in a seat. -/
  unseated : ∀ c r,
    (run step (ls ++ (o, .disconnect p) :: later) .init).rooms.lookup c = some r →
    ¬ ((run step (ls ++ (o, .disconnect p) :: later) .init).room r).Has p
  /-- With the last client the last room goes. -/
  emptied : (run step (ls ++ (o, .disconnect p) :: later) .init).players = [] →
    (run step (ls ++ (o, .disconnect p) :: later) .init).rooms = ∅
  /-- Whoever is paired with `p` is told so once and is out of the room. -/
  peer : ∀ q ∈ (run step (ls ++ [(o, .disconnect p)]) .init).players, Paired ls p q →
    (sent (o, .disconnect p) (run step ls .init)).count (q, .text .peerLeft) = 1 ∧
      (run step (ls ++ [(o, .disconnect p)]) .init).roomOf q = none
  /-- Whoever was not in `p`'s room notices nothing. -/
  others : ∀ q, (∀ r, (run step ls .init).roomOf p = some r →
      (run step ls .init).roomOf q ≠ some r) →
    (q, .text .peerLeft) ∉ sent (o, .disconnect p) (run step ls .init) ∧
      (run step (ls ++ [(o, .disconnect p)]) .init).roomOf q = (run step ls .init).roomOf q

/-- A `JOIN` that sends both `READY`s brings the two together. -/
theorem together_of_ready (hw : Wf w) (ht : Tidy w) {l : Label} {h g : PlayerId}
    (hh : (h, .text .readyHost) ∈ sent l w) (hg : (g, .text .readyGuest) ∈ sent l w) :
    ∃ r, Together h g r (step l w) := by
  obtain ⟨o, e⟩ := l
  obtain ⟨x, m, r, rfl, hx, hr, hlock, hne⟩ := (readyHost_mem_sent hw).mp hh
  obtain ⟨_, _, ⟨⟩, -, -⟩ := (readyGuest_mem_sent hw).mp hg
  obtain ⟨w', he, hs⟩ := step_effect hw (o, .message g m)
  obtain ⟨rfl, -⟩ := he.of_join hx hr
  obtain ⟨body, hv, hj⟩ := w.joinTarget_eq_some.mp hr
  have hhost := ht r (.inl ⟨_, hj.2.1⟩) h (.inl ((w.lock_eq_some).mp hlock).1)
  refine ⟨r, hne.symm, ?_, ?_⟩
  · rw [hs, World.emit_roomOf, World.guested_roomOf, if_neg hne, hhost]
  · rw [hs, World.emit_roomOf, World.guested_roomOf, if_pos rfl]

theorem paired_together {ls : List Label} (hg : Guarded step Settled ls .init)
    (hp : p ∈ (run step ls .init).players) (hq : q ∈ (run step ls .init).players)
    (h : Paired ls p q) : ∃ r, Together p q r (run step ls .init) := by
  obtain ⟨ls₁, l, ls₂, rfl, hready, htold⟩ := h
  obtain ⟨hg₁, hgl, hg₂⟩ := Guarded.append.mp hg
  obtain ⟨hw, ht⟩ := Tidy.run hg₁
  rw [run_concat] at htold
  rw [run_append, run_cons] at hp hq ⊢
  obtain ⟨r, hr⟩ : ∃ r, Together p q r (step l (run step ls₁ .init)) := by
    rcases hready with ⟨h₁, h₂⟩ | ⟨h₁, h₂⟩
    · exact together_of_ready hw ht h₁ h₂
    · obtain ⟨r, hr⟩ := together_of_ready hw ht h₁ h₂
      exact ⟨r, hr.ne.symm, hr.right, hr.left⟩
  exact ⟨r, together_run (hw.step l) (ht.step hw hgl) hg₂ hr hp hq htold⟩

theorem unseated_of_gone (hw : Wf w) (ht : Tidy w) (hp : p ∉ w.players) (hr : w.Held r) :
    ¬ (w.room r).Has p := fun h => hp (hw.registered p r (ht r hr p h))

theorem rooms_eq_empty (hw : Wf w) (ht : Tidy w) (hnil : w.players = []) : w.rooms = ∅ := by
  refine AList.ext (List.eq_nil_iff_forall_not_mem.mpr ?_)
  rintro ⟨c, r⟩ hm
  have hl := AList.mem_lookup_iff.mpr hm
  obtain ⟨h, hh⟩ := hw.has_host r (hw.filed_lt c r hl)
  refine unseated_of_gone hw ht ?_ (.inl ⟨c, hl⟩) (.inl hh)
  rw [hnil]
  exact List.not_mem_nil

theorem Tidy.peerOf_ne (ht : Tidy w) (hq : ∀ r, w.roomOf p = some r → w.roomOf q ≠ some r) :
    w.peerOf p ≠ some q := fun h => by
  obtain ⟨-, r, hpr, hqr⟩ := ht.peer_room h
  exact hq r hpr hqr

/-- **Departure law**, as long as nobody takes a second seat from inside a room. -/
theorem departure_law (ls : List Label) (o : Order) (p : PlayerId) (later : List Label)
    (hp : p ∈ (run step ls .init).players)
    (hg : Guarded step Settled (ls ++ (o, .disconnect p) :: later) .init) :
    Departure ls o p later := by
  have hgl := (Guarded.append.mp hg).1
  obtain ⟨hw, ht⟩ := Tidy.run hgl
  obtain ⟨hwE, htE⟩ := Tidy.run hg
  obtain ⟨w', he, hs⟩ := step_effect hw (o, .disconnect p)
  obtain ⟨rfl, hsent⟩ := he.of_disconnect hp
  have hgone : p ∉ (run step (ls ++ (o, .disconnect p) :: later) .init).players := by
    rw [run_append, run_cons, hs]
    exact gone_run ((hw.departed p).emit _) later (hw.player_lt p hp)
      fun h => (hw.nodup.mem_erase_iff.mp h).1 rfl
  refine ⟨?_, fun c r hl => unseated_of_gone hwE htE hgone (.inl ⟨c, hl⟩),
    rooms_eq_empty hwE htE, ?_, ?_⟩
  · rintro ls₁ ls₂ r rfl hr c hl
    rw [List.append_assoc] at hg hwE htE hgone hl
    obtain ⟨hg₁, hg₂⟩ := Guarded.append.mp hg
    obtain ⟨hw₁, ht₁⟩ := Tidy.run hg₁
    have hkept := kept_run hw₁ ht₁ hg₂ ⟨hw₁.room_lt p r hr, fun _ => hw₁.seated p r hr⟩
    rw [← run_append] at hkept
    exact unseated_of_gone hwE htE hgone (.inl ⟨c, hl⟩) (hkept.2 (.inl ⟨c, hl⟩))
  · intro q hq hpq
    rw [run_concat] at hq ⊢
    have hq : q ∈ (run step ls .init).players := by
      rw [hs] at hq
      exact List.mem_of_mem_erase hq
    obtain ⟨r, hr⟩ := paired_together hgl hp hq hpq
    have hpeer := hr.peerOf hw
    refine ⟨?_, ?_⟩
    · rw [hsent, World.count_farewell, if_pos hpeer]
    · rw [hs, World.emit_roomOf, World.departed_roomOf, if_pos (.inr hpeer)]
  · intro q hq
    have hpeer := ht.peerOf_ne hq
    refine ⟨?_, ?_⟩
    · rw [hsent, ← List.count_eq_zero, World.count_farewell, if_neg hpeer]
    · rw [run_concat, hs, World.emit_roomOf, World.departed_roomOf]
      split
      · -- `p` itself, when it is in no room
        rename_i h
        obtain rfl := h.resolve_right hpeer
        cases hr : (run step ls .init).roomOf q with
        | none => rfl
        | some r => exact absurd hr (hq r hr)
      · rfl

/-- A guest is told when its host leaves. -/
theorem departure_law_host :
    Departure [(.id, .connect), (.id, .connect), (.id, .message 0 (ascii "CREATE")),
      (.id, .message 1 (ascii "JOIN 1"))] .id 0 [] :=
  departure_law _ _ _ _ (by decide) (by decide)

/-- A player that creates twice leaves its first room behind. -/
theorem departure_createTwice :
    ¬ ∀ (ls : List Label) (o : Order) (p : PlayerId) (later : List Label),
      p ∈ (run step ls .init).players → Departure ls o p later := by
  intro h
  have hd := h [(.id, .connect), (.id, .message 0 (ascii "CREATE")),
    (.id, .message 0 (ascii "CREATE"))] .id 0 [] (by decide)
  exact hd.unseated 1 0 (by decide) (by decide)

end PongPp.Signaling
