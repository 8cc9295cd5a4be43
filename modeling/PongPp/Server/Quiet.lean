import PongPp.Server.Handlers

/-!
# Quiet reads

A read from one client is loud when it brings a room list to the lobby: by a `CREATE`, by a
`JOIN` that finds a free seat, or by ending the connection of a player whose room is listed in
`rooms_`. A quiet read changes no room and writes to the reader and its peer only
(`readable_quiet`); a loud one writes to everybody in the lobby (`readable_loud`).
-/

namespace PongPp.Server

open Function Lib Signaling

/-- A `CREATE`, or a `JOIN` that finds a free seat. -/
def Loud (w : World) (m : Bytes) : Prop := parseVerb m = .create ∨ (w.joinTarget m).isSome

instance (w : World) (m : Bytes) : Decidable (Loud w m) :=
  inferInstanceAs (Decidable (_ ∨ _))

/-- `p`'s departure takes a room out of `rooms_`. -/
def LeavesRoom (w : World) (p : PlayerId) : Prop :=
  ∃ r ∈ w.roomOf p, (w.rooms.lookup (w.room r).code).isSome

instance (w : World) (p : PlayerId) : Decidable (LeavesRoom w p) :=
  inferInstanceAs (Decidable (∃ r ∈ w.roomOf p, _))

/-- A client other than `p` is registered and in the handshake. -/
def SomeoneWaits (s : State) (p : PlayerId) : Prop :=
  ∃ q ∈ s.world.players, q ≠ p ∧ (s.conn q).state = .handshake

instance (s : State) (p : PlayerId) : Decidable (SomeoneWaits s p) :=
  inferInstanceAs (Decidable (∃ q ∈ s.world.players, _))

/-- While somebody else is in the handshake, what is read from `p` has no `CREATE` and no `JOIN`
that finds a seat in it, and does not end the connection of a player in a room. -/
def Quiet (l : Label) (s : State) : Prop :=
  match l.2 with
  | .accept => True
  | .readable p chunk =>
    p ∈ s.world.players → SomeoneWaits s p →
      (∀ m ∈ messages (calls s p chunk).2, ¬ Loud s.world m) ∧
      ((calls s p chunk).1 = .err → ¬ LeavesRoom s.world p)

instance (l : Label) (s : State) : Decidable (Quiet l s) :=
  match l with
  | (_, .accept) => .isTrue trivial
  | (_, .readable ..) => inferInstanceAs (Decidable (_ → _ → _))

/-! ## Calls -/

section Calls

variable {o : Order} {p q : PlayerId} {w : World}

theorem quiet_apply (hp : p ∈ w.players) {e : Ws.Effect}
    (hq : ∀ m ∈ messages [e], ¬ Loud w m) :
    ∃ ps, (io o p).apply w e = w.emit ps ∧ ∀ x ∈ ps, x.1 = p ∨ w.peerOf p = some x.1 := by
  cases e with
  | write b => exact ⟨_, rfl, by simp⟩
  | message m =>
    have hm : ¬ Loud w m := hq m (by simp [messages])
    obtain ⟨w', ps, he, heq, -⟩ := message_effect (o := o) hp m
    rw [heq]
    cases he with
    | create _ _ _ hv => exact absurd (.inl hv) hm
    | join _ _ body r _ hv hj => exact absurd (.inr (by rw [hj.target hv]; rfl)) hm
    | goneMessage => exact ⟨_, rfl, by simp⟩
    | relay _ _ body x _ hv hx => exact ⟨_, rfl, by simp [hx]⟩
    | _ => exact ⟨_, rfl, by simp⟩

theorem messages_cons (e : Ws.Effect) (es : List Ws.Effect) :
    messages (e :: es) = messages [e] ++ messages es := by
  cases e <;> simp [messages]

theorem quiet_after (hp : p ∈ w.players) {es : List Ws.Effect}
    (hq : ∀ m ∈ messages es, ¬ Loud w m) :
    ∃ ps, after o p es w = w.emit ps ∧ ∀ x ∈ ps, x.1 = p ∨ w.peerOf p = some x.1 := by
  induction es generalizing w with
  | nil => exact ⟨[], by simp, by simp⟩
  | cons e es ih =>
    rw [messages_cons] at hq
    obtain ⟨ps, hps, hto⟩ := quiet_apply (o := o) hp fun m hm =>
      hq m (List.mem_append_left _ hm)
    obtain ⟨qs, hqs, hto'⟩ := ih (w := w.emit ps) hp fun m hm =>
      hq m (List.mem_append_right _ hm)
    refine ⟨ps ++ qs, by rw [after_cons, hps, hqs, World.emit_emit], ?_⟩
    intro x hx
    rcases List.mem_append.mp hx with hx | hx
    · exact hto x hx
    · exact hto' x hx

/-- A loud message brings a room list to everybody in the lobby. -/
theorem loud_apply (hp : p ∈ w.players) (hq : q ∈ w.players) (hne : q ≠ p)
    (hroom : w.roomOf q = none) {m : Bytes} (hm : Loud w m) :
    ∃ ps codes, ((io o p).apply w (.message m)).wire = w.wire ++ ps ∧
      (q, .text (.rooms codes)) ∈ ps := by
  obtain ⟨w', ps, he, heq, -⟩ := message_effect (o := o) hp m
  rw [heq, World.emit_wire, he.wire_eq]
  refine ⟨ps, w'.joinableCodes o, rfl, ?_⟩
  have hlist : ∀ {v : World}, q ∈ v.players → v.roomOf q = none →
      (q, .text (.rooms (v.joinableCodes o))) ∈ v.roomList o :=
    fun h₁ h₂ => (World.mem_roomList _ o).mpr ⟨h₁, h₂, rfl⟩
  rcases hm with hv | ht
  · cases he with
    | goneMessage => contradiction
    | create =>
      refine List.mem_append_left _ (hlist hq ?_)
      rw [World.hosted_roomOf, if_neg hne, hroom]
    | _ => simp_all
  · obtain ⟨r, hr⟩ := Option.isSome_iff_exists.mp ht
    obtain ⟨rfl, rfl⟩ := he.of_join hp hr
    refine List.mem_append_left _ (hlist hq ?_)
    rw [World.guested_roomOf, if_neg hne, hroom]

theorem loud_after (hw : Wf w) (hp : p ∈ w.players) (hq : q ∈ w.players) (hne : q ≠ p)
    (hroom : w.roomOf q = none) {es : List Ws.Effect} (hl : ∃ m ∈ messages es, Loud w m) :
    ∃ ps codes, (after o p es w).wire = w.wire ++ ps ∧ (q, .text (.rooms codes)) ∈ ps := by
  induction es generalizing w with
  | nil =>
    obtain ⟨m, hm, -⟩ := hl
    cases hm
  | cons e es ih =>
    rw [after_cons]
    by_cases hloud : ∃ m ∈ messages [e], Loud w m
    · obtain ⟨m, hm, hml⟩ := hloud
      obtain rfl : e = .message m := by
        cases e <;> simp_all [messages]
      obtain ⟨ps, codes, hps, hmem⟩ := loud_apply (o := o) hp hq hne hroom hml
      have hg := grown_apply (o := o) hw hp (.message m)
      obtain ⟨qs, hqs, -⟩ := (grown_after (o := o) hg.wf (hg.players.symm ▸ hp) es).wire
      exact ⟨ps ++ qs, codes, by rw [hqs, hps, List.append_assoc], List.mem_append_left _ hmem⟩
    · push Not at hloud
      obtain ⟨ps, hps, -⟩ := quiet_apply (o := o) hp hloud
      obtain ⟨m, hm, hml⟩ := hl
      rw [messages_cons] at hm
      have hm' : m ∈ messages es := (List.mem_append.mp hm).resolve_left fun h => hloud m h hml
      rw [hps]
      obtain ⟨qs, codes, hqs, hmem⟩ := ih (w := w.emit ps) (hw.emit ps) hp hq hroom ⟨m, hm', hml⟩
      exact ⟨ps ++ qs, codes, by rw [hqs, World.emit_wire, List.append_assoc],
        List.mem_append_right _ hmem⟩

end Calls

/-! ## One input -/

section Read

variable {s : State} {p q : PlayerId} (o : Order) (chunk : Bytes)

theorem readable_grown (hw : Wf s.world) (hp : p ∈ s.world.players) :
    (∃ ps, (s.readable o p chunk).world.wire = s.world.wire ++ ps ∧
        ∀ x ∈ ps, x.1 ∈ s.world.players) ∧
      (s.readable o p chunk).world.nextPlayer = s.world.nextPlayer ∧
      ∀ x, x ∈ (s.readable o p chunk).world.players ↔
        x ∈ s.world.players ∧ ((calls s p chunk).1 = .err → x ≠ p) := by
  have hg := grown_after (o := o) hw hp (calls s p chunk).2
  obtain ⟨ps, hps, hin⟩ := hg.wire
  simp only [readable_world hw o hp]
  split
  · rename_i herr
    have hmem := hg.players.symm ▸ hp
    have he : Effect _ o (.disconnect p) _ _ := .disconnect p hmem
    refine ⟨⟨ps ++ (after o p (calls s p chunk).2 s.world).farewell o p, ?_, ?_⟩, hg.nextPlayer,
      fun x => ?_⟩
    · rw [World.emit_wire, he.wire_eq, hps, List.append_assoc]
    · rintro x hx
      rcases List.mem_append.mp hx with hx | hx
      · exact hin x hx
      · exact hg.players ▸ he.recipient hg.wf hx
    · show x ∈ List.erase _ p ↔ _
      rw [hg.wf.nodup.mem_erase_iff, hg.players]
      simp only [herr, true_implies]
      exact and_comm
  · rename_i hok
    refine ⟨⟨ps, hps, hin⟩, hg.nextPlayer, fun x => ?_⟩
    rw [hg.players]
    simp [hok]

theorem readable_quiet (hw : Wf s.world) (hp : p ∈ s.world.players)
    (hm : ∀ m ∈ messages (calls s p chunk).2, ¬ Loud s.world m)
    (hl : (calls s p chunk).1 = .err → ¬ LeavesRoom s.world p) :
    (∃ ps, (s.readable o p chunk).world.wire = s.world.wire ++ ps ∧
        ∀ x ∈ ps, x.1 = p ∨ s.world.peerOf p = some x.1) ∧
      (s.readable o p chunk).world.room = s.world.room ∧
      (s.readable o p chunk).world.nextRoom = s.world.nextRoom := by
  obtain ⟨ps, hps, hto⟩ := quiet_after (o := o) hp hm
  simp only [readable_world hw o hp, hps]
  split
  · rename_i herr
    refine ⟨⟨ps ++ (s.world.emit ps).farewell o p, ?_, ?_⟩, rfl, rfl⟩
    · show s.world.wire ++ ps ++ _ = _
      rw [List.append_assoc]
    · intro x hx
      rcases List.mem_append.mp hx with hx | hx
      · exact hto x hx
      · refine .inr ?_
        have hleave := hl herr
        unfold World.farewell at hx
        cases hr : s.world.roomOf p with
        | none => simp [hr] at hx
        | some r =>
          have hfiled : ¬ (s.world.rooms.lookup (s.world.room r).code).isSome = true :=
            fun h => hleave ⟨r, hr, h⟩
          simp only [World.emit_roomOf, hr, World.emit_rooms, World.emit_room, hfiled] at hx
          simp only [Bool.false_eq_true, if_false, List.append_nil, List.mem_map,
            Option.mem_toList] at hx
          obtain ⟨y, hy, rfl⟩ := hx
          exact hy
  · exact ⟨⟨ps, rfl, hto⟩, rfl, rfl⟩

theorem readable_loud (hw : Wf s.world) (hp : p ∈ s.world.players) (hq : q ∈ s.world.players)
    (hne : q ≠ p) (hroom : s.world.roomOf q = none)
    (h : ¬ ((∀ m ∈ messages (calls s p chunk).2, ¬ Loud s.world m) ∧
      ((calls s p chunk).1 = .err → ¬ LeavesRoom s.world p))) :
    ∃ codes, (q, .text (.rooms codes)) ∈ sent (o, .readable p chunk) s := by
  suffices ∃ ps codes, (s.readable o p chunk).world.wire = s.world.wire ++ ps ∧
      (q, .text (.rooms codes)) ∈ ps by
    obtain ⟨ps, codes, hps, hmem⟩ := this
    exact ⟨codes, sent_eq (l := (o, .readable p chunk)) hps ▸ hmem⟩
  simp only [readable_world hw o hp]
  by_cases hm : ∀ m ∈ messages (calls s p chunk).2, ¬ Loud s.world m
  · rw [and_iff_right hm] at h
    push Not at h
    obtain ⟨herr, r, hr, hfiled⟩ := h
    obtain ⟨ps, hps, -⟩ := quiet_after (o := o) hp hm
    rw [hps, if_pos herr]
    refine ⟨ps ++ (s.world.emit ps).farewell o p, (s.world.leaving p).joinableCodes o, ?_, ?_⟩
    · show s.world.wire ++ ps ++ _ = _
      rw [List.append_assoc]
    · apply List.mem_append_right
      simp only [World.farewell, World.emit_roomOf, Option.mem_def.mp hr, World.emit_rooms,
        World.emit_room, hfiled, if_true]
      refine List.mem_append_right _ ((World.mem_roomList _ o).mpr ⟨hq, ?_, rfl⟩)
      show (if _ then none else s.world.roomOf q) = none
      rw [hroom, ite_self]
  · push Not at hm
    obtain ⟨ps, codes, hps, hmem⟩ := loud_after (o := o) hw hp hq hne hroom hm
    split
    · refine ⟨ps ++ (after o p (calls s p chunk).2 s.world).farewell o p, codes, ?_,
        List.mem_append_left _ hmem⟩
      show (after o p (calls s p chunk).2 s.world).wire ++ _ = _
      rw [hps, List.append_assoc]
    · exact ⟨ps, codes, hps, hmem⟩

theorem open_stays (h : (s.conn p).state = .open) :
    (Ws.read (io o p) (s.conn p) chunk s.world).2.1.state = .open := by
  rcases hc : s.conn p with ⟨st, b⟩
  rw [hc] at h
  simp only at h
  subst h
  by_cases hchunk : chunk = []
  · simp [Ws.read, hchunk]
  · rw [Ws.read_open _ b hchunk]

theorem readable_conn (hw : Wf s.world) (hp : p ∈ s.world.players) :
    (s.readable o p chunk).conn =
      update s.conn p (Ws.read (io o p) (s.conn p) chunk s.world).2.1 := by
  simp [State.readable, (hw.alive_iff p).mpr hp]

theorem readable_received (hw : Wf s.world) (hp : p ∈ s.world.players) :
    (s.readable o p chunk).received = update s.received p (s.received p ++ chunk) := by
  simp [State.readable, (hw.alive_iff p).mpr hp]

end Read

end PongPp.Server
