import PongPp.Signaling.Wf

/-!
# Which event sends what

For each kind of message but `ROOMS`, the events that send it and the players they send it to.
-/

namespace PongPp.Signaling

open Lib

/-- All a run sends. -/
def log (ls : List Label) (w : World) : List (PlayerId × Packet) := outputs step sent ls w

theorem log_cons (l : Label) (ls : List Label) (w : World) :
    log (l :: ls) w = sent l w ++ log ls (step l w) := rfl

theorem run_wire {w : World} (hw : Wf w) (ls : List Label) :
    (run step ls w).wire = w.wire ++ log ls w := by
  induction ls generalizing w with
  | nil => exact (List.append_nil _).symm
  | cons l ls ih =>
    obtain ⟨w', he, hs⟩ := step_effect hw l
    rw [run_cons, ih (hw.step l), hs, World.emit_wire, he.wire_eq, log_cons, hs, List.append_assoc]

/-- The packets for `q`. -/
def inbox (q : PlayerId) (ps : List (PlayerId × Packet)) : List Packet :=
  (ps.filter fun x => x.1 = q).map (·.2)

section Inbox

variable {q x : PlayerId} {k : Packet}

@[simp] theorem inbox_nil : inbox q [] = [] := rfl

@[simp] theorem inbox_append (ps qs : List (PlayerId × Packet)) :
    inbox q (ps ++ qs) = inbox q ps ++ inbox q qs := by simp [inbox]

@[simp] theorem inbox_cons (ps : List (PlayerId × Packet)) :
    inbox q ((x, k) :: ps) = if q = x then k :: inbox q ps else inbox q ps := by
  by_cases h : q = x
  · subst h; simp [inbox]
  · simp [inbox, h, Ne.symm h]

theorem mem_inbox {ps : List (PlayerId × Packet)} : k ∈ inbox q ps ↔ (q, k) ∈ ps := by
  simp [inbox]

theorem inbox_eq_nil {ps : List (PlayerId × Packet)} (h : ∀ x ∈ ps, x.1 ≠ q) : inbox q ps = [] :=
  List.eq_nil_iff_forall_not_mem.mpr fun _ hk => h _ (mem_inbox.mp hk) rfl

end Inbox

variable {w : World} {q : PlayerId}

namespace World

theorem notMem_roomList {o : Order} {k : Packet} (hk : ∀ codes, k ≠ .text (.rooms codes)) :
    (q, k) ∉ w.roomList o := fun h => hk _ ((w.mem_roomList o).mp h).2.2

theorem peerOf_roomless {p : PlayerId} (h : w.roomOf p = none) : w.peerOf p = none := by
  simp [peerOf, h]

theorem count_farewell (o : Order) (p : PlayerId) :
    (w.farewell o p).count (q, .text .peerLeft) = if w.peerOf p = some q then 1 else 0 := by
  have hlist : ∀ b : Bool, ((if b then (w.leaving p).roomList o else []) : List _).count
      (q, Packet.text .peerLeft) = 0 := fun b => by
    rw [List.count_eq_zero]
    cases b <;> simp [notMem_roomList]
  unfold farewell
  cases hr : w.roomOf p with
  | none => simp [peerOf_roomless hr]
  | some r =>
    simp only [List.count_append, hlist, Nat.add_zero]
    cases hp : w.peerOf p with
    | none => simp
    | some x => by_cases hx : x = q <;> simp [hx]

theorem mem_farewell {o : Order} {p : PlayerId} {k : Packet} (h : (q, k) ∈ w.farewell o p) :
    (w.peerOf p = some q ∧ k = .text .peerLeft) ∨ (q, k) ∈ (w.leaving p).roomList o := by
  unfold farewell at h
  cases hr : w.roomOf p with
  | none => simp [hr] at h
  | some r =>
    simp only [hr, List.mem_append, List.mem_map, Option.mem_toList] at h
    rcases h with ⟨x, hx, heq⟩ | h
    · cases heq
      exact .inl ⟨hx, rfl⟩
    · split at h
      · exact .inr h
      · cases h

theorem notMem_farewell {o : Order} {p : PlayerId} {k : Packet}
    (hk : ∀ codes, k ≠ .text (.rooms codes)) (hleft : k ≠ .text .peerLeft) :
    (q, k) ∉ w.farewell o p := fun h => by
  rcases mem_farewell h with ⟨-, h⟩ | h
  · exact hleft h
  · exact notMem_roomList hk h

theorem mem_readies {p : PlayerId} {r : RoomId} {k : Packet} :
    (q, k) ∈ w.readies p r ↔
      (w.lock (w.room r).host = some q ∧ q ≠ p ∧ k = .text .readyHost) ∨
        (q = p ∧ k = .text .readyGuest) := by
  simp only [readies, List.mem_append, List.mem_map, Option.mem_toList, Option.filter_eq_some_iff,
    List.mem_singleton, Prod.mk.injEq, decide_eq_true_eq]
  refine ⟨?_, ?_⟩
  · rintro (⟨x, ⟨hx, hne⟩, rfl, rfl⟩ | h)
    · exact .inl ⟨hx, hne, rfl⟩
    · exact .inr h
  · rintro (⟨hx, hne, rfl⟩ | h)
    · exact .inl ⟨q, ⟨hx, hne⟩, rfl, rfl⟩
    · exact .inr h

end World

namespace Effect

variable {o : Order} {e : Event} {w' : World} {ps : List (PlayerId × Packet)}

theorem recipient (hw : Wf w) (he : Effect w o e w' ps) {k : Packet} (hq : (q, k) ∈ ps) :
    q ∈ w.players := by
  have halive : ∀ {x}, w.alive x = true → x ∈ w.players := fun h => (hw.alive_iff _).mp h
  cases he with
  | connect | goneMessage | goneDisconnect => cases hq
  | list p m hp | joinFailed p m _ hp | relayFailed p m _ hp | unknown p m hp =>
    rw [List.mem_singleton] at hq
    cases hq
    exact hp
  | create p m hp =>
    rcases List.mem_append.mp hq with h | h
    · exact ((World.mem_roomList _ o).mp h).1
    · rw [List.mem_singleton] at h
      cases h
      exact hp
  | join p m body r hp =>
    rcases List.mem_append.mp hq with h | h
    · exact ((World.mem_roomList _ o).mp h).1
    · rcases World.mem_readies.mp h with ⟨hlock, -⟩ | ⟨rfl, -⟩
      · exact halive (w.lock_eq_some.mp hlock).2
      · exact hp
  | relay p m body x hp hv hx =>
    rw [List.mem_singleton] at hq
    cases hq
    obtain ⟨r, -, ho⟩ := Option.bind_eq_some_iff.mp hx
    exact halive (w.mem_otherPlayer ho).2.1
  | disconnect p hp =>
    rcases World.mem_farewell hq with ⟨hx, -⟩ | h
    · obtain ⟨r, -, ho⟩ := Option.bind_eq_some_iff.mp hx
      exact halive (w.mem_otherPlayer ho).2.1
    · exact ((World.mem_roomList _ o).mp h).1

theorem text (he : Effect w o e w' ps) : ∀ x ∈ ps, ∃ m, x.2 = .text m := by
  rintro ⟨q, k⟩ hq
  cases he with
  | connect | goneMessage | goneDisconnect => cases hq
  | list | joinFailed | relay | relayFailed | unknown =>
    rw [List.mem_singleton] at hq
    cases hq
    exact ⟨_, rfl⟩
  | create =>
    rcases List.mem_append.mp hq with h | h
    · exact ⟨_, ((World.mem_roomList _ o).mp h).2.2⟩
    · rw [List.mem_singleton] at h
      cases h
      exact ⟨_, rfl⟩
  | join =>
    rcases List.mem_append.mp hq with h | h
    · exact ⟨_, ((World.mem_roomList _ o).mp h).2.2⟩
    · rcases World.mem_readies.mp h with ⟨-, -, hk⟩ | ⟨-, hk⟩ <;> exact ⟨_, hk⟩
  | disconnect =>
    rcases World.mem_farewell hq with ⟨-, hk⟩ | h
    · exact ⟨_, hk⟩
    · exact ⟨_, ((World.mem_roomList _ o).mp h).2.2⟩

end Effect

theorem peerLeft_mem_sent (hw : Wf w) {l : Label} :
    (q, .text .peerLeft) ∈ sent l w ↔
      ∃ p, l.2 = .disconnect p ∧ p ∈ w.players ∧ w.peerOf p = some q := by
  obtain ⟨w', he, -⟩ := step_effect hw l
  generalize sent l w = ps at he ⊢
  obtain ⟨o, e⟩ := l
  cases he with
  | create => simp [World.notMem_roomList]
  | join => simp [World.notMem_roomList, World.mem_readies]
  | disconnect p hp =>
    rw [← List.count_pos_iff, World.count_farewell]
    by_cases hq : w.peerOf p = some q <;> simp [hq, hp]
  | goneDisconnect p hp => simp [hp]
  | _ => simp [World.roomsLine]

theorem relay_mem_sent (hw : Wf w) {l : Label} {b : Bytes} :
    (q, .text (.relay b)) ∈ sent l w ↔
      ∃ p m, l.2 = .message p m ∧ p ∈ w.players ∧ parseVerb m = .relay b ∧
        w.peerOf p = some q := by
  obtain ⟨w', he, -⟩ := step_effect hw l
  generalize sent l w = ps at he ⊢
  obtain ⟨o, e⟩ := l
  cases he with
  | connect | goneDisconnect => simp
  | goneMessage p m hp => simp [hp]
  | relay p m body q' hp hv hq => simp [hp, hv, hq, eq_comm, and_comm]
  | disconnect => simp [World.notMem_farewell]
  | _ => simp_all [World.notMem_roomList, World.mem_readies, World.roomsLine]

theorem readyHost_mem_sent (hw : Wf w) {l : Label} :
    (q, .text .readyHost) ∈ sent l w ↔
      ∃ p m r, l.2 = .message p m ∧ p ∈ w.players ∧ w.joinTarget m = some r ∧
        w.lock (w.room r).host = some q ∧ q ≠ p := by
  obtain ⟨w', he, -⟩ := step_effect hw l
  generalize sent l w = ps at he ⊢
  obtain ⟨o, e⟩ := l
  cases he with
  | connect | goneDisconnect => simp
  | goneMessage p m hp => simp [hp]
  | join p m body r hp hv hj => simp [hp, hj.target hv, World.notMem_roomList, World.mem_readies]
  | disconnect => simp [World.notMem_farewell]
  | _ => simp_all [World.notMem_roomList, World.roomsLine, World.joinTarget_eq_some]

theorem readyGuest_mem_sent (hw : Wf w) {l : Label} :
    (q, .text .readyGuest) ∈ sent l w ↔
      ∃ m r, l.2 = .message q m ∧ q ∈ w.players ∧ w.joinTarget m = some r := by
  obtain ⟨w', he, -⟩ := step_effect hw l
  generalize sent l w = ps at he ⊢
  obtain ⟨o, e⟩ := l
  cases he with
  | connect | goneDisconnect => simp
  | goneMessage p m hp =>
    refine iff_of_false List.not_mem_nil ?_
    rintro ⟨m, r, ⟨⟩, hq, -⟩
    exact hp hq
  | join p m body r hp hv hj =>
    rw [List.mem_append, World.mem_readies]
    refine ⟨?_, ?_⟩
    · rintro (h | ⟨-, -, h⟩ | ⟨rfl, -⟩)
      · exact absurd h (World.notMem_roomList (by simp))
      · cases h
      · exact ⟨m, r, rfl, hp, hj.target hv⟩
    · rintro ⟨m, r, ⟨⟩, -, -⟩
      exact .inr (.inr ⟨rfl, rfl⟩)
  | disconnect => simp [World.notMem_farewell]
  | _ => simp_all [World.notMem_roomList, World.roomsLine, World.joinTarget_eq_some]

end PongPp.Signaling
