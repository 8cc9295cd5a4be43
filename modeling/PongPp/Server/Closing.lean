import PongPp.Server.Quiet

/-!
# Nothing follows a close

A connection whose `Read` returns `err` gets nothing more: the broadcast of its own `Cleanup`
goes past it, since it still has its `room_` then, and whoever is not registered is not written
to. So the 426 response and the answer to a Close frame are the last thing on their socket
(`nothing_follows_close`).
-/

namespace PongPp.Server

open Function Lib Signaling

/-- The writes that end a connection. -/
def ends (b : Bytes) : Prop := b = Ws.upgradeRequired ∨ b = Ws.encodeFrame .close []

/-- The 426 response or the answer to a Close frame. -/
def Ender (k : Packet) : Prop := ∃ b, k = .raw b ∧ ends b

theorem ender_raw {b : Bytes} : Ender (.raw b) ↔ ends b :=
  ⟨fun ⟨_, hb, h⟩ => Packet.raw.inj hb ▸ h, fun h => ⟨b, rfl, h⟩⟩

theorem not_ender_text (m : Msg) : ¬ Ender (.text m) := by
  rintro ⟨b, hb, -⟩
  cases hb

structure LastWord (ls : List Label) : Prop where
  /-- What is written to `p` when its `Read` returns `err` is all that ever will be. -/
  silent : ∀ ls₁ o p chunk ls₂, ls = ls₁ ++ (o, .readable p chunk) :: ls₂ →
    let s := run step ls₁ .init
    p ∈ s.world.players → (Ws.read (io o p) (s.conn p) chunk s.world).1 = .err →
      inbox p (run step ls .init).world.wire =
        inbox p (Ws.read (io o p) (s.conn p) chunk s.world).2.2.wire
  /-- Nothing comes behind a 426 response or the answer to a Close frame. -/
  last : ∀ p, ∀ k ∈ (inbox p (run step ls .init).world.wire).dropLast, ¬ Ender k

/-! ## Calls -/

theorem not_ends_pong (payload : Bytes) : ¬ ends (Ws.encodeFrame .pong payload) := by
  have hhead : (Ws.encodeFrame .pong payload).head? = some 0x8A := rfl
  rintro (h | h)
  all_goals
    rw [h] at hhead
    revert hhead
    decide

theorem not_ends_switchingProtocols (accept : Bytes) : ¬ ends (Ws.switchingProtocols accept) := by
  have htake : (Ws.switchingProtocols accept).take 10 = ascii "HTTP/1.1 1" := by
    unfold Ws.switchingProtocols
    rw [List.append_assoc, List.append_assoc, List.take_append_of_le_length (by decide)]
    decide
  rintro (h | h)
  all_goals
    rw [h] at htake
    revert htake
    decide

/-- The writes that end a connection are the last call of a read, which returns `err`. -/
theorem calls_split (s : State) (p : PlayerId) (chunk : Bytes) :
    ∃ pre last, (calls s p chunk).2 = pre ++ last ∧ (∀ b, .write b ∈ pre → ¬ ends b) ∧
      (last = [] ∨ (calls s p chunk).1 = .err ∧ ∃ b, last = [.write b]) := by
  unfold calls
  rcases s.conn p with ⟨_ | _, buf⟩
  · by_cases hc : chunk = []
    · exact ⟨[], [], by simp [Ws.read, hc], by simp, .inl rfl⟩
    · simp only [Ws.read, if_neg hc, Ws.handleHandshake]
      rcases hp : Ws.processHandshake (buf ++ chunk) with ⟨_ | _ | _ | _, response, rest⟩
      · exact ⟨[], [], rfl, by simp, .inl rfl⟩
      · exact ⟨[], [], rfl, by simp, .inl rfl⟩
      · exact ⟨[], [.write response], rfl, by simp, .inr ⟨rfl, response, rfl⟩⟩
      · refine ⟨[.write response], [], rfl, ?_, .inl rfl⟩
        rintro b hb
        rw [List.mem_singleton] at hb
        cases hb
        obtain ⟨accept, rfl⟩ := Ws.processHandshake_done hp
        exact not_ends_switchingProtocols accept
  · by_cases hc : chunk = []
    · exact ⟨[], [], by simp [Ws.read, hc], by simp, .inl rfl⟩
    · rw [Ws.read_open _ buf hc, Ws.foldl_trace]
      rcases hd : Ws.frames.drain Ws.react (buf ++ chunk) with ⟨es, o, r⟩
      have hreact : ∀ f fs, Ws.react f = (fs, none) → ∀ e ∈ fs, ∀ b, e = .write b → ¬ ends b := by
        rintro f fs hf e he b rfl
        unfold Ws.react at hf
        split at hf
        · cases hf
        · split at hf <;> cases hf <;> simp_all [not_ends_pong]
      obtain ⟨pre, last, hes, hpre, hlast⟩ := Decoder.drain_split hreact hd
      refine ⟨pre, last, hes, fun b hb => hpre _ hb b rfl, ?_⟩
      rcases hlast with hlast | ⟨f, x, hf, rfl⟩
      · exact .inl hlast
      · unfold Ws.react at hf
        split at hf
        · cases hf; exact .inl rfl
        · split at hf <;> cases hf
          · exact .inr ⟨rfl, _, rfl⟩
          · exact .inl rfl

/-! ## Who is written to -/

/-- The departure of `p` is not told to `p`: it still has its `room_` when the list goes out. -/
theorem notMem_farewell_self {o : Order} {p : PlayerId} {w : World} {k : Packet} :
    (p, k) ∉ w.farewell o p := fun h => by
  cases hr : w.roomOf p with
  | none => simp [World.farewell, hr] at h
  | some r =>
    have hpeer : w.peerOf p ≠ some p := fun hp => by
      obtain ⟨s, -, ho⟩ := Option.bind_eq_some_iff.mp hp
      exact (w.mem_otherPlayer ho).2.2 rfl
    rcases World.mem_farewell h with ⟨hp, -⟩ | h
    · exact hpeer hp
    · have hroom := ((World.mem_roomList _ o).mp h).2.1
      simp [World.leaving, hpeer, hr] at hroom

/-! ## Players that are gone -/

theorem step_grown {s : State} (hw : Wf s.world) (l : Label) :
    (∃ ps, (step l s).world.wire = s.world.wire ++ ps ∧ ∀ x ∈ ps, x.1 ∈ s.world.players) ∧
      s.world.nextPlayer ≤ (step l s).world.nextPlayer ∧
      ∀ q ∈ (step l s).world.players, q = s.world.nextPlayer ∨ q ∈ s.world.players := by
  obtain ⟨o, i⟩ := l
  cases i with
  | accept =>
    exact ⟨⟨[], (List.append_nil _).symm, by simp⟩, Nat.le_succ _,
      fun q hq => List.mem_insert_iff.mp hq⟩
  | readable p chunk =>
    by_cases hp : p ∈ s.world.players
    · obtain ⟨hwire, hnext, hmem⟩ := readable_grown o chunk hw hp
      exact ⟨hwire, hnext.ge, fun q hq => .inr ((hmem q).mp hq).1⟩
    · have hsame : step (o, .readable p chunk) s = s := readable_absent o chunk hw hp
      rw [hsame]
      exact ⟨⟨[], (List.append_nil _).symm, by simp⟩, le_rfl, fun q hq => .inr hq⟩

/-- `p` has been registered and is not any more. -/
structure Gone (p : PlayerId) (ks : List Packet) (s : State) : Prop where
  wf : Wf s.world
  lt : p < s.world.nextPlayer
  absent : p ∉ s.world.players
  inbox : inbox p s.world.wire = ks

theorem Gone.step {p : PlayerId} {ks : List Packet} {s : State} (h : Gone p ks s) (l : Label) :
    Gone p ks (step l s) := by
  obtain ⟨⟨ps, hps, hto⟩, hnext, hmem⟩ := step_grown h.wf l
  refine ⟨wf_step h.wf l, h.lt.trans_le hnext, fun hp => ?_, ?_⟩
  · rcases hmem p hp with rfl | hp
    · exact absurd h.lt (lt_irrefl _)
    · exact h.absent hp
  · have hnone : Signaling.inbox p ps = [] := inbox_eq_nil fun x hx he =>
      h.absent (he ▸ hto x hx : p ∈ s.world.players)
    rw [hps, inbox_append, h.inbox, hnone, List.append_nil]

/-! ## Enders come last -/

/-- What a read of `p` writes: nothing that ends a connection but perhaps, when it returns `err`,
a last write to `p`. -/
theorem readable_wire {s : State} (hw : Wf s.world) (o : Order) {p : PlayerId}
    (hp : p ∈ s.world.players) (chunk : Bytes) :
    ∃ ps last qs, (s.readable o p chunk).world.wire = s.world.wire ++ (ps ++ last ++ qs) ∧
      (∀ x ∈ ps ++ qs, ¬ Ender x.2) ∧
      (last = [] ∨ (calls s p chunk).1 = .err ∧ ∃ k, last = [(p, k)] ∧ inbox p qs = []) := by
  obtain ⟨pre, last, hsplit, hpre, hlast⟩ := calls_split s p chunk
  have hgrown := grown_after (o := o) hw hp (calls s p chunk).2
  obtain ⟨ps, hps, hto⟩ := after_packets (o := o) (P := fun k => ¬ Ender k) not_ender_text hw hp
    fun b hb => mt ender_raw.mp (hpre b hb)
  obtain ⟨last', hwire, hlast'⟩ : ∃ last',
      (after o p (calls s p chunk).2 s.world).wire = s.world.wire ++ (ps ++ last') ∧
      (last' = [] ∨ (calls s p chunk).1 = .err ∧ ∃ k, last' = [(p, k)]) := by
    rw [hsplit, after, List.foldl_append]
    rcases hlast with rfl | ⟨herr, b, rfl⟩
    · exact ⟨[], by rw [List.append_nil]; exact hps, .inl rfl⟩
    · refine ⟨[(p, .raw b)], ?_, .inr ⟨herr, _, rfl⟩⟩
      show (after o p pre s.world).wire ++ [(p, .raw b)] = _
      rw [hps, List.append_assoc]
  have hfarewell : ∀ v : World, ∀ x ∈ v.farewell o p, ¬ Ender x.2 := by
    rintro v ⟨x, k⟩ hx ⟨b, rfl, -⟩
    rcases World.mem_farewell hx with ⟨-, hk⟩ | hx
    · cases hk
    · cases ((World.mem_roomList _ o).mp hx).2.2
  rw [readable_world hw o hp]
  simp only
  split
  · rename_i herr
    refine ⟨ps, last', (after o p (calls s p chunk).2 s.world).farewell o p, ?_, ?_, ?_⟩
    · show (after o p (calls s p chunk).2 s.world).wire ++ _ = _
      rw [hwire, List.append_assoc]
    · intro x hx
      rcases List.mem_append.mp hx with hx | hx
      · exact hto x hx
      · exact hfarewell _ x hx
    · rcases hlast' with rfl | ⟨-, k, rfl⟩
      · exact .inl rfl
      · refine .inr ⟨herr, k, rfl, ?_⟩
        exact List.eq_nil_iff_forall_not_mem.mpr fun k hk =>
          notMem_farewell_self (mem_inbox.mp hk)
  · rename_i hok
    refine ⟨ps, last', [], by rw [List.append_nil]; exact hwire, by simpa using hto, ?_⟩
    rcases hlast' with rfl | ⟨herr, -⟩
    · exact .inl rfl
    · exact absurd herr hok

/-- Nothing that ends a connection has been written to a registered player, and nothing behind it
to the others. -/
structure Closing (s : State) : Prop where
  wf : Wf s.world
  present : ∀ p ∈ s.world.players, ∀ k ∈ inbox p s.world.wire, ¬ Ender k
  gone : ∀ p, ∀ k ∈ (inbox p s.world.wire).dropLast, ¬ Ender k
  fresh : ∀ p, s.world.nextPlayer ≤ p → inbox p s.world.wire = []

namespace Closing

variable {s : State}

theorem init : Closing State.init where
  wf := .init
  present p hp := by simp [State.init, World.init] at hp
  gone p k hk := by simp [State.init, World.init] at hk
  fresh p _ := rfl

theorem accept (h : Closing s) : Closing s.accept where
  wf := h.wf.register
  present p hp k hk := by
    rcases List.mem_insert_iff.mp hp with rfl | hp
    · have hnil : inbox s.world.nextPlayer s.accept.world.wire = [] := h.fresh _ le_rfl
      rw [hnil] at hk
      cases hk
    · exact h.present p hp k hk
  gone := h.gone
  fresh p hp := h.fresh p (Nat.le_of_succ_le hp)

theorem readable (h : Closing s) (o : Order) (p : PlayerId) (chunk : Bytes) :
    Closing (s.readable o p chunk) := by
  by_cases hp : p ∈ s.world.players
  swap
  · rwa [readable_absent o chunk h.wf hp]
  obtain ⟨⟨rs, hrs, hin⟩, hnext, hmem⟩ := readable_grown o chunk h.wf hp
  obtain ⟨ps, last, qs, hwire, hnot, hlast⟩ := readable_wire h.wf o hp chunk
  obtain rfl : rs = ps ++ last ++ qs := List.append_cancel_left (hrs.symm.trans hwire)
  -- only the reader, when it leaves, can have got something that ends its connection
  have hnew : ∀ q k, (q, k) ∈ ps ++ last ++ qs → Ender k → q = p ∧ (calls s p chunk).1 = .err := by
    intro q k hk hender
    rcases List.mem_append.mp hk with hk | hk
    · rcases List.mem_append.mp hk with hk | hk
      · exact absurd hender (hnot _ (List.mem_append_left _ hk))
      · rcases hlast with rfl | ⟨herr, k', rfl, -⟩
        · cases hk
        · rw [List.mem_singleton] at hk
          cases hk
          exact ⟨rfl, herr⟩
    · exact absurd hender (hnot _ (List.mem_append_right _ hk))
  refine ⟨wf_step h.wf (o, .readable p chunk), ?_, ?_, ?_⟩
  · intro q hq k hk hender
    obtain ⟨hq, hok⟩ := (hmem q).mp hq
    rw [hwire, inbox_append] at hk
    rcases List.mem_append.mp hk with hk | hk
    · exact h.present q hq k hk hender
    · obtain ⟨rfl, herr⟩ := hnew q k (mem_inbox.mp hk) hender
      exact hok herr rfl
  · intro q k hk hender
    rw [hwire, inbox_append] at hk
    by_cases hqp : q = p
    · subst hqp
      have hold : ∀ k ∈ inbox q s.world.wire ++ inbox q ps, ¬ Ender k := fun k hk => by
        rcases List.mem_append.mp hk with hk | hk
        · exact h.present q hp k hk
        · exact hnot _ (List.mem_append_left _ (mem_inbox.mp hk))
      rcases hlast with rfl | ⟨-, k', rfl, hqs⟩
      · refine absurd hender ?_
        rcases List.mem_append.mp (List.dropLast_subset _ hk) with hk | hk
        · exact h.present q hp k hk
        · exact hnot (q, k) (by simpa using mem_inbox.mp hk)
      · simp only [inbox_append, inbox_cons, if_true, inbox_nil, hqs, List.append_nil,
          ← List.append_assoc, List.dropLast_concat] at hk
        exact hold k hk hender
    · have hnone : ∀ k ∈ inbox q (ps ++ last ++ qs), ¬ Ender k := fun k hk hender =>
        hqp (hnew q k (mem_inbox.mp hk) hender).1
      by_cases hq : q ∈ s.world.players
      · rcases List.mem_append.mp (List.dropLast_subset _ hk) with hk | hk
        · exact h.present q hq k hk hender
        · exact hnone k hk hender
      · have hnil : inbox q (ps ++ last ++ qs) = [] := inbox_eq_nil fun x hx he =>
          hq (he ▸ hin x hx : q ∈ s.world.players)
        rw [hnil, List.append_nil] at hk
        exact h.gone q k hk hender
  · intro q hq
    rw [hnext] at hq
    have hq' : q ∉ s.world.players := fun hm => absurd (h.wf.player_lt q hm) (not_lt.mpr hq)
    have hnil : inbox q (ps ++ last ++ qs) = [] := inbox_eq_nil fun x hx he =>
      hq' (he ▸ hin x hx : q ∈ s.world.players)
    rw [hwire, inbox_append, h.fresh q hq, hnil, List.append_nil]

theorem step (h : Closing s) (l : Label) : Closing (step l s) := by
  obtain ⟨o, i⟩ := l
  cases i with
  | accept => exact h.accept
  | readable p chunk => exact h.readable o p chunk

end Closing

/-- **Nothing follows a close**: a client whose `Read` returned `err` is never written to again,
and a 426 response or the answer to a Close frame is the last thing on its socket. -/
theorem nothing_follows_close (ls : List Label) : LastWord ls := by
  have hrun : ∀ ls, Closing (run step ls .init) := fun ls =>
    run_inv (fun l _ h => h.step l) ls .init
  refine ⟨?_, (hrun ls).gone⟩
  rintro ls₁ o p chunk ls₂ rfl
  simp only
  generalize hs : run step ls₁ State.init = s
  intro hp herr
  have hw : Wf s.world := hs ▸ (hrun ls₁).wf
  obtain ⟨hres, hworld⟩ := read_calls o s p chunk s.world
  rw [hres] at herr
  have hgrown := grown_after (o := o) hw hp (calls s p chunk).2
  have hgone : Gone p (inbox p (after o p (calls s p chunk).2 s.world).wire)
      (step (o, .readable p chunk) s) := by
    have hstep : (step (o, .readable p chunk) s).world = _ := readable_world hw o hp chunk
    simp only [if_pos herr] at hstep
    refine ⟨wf_step hw _, ?_, ?_, ?_⟩ <;> rw [hstep]
    · exact hgrown.nextPlayer ▸ hw.player_lt p hp
    · exact fun hm => (hgrown.wf.nodup.mem_erase_iff.mp hm).1 rfl
    · rw [World.emit_wire, inbox_append]
      have hnil : inbox p ((after o p (calls s p chunk).2 s.world).farewell o p) = [] :=
        List.eq_nil_iff_forall_not_mem.mpr fun k hk => notMem_farewell_self (mem_inbox.mp hk)
      rw [hnil, List.append_nil]
      rfl
  rw [run_append, run_cons, hs, hworld]
  exact (run_inv (fun l _ h => h.step l) ls₂ hgone).inbox

end PongPp.Server
