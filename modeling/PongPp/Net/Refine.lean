import PongPp.Net.Arrival
import PongPp.Server.Streams

/-!
# The bytes carry the protocol

Every fair move of browsers and server with nothing but bytes between them is a run of moves of the
system in which lines are on their way, whatever the pieces in which the bytes are handed over
(`network_refines`).
-/

namespace PongPp.Net

open Function Lib Signaling Session

/-! ## One read of the server -/

theorem read_request (q : Upgrade) {buf chunk rest : Bytes} (hchunk : chunk ≠ [])
    (h : buf ++ (chunk ++ rest) = q.bytes) {σ : Type} (io : Ws.Io σ) (w : σ) :
    Ws.read io ⟨.handshake, buf⟩ chunk w =
      if rest = [] then (.ok, ⟨.open, []⟩, io.write q.accept w)
      else (.ok, ⟨.handshake, buf ++ chunk⟩, w) := by
  rw [← List.append_assoc] at h
  split
  · rename_i hnil
    rw [hnil, List.append_nil] at h
    have hanswer := Ws.processHandshake_bytes q.toRequest
    have hkey := Ws.trim_of_tidy q.key_tidy
    simp only [Ws.read, if_neg hchunk, Ws.handleHandshake, h, hanswer, Ws.answer, if_neg q.key_ne,
      Upgrade.accept, hkey]
  · rename_i hne
    have hpre : buf ++ chunk ≠ q.bytes := fun heq =>
      hne (List.append_right_eq_self.mp (h.trans heq.symm))
    have hnone := q.oneRequest.find_none ⟨rest, h⟩ hpre
    simp only [Ws.read, if_neg hchunk, Ws.handleHandshake, Ws.processHandshake_none hnone]

section Readable

variable {n : State} {s s' : System} {p : PlayerId} {o : Order} {chunk : Bytes}

/-- The memory after a read: its calls, and the departure of a client whose read ends in `err`. -/
theorem readable_steps {server : Server.State} (hw : Wf server.world)
    (hp : p ∈ server.world.players) (o : Order) (chunk : Bytes) :
    (server.readable o p chunk).world =
      let w := Server.after o p (Server.calls server p chunk).2 server.world
      if (Server.calls server p chunk).1 = .err then Signaling.step (o, .disconnect p) w
      else w := by
  have hgrown := Server.grown_after (o := o) hw hp (Server.calls server p chunk).2
  have he : Effect _ o (.disconnect p) _ _ := .disconnect p (hgrown.players.symm ▸ hp)
  simp only [Server.readable_world hw o hp]
  rw [he.step_eq (l := (o, .disconnect p)) hgrown.wf]

theorem messages_lines (xs : List (Option RoomId × Web.Line)) :
    Server.messages (xs.map fun x => .message (utf8Encode x.2.text)) =
      xs.map fun x => utf8Encode x.2.text := by
  induction xs with
  | nil => rfl
  | cons x xs ih => exact congrArg (List.cons _) ih

namespace Refines

theorem players (h : Refines n s) : s.world.players = n.server.world.players := by
  rw [← h.world]
  rfl

theorem nextPlayer (h : Refines n s) : s.world.nextPlayer = n.server.world.nextPlayer := by
  rw [← h.world]
  rfl

theorem after_read (h : Refines n s) (hp : p ∈ s.world.players) (out : Bytes)
    (hc : Carries (n.server.readable o p chunk).world n.tab s')
    (hother : ∀ q ∈ s'.world.players, q ≠ p → q ∈ s.world.players ∧
      (s'.client q).up = (s.client q).up ∧ (s'.client q).upgraded = (s.client q).upgraded)
    (hself : p ∈ s'.world.players →
      Sends (Ws.read Ws.trace (n.server.conn p) chunk []).2.1 { n.tab p with out }
        (s'.client p)) :
    Refines ⟨n.server.readable o p chunk, update n.tab p { n.tab p with out }⟩ s' := by
  have hconn := Server.readable_conn o chunk h.wf (h.players ▸ hp)
  rw [Server.read_conn (Server.io o p) Ws.trace (n.server.conn p) chunk n.server.world []] at hconn
  refine ⟨⟨hc.sound, hc.wf, hc.world, fun q hq => ?_, hc.unborn⟩, fun q hq => ?_⟩
  · have htied := hc.tied q hq
    show Tied _ (update n.tab p _ q) _
    by_cases hqp : q = p
    · subst hqp
      rw [update_self]
      exact ⟨htied.page, htied.asked, htied.down, htied.taken, htied.short⟩
    · rw [update_of_ne hqp]
      exact htied
  · show Sends ((n.server.readable o p chunk).conn q) (update n.tab p _ q) _
    rw [hconn]
    by_cases hqp : q = p
    · subst hqp
      rw [update_self, update_self]
      exact hself hq
    · obtain ⟨hold, hup, hupgraded⟩ := hother q hq hqp
      rw [update_of_ne hqp, update_of_ne hqp]
      exact (h.sends q hold).congr rfl rfl rfl hup hupgraded

theorem read_ok (h : Refines n s) (hp : p ∈ s.world.players) (out : Bytes)
    (hres : (Server.calls n.server p chunk).1 = .ok)
    (hc : Carries (Server.after o p (Server.calls n.server p chunk).2 n.server.world) n.tab s')
    (hserved : Served s s' p)
    (hsends : Sends (Ws.read Ws.trace (n.server.conn p) chunk []).2.1 { n.tab p with out }
      (s'.client p)) :
    Refines ⟨n.server.readable o p chunk, update n.tab p { n.tab p with out }⟩ s' := by
  have hworld := readable_steps h.wf (h.players ▸ hp) o chunk
  simp only [hres] at hworld
  exact h.after_read hp out (hworld ▸ hc)
    (fun q hq hqp => ⟨hserved.players ▸ hq, hserved.up q hqp, hserved.upgraded q hqp⟩)
    fun _ => hsends

theorem read_err (h : Refines n s) (hp : p ∈ s.world.players) (out : Bytes)
    (hres : (Server.calls n.server p chunk).1 = .err)
    (hc : Carries (Server.after o p (Server.calls n.server p chunk).2 n.server.world) n.tab s')
    (hserved : Served s s' p) (hroomy : Roomy (o, .disconnect p) s'.world) :
    Follows ⟨n.server.readable o p chunk, update n.tab p { n.tab p with out }⟩ s' := by
  have hworld := readable_steps h.wf (h.players ▸ hp) o chunk
  simp only [hres] at hworld
  obtain ⟨hfair, hc'⟩ := hc.hangup o p hroomy
  have hw := hc.sound.orderly.wf
  have he : Effect s'.world o (.disconnect p) _ _ := .disconnect p (hserved.players ▸ hp)
  have hstep : (Session.step (o, .hangup p) s').world = _ :=
    he.step_eq (l := (o, .disconnect p)) hw
  refine .single hfair (h.after_read hp out (hworld ▸ hc') (fun q hq hqp => ?_) fun hmem => ?_)
  · rw [hstep] at hq
    exact ⟨hserved.players ▸ (hw.nodup.mem_erase_iff.mp hq).2, hserved.up q hqp,
      hserved.upgraded q hqp⟩
  · rw [hstep] at hmem
    exact absurd rfl (hw.nodup.mem_erase_iff.mp hmem).1

/-- **A part of an upgrade request** is read. -/
theorem greeting (h : Refines n s) (hp : p ∈ s.world.players) {buf out : Bytes}
    (hconn : n.server.conn p = ⟨.handshake, buf⟩) (hchunk : chunk ≠ [])
    (hupgraded : (s.client p).upgraded = false) (hup : (s.client p).up = [])
    (hws : (n.tab p).page.ws ≠ .open) (hbytes : buf ++ (chunk ++ out) = (n.tab p).request.bytes) :
    Follows ⟨n.server.readable o p chunk, update n.tab p { n.tab p with out }⟩ s := by
  have hread := read_request (n.tab p).request hchunk hbytes Ws.trace []
  rw [← hconn] at hread
  by_cases hnil : out = []
  · rw [if_pos hnil] at hread
    have hcalls : Server.calls n.server p chunk = (.ok, [.write (n.tab p).request.accept]) := by
      rw [Server.calls, hread]
      rfl
    obtain ⟨hfair, hstep, hc⟩ := h.upgrade hp hupgraded o
    refine .next hfair ?_
    rw [hstep]
    refine .here (h.read_ok hp out (by rw [hcalls]) (by rw [hcalls]; exact hc)
      ⟨rfl, rfl, fun q hq => ?_, fun q hq => ?_⟩ ?_)
    · exact congrArg Client.up (update_of_ne hq ..)
    · exact congrArg Client.upgraded (update_of_ne hq ..)
    · rw [hread, hnil]
      simp only [update_self]
      have heq : (s.client p).upgrade = { s.client p with
          upgraded := true, down := (s.client p).down ++ [(none, .response)] } := by
        unfold Client.upgrade
        rw [hupgraded]
        rfl
      rw [heq]
      refine .talking rfl rfl ?_
      show Ws.frames.Reads ((s.client p).up.map _) [] []
      rw [hup]
      exact reads_nil
  · rw [if_neg hnil] at hread
    have hcalls : Server.calls n.server p chunk = (.ok, []) := by
      rw [Server.calls, hread]
    refine .here (h.read_ok hp out (by rw [hcalls]) (by rw [hcalls]; exact h.toCarries)
      ⟨rfl, rfl, fun _ _ => rfl, fun _ _ => rfl⟩ ?_)
    rw [hread]
    exact .greeting rfl hupgraded hup hws (by rw [List.append_assoc]; exact hbytes)

/-- **Frames** of a page are read. -/
theorem talking (h : Refines n s) (hp : p ∈ s.world.players) {buf out : Bytes}
    (hconn : n.server.conn p = ⟨.open, buf⟩) (hchunk : chunk ≠ [])
    (hupgraded : (s.client p).upgraded = true) {tail : List Ws.Frame}
    (htail : tail = [] ∨ tail = [closeFrame] ∧
      ((n.tab p).page.ws = .closing ∨ (n.tab p).page.ws = .closed))
    (hreads : Ws.frames.Reads (((s.client p).up.map fun x => lineFrame x.2) ++ tail)
      (buf ++ chunk ++ out) [])
    (hroomy : Guarded Signaling.step Roomy
      ((Server.events n.server (.readable p chunk)).map (o, ·)) s.world) :
    Follows ⟨n.server.readable o p chunk, update n.tab p { n.tab p with out }⟩ s := by
  have hmem : p ∈ n.server.world.players := h.players ▸ hp
  have hopen := Ws.read_open Ws.trace buf hchunk []
  rw [← hconn, Ws.foldl_trace, List.nil_append] at hopen
  have hevents : Server.events n.server (.readable p chunk) = _ := if_pos hmem
  rw [hevents] at hroomy
  have htail' : tail = [] ∨ tail = [closeFrame] := htail.imp_right And.left
  rcases drain_lines htail' hreads with ⟨xs, ys, r, hsplit, hdrain, hrest⟩ | ⟨rfl, r, hdrain⟩
  · rw [hdrain] at hopen
    have hcalls : Server.calls n.server p chunk =
        (.ok, xs.map fun x => .message (utf8Encode x.2.text)) := by
      rw [Server.calls, hopen]
      rfl
    rw [hcalls] at hroomy
    simp only [messages_lines, List.map_map, reduceCtorEq, if_false, List.append_nil] at hroomy
    refine .bind (h.toCarries.serveAll o hp hsplit hroomy) ?_
    rintro s' ⟨hc, hserved, hup, hupg⟩
    refine .here (h.read_ok hp out (by rw [hcalls]) (by rw [hcalls]; exact hc) hserved ?_)
    rw [hopen]
    rcases htail with rfl | ⟨rfl, hws⟩
    · rw [List.append_nil] at hrest
      exact .talking rfl (hupg.trans hupgraded) (by rw [hup]; exact hrest)
    · exact .leaving rfl (hupg.trans hupgraded) hws (by rw [hup]; exact hrest)
  · have hws := (htail.resolve_left (by simp)).2
    rw [hdrain] at hopen
    have hcalls : Server.calls n.server p chunk =
        (.err, ((s.client p).up.map fun x => .message (utf8Encode x.2.text)) ++
          [.write (Ws.encodeFrame .close [])]) := by
      rw [Server.calls, hopen]
      rfl
    have hmsgs : Server.messages (((s.client p).up.map fun x =>
        Ws.Effect.message (utf8Encode x.2.text)) ++ [.write (Ws.encodeFrame .close [])]) =
          (s.client p).up.map fun x => utf8Encode x.2.text := by
      rw [Server.messages_append, messages_lines]
      exact List.append_nil _
    rw [hcalls] at hroomy
    simp only [hmsgs, List.map_append, List.map_map, if_true] at hroomy
    obtain ⟨hlines, hbye, -⟩ := Guarded.append.mp hroomy
    refine .bind (h.toCarries.serveAll o hp (List.append_nil _).symm hlines) ?_
    rintro s' ⟨hc, hserved, -⟩
    have hlt := h.sound.orderly.wf.player_lt p hp
    have hdeaf : ¬ Listens (n.tab p).page := by
      rintro (hl | hl) <;> rcases hws with hw | hw <;> exact absurd (hw.symm.trans hl) (by simp)
    have hwrite := hc.write hdeaf (hserved.nextPlayer ▸ hlt) (Ws.encodeFrame .close [])
    refine h.read_err hp out (by rw [hcalls]) ?_ hserved ?_
    · rw [hcalls, Server.after, List.foldl_append]
      exact hwrite
    · rw [← hc.world, Server.texts_after h.wf hmem, messages_lines, h.world]
      simpa [Function.comp_def] using hbye

/-- **The server reads** what has come from a page. -/
theorem readable (h : Refines n s) (hp : p ∈ s.world.players) {out : Bytes} (hchunk : chunk ≠ [])
    (hout : (n.tab p).out = chunk ++ out)
    (hroomy : Guarded Signaling.step Roomy
      ((Server.events n.server (.readable p chunk)).map (o, ·)) s.world) :
    Follows ⟨n.server.readable o p chunk, update n.tab p { n.tab p with out }⟩ s := by
  have hsends := h.sends p hp
  rcases hconn : n.server.conn p with ⟨state, buf⟩
  rw [hconn] at hsends
  cases hsends with
  | greeting hs hu hup hws hb =>
    obtain rfl : state = .handshake := hs
    rw [hout] at hb
    exact h.greeting hp hconn hchunk hu hup hws hb
  | talking hs hu hr =>
    obtain rfl : state = .open := hs
    refine h.talking hp hconn hchunk hu (.inl rfl) ?_ hroomy
    rw [List.append_nil, List.append_assoc, ← hout]
    exact hr
  | leaving hs hu hws hr =>
    obtain rfl : state = .open := hs
    refine h.talking hp hconn hchunk hu (.inr ⟨rfl, hws⟩) ?_ hroomy
    rw [List.append_assoc, ← hout]
    exact hr

theorem hangup (h : Refines n s) (hp : p ∈ s.world.players)
    (hroomy : Guarded Signaling.step Roomy
      ((Server.events n.server (.readable p [])).map (o, ·)) s.world) :
    Follows { n with server := n.server.readable o p [] } s := by
  have hmem : p ∈ n.server.world.players := h.players ▸ hp
  have hread : Ws.read Ws.trace (n.server.conn p) [] [] = (.err, n.server.conn p, []) := if_pos rfl
  have hcalls : Server.calls n.server p [] = (.err, []) := by rw [Server.calls, hread]
  have hevents : Server.events n.server (.readable p []) = _ := if_pos hmem
  rw [hevents, hcalls] at hroomy
  have hfollows := h.read_err hp (n.tab p).out (by rw [hcalls]) (by rw [hcalls]; exact h.toCarries)
    ⟨rfl, rfl, fun _ _ => rfl, fun _ _ => rfl⟩ hroomy.1
  have hsame : update n.tab p { n.tab p with out := (n.tab p).out } = n.tab := update_eq_self ..
  rwa [hsame] at hfollows

theorem connect (h : Refines n s) (o : Order) (q : Upgrade) (keys : Nat → Ws.Key) :
    Follows ⟨n.server.accept, update n.tab n.server.world.nextPlayer (.init q keys)⟩ s := by
  have hfair : Session.Fair (o, .connect) s := ⟨trivial, fun e he => by
    cases he
    exact fun hc => by cases hc⟩
  have hw := h.sound.orderly.wf
  have hsent : Signaling.sent (o, .connect) s.world = [] := Effect.sent_eq hw .connect
  have hclient : ∀ q, (Session.step (o, .connect) s).client q = s.client q := fun q => by
    show (s.client q).receive _ (inbox q (Signaling.sent (o, .connect) s.world)) = _
    rw [hsent, inbox_nil, receive_nil]
  have hnext : (Session.step (o, .connect) s).world.nextPlayer = s.world.nextPlayer + 1 := rfl
  have hplayers : (Session.step (o, .connect) s).world.players =
      s.world.players.insert s.world.nextPlayer := rfl
  refine .single hfair ⟨⟨(h.sound.step hfair).1, h.wf.register, ?_, fun x hx => ?_,
    fun x hx => ?_⟩, fun x hx => ?_⟩
  · have htexts := Server.texts_step h.wf (o, .connect)
    rw [h.world] at htexts
    exact htexts
  · rw [hclient]
    show Tied (bytesTo x n.server.world) (update n.tab _ _ x) _
    rw [← h.nextPlayer]
    rcases Nat.lt_succ_iff_lt_or_eq.mp (hnext ▸ hx) with hlt | rfl
    · rw [update_of_ne hlt.ne]
      exact h.tied x hlt
    · have hnil : bytesTo s.world.nextPlayer n.server.world = [] := by
        rw [bytesTo, h.unborn _ le_rfl]
        rfl
      rw [update_self, h.sound.unborn _ le_rfl, hnil]
      exact ⟨rfl, rfl, fun _ => rfl, le_rfl, fun _ hx => absurd hx List.not_mem_nil⟩
  · rw [hnext] at hx
    exact h.unborn x (Nat.le_of_succ_le hx)
  · rw [hclient]
    show Sends (update n.server.conn _ _ x) (update n.tab _ _ x) _
    rw [← h.nextPlayer]
    rw [hplayers] at hx
    by_cases hnew : x = s.world.nextPlayer
    · subst hnew
      rw [update_self, update_self, h.sound.unborn _ le_rfl]
      exact .greeting rfl rfl rfl (by simp [Tab.init, Web.Page.init]) rfl
    · rw [update_of_ne hnew, update_of_ne hnew]
      exact h.sends x ((List.mem_insert_iff.mp hx).resolve_left hnew)

/-! ## Pages -/

theorem happen (h : Refines n s) (hp : p < s.world.nextPlayer) {e : Web.Event}
    (he : e.isLocal = true) (hpatient : Patient (o, .happen p e) n) :
    Follows ⟨n.server, update n.tab p ((n.tab p).happen e)⟩ s := by
  obtain ⟨hask, hend, hshort⟩ := hpatient
  have htied := h.tied p hp
  have hanswers : answers e = false := by
    cases e with
    | wsMessage data => cases he
    | _ => rfl
  have hopens : e = .wsOpen → (s.client p).upgraded = true := by
    rintro rfl
    cases he
  have hfair : Session.Fair (o, .happen p e) s := by
    refine ⟨⟨?_, hend⟩, fun _ he => by cases he⟩
    rw [htied.page, htied.asked]
    exact hask
  have hstep : Session.step (o, .happen p e) s =
      ⟨s.world, update s.client p ((s.client p).happen e)⟩ := by
    simp only [Session.step, he, if_true, System.modify, if_pos hp]
  refine .next hfair ?_
  rw [hstep]
  exact .here (h.move hp hfair hstep (htied.step hanswers) fun hmem =>
    (h.sends p hmem).step htied.page hshort hopens)

theorem lost (h : Refines n s) (hp : p < s.world.nextPlayer) :
    Follows ⟨n.server, update n.tab p ((n.tab p).happen .wsClose)⟩ s := by
  have htied := h.tied p hp
  have hfair : Session.Fair (.id, .lost p) s := ⟨trivial, fun _ he => by cases he⟩
  have hstep : Session.step (.id, .lost p) s =
      ⟨s.world, update s.client p ((s.client p).happen .wsClose)⟩ := if_pos hp
  refine .next hfair ?_
  rw [hstep]
  refine .here (h.move hp hfair hstep (htied.step rfl) fun hmem =>
    (h.sends p hmem).step htied.page (fun line hline => ?_) (by simp))
  rw [(n.tab p).page.step_wsClose.2] at hline
  cases hline

theorem arrived (h : Refines n s) (hp : p < s.world.nextPlayer) (k : Nat) :
    Refines ⟨n.server, update n.tab p
      { n.tab p with
        buf := (n.tab p).buf ++ n.toArrive p k
        taken := (n.tab p).taken + (n.toArrive p k).length }⟩ s := by
  have htied := h.tied p hp
  have hwritten : bytesTo p n.server.world = Server.written n.server p := rfl
  have hle : (n.toArrive p k).length ≤ ((Server.written n.server p).drop (n.tab p).taken).length :=
    List.length_take_le' ..
  refine h.retab (fun _ => ⟨htied.page, htied.asked, fun hl => ?_, ?_, htied.short⟩) fun hmem =>
    (h.sends p hmem).congr rfl rfl rfl rfl rfl
  · have hdown := htied.down hl
    rw [hwritten] at hdown ⊢
    show (n.tab p).buf ++ n.toArrive p k ++ _ = _
    rw [List.append_assoc, ← List.drop_drop]
    refine Eq.trans (congrArg _ ?_) hdown
    exact List.prefix_iff_eq_append.mp (List.take_prefix ..)
  · have htaken := htied.taken
    rw [hwritten] at htaken ⊢
    rw [List.length_drop] at hle
    show (n.tab p).taken + (n.toArrive p k).length ≤ _
    omega

end Refines

/-! ## Every move -/

/-- **Simulation.** The system follows every fair move of the network. -/
theorem Refines.step (h : Refines n s) {l : Order × Move} (hl : Fair l n) :
    Follows (step l n) s := by
  obtain ⟨o, m⟩ := l
  obtain ⟨hpatient, hroomy⟩ := hl
  rw [h.world] at hroomy
  have hmodify : ∀ (p : PlayerId) (f : Tab → Tab),
      (p < s.world.nextPlayer → Follows ⟨n.server, update n.tab p (f (n.tab p))⟩ s) →
      Follows (n.modify p f) s := fun p f hf => by
    unfold State.modify
    rw [← h.nextPlayer]
    split
    · exact hf ‹_›
    · exact .here h
  cases m with
  | connect q keys => exact h.connect o q keys
  | happen p e =>
    simp only [Net.step]
    split
    · exact hmodify p (·.happen e) fun hp => h.happen hp ‹_› hpatient
    · exact .here h
  | readable p k =>
    simp only [Net.step]
    split
    · exact .here h
    · rename_i hchunk
      simp only [State.events, if_neg hchunk] at hroomy
      by_cases hp : p ∈ s.world.players
      · exact h.readable hp hchunk (List.take_append_drop k _).symm hroomy
      · -- nobody reads any more
        have hsame : Server.step (o, .readable p (n.toRead p k)) n.server = n.server :=
          Server.readable_absent o _ h.wf (h.players ▸ hp)
        rw [hsame]
        refine .here (h.retab (fun hlt => ?_) fun hmem => absurd hmem hp)
        have htied := h.tied p hlt
        exact ⟨htied.page, htied.asked, htied.down, htied.taken, htied.short⟩
  | hangup p =>
    by_cases hp : p ∈ s.world.players
    · exact h.hangup hp hroomy
    · have hsame : Server.step (o, .readable p []) n.server = n.server :=
        Server.readable_absent o [] h.wf (h.players ▸ hp)
      simp only [Net.step, hsame]
      exact .here h
  | arrive p k => exact hmodify p (·.receive _) fun hp => Refines.read (h.arrived hp k) hp
  | lost p => exact hmodify p (·.happen .wsClose) fun hp => h.lost hp

theorem Refines.init : Refines .init .init := by
  refine ⟨⟨.init, .init, rfl, fun _ hp => ?_, fun _ _ => rfl⟩, fun _ hp => ?_⟩
  · exact absurd hp (Nat.not_lt_zero _)
  · exact absurd hp List.not_mem_nil

end Readable

/-! ## Runs -/

/-- Every byte between a page and the server has been read, at both ends. -/
structure AllRead (n : State) (p : PlayerId) : Prop where
  out : (n.tab p).out = []
  inBuf : (n.server.conn p).inBuf = []
  buf : (n.tab p).buf = []
  taken : (n.tab p).taken = (Server.written n.server p).length

instance (n : State) (p : PlayerId) : Decidable (AllRead n p) :=
  decidable_of_iff ((n.tab p).out = [] ∧ (n.server.conn p).inBuf = [] ∧ (n.tab p).buf = [] ∧
      (n.tab p).taken = (Server.written n.server p).length)
    ⟨fun ⟨ho, hi, hb, ht⟩ => ⟨ho, hi, hb, ht⟩, fun h => ⟨h.out, h.inBuf, h.buf, h.taken⟩⟩

/-- Two pages meet in a game, over bytes in odd pieces. -/
def pair : List (Order × Move) :=
  let keys : Nat → Ws.Key := fun i j => UInt8.ofNat (i + j)
  [(.id, .connect .plain keys), (.id, .readable 0 30), (.id, .readable 0 4096), (.id, .arrive 0 10),
    (.id, .arrive 0 4096), (.id, .readable 0 4096), (.id, .arrive 0 4096),
    (.id, .happen 0 .clickHost), (.id, .readable 0 3), (.id, .connect .plain keys),
    (.id, .readable 1 4096), (.id, .readable 0 4096), (.id, .arrive 1 4096),
    (.id, .readable 1 4096), (.id, .arrive 1 5), (.id, .arrive 0 4096), (.id, .arrive 1 500),
    (.id, .happen 1 (.clickRoom 0)), (.id, .readable 1 4096), (.id, .arrive 1 4096),
    (.id, .arrive 0 4096)]

theorem pair_fair :
    Guarded step Fair pair .init ∧ 1 ∈ (run step pair .init).server.world.players ∧
      ((run step pair .init).tab 1).page.ws = .open ∧ AllRead (run step pair .init) 1 ∧
        1 < (run step pair .init).server.world.nextPlayer := by
  decide +kernel

/-- **The bytes carry the protocol**: every run of the network with patient users is a run of the
system with patient users, for the same pages and the same memory of the server. -/
theorem network_refines (ls : List (Order × Move)) (h : Guarded step Fair ls .init) :
    ∃ ms : List (Order × Session.Move), Guarded Session.step Session.Fair ms .init ∧
      Refines (run step ls .init) (run Session.step ms .init) :=
  Reaches.of_run (fun _ _ _ hl hR => hR.step hl) h .init

theorem network_refines_pair :
    ∃ ms : List (Order × Session.Move), Guarded Session.step Session.Fair ms .init ∧
      Refines (run step pair .init) (run Session.step ms .init) :=
  network_refines pair pair_fair.1

end PongPp.Net
