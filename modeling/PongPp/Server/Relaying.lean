import PongPp.Server.Quiet
import PongPp.Signaling.Lines
import PongPp.Web.Socket

/-!
# Relaying end to end

While `q` is the peer of `p`, what `p` sends in Text and Binary frames reaches `q` and nobody
else, body by body (`Answers`), until `p` takes another seat with a `CREATE` or a `JOIN`. Between
two pages that is a `relay` on the one and an `onRelay` on the other with the same string
(`relay_transparent`).
-/

namespace PongPp.Server

open Function Lib Signaling

/-- A complete message: an unfragmented Text or Binary frame. -/
def IsMessage (f : Ws.Frame) : Prop := f.fin = true ∧ (f.opcode = .text ∨ f.opcode = .binary)

/-- Successive reads from `p`'s socket. -/
def reads (p : PlayerId) (cs : List (Order × Bytes)) : List Label :=
  cs.map fun c => (c.1, .readable p c.2)

/-- What a payload of `p` may make the server write: a body goes to `q` and nothing else goes out;
anything else is answered to `p`. -/
def Answers (p q : PlayerId) (m : Bytes) (ps : List (PlayerId × Packet)) : Prop :=
  match relayBody m with
  | some b => ps = [(q, .text (.relay b))]
  | none => ∀ x ∈ ps, x.1 = p

/-- A string that a line can end with. -/
def Endable (body : Web.Str) : Prop := ∀ c ∈ body.getLast?, c ≠ '\r' ∧ c ≠ '\n'

structure Transparent (p q : PlayerId) (s : State) : Prop where
  /-- Up to the first `CREATE` and the first `JOIN` that finds a seat, every payload is answered
  in turn, and nothing but the wire changes. -/
  forwards : ∀ (cs : List (Order × Bytes)) (fs : List Ws.Frame) (rest : Bytes),
    cs ≠ [] → (∀ c ∈ cs, c.2 ≠ []) →
    Ws.frames.Reads fs ((s.conn p).inBuf ++ (cs.map (·.2)).flatten) rest →
    (∀ f ∈ fs, IsMessage f) →
    ∀ pre post, fs.map (·.payload) = pre ++ post → (∀ m ∈ pre, ¬ Loud s.world m) →
      ∃ pss later, later.map (·.2) = post.map (.message p) ∧
        (run step (reads p cs) s).world = run Signaling.step later (s.world.emit pss.flatten) ∧
        List.Forall₂ (Answers p q) pre pss ∧
        (inbox q pss.flatten).map Packet.bytes =
          (pre.filterMap relayBody).map fun b => Ws.encodeFrame .text (ascii "RELAY " ++ b)
  /-- What `relay` is called with on one page, `onRelay` is called with on the other. -/
  delivers : ∀ (cs : List (Order × Bytes)) (sends : List (Ws.Key × Web.Str)),
    cs ≠ [] → (∀ c ∈ cs, c.2 ≠ []) →
    (s.conn p).inBuf ++ (cs.map (·.2)).flatten = sends.flatMap (fun c =>
      Ws.clientFrame .text c.1 (utf8Encode (Web.Signaling.relay c.2))) →
    (∀ c ∈ sends, Endable c.2 ∧ (utf8Encode c.2).length ≤ 2 ^ 20 - 6) →
    ∃ ps, (run step (reads p cs) s).world = s.world.emit ps ∧ (∀ x ∈ ps, x.1 = q) ∧
      ∀ chunks : List Bytes, chunks.flatten = ps.flatMap (·.2.bytes) →
        Web.receive chunks = sends.map fun c => .onRelay c.2

/-! ## Who is in a room has an open connection -/

section After

variable {o : Order} {p q : PlayerId} {w : World}

theorem after_roomOf (hw : Wf w) (hp : p ∈ w.players) (hne : q ≠ p) (es : List Ws.Effect) :
    (after o p es w).roomOf q = w.roomOf q := by
  induction es generalizing w with
  | nil => rfl
  | cons e es ih =>
    have hg := grown_apply (o := o) hw hp e
    rw [after_cons, ih hg.wf (hg.players.symm ▸ hp)]
    cases e with
    | write b => rfl
    | message m =>
      obtain ⟨w', ps, he, heq, -⟩ := message_effect (o := o) hp m
      rw [heq, World.emit_roomOf]
      cases he with
      | create => rw [World.hosted_roomOf, if_neg hne]
      | join => rw [World.guested_roomOf, if_neg hne]
      | _ => rfl

theorem after_messages (hw : Wf w) (hp : p ∈ w.players) (ms : List Bytes) :
    after o p (ms.map .message) w = run Signaling.step (ms.map fun m => (o, .message p m)) w := by
  induction ms generalizing w with
  | nil => rfl
  | cons m ms ih =>
    have hg := grown_apply (o := o) hw hp (.message m)
    rw [List.map_cons, after_cons, ih hg.wf (hg.players.symm ▸ hp), message_step hw hp]
    rfl

end After

/-- In the handshake no message is taken for one. -/
theorem calls_handshake {s : State} {p : PlayerId} (h : (s.conn p).state = .handshake)
    (chunk : Bytes) : messages (calls s p chunk).2 = [] := by
  unfold calls
  rcases hc : s.conn p with ⟨st, buf⟩
  rw [hc] at h
  simp only at h
  subst h
  by_cases hchunk : chunk = []
  · simp [Ws.read, hchunk, messages]
  · simp only [Ws.read, if_neg hchunk, Ws.handleHandshake]
    rcases Ws.processHandshake (buf ++ chunk) with ⟨_ | _ | _ | _, response, rest⟩ <;>
      simp [Ws.trace, messages]

/-- Whoever is in a room has upgraded. -/
structure Upgraded (s : State) : Prop where
  wf : Wf s.world
  upgraded : ∀ p r, s.world.roomOf p = some r → (s.conn p).state = .open

namespace Upgraded

variable {s : State}

theorem init : Upgraded State.init := ⟨.init, fun p r h => by cases h⟩

theorem accept (h : Upgraded s) : Upgraded s.accept where
  wf := h.wf.register
  upgraded p r hr := by
    have hroom : s.accept.world.roomOf = s.world.roomOf := h.wf.roomOf_register
    rw [hroom] at hr
    have hne : p ≠ s.world.nextPlayer := fun he =>
      h.wf.fresh_notMem (he ▸ h.wf.registered p r hr)
    show (update s.conn s.world.nextPlayer .fresh p).state = .open
    rw [update_of_ne hne]
    exact h.upgraded p r hr

theorem roomOf_readable (h : Upgraded s) (o : Order) {p : PlayerId} (hp : p ∈ s.world.players)
    (chunk : Bytes) {q : PlayerId} {r : RoomId}
    (hr : (s.readable o p chunk).world.roomOf q = some r) :
    (q = p ∧ (s.conn p).state = .open) ∨ s.world.roomOf q = some r := by
  have hafter : (after o p (calls s p chunk).2 s.world).roomOf q = some r := by
    rw [readable_world h.wf o hp] at hr
    simp only at hr
    split at hr
    · exact (World.roomOf_departed hr).2.2
    · exact hr
  by_cases hq : q = p
  · subst hq
    cases hstate : (s.conn q).state with
    | «open» => exact .inl ⟨rfl, rfl⟩
    | handshake =>
      have hnone : ∀ m ∈ messages (calls s q chunk).2, ¬ Loud s.world m := by
        rw [calls_handshake hstate]
        exact nofun
      obtain ⟨ps, hps, -⟩ := quiet_after (o := o) hp hnone
      rw [hps, World.emit_roomOf] at hafter
      exact .inr hafter
  · rw [after_roomOf h.wf hp hq] at hafter
    exact .inr hafter

theorem readable (h : Upgraded s) (o : Order) (p : PlayerId) (chunk : Bytes) :
    Upgraded (s.readable o p chunk) := by
  by_cases hp : p ∈ s.world.players
  swap
  · rwa [readable_absent o chunk h.wf hp]
  refine ⟨wf_step h.wf (o, .readable p chunk), fun q r hr => ?_⟩
  have hopen : (s.conn q).state = .open := by
    rcases h.roomOf_readable o hp chunk hr with ⟨rfl, hopen⟩ | hr
    · exact hopen
    · exact h.upgraded q r hr
  rw [readable_conn o chunk h.wf hp]
  by_cases hq : q = p
  · subst hq
    rw [update_self]
    exact open_stays o chunk hopen
  · rw [update_of_ne hq]
    exact hopen

theorem step (h : Upgraded s) (l : Label) : Upgraded (step l s) := by
  obtain ⟨o, i⟩ := l
  cases i with
  | accept => exact h.accept
  | readable p chunk => exact h.readable o p chunk

end Upgraded

/-! ## Reads of whole messages -/

theorem react_message {f : Ws.Frame} (h : IsMessage f) :
    Ws.react f = ([.message f.payload], none) := by
  obtain ⟨fin, opcode, payload⟩ := f
  obtain ⟨rfl, rfl | rfl⟩ := h <;> rfl

/-- One read is the messages whose last byte it brings. -/
theorem readable_messages {s : State} (hw : Wf s.world) (o : Order) {p : PlayerId}
    (hp : p ∈ s.world.players) {buf chunk rest : Bytes} (hconn : s.conn p = ⟨.open, buf⟩)
    (hc : chunk ≠ []) {fs : List Ws.Frame} (hfs : ∀ f ∈ fs, IsMessage f)
    (hr : Ws.frames.Reads fs (buf ++ chunk) rest) :
    (s.readable o p chunk).world =
        run Signaling.step ((fs.map (·.payload)).map fun m => (o, .message p m)) s.world ∧
      (s.readable o p chunk).conn p = ⟨.open, rest⟩ ∧
      p ∈ (s.readable o p chunk).world.players := by
  have hdrain : Ws.frames.drain Ws.react (buf ++ chunk) = _ :=
    hr.drain fun f hf => by rw [react_message (hfs f hf)]
  have hes : (fs.flatMap fun f => (Ws.react f).1) = (fs.map (·.payload)).map .message := by
    rw [List.map_map, List.map_eq_flatMap]
    refine List.flatMap_congr fun f hf => ?_
    rw [react_message (hfs f hf)]
    rfl
  have hcalls : calls s p chunk = (.ok, (fs.map (·.payload)).map .message) := by
    rw [calls, hconn, Ws.read_open _ buf hc, hdrain, Ws.foldl_trace, hes]
    rfl
  refine ⟨?_, ?_, ?_⟩
  · rw [readable_world hw o hp, hcalls]
    exact after_messages hw hp _
  · rw [readable_conn o chunk hw hp, update_self, hconn, Ws.read_open _ buf hc, hdrain]
  · refine ((readable_grown o chunk hw hp).2.2 p).mpr ⟨hp, fun herr => ?_⟩
    rw [hcalls] at herr
    cases herr

/-- **Reads are messages**: however the frames of `p` are cut, their payloads are dispatched one
by one. -/
theorem run_reads {s : State} (hw : Wf s.world) {p : PlayerId} (hp : p ∈ s.world.players)
    {buf rest : Bytes} (hconn : s.conn p = ⟨.open, buf⟩) {cs : List (Order × Bytes)}
    (hcs : cs = [] → Ws.frames.parse buf = .needMore) (hne : ∀ c ∈ cs, c.2 ≠ [])
    {fs : List Ws.Frame} (hfs : ∀ f ∈ fs, IsMessage f)
    (hr : Ws.frames.Reads fs (buf ++ (cs.map (·.2)).flatten) rest) :
    ∃ ls : List Signaling.Label, ls.map (·.2) = (fs.map (·.payload)).map (.message p) ∧
      (run step (reads p cs) s).world = run Signaling.step ls s.world := by
  induction cs generalizing s buf fs with
  | nil =>
    rw [List.map_nil, List.flatten_nil, List.append_nil] at hr
    obtain rfl := hr.eq_nil (hcs rfl)
    exact ⟨[], rfl, rfl⟩
  | cons c cs ih =>
    rw [List.map_cons, List.flatten_cons, ← List.append_assoc] at hr
    obtain ⟨fs₁, fs₂, mid, rfl, h₁, h₂⟩ := hr.split
    obtain ⟨hworld, hconn', hp'⟩ := readable_messages hw c.1 hp hconn
      (hne c (List.mem_cons_self ..)) (fun f hf => hfs f (List.mem_append_left _ hf)) h₁
    have hw' : Wf (s.readable c.1 p c.2).world := wf_step hw (c.1, .readable p c.2)
    obtain ⟨ls, hls, hrun⟩ := ih hw' hp' hconn' (fun _ => h₁.rest)
      (fun c hc => hne c (List.mem_cons_of_mem _ hc))
      (fun f hf => hfs f (List.mem_append_right _ hf)) h₂
    refine ⟨((fs₁.map (·.payload)).map fun m => (c.1, .message p m)) ++ ls, ?_, ?_⟩
    · rw [List.map_append, hls, List.map_append, List.map_append, List.map_map]
      rfl
    · rw [run_append, ← hworld]
      exact hrun

/-! ## Quiet messages -/

section Quiet

variable {w : World} {p q : PlayerId}

theorem quiet_step (hw : Wf w) (hp : p ∈ w.players) (hpeer : w.peerOf p = some q) (o : Order)
    {m : Bytes} (hm : ¬ Loud w m) :
    ∃ ps, Signaling.step (o, .message p m) w = w.emit ps ∧ Answers p q m ps := by
  obtain ⟨w', he, hs⟩ := step_effect hw (o, .message p m)
  refine ⟨Signaling.sent (o, .message p m) w, ?_⟩
  generalize Signaling.sent (o, .message p m) w = ps at he hs
  have hother : (∀ b, parseVerb m ≠ .relay b) → (∀ x ∈ ps, x.1 = p) → Answers p q m ps := by
    intro hv hto
    have hnone : relayBody m = none := by
      rw [Option.eq_none_iff_forall_ne_some]
      exact fun b hb => hv b (parseVerb_relay.mpr hb)
    rw [Answers, hnone]
    exact hto
  cases he with
  | goneMessage => contradiction
  | list _ _ _ hv => exact ⟨hs, hother (by simp [hv]) (by simp)⟩
  | create _ _ _ hv => exact absurd (.inl hv) hm
  | join _ _ body r _ hv hj => exact absurd (.inr (by rw [hj.target hv]; rfl)) hm
  | joinFailed _ _ body _ hv => exact ⟨hs, hother (by simp [hv]) (by simp)⟩
  | relay _ _ body x _ hv hx =>
    obtain rfl := Option.some.inj (hpeer.symm.trans hx)
    refine ⟨hs, ?_⟩
    rw [Answers, parseVerb_relay.mp hv]
  | relayFailed _ _ body _ hv hx =>
    rw [hpeer] at hx
    cases hx
  | unknown _ _ _ hv => exact ⟨hs, hother (by simp [hv]) (by simp)⟩

theorem quiet_run (hw : Wf w) (hp : p ∈ w.players) (hpeer : w.peerOf p = some q)
    {ms : List Bytes} (hms : ∀ m ∈ ms, ¬ Loud w m) {ls : List Signaling.Label}
    (hls : ls.map (·.2) = ms.map (.message p)) :
    ∃ pss, run Signaling.step ls w = w.emit pss.flatten ∧ List.Forall₂ (Answers p q) ms pss := by
  induction ls generalizing w ms with
  | nil =>
    obtain rfl : ms = [] := List.map_eq_nil_iff.mp hls.symm
    exact ⟨[], by simp, .nil⟩
  | cons l ls ih =>
    cases ms with
    | nil => cases hls
    | cons m ms =>
      obtain ⟨o, e⟩ := l
      obtain ⟨rfl, hrest⟩ := List.cons.inj hls
      obtain ⟨ps, hs, ha⟩ := quiet_step hw hp hpeer o (hms m (List.mem_cons_self ..))
      obtain ⟨pss, hrun, has⟩ := ih (w := w.emit ps) (hw.emit ps) hp hpeer
        (fun m hm => hms m (List.mem_cons_of_mem _ hm)) hrest
      refine ⟨ps :: pss, ?_, .cons ha has⟩
      rw [run_cons, hs, hrun, World.emit_emit]
      rfl

theorem inbox_answers (hne : q ≠ p) {ms : List Bytes} {pss : List (List (PlayerId × Packet))}
    (h : List.Forall₂ (Answers p q) ms pss) :
    inbox q pss.flatten = (ms.filterMap relayBody).map fun b => .text (.relay b) := by
  induction h with
  | nil => rfl
  | @cons m ps ms pss ha _ ih =>
    rw [List.flatten_cons, inbox_append, ih, List.filterMap_cons]
    unfold Answers at ha
    cases hb : relayBody m with
    | some b =>
      rw [hb] at ha
      rw [ha]
      simp
    | none =>
      rw [hb] at ha
      have hnil : inbox q ps = [] := inbox_eq_nil fun x hx he => hne (he ▸ ha x hx)
      rw [hnil, List.nil_append]

theorem not_loud_relay {m b : Bytes} (h : parseVerb m = .relay b) : ¬ Loud w m := by
  rintro (hc | hj)
  · rw [h] at hc
    cases hc
  · rw [World.joinTarget, h] at hj
    cases hj

theorem flatten_answers {α : Type*} {xs : List α} {m b : α → Bytes}
    (hxs : ∀ x ∈ xs, relayBody (m x) = some (b x)) {pss : List (List (PlayerId × Packet))}
    (h : List.Forall₂ (Answers p q) (xs.map m) pss) :
    pss.flatten = xs.map fun x => (q, .text (.relay (b x))) := by
  induction xs generalizing pss with
  | nil =>
    cases h
    rfl
  | cons x xs ih =>
    cases h with
    | cons ha h =>
      rw [Answers, hxs x (List.mem_cons_self ..)] at ha
      rw [ha, List.flatten_cons, ih (fun y hy => hxs y (List.mem_cons_of_mem _ hy)) h]
      rfl

end Quiet

/-! ## What a page sends -/

/-- The last byte of a string that a line can end with is no newline. -/
theorem getLast_utf8 {body : Web.Str} (h : Endable body) :
    ∀ b ∈ (utf8Encode body).getLast?, isNewline b = false := by
  intro b hb
  cases body using List.reverseRecOn with
  | nil => cases hb
  | append_singleton s c =>
    have hne : String.utf8EncodeChar c ≠ [] := String.utf8EncodeChar_ne_nil
    rw [utf8Encode_append, utf8Encode_cons, utf8Encode_nil, List.append_nil,
      List.getLast?_append_of_ne_nil _ hne] at hb
    obtain ⟨hr, hn⟩ := h c (by simp)
    have hnot : b ≠ 0x0A ∧ b ≠ 0x0D := by
      rcases encodeChar_cases c with ⟨hlt, hc⟩ | hc
      · rw [hc] at hb
        obtain rfl : UInt8.ofNat c.toNat = b := Option.some.inj hb
        have hchar : ∀ n < 128, UInt8.ofNat c.toNat = UInt8.ofNat n → c = Char.ofNat n := by
          intro n hn heq
          have hnat := congrArg UInt8.toNat heq
          rw [UInt8.toNat_ofNat', UInt8.toNat_ofNat', Nat.mod_eq_of_lt (by omega),
            Nat.mod_eq_of_lt (by omega)] at hnat
          rw [← hnat, Char.ofNat_toNat]
        exact ⟨fun he => hn (hchar 10 (by omega) he), fun he => hr (hchar 13 (by omega) he)⟩
      · have hb := hc b (List.mem_of_getLast? hb)
        constructor <;> rintro rfl <;> revert hb <;> decide
    simp [isNewline, hnot]

theorem line_relay {body : Web.Str} (h : Endable body) :
    line (utf8Encode (Web.Signaling.relay body)) = ascii "RELAY " ++ utf8Encode body := by
  rw [Web.Signaling.utf8Encode_relay]
  refine line_eq_self fun b hb => ?_
  cases he : utf8Encode body with
  | nil =>
    rw [he] at hb
    obtain rfl : (0x20 : UInt8) = b := Option.some.inj hb
    rfl
  | cons x xs =>
    rw [List.getLast?_append_of_ne_nil _ (by simp [he])] at hb
    exact getLast_utf8 h b hb

theorem relayBody_relay {body : Web.Str} (h : Endable body) :
    relayBody (utf8Encode (Web.Signaling.relay body)) = some (utf8Encode body) :=
  relayBody_eq_some.mpr (.inr (line_relay h))

theorem length_relay {body : Web.Str} (h : (utf8Encode body).length ≤ 2 ^ 20 - 6) :
    (utf8Encode (Web.Signaling.relay body)).length ≤ 2 ^ 20 := by
  have h6 : (ascii "RELAY ").length = 6 := rfl
  rw [Web.Signaling.utf8Encode_relay, List.length_append, h6]
  omega

theorem reads_relays {sends : List (Ws.Key × Web.Str)}
    (h : ∀ c ∈ sends, (utf8Encode c.2).length ≤ 2 ^ 20 - 6) :
    Ws.frames.Reads (sends.map fun c => ⟨true, .text, utf8Encode (Web.Signaling.relay c.2)⟩)
      (sends.flatMap fun c => Ws.clientFrame .text c.1 (utf8Encode (Web.Signaling.relay c.2)))
      [] := by
  refine Decoder.reads_flatMap rfl fun c hc t => ?_
  simp only [Ws.frames]
  rw [Ws.parseFrame_clientFrame Ws.Op.text_named c.1 (length_relay (h c hc)) t]

theorem receive_packets {q : PlayerId} {sends : List (Ws.Key × Web.Str)} {chunks : List Bytes}
    (h : ∀ c ∈ sends, (utf8Encode c.2).length ≤ 2 ^ 20 - 6)
    (hchunks : chunks.flatten =
      (sends.map fun c => (q, Packet.text (.relay (utf8Encode c.2)))).flatMap (·.2.bytes)) :
    Web.receive chunks = sends.map fun c => .onRelay c.2 := by
  have hmap : sends.map (fun c => Web.Call.onRelay c.2) = (sends.map (·.2)).map .onRelay := by
    rw [List.map_map]
    rfl
  rw [hmap]
  refine Web.receive_relays (fun body hb => ?_) ?_
  · obtain ⟨c, hc, rfl⟩ := List.mem_map.mp hb
    exact (length_relay (h c hc)).trans_lt (by omega)
  · rw [hchunks, List.flatMap_map, List.flatMap_map]
    simp only [Packet.bytes, Msg.text, Web.Signaling.utf8Encode_relay]

/-- **Relay transparency** in every reachable state. -/
theorem relay_transparent (ls : List Label) {p q : PlayerId}
    (hpeer : (run step ls .init).world.peerOf p = some q) :
    Transparent p q (run step ls .init) := by
  have hup : Upgraded (run step ls .init) := run_inv (fun l _ h => h.step l) ls .init
  generalize run step ls .init = s at hpeer hup
  have hw := hup.wf
  obtain ⟨r, hroom, hother⟩ := Option.bind_eq_some_iff.mp hpeer
  have hqp : q ≠ p := (World.mem_otherPlayer _ hother).2.2
  have hp := hw.registered p r hroom
  have hconn : s.conn p = ⟨.open, (s.conn p).inBuf⟩ := by
    rw [← hup.upgraded p r hroom]
  refine ⟨?_, ?_⟩
  · intro cs fs rest hcs hne hr hfs pre post hsplit hquiet
    obtain ⟨ls, hls, hrun⟩ := run_reads hw hp hconn (fun h => absurd h hcs) hne hfs hr
    rw [hsplit, List.map_append] at hls
    obtain ⟨ls₁, ls₂, rfl, h₁, h₂⟩ := List.map_eq_append_iff.mp hls
    obtain ⟨pss, hpss, has⟩ := quiet_run hw hp hpeer hquiet h₁
    refine ⟨pss, ls₂, h₂, by rw [hrun, run_append, hpss], has, ?_⟩
    rw [inbox_answers hqp has, List.map_map]
    rfl
  · intro cs sends hcs hne hbytes hsends
    have hbody : ∀ c ∈ sends,
        relayBody (utf8Encode (Web.Signaling.relay c.2)) = some (utf8Encode c.2) :=
      fun c hc => relayBody_relay (hsends c hc).1
    have hquiet : ∀ m ∈ sends.map fun c => utf8Encode (Web.Signaling.relay c.2),
        ¬ Loud s.world m := by
      intro m hm
      obtain ⟨c, hc, rfl⟩ := List.mem_map.mp hm
      exact not_loud_relay (parseVerb_relay.mpr (hbody c hc))
    obtain ⟨ls, hls, hrun⟩ := run_reads hw hp hconn (fun h => absurd h hcs) hne
      (fun f hf => by obtain ⟨c, -, rfl⟩ := List.mem_map.mp hf; exact ⟨rfl, .inl rfl⟩)
      (hbytes ▸ reads_relays fun c hc => (hsends c hc).2)
    rw [List.map_map (l := sends)] at hls
    obtain ⟨pss, hpss, has⟩ := quiet_run hw hp hpeer hquiet hls
    rw [flatten_answers hbody has] at hpss
    refine ⟨_, hrun.trans hpss, ?_, fun chunks hchunks => ?_⟩
    · intro x hx
      obtain ⟨c, -, rfl⟩ := List.mem_map.mp hx
      rfl
    · exact receive_packets (fun c hc => (hsends c hc).2) hchunks

/-- A line in a client frame whose key is zero. -/
def zeroKeyFrame (l : Bytes) : Bytes := Ws.clientFrame .text (fun _ => 0) l

/-- Player 0 hosts a room and player 1 is its guest. -/
def pairUp : List Label :=
  [(.id, .accept), (.id, .readable 0 Ws.plainRequest), (.id, .accept),
    (.id, .readable 1 Ws.plainRequest), (.id, .readable 0 (zeroKeyFrame (ascii "CREATE"))),
    (.id, .readable 1 (zeroKeyFrame (ascii "JOIN 1")))]

/-- A guest and its host. -/
theorem relay_transparent_pair : Transparent 1 0 (run step pairUp .init) :=
  relay_transparent pairUp (by decide +kernel)

/-- A guest that creates a room of its own first does not reach its host with what it relays
then. -/
theorem relay_interrupted : ¬ ∀ (ls : List Label) (p q : PlayerId) (o : Order) (chunk : Bytes)
    (fs : List Ws.Frame) (rest : Bytes), (run step ls .init).world.peerOf p = some q →
    Ws.frames.Reads fs (((run step ls .init).conn p).inBuf ++ chunk) rest →
    (∀ f ∈ fs, IsMessage f) → ∀ f ∈ fs, ∀ b, relayBody f.payload = some b →
      (q, .text (.relay b)) ∈ sent (o, .readable p chunk) (run step ls .init) := by
  intro h
  have hbuf : ((run step pairUp .init).conn 1).inBuf = [] := by decide +kernel
  have hread : Ws.frames.Reads
      ([ascii "CREATE", ascii "RELAY x"].map fun l => ⟨true, .text, l⟩)
      ([ascii "CREATE", ascii "RELAY x"].flatMap zeroKeyFrame) [] := by
    refine Decoder.reads_flatMap rfl fun l hl t => ?_
    have hlen : l.length ≤ 2 ^ 20 := by
      revert l
      decide
    simp only [Ws.frames, zeroKeyFrame]
    rw [Ws.parseFrame_clientFrame Ws.Op.text_named _ hlen t]
  have hsent := h pairUp 1 0 .id _ _ [] (by decide +kernel) (by rw [hbuf]; exact hread)
    (by simp [IsMessage]) ⟨true, .text, ascii "RELAY x"⟩ (by simp) (ascii "x") (by decide)
  revert hsent
  decide +kernel

end PongPp.Server
