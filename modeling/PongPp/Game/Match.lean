import PongPp.Game.Buffers
import PongPp.Lib.Link

/-!
# A game of two

A host and a guest over two ordered links, each of which loses what is sent before it opens. The
lines they send read back as the numbers that were sent, which are the positions themselves: so
the host's mirror of the guest's paddle is where the guest was when it sent, the guest's view is
the host's, and once the latest lines are delivered the two agree (`two_party`).
-/

namespace PongPp.Game

open Lib

/-! ## Lines -/

theorem length_spaced_le {ns : List Int} (h : ∀ n ∈ ns, IsI32 n) :
    (spaced ns).length ≤ 12 * ns.length := by
  induction ns with
  | nil => exact le_rfl
  | cons n ns ih =>
    have hn := length_intToStr_le (h n (List.mem_cons_self ..))
    have hns := ih fun m hm => h m (List.mem_cons_of_mem _ hm)
    have hcons : spaced (n :: ns) = 0x20 :: (intToStr n ++ spaced ns) := rfl
    rw [hcons, List.length_cons, List.length_append, List.length_cons]
    omega

theorem fields_line (b : UInt8) (ns : List Int) (hlen : ns.length ≤ 8)
    (h : ∀ n ∈ ns, -2147483648 < n ∧ n < 2147483648) :
    fields ns.length (b :: spaced ns) = ns := by
  have hle : (spaced ns).length ≤ 12 * ns.length :=
    length_spaced_le fun n hn => ⟨(h n hn).1.le, (h n hn).2⟩
  have htake : (b :: spaced ns).take (msgBufSize - 1) = b :: spaced ns := by
    apply List.take_of_length_le
    rw [List.length_cons]
    show _ ≤ 255
    omega
  rw [fields, htake, List.drop_succ_cons, List.drop_zero, ints_spaced h]

theorem two_le_length_line (b : UInt8) {ns : List Int} (h : ns ≠ []) :
    2 ≤ (b :: spaced ns).length := by
  cases ns with
  | nil => exact absurd rfl h
  | cons n ns => simp [spaced]

/-- Two engines that have the right paddle at one place. -/
def SameRight (a b : Engine) : Prop := a.rightX = b.rightX ∧ a.rightY = b.rightY

/-- Two engines that have ball, left paddle and scores in common. -/
structure SameView (a b : Engine) : Prop where
  ballX : a.ballX = b.ballX
  ballY : a.ballY = b.ballY
  leftX : a.leftX = b.leftX
  leftY : a.leftY = b.leftY
  leftScore : a.leftScore = b.leftScore
  rightScore : a.rightScore = b.rightScore

/-- `b` shows what `a` told it: the ball cut down to whole pixels, the rest as it is. -/
structure Shown (a b : Engine) : Prop where
  ballX : b.ballX = toInt a.ballX
  ballY : b.ballY = toInt a.ballY
  leftX : b.leftX = a.leftX
  leftY : b.leftY = a.leftY
  leftScore : b.leftScore = a.leftScore
  rightScore : b.rightScore = a.rightScore

theorem SameRight.refl (a : Engine) : SameRight a a := ⟨rfl, rfl⟩

theorem SameRight.trans {a b c : Engine} (h : SameRight a b) (h' : SameRight b c) : SameRight a c :=
  ⟨h.1.trans h'.1, h.2.trans h'.2⟩

theorem SameView.refl (a : Engine) : SameView a a := ⟨rfl, rfl, rfl, rfl, rfl, rfl⟩

theorem SameView.trans {a b c : Engine} (h : SameView a b) (h' : SameView b c) : SameView a c :=
  ⟨h.1.trans h'.1, h.2.trans h'.2, h.3.trans h'.3, h.4.trans h'.4, h.5.trans h'.5, h.6.trans h'.6⟩

theorem SameRight.writeMsg (e : Engine) (text : Bytes) : SameRight e (e.writeMsg text).2 :=
  ⟨rfl, rfl⟩

theorem SameRight.adopt (e : Engine) (vals : List Int) : SameRight e (e.adopt vals) := ⟨rfl, rfl⟩

theorem SameView.writeMsg (e : Engine) (text : Bytes) : SameView e (e.writeMsg text).2 :=
  ⟨rfl, rfl, rfl, rfl, rfl, rfl⟩

theorem SameView.mirror (e : Engine) (x y : Int) : SameView e (e.mirror x y) :=
  ⟨rfl, rfl, rfl, rfl, rfl, rfl⟩

theorem Shown.of_sameView {a b b' : Engine} (h : Shown a b) (h' : SameView b b') : Shown a b' :=
  ⟨h'.1 ▸ h.1, h'.2 ▸ h.2, h'.3 ▸ h.3, h'.4 ▸ h.4, h'.5 ▸ h.5, h'.6 ▸ h.6⟩

/-- Both scores are numbers of goals. -/
def Scored (e : Engine) : Prop :=
  (0 ≤ e.leftScore ∧ e.leftScore < 2147483648) ∧ 0 ≤ e.rightScore ∧ e.rightScore < 2147483648

/-- A right paddle on whole pixels of its half. -/
def RightPaddle (e : Engine) : Prop := Whole 400 788 e.rightX ∧ Whole 0 510 e.rightY

/-- **A guest reads a host's line**: it takes over the view, and keeps its own paddle. -/
theorem message_sendState {s e : Engine} (hc : Court s) (hs : Scored s) (hrole : e.role = .guest) :
    Shown s (e.message s.sendState) ∧ SameRight e (e.message s.sendState) ∧
      (e.message s.sendState).rightVx = e.rightVx ∧
      (e.message s.sendState).inGame = e.inGame := by
  have hx := toInt_bounds (q := s.ballX) (l := -14) (u := 800) (by exact_mod_cast hc.ballX)
  have hy := toInt_bounds (q := s.ballY) (l := 0) (u := 586) (by exact_mod_cast hc.ballY)
  obtain ⟨hlx, hlx', hlx''⟩ := hc.leftX.toInt
  obtain ⟨hly, hly', hly''⟩ := hc.leftY.toInt
  obtain ⟨hrx, hrx', -⟩ := hc.rightX.toInt
  obtain ⟨hry, hry', -⟩ := hc.rightY.toInt
  obtain ⟨⟨h₁, h₂⟩, h₃, h₄⟩ := hs
  have hfields : fields 8 s.sendState = s.stateInts := by
    refine fields_line 0x53 s.stateInts le_rfl ?_
    simp only [Engine.stateInts, List.forall_mem_cons, List.not_mem_nil, false_implies,
      implies_true, and_true]
    omega
  have hreads : (e.writeMsg s.sendState).2.Reads s.sendState := by
    refine ⟨two_le_length_line 0x53 (by simp [Engine.stateInts]), ?_⟩
    have hw : (e.writeMsg s.sendState).2.role = .guest := hrole
    rw [hw]
    rfl
  rw [Engine.message_guest hrole, if_pos hreads, hfields]
  have hright := (SameRight.writeMsg e s.sendState).trans (.adopt _ s.stateInts)
  exact ⟨⟨rfl, rfl, hlx'', hly'', rfl, rfl⟩, hright, rfl, rfl⟩

/-- **A host reads a guest's line**: it takes over the paddle, and nothing else. -/
theorem message_sendPaddle {s e : Engine} (hs : RightPaddle s) (hrole : e.role = .host) :
    SameRight s (e.message s.sendPaddle) ∧ SameView e (e.message s.sendPaddle) ∧
      (e.message s.sendPaddle).inGame = e.inGame := by
  obtain ⟨hrx, hrx', hrx''⟩ := hs.1.toInt
  obtain ⟨hry, hry', hry''⟩ := hs.2.toInt
  have hfields : fields 2 s.sendPaddle = s.paddleInts := by
    refine fields_line 0x50 s.paddleInts (by simp [Engine.paddleInts]) ?_
    simp only [Engine.paddleInts, List.forall_mem_cons, List.not_mem_nil, false_implies,
      implies_true, and_true]
    omega
  have hreads : (e.writeMsg s.sendPaddle).2.Reads s.sendPaddle := by
    refine ⟨two_le_length_line 0x50 (by simp [Engine.paddleInts]), ?_⟩
    have hw : (e.writeMsg s.sendPaddle).2.role = .host := hrole
    rw [hw]
    rfl
  have hclamp : ∀ {q lo hi : ℚ}, lo ≤ q → q ≤ hi → clampf q lo hi = q := fun h₁ h₂ => by
    rw [clampf, if_neg (not_lt.mpr h₁), if_neg (not_lt.mpr h₂)]
  have hbx := hs.1.bounds
  have hby := hs.2.bounds
  norm_num at hbx hby
  have hx : clampf s.rightX rightXMin rightXMax = s.rightX :=
    hclamp (by simp only [constants]; exact hbx.1) (by simp only [constants]; exact hbx.2)
  have hy : clampf s.rightY 0 (canvasH - paddleH) = s.rightY :=
    hclamp hby.1 (by simp only [constants]; norm_num; exact hby.2)
  rw [Engine.message_host hrole, if_pos hreads, hfields]
  refine ⟨⟨?_, ?_⟩, (SameView.writeMsg e s.sendPaddle).trans (.mirror ..), rfl⟩
  · show _ = clampf (toInt s.rightX) rightXMin rightXMax
    rw [hrx'', hx]
  · show _ = clampf (toInt s.rightY) 0 (canvasH - paddleH)
    rw [hry'', hy]

/-! ## Ticks -/

theorem moveLocalPaddle_host {e : Engine} (hrole : e.role = .host) (i : Input) :
    SameRight e (e.moveLocalPaddle i) ∧ (e.moveLocalPaddle i).inGame = e.inGame := by
  unfold Engine.moveLocalPaddle
  rw [hrole]
  exact ⟨⟨rfl, rfl⟩, rfl⟩

theorem moveLocalPaddle_guest {e : Engine} (hrole : e.role = .guest) (i : Input) :
    SameView e (e.moveLocalPaddle i) ∧ (e.moveLocalPaddle i).inGame = e.inGame := by
  unfold Engine.moveLocalPaddle
  rw [hrole]
  exact ⟨⟨rfl, rfl, rfl, rfl, rfl, rfl⟩, rfl⟩

/-- An engine of a role in a game. -/
structure In (r : Role) (e : Engine) : Prop where
  inGame : e.inGame = true
  role : e.role = r

theorem host_tick {e : Engine} (h : In .host e) (i : Input) :
    In .host (e.tick i).1 ∧ SameRight e (e.tick i).1 ∧
      (e.tick i).2 = some (e.tick i).1.sendState := by
  obtain ⟨hsame, hin⟩ := moveLocalPaddle_host h.role i
  have hf := Frame.simulateBall (e.moveLocalPaddle i)
  refine ⟨⟨?_, (role_tick e i).trans h.role⟩, ?_, ?_⟩ <;> rw [tick_host h.inGame h.role]
  · exact (hf.inGame.trans hin).trans h.inGame
  · exact ⟨hsame.1.trans hf.rightX.symm, hsame.2.trans hf.rightY.symm⟩

/-- A guest's tick leaves everything but its own paddle alone and sends where it comes to. -/
theorem guest_tick {e : Engine} (h : In .guest e) (hp : RightPaddle e) (i : Input) :
    In .guest (e.tick i).1 ∧ RightPaddle (e.tick i).1 ∧ SameView e (e.tick i).1 ∧
      (e.tick i).2 = some (e.tick i).1.sendPaddle := by
  obtain ⟨hsame, hin⟩ := moveLocalPaddle_guest h.role i
  obtain ⟨hx, hy, -⟩ := guest_paddle hp.1 hp.2 h.role i
  refine ⟨⟨?_, (role_tick e i).trans h.role⟩, ?_, ?_, ?_⟩ <;> rw [tick_guest h.inGame h.role]
  · exact hin.trans h.inGame
  · exact ⟨hx, hy⟩
  · exact hsame

/-! ## The match -/

structure Match where
  host : Engine
  guest : Engine
  /-- The host's lines on their way to the guest. -/
  toGuest : Link Engine Bytes
  /-- The guest's lines on their way to the host. -/
  toHost : Link Engine Bytes

/-- One thing that happens in a match. -/
inductive Move where
  | hostTick (i : Input)
  | guestTick (i : Input)
  | openToGuest
  | openToHost
  | tellGuest
  | tellHost
  deriving DecidableEq

/-- Two engines that start a game with each other, whatever they did before. -/
def kickoff (h g : Engine) : Match := ⟨h.startGame .host, g.startGame .guest, .init, .init⟩

namespace Match

/-- `peer_send` of what a tick sends, with the engine after that tick. -/
def post (line : Option Bytes) (e : Engine) (k : Link Engine Bytes) : Link Engine Bytes :=
  match line with
  | none => k
  | some text => k.send text e

def step : Move → Match → Match
  | .hostTick i, m =>
    let (e, line) := m.host.tick i
    { m with host := e, toGuest := post line e m.toGuest }
  | .guestTick i, m =>
    let (e, line) := m.guest.tick i
    { m with guest := e, toHost := post line e m.toHost }
  | .openToGuest, m => { m with toGuest := m.toGuest.opened }
  | .openToHost, m => { m with toHost := m.toHost.opened }
  | .tellGuest, m =>
    match m.toGuest.recv with
    | none => m
    | some (text, k) => { m with guest := m.guest.message text, toGuest := k }
  | .tellHost, m =>
    match m.toHost.recv with
    | none => m
    | some (text, k) => { m with host := m.host.message text, toHost := k }

/-- The ball crosses a goal line in this step. -/
def isGoal : Move → Match → Bool
  | .hostTick _, m => m.host.outLeft ∨ m.host.outRight
  | _, _ => false

/-! ## What the two know of each other -/

/-- Right paddle, and the rest, as a game starts. -/
def AtHome (e : Engine) : Prop := e.rightX = rightHomeX ∧ e.rightY = Engine.homeY

structure AtKickoff (e : Engine) : Prop where
  ballX : e.ballX = halfW - ballSize / 2
  ballY : e.ballY = canvasH / 2 - ballSize / 2
  leftX : e.leftX = leftHomeX
  leftY : e.leftY = Engine.homeY
  leftScore : e.leftScore = 0
  rightScore : e.rightScore = 0

theorem AtHome.of_sameRight {e e' : Engine} (h : AtHome e) (h' : SameRight e e') : AtHome e' :=
  ⟨h'.1 ▸ h.1, h'.2 ▸ h.2⟩

theorem AtKickoff.of_sameView {e e' : Engine} (h : AtKickoff e) (h' : SameView e e') :
    AtKickoff e' :=
  ⟨h'.1 ▸ h.1, h'.2 ▸ h.2, h'.3 ▸ h.3, h'.4 ▸ h.4, h'.5 ▸ h.5, h'.6 ▸ h.6⟩

structure Sync (m : Match) : Prop where
  host : In .host m.host
  guest : In .guest m.guest
  court : Court m.host
  scored : Scored m.host
  paddle : RightPaddle m.guest
  states : m.toGuest.Carries Engine.sendState (fun e => Court e ∧ Scored e) SameView m.host
  paddles : m.toHost.Carries Engine.sendPaddle RightPaddle SameRight m.guest
  view : ∀ x ∈ m.toGuest.heard, Shown x.sender m.guest
  mirror : ∀ x ∈ m.toHost.heard, SameRight x.sender m.host
  noView : m.toGuest.heard = none → AtKickoff m.guest
  noMirror : m.toHost.heard = none → AtHome m.host
  hostStart : m.toGuest.sent = 0 → AtKickoff m.host
  guestStart : m.toHost.sent = 0 → AtHome m.guest

/-- There is room for one more goal. -/
def Room (mv : Move) (m : Match) : Prop :=
  isGoal mv m = true → m.host.leftScore + m.host.rightScore + 1 < 2147483648

theorem scored_tick {m : Match} (hs : Scored m.host) (h : In .host m.host) (i : Input)
    (hroom : Room (.hostTick i) m) :
    Scored (m.host.tick i).1 ∧
      (m.host.tick i).1.leftScore + (m.host.tick i).1.rightScore =
        m.host.leftScore + m.host.rightScore + (isGoal (.hostTick i) m).toNat := by
  obtain ⟨⟨hl, hl'⟩, hr, hr'⟩ := hs
  have hfit : ∀ n : Int, 0 ≤ n → n + 1 < 2147483648 → i32 (n + 1) = n + 1 := fun n h₁ h₂ =>
    i32_eq ⟨by omega, h₂⟩
  simp only [Scored, m.host.tick_scores i, Engine.leftShown, Engine.rightShown, h.inGame, h.role,
    true_and]
  simp only [Room, isGoal, decide_eq_true_eq] at hroom ⊢
  by_cases hol : m.host.outLeft
  · have hor : ¬ m.host.outRight := fun hor => m.host.outRight_not_outLeft hor hol
    have hone := hroom (.inl hol)
    have hi := hfit m.host.rightScore hr (by omega)
    simp only [hol, hor, if_true, if_false, hi, true_or, decide_true, Bool.toNat_true]
    omega
  · by_cases hor : m.host.outRight
    · have hone := hroom (.inr hor)
      have hi := hfit m.host.leftScore hl (by omega)
      simp only [hol, hor, if_true, if_false, hi, or_true, decide_true, Bool.toNat_true]
      omega
    · simp only [hol, hor, if_false, or_self, decide_false, Bool.toNat_false]
      omega

namespace Sync

variable {m : Match}

theorem kickoff (h g : Engine) : Sync (kickoff h g) where
  host := ⟨rfl, rfl⟩
  guest := ⟨rfl, rfl⟩
  court := .startGame h .host
  scored := ⟨⟨le_rfl, by show (0 : Int) < _; decide⟩, le_rfl, by show (0 : Int) < _; decide⟩
  paddle := ⟨(Court.startGame g .guest).rightX, (Court.startGame g .guest).rightY⟩
  states := .init
  paddles := .init
  view x hx := by cases hx
  mirror x hx := by cases hx
  noView _ := ⟨rfl, rfl, rfl, rfl, rfl, rfl⟩
  noMirror _ := ⟨rfl, rfl⟩
  hostStart _ := ⟨rfl, rfl, rfl, rfl, rfl, rfl⟩
  guestStart _ := ⟨rfl, rfl⟩

theorem hostTick (h : Sync m) (i : Input) (hroom : Room (.hostTick i) m) :
    Sync (step (.hostTick i) m) := by
  obtain ⟨hin, hright, hline⟩ := host_tick h.host i
  obtain ⟨hscored, -⟩ := scored_tick h.scored h.host i hroom
  have hcourt : Court (m.host.tick i).1 := h.court.turn h.host.role (.tick i)
  simp only [step, hline]
  exact { h with
    host := hin
    court := hcourt
    scored := hscored
    states := h.states.send ⟨hcourt, hscored⟩ (.refl _)
    mirror := fun x hx => (h.mirror x hx).trans hright
    noMirror := fun hn => (h.noMirror hn).of_sameRight hright
    hostStart := fun hn => absurd hn (Nat.succ_ne_zero _) }

theorem guestTick (h : Sync m) (i : Input) : Sync (step (.guestTick i) m) := by
  obtain ⟨hin, hpaddle, hview, hline⟩ := guest_tick h.guest h.paddle i
  simp only [step, hline]
  exact { h with
    guest := hin
    paddle := hpaddle
    paddles := h.paddles.send hpaddle (.refl _)
    view := fun x hx => (h.view x hx).of_sameView hview
    noView := fun hn => (h.noView hn).of_sameView hview
    guestStart := fun hn => absurd hn (Nat.succ_ne_zero _) }

theorem tellGuest (h : Sync m) : Sync (step .tellGuest m) := by
  simp only [step]
  split
  · exact h
  · rename_i text k hr
    obtain ⟨hstates, hsent, x, hheard, rfl, hcourt, hscored⟩ := h.states.recv hr
    obtain ⟨hshown, hright, -, hin⟩ := message_sendState hcourt hscored h.guest.role
    exact { h with
      guest := ⟨hin.trans h.guest.inGame, (role_message _ _).trans h.guest.role⟩
      paddle := ⟨hright.1 ▸ h.paddle.1, hright.2 ▸ h.paddle.2⟩
      states := hstates
      paddles := h.paddles.change fun y hy => hy.trans hright
      view := fun y hy => by
        rw [hheard] at hy
        cases hy
        exact hshown
      noView := fun hn => by
        rw [hheard] at hn
        cases hn
      hostStart := fun hn => h.hostStart (hsent ▸ hn)
      guestStart := fun hn => (h.guestStart hn).of_sameRight hright }

theorem tellHost (h : Sync m) : Sync (step .tellHost m) := by
  simp only [step]
  split
  · exact h
  · rename_i text k hr
    obtain ⟨hpaddles, hsent, x, hheard, rfl, hgood⟩ := h.paddles.recv hr
    obtain ⟨hright, hview, hin⟩ := message_sendPaddle hgood h.host.role
    have hscored := h.scored
    rw [Scored, hview.leftScore, hview.rightScore] at hscored
    exact { h with
      host := ⟨hin.trans h.host.inGame, (role_message _ _).trans h.host.role⟩
      court := h.court.message h.host.role _
      scored := hscored
      states := h.states.change fun y hy => hy.trans hview
      paddles := hpaddles
      mirror := fun y hy => by
        rw [hheard] at hy
        cases hy
        exact hright
      noMirror := fun hn => by
        rw [hheard] at hn
        cases hn
      hostStart := fun hn => (h.hostStart hn).of_sameView hview
      guestStart := fun hn => h.guestStart (hsent ▸ hn) }

theorem step (h : Sync m) {mv : Move} (hroom : Room mv m) : Sync (step mv m) := by
  cases mv with
  | hostTick i => exact h.hostTick i hroom
  | guestTick i => exact h.guestTick i
  | openToGuest => exact { h with states := h.states.opened }
  | openToHost => exact { h with paddles := h.paddles.opened }
  | tellGuest => exact h.tellGuest
  | tellHost => exact h.tellHost

theorem goals_step (h : Sync m) {mv : Move} (hroom : Room mv m) :
    (Match.step mv m).host.leftScore + (Match.step mv m).host.rightScore =
      m.host.leftScore + m.host.rightScore + (isGoal mv m).toNat := by
  cases mv with
  | hostTick i => exact (scored_tick h.scored h.host i hroom).2
  | tellHost =>
    simp only [Match.step]
    split
    · simp [isGoal]
    · rename_i text k hr
      obtain ⟨-, -, x, -, rfl, hgood⟩ := h.paddles.recv hr
      obtain ⟨-, hview, -⟩ := message_sendPaddle hgood h.host.role
      simp [isGoal, ← hview.leftScore, ← hview.rightScore]
  | tellGuest =>
    simp only [Match.step]
    split <;> simp [isGoal]
  | _ => simp [Match.step, isGoal]

theorem room_of_goals (h : Sync m) {ms : List Move}
    (hgoals : m.host.leftScore + m.host.rightScore + tally Match.step isGoal ms m < 2147483648) :
    Guarded Match.step Room ms m := by
  induction ms generalizing m with
  | nil => trivial
  | cons mv ms ih =>
    rw [tally] at hgoals
    have hroom : Room mv m := fun hg => by
      rw [hg] at hgoals
      simp only [Bool.toNat_true] at hgoals
      omega
    refine ⟨hroom, ih (h.step hroom) ?_⟩
    rw [h.goals_step hroom]
    omega

theorem run (h g : Engine) {ms : List Move}
    (hgoals : tally Match.step isGoal ms (Game.kickoff h g) < 2 ^ 31) :
    Sync (run Match.step ms (Game.kickoff h g)) := by
  have hroom : Guarded Match.step Room ms (Game.kickoff h g) := by
    refine (kickoff h g).room_of_goals ?_
    show (0 : Int) + 0 + _ < _
    omega
  exact run_inv_guarded (fun mv m hr hs => hs.step hr) hroom (kickoff h g)

end Sync

/-! ## The agreement -/

/-- The latest line of each side has been delivered. -/
def CaughtUp (m : Match) : Prop :=
  m.toGuest.heard.elim 0 (·.number) = m.toGuest.sent ∧
    m.toHost.heard.elim 0 (·.number) = m.toHost.sent

structure Agreement (m : Match) : Prop where
  /-- The host has the guest's paddle where it was at the tick that sent the last `P` delivered. -/
  mirror : ∀ x ∈ m.toHost.heard,
    m.host.rightX = x.sender.rightX ∧ m.host.rightY = x.sender.rightY
  home : m.toHost.heard = none → m.host.rightX = rightHomeX ∧ m.host.rightY = Engine.homeY
  /-- The guest has the rest as it was at the tick that sent the last `S` delivered. -/
  view : ∀ x ∈ m.toGuest.heard, Shown x.sender m.guest
  /-- The next `S` leaves the guest's paddle where it is. -/
  own : (step .tellGuest m).guest.rightX = m.guest.rightX ∧
    (step .tellGuest m).guest.rightY = m.guest.rightY ∧
    (step .tellGuest m).guest.rightVx = m.guest.rightVx
  latest : m.CaughtUp →
    (m.host.rightX = m.guest.rightX ∧ m.host.rightY = m.guest.rightY) ∧
    (m.host.leftX = m.guest.leftX ∧ m.host.leftY = m.guest.leftY) ∧
    (m.host.leftScore = m.guest.leftScore ∧ m.host.rightScore = m.guest.rightScore) ∧
    |m.host.ballX - m.guest.ballX| < 1 ∧ |m.host.ballY - m.guest.ballY| < 1

/-- **Two-party agreement.** -/
theorem two_party (h g : Engine) (ms : List Move)
    (hgoals : tally step isGoal ms (kickoff h g) < 2 ^ 31) :
    Agreement (run step ms (kickoff h g)) := by
  have hs := Sync.run h g hgoals
  generalize run step ms (kickoff h g) = m at hs
  refine ⟨fun x hx => ?_, hs.noMirror, hs.view, ?_, fun hup => ?_⟩
  · exact ⟨(hs.mirror x hx).1.symm, (hs.mirror x hx).2.symm⟩
  · simp only [step]
    split
    · exact ⟨rfl, rfl, rfl⟩
    · rename_i text k hr
      obtain ⟨-, -, x, -, rfl, hcourt, hscored⟩ := hs.states.recv hr
      obtain ⟨-, hright, hvx, -⟩ := message_sendState hcourt hscored hs.guest.role
      exact ⟨hright.1.symm, hright.2.symm, hvx⟩
  · obtain ⟨hupG, hupH⟩ := hup
    have hright : SameRight m.host m.guest := by
      cases hh : m.toHost.heard with
      | none =>
        rw [hh] at hupH
        have h₁ := hs.noMirror hh
        have h₂ := hs.guestStart hupH.symm
        exact ⟨h₁.1.trans h₂.1.symm, h₁.2.trans h₂.2.symm⟩
      | some x =>
        rw [hh] at hupH
        have h₁ := hs.mirror x hh
        have h₂ := hs.paddles.latest x (.inr hh) hupH
        exact ⟨h₁.1.symm.trans h₂.1, h₁.2.symm.trans h₂.2⟩
    have hview : ∃ e, SameView e m.host ∧ Shown e m.guest := by
      cases hh : m.toGuest.heard with
      | none =>
        rw [hh] at hupG
        obtain ⟨h₁, h₂, h₃, h₄, h₅, h₆⟩ := hs.noView hh
        obtain ⟨k₁, k₂, k₃, k₄, k₅, k₆⟩ := hs.hostStart hupG.symm
        refine ⟨m.host, .refl _, ?_, ?_, h₃.trans k₃.symm, h₄.trans k₄.symm, h₅.trans k₅.symm,
          h₆.trans k₆.symm⟩
        · rw [h₁, k₁]
          decide +kernel
        · rw [h₂, k₂]
          decide +kernel
      | some x =>
        rw [hh] at hupG
        exact ⟨x.sender, hs.states.latest x (.inr hh) hupG, hs.view x hh⟩
    obtain ⟨e, hsame, hshown⟩ := hview
    refine ⟨hright, ⟨?_, ?_⟩, ⟨?_, ?_⟩, ?_, ?_⟩
    · rw [hshown.leftX, hsame.leftX]
    · rw [hshown.leftY, hsame.leftY]
    · rw [hshown.leftScore, hsame.leftScore]
    · rw [hshown.rightScore, hsame.rightScore]
    · rw [hshown.ballX, ← hsame.ballX]
      exact abs_sub_toInt_lt _
    · rw [hshown.ballY, ← hsame.ballY]
      exact abs_sub_toInt_lt _

/-- Both sides move, each line is delivered, and the guest's first one is lost. -/
def opening : List Move :=
  [.guestTick ⟨-1, 1⟩, .openToHost, .openToGuest, .hostTick ⟨1, 0⟩, .guestTick ⟨-1, 1⟩, .tellHost,
    .tellGuest]

theorem two_party_opening :
    Agreement (run step opening (kickoff Engine.zero.init Engine.zero.init)) :=
  two_party _ _ opening (by decide +kernel)

end Match

end PongPp.Game
