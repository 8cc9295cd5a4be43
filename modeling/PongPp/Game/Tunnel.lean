import Mathlib.Data.List.Chain
import PongPp.Game.Match

/-!
# Ball and paddle that swap sides

The collision test looks at where ball and paddle are after a tick, not at how they came there. A
paddle of 12 pixels and a ball of 14 cannot pass each other unseen while they close in by 26
pixels a tick or less. The left paddle never does more. The right one jumps as far as the lines
that were delivered since the last tick take it: three are safe, more are not (`no_tunnelling`).
-/

namespace PongPp.Game

open Lib

namespace Engine

variable (e : Engine)

/-- The ball is strictly in front of the left paddle. -/
def beforeLeft : Prop := e.ballX > e.leftX + paddleW

/-- The ball is strictly behind the left paddle. -/
def behindLeft : Prop := e.ballX + ballSize < e.leftX

/-- The ball is strictly in front of the right paddle. -/
def beforeRight : Prop := e.ballX + ballSize < e.rightX

/-- The ball is strictly behind the right paddle. -/
def behindRight : Prop := e.ballX > e.rightX + paddleW

instance : Decidable e.beforeRight := inferInstanceAs (Decidable (_ < _))
instance : Decidable e.behindRight := inferInstanceAs (Decidable (_ < _))

theorem moveLocalPaddle_ball (i : Input) : (e.moveLocalPaddle i).ballX = e.ballX ∧
    (e.moveLocalPaddle i).ballVx = e.ballVx := by
  unfold moveLocalPaddle
  split <;> exact ⟨rfl, rfl⟩

theorem left_seen {e : Engine} (hc : Court e) (h : In .host e) (hb : e.beforeLeft) (i : Input) :
    ¬ (e.tick i).1.behindLeft := by
  obtain ⟨hx, hv⟩ := e.moveLocalPaddle_ball i
  have hleft : (e.moveLocalPaddle i).leftX ≤ e.leftX + 4 := by
    obtain ⟨-, hvx⟩ := whole_move hc.leftX (v := 4) (by omega) i.x
    have hv := hvx.bounds.2
    norm_num at hv
    unfold moveLocalPaddle
    rw [h.role]
    simp only [constants]
    linarith
  have hmax := (hc.moveLocalPaddle h.role i).leftX.bounds.2
  have hvx := (abs_le.mp hc.ballVx).1
  norm_num at hmax
  rw [tick_host h.inGame h.role]
  unfold behindLeft
  unfold beforeLeft at hb
  rw [simulateBall_ballX, (Frame.simulateBall _).leftX, hx, hv, not_lt]
  simp only [constants] at hb ⊢
  split_ifs <;> linarith

/-- A ball in front of where the right paddle was is not behind where it is now, if the way the
paddle came and the step of the ball are 26 pixels at most. -/
theorem right_seen {e : Engine} (hc : Court e) (h : In .host e) {x : ℚ}
    (hb : e.ballX + ballSize < x) (hnear : x - e.rightX + |e.ballVx| ≤ ballSize + paddleW)
    (i : Input) : ¬ (e.tick i).1.behindRight := by
  obtain ⟨hx, hv⟩ := e.moveLocalPaddle_ball i
  have hright := (moveLocalPaddle_host h.role i).1.1
  have hmin := hc.rightX.bounds.1
  have hvx := le_abs_self e.ballVx
  norm_num at hmin
  rw [tick_host h.inGame h.role]
  unfold behindRight
  rw [simulateBall_ballX, (Frame.simulateBall _).rightX, hx, hv, ← hright, gt_iff_lt,
    not_lt]
  simp only [constants] at hb hnear ⊢
  split_ifs <;> linarith

end Engine

/-! ## Between two ticks of the host -/

namespace Match

def isHostTick : Move → Bool
  | .hostTick _ => true
  | _ => false

/-- A line of the guest is delivered in this step. -/
def isMirror : Move → Match → Bool
  | .tellHost, m => !m.toHost.queue.isEmpty
  | _, _ => false

/-- A match with both links open from the start: every line is delivered. -/
def connected (h g : Engine) : Match :=
  step .openToGuest (step .openToHost (kickoff h g))

/-- No further apart than a paddle moves in a tick. -/
def Near (x y : ℚ) : Prop := |x - y| ≤ 4

/-- Where the host has the right paddle, and where it is told to have it next. -/
def trail (m : Match) : List ℚ := m.host.rightX :: m.toHost.queue.map (·.sender.rightX)

/-- No line to the host was lost: the trail leads to the guest's paddle without a jump. -/
structure Wired (m : Match) : Prop where
  host : In .host m.host
  guest : In .guest m.guest
  court : Court m.host
  paddle : RightPaddle m.guest
  paddles : m.toHost.Carries Engine.sendPaddle RightPaddle (fun _ _ => True) m.guest
  isOpen : m.toHost.isOpen = true
  chain : m.trail.IsChain Near
  last : m.trail.getLast? = some m.guest.rightX

/-- What does not change while the host does not tick. -/
structure Still (a b : Engine) : Prop where
  ballX : b.ballX = a.ballX
  ballVx : b.ballVx = a.ballVx
  leftX : b.leftX = a.leftX

theorem still_message {e : Engine} (hrole : e.role = .host) (text : Bytes) :
    Still e (e.message text) := by
  rw [Engine.message_host hrole]
  simp only
  split <;> exact ⟨rfl, rfl, rfl⟩

theorem guest_message {e : Engine} (h : In .guest e) (text : Bytes) :
    In .guest (e.message text) ∧ SameRight e (e.message text) := by
  have hin : (e.message text).inGame = e.inGame ∧ SameRight e (e.message text) := by
    rw [Engine.message_guest h.role]
    simp only
    split <;> exact ⟨rfl, rfl, rfl⟩
  exact ⟨⟨hin.1.trans h.inGame, (role_message e text).trans h.role⟩, hin.2⟩

namespace Wired

variable {m : Match}

theorem connected (h g : Engine) : Wired (connected h g) where
  host := ⟨rfl, rfl⟩
  guest := ⟨rfl, rfl⟩
  court := .startGame h .host
  paddle := ⟨(Court.startGame g .guest).rightX, (Court.startGame g .guest).rightY⟩
  paddles := Link.Carries.init.opened
  isOpen := rfl
  chain := List.isChain_singleton _
  last := rfl

theorem hostTick (h : Wired m) (i : Input) : Wired (step (.hostTick i) m) := by
  obtain ⟨hin, hright, hline⟩ := host_tick h.host i
  have htrail : (step (.hostTick i) m).trail = m.trail := by
    simp only [trail, step, hright.1]
  exact { h with
    host := hin
    court := h.court.turn h.host.role (.tick i)
    chain := htrail ▸ h.chain
    last := htrail ▸ h.last }

theorem guestTick (h : Wired m) (i : Input) : Wired (step (.guestTick i) m) := by
  obtain ⟨hin, hpaddle, -, hline⟩ := guest_tick h.guest h.paddle i
  have hmoved := (guest_paddle h.paddle.1 h.paddle.2 h.guest.role i).2.2.bounds
  have htick : (m.guest.tick i).1 = m.guest.moveLocalPaddle i := by
    rw [tick_guest h.guest.inGame h.guest.role]
  rw [← htick] at hmoved
  have htrail : (step (.guestTick i) m).trail = m.trail ++ [(m.guest.tick i).1.rightX] := by
    simp [trail, step, hline, post, Link.send, h.isOpen]
  have hnear : Near m.guest.rightX (m.guest.tick i).1.rightX := by
    norm_num at hmoved
    rw [Near, abs_le]
    constructor <;> linarith
  have hpaddles := h.paddles.send (t := (m.guest.tick i).1) hpaddle trivial
  simp only [step, hline, post] at htrail ⊢
  refine { h with guest := hin, paddle := hpaddle, paddles := hpaddles, chain := ?_, last := ?_ }
  · rw [htrail, List.isChain_append]
    refine ⟨h.chain, List.isChain_singleton _, fun x hx y hy => ?_⟩
    rw [h.last] at hx
    cases hx
    cases hy
    exact hnear
  · rw [htrail, List.getLast?_concat]

theorem tellHost (h : Wired m) : Wired (step .tellHost m) ∧
    Still m.host (step .tellHost m).host ∧
    m.host.rightX - (step .tellHost m).host.rightX ≤ 4 * (isMirror .tellHost m).toNat := by
  cases hq : m.toHost.queue with
  | nil =>
    have hstep : step .tellHost m = m := by simp [step, Link.recv, hq]
    rw [hstep]
    exact ⟨h, ⟨rfl, rfl, rfl⟩, by simp [isMirror, hq]⟩
  | cons x queue =>
    have hr : m.toHost.recv = some (x.text, { m.toHost with queue, heard := some x }) := by
      simp [Link.recv, hq]
    obtain ⟨hpaddles, -, x', hx', htext, hgood⟩ := h.paddles.recv hr
    obtain rfl : x = x' := Option.some.inj hx'
    obtain ⟨hright, -, hin⟩ := message_sendPaddle hgood h.host.role
    have hstep : step .tellHost m = { m with
        host := m.host.message x.text, toHost := { m.toHost with queue, heard := some x } } := by
      simp only [step, hr]
    rw [← htext] at hright hin
    have htrail : m.trail = m.host.rightX :: (step .tellHost m).trail := by
      simp [trail, hstep, hq, hright.1]
    have hchain := h.chain
    have hlast := h.last
    rw [htrail, List.isChain_cons] at hchain
    rw [htrail] at hlast
    have hnear : Near m.host.rightX (step .tellHost m).host.rightX := hchain.1 _ rfl
    refine ⟨?_, ?_, ?_⟩
    · rw [hstep] at hchain hlast ⊢
      exact { h with
        host := ⟨hin.trans h.host.inGame, (role_message _ _).trans h.host.role⟩
        court := h.court.message h.host.role _
        paddles := hpaddles
        chain := hchain.2
        last := hlast }
    · rw [hstep]
      exact still_message h.host.role _
    · have hone : (isMirror .tellHost m).toNat = 1 := by simp [isMirror, hq]
      rw [hone]
      have := (abs_le.mp hnear).2
      norm_num
      linarith

theorem tellGuest (h : Wired m) : Wired (step .tellGuest m) := by
  simp only [step]
  split
  · exact h
  · rename_i text k hr
    obtain ⟨hin, hright⟩ := guest_message h.guest text
    refine { h with
      guest := hin
      paddle := ⟨hright.1 ▸ h.paddle.1, hright.2 ▸ h.paddle.2⟩
      paddles := h.paddles.change fun _ _ => trivial
      last := ?_ }
    show m.trail.getLast? = _
    rw [h.last, hright.1]

theorem step (h : Wired m) (mv : Move) : Wired (step mv m) := by
  cases mv with
  | hostTick i => exact h.hostTick i
  | guestTick i => exact h.guestTick i
  | openToGuest => exact { h with }
  | openToHost => exact { h with paddles := h.paddles.opened, isOpen := rfl }
  | tellGuest => exact h.tellGuest
  | tellHost => exact h.tellHost.1

theorem still_step (h : Wired m) {mv : Move} (hmv : isHostTick mv = false) :
    Still m.host (Match.step mv m).host ∧
      m.host.rightX - (Match.step mv m).host.rightX ≤ 4 * (isMirror mv m).toNat := by
  cases mv with
  | hostTick i => cases hmv
  | tellHost => exact h.tellHost.2
  | tellGuest =>
    have hsame : (Match.step .tellGuest m).host = m.host := by
      simp only [Match.step]
      split <;> rfl
    rw [hsame]
    exact ⟨⟨rfl, rfl, rfl⟩, by simp [isMirror]⟩
  | _ => exact ⟨⟨rfl, rfl, rfl⟩, by simp [Match.step, isMirror]⟩

theorem still_run (h : Wired m) {ms : List Move} (hms : ∀ mv ∈ ms, isHostTick mv = false) :
    Still m.host (run Match.step ms m).host ∧
      m.host.rightX - (run Match.step ms m).host.rightX ≤ 4 * tally Match.step isMirror ms m := by
  induction ms generalizing m with
  | nil => exact ⟨⟨rfl, rfl, rfl⟩, by simp [tally]⟩
  | cons mv ms ih =>
    obtain ⟨⟨h₁, h₂, h₃⟩, hd⟩ := h.still_step (hms mv (List.mem_cons_self ..))
    obtain ⟨⟨k₁, k₂, k₃⟩, kd⟩ := ih (h.step mv) fun x hx => hms x (List.mem_cons_of_mem _ hx)
    refine ⟨⟨k₁.trans h₁, k₂.trans h₂, k₃.trans h₃⟩, ?_⟩
    rw [tally, run_cons]
    push_cast
    linarith

end Wired

/-! ## The law -/

/-- From the state `a` of the host, by way of the state `c` its tick finds, to the state `b` that
the tick leaves, with `n` lines of the guest delivered in between. -/
structure Seen (a c b : Engine) (n : Nat) : Prop where
  left : a.beforeLeft → ¬ b.behindLeft
  right : a.beforeRight → a.rightX - c.rightX + |a.ballVx| ≤ ballSize + paddleW → ¬ b.behindRight
  lines : a.beforeRight → n ≤ 3 → ¬ b.behindRight

/-- **No tunnelling**: the ball never gets from in front of the left paddle to behind it in a tick
of the host, nor past the right one unless ball and mirrored paddle close in by more than 26
pixels; three lines between two ticks do not make that much. -/
theorem no_tunnelling (h g : Engine) (ms mid : List Move) (i : Input)
    (hmid : ∀ mv ∈ mid, isHostTick mv = false) :
    let start := connected h g
    Seen (run step ms start).host (run step (ms ++ mid) start).host
      (run step (ms ++ mid ++ [.hostTick i]) start).host
      (tally step isMirror mid (run step ms start)) := by
  have hrun : ∀ ms, Wired (run step ms (connected h g)) := fun ms =>
    run_inv (fun mv _ hw => hw.step mv) ms (Wired.connected h g)
  simp only
  have ha := hrun ms
  have hc := hrun (ms ++ mid)
  rw [run_concat]
  rw [run_append] at hc ⊢
  generalize run step ms (connected h g) = m at *
  obtain ⟨hstill, hdrift⟩ := ha.still_run hmid
  generalize run step mid m = c at *
  have hright : m.host.beforeRight →
      m.host.rightX - c.host.rightX + |m.host.ballVx| ≤ ballSize + paddleW →
        ¬ (c.host.tick i).1.behindRight := fun hb hnear => by
    unfold Engine.beforeRight at hb
    rw [← hstill.ballX] at hb
    rw [← hstill.ballVx] at hnear
    exact Engine.right_seen hc.court hc.host hb hnear i
  refine ⟨fun hb => ?_, hright, fun hb hn => hright hb ?_⟩
  · unfold Engine.beforeLeft at hb
    rw [← hstill.ballX, ← hstill.leftX] at hb
    exact Engine.left_seen hc.court hc.host hb i
  · have hvx := ha.court.ballVx
    have hn' : ((tally step isMirror mid m : Nat) : ℚ) ≤ 3 := by exact_mod_cast hn
    simp only [constants]
    linarith

/-- A rally on the host's side while the guest walks to the net, in three lines a tick. -/
def walk : List Move := List.replicate 3 (.guestTick ⟨-1, 0⟩) ++ List.replicate 3 .tellHost

theorem no_tunnelling_walk :
    let start := connected Engine.zero.init Engine.zero.init
    Seen (run step [.hostTick ⟨0, 0⟩] start).host (run step ([.hostTick ⟨0, 0⟩] ++ walk) start).host
      (run step ([.hostTick ⟨0, 0⟩] ++ walk ++ [.hostTick ⟨0, 0⟩]) start).host
      (tally step isMirror walk (run step [.hostTick ⟨0, 0⟩] start)) :=
  no_tunnelling _ _ [.hostTick ⟨0, 0⟩] walk ⟨0, 0⟩ (by decide)

/-- The ball flies to the right paddle for 71 ticks; then six lines are delivered at once. -/
theorem tunnelled : ¬ ∀ (ms mid : List Move) (i : Input), (∀ mv ∈ mid, isHostTick mv = false) →
    (run step ms (connected Engine.zero.init Engine.zero.init)).host.beforeRight →
      ¬ (run step (ms ++ mid ++ [.hostTick i])
        (connected Engine.zero.init Engine.zero.init)).host.behindRight := fun h =>
  h (List.replicate 71 (.hostTick ⟨0, 0⟩))
    (List.replicate 6 (.guestTick ⟨-1, 0⟩) ++ List.replicate 6 .tellHost) ⟨0, 0⟩ (by decide)
    (by decide +kernel) (by decide +kernel)

end Match

end PongPp.Game
