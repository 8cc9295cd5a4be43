import PongPp.Game.Bounce

/-!
# The rally

A host's run as a row of hits and goals. The ball never goes on for long without one of them
(`rally_bounded`), the goals make the scores and the serves (`scoreboard`), and a serve that
nobody returns is a goal on the 82nd tick and is repeated (`unreturned`).
-/

namespace PongPp.Game

open Lib

/-! ## Ticks, hits and goals -/

/-- The side that scores. -/
inductive Side where
  | left
  | right
  deriving DecidableEq, Repr

/-- The way of the ball that is served away from a side: after a goal, the one that scored it. -/
def Side.serve : Side → Int
  | .left => 1
  | .right => -1

def isTick : Turn → Engine → Bool
  | .tick _, _ => true
  | .message _, _ => false

/-- The goal of a host's tick. -/
def goals : Turn → Engine → List Side
  | .tick _, e => if e.outLeft then [.right] else if e.outRight then [.left] else []
  | .message _, _ => []

/-- A paddle hits the ball. -/
def isHit : Turn → Engine → Bool
  | .tick i, e => e.leftHit i || e.rightHit i
  | .message _, _ => false

/-- A hit or a goal. -/
def isEvent (t : Turn) (e : Engine) : Bool := isHit t e || !(goals t e).isEmpty

/-- What holds of a host all along its game. -/
structure Hosting (e : Engine) : Prop where
  court : Court e
  inHost : In .host e

theorem Hosting.startGame (e : Engine) : Hosting (e.startGame .host) :=
  ⟨.startGame e .host, rfl, rfl⟩

theorem Hosting.turn {e : Engine} (h : Hosting e) (t : Turn) : Hosting (turn t e) :=
  ⟨h.court.turn h.inHost.role t, h.inHost.turn t⟩

theorem hosting_run (ts : List Turn) (e : Engine) : Hosting (run turn ts (e.startGame .host)) :=
  run_inv (fun t _ h => h.turn t) ts (.startGame e)

namespace Engine

variable {e : Engine} {i : Input}

/-- **A host's tick**, from what its paddles leave. -/
theorem tick_eq (h : In .host e) (i : Input) : (e.tick i).1 =
    if e.outLeft then
      { e.afterRight i with rightScore := i32 (e.rightScore + 1) }.resetBall (-1)
    else if e.outRight then
      { e.afterRight i with leftScore := i32 (e.leftScore + 1) }.resetBall 1
    else e.afterRight i := by
  rw [tick_host h.inGame h.role]
  show (e.moveLocalPaddle i).moveBall.hitPaddles.scoreGoal = _
  rw [scoreGoal_eq]
  simp only [moveLocalPaddle_out, moveLocalPaddle_scores]
  rfl

theorem moveBall_same : e.moveBall.serveSeed = e.serveSeed ∧ |e.moveBall.ballVy| = |e.ballVy| := by
  unfold moveBall
  simp only
  split_ifs <;> simp

theorem tryPaddleCollide_serveSeed (x y v : ℚ) (b : Bool) :
    (e.tryPaddleCollide x y v b).serveSeed = e.serveSeed := by
  unfold tryPaddleCollide
  split <;> rfl

theorem afterRight_same (e : Engine) (i : Input) : (e.afterRight i).ballX = e.ballX + e.ballVx ∧
    (e.afterRight i).leftScore = e.leftScore ∧ (e.afterRight i).rightScore = e.rightScore ∧
    (e.afterRight i).serveSeed = e.serveSeed := by
  obtain ⟨hx, hvx⟩ := e.moveLocalPaddle_ball i
  obtain ⟨hl, hr⟩ := e.moveLocalPaddle_scores i
  have hseed : (e.moveLocalPaddle i).serveSeed = e.serveSeed := by
    unfold moveLocalPaddle
    split <;> rfl
  unfold afterRight approach
  simp only [hitPaddles_same, moveBall_ballX, moveBall_scores, hx, hvx, hl, hr, true_and]
  simp only [hitPaddles, tryPaddleCollide_serveSeed, moveBall_same, hseed]

theorem afterRight_of_noHit (h : isHit (.tick i) e = false) :
    (e.afterRight i).ballVx = e.ballVx ∧ |(e.afterRight i).ballVy| = |e.ballVy| := by
  obtain ⟨hl, hr⟩ := Bool.or_eq_false_iff.mp h
  have hvy : |(e.approach i).ballVy| = |(e.moveLocalPaddle i).ballVy| := moveBall_same.2
  have hmove : (e.moveLocalPaddle i).ballVy = e.ballVy := by
    unfold moveLocalPaddle
    split <;> rfl
  rw [afterRight_eq, if_neg (by simp [hr]), afterLeft_eq, if_neg (by simp [hl])]
  exact ⟨approach_ballVx, hvy.trans (by rw [hmove])⟩

end Engine

/-! ## No ball goes on for ever -/

/-- Five times the way to the goal line that the ball is heading for. -/
def way (e : Engine) : Nat :=
  if 0 < e.ballVx then ⌊5 * (canvasW - e.ballX)⌋.toNat else ⌊5 * (e.ballX + ballSize)⌋.toNat

theorem way_le {e : Engine} (h : Court e) : way e ≤ 4070 := by
  obtain ⟨hlo, hhi⟩ := h.ballX
  have hfloor : ∀ {q : ℚ}, q ≤ 4070 → ⌊q⌋.toNat ≤ 4070 := fun hq => by
    have hle : ⌊_⌋ ≤ (4070 : Int) := Int.floor_le_iff.mpr (lt_of_le_of_lt hq (by norm_num))
    omega
  unfold way
  simp only [constants]
  split
  · exact hfloor (by linarith)
  · exact hfloor (by linarith)

theorem goals_eq_nil {e : Engine} {i : Input} :
    goals (.tick i) e = [] ↔ ¬ e.outLeft ∧ ¬ e.outRight := by
  simp only [goals]
  split_ifs <;> simp_all

theorem isEvent_eq_false {t : Turn} {e : Engine} :
    isEvent t e = false ↔ isHit t e = false ∧ goals t e = [] := by
  rw [isEvent, Bool.or_eq_false_iff, Bool.not_eq_false', List.isEmpty_iff]

/-- A tick without hit or goal takes the ball on by a fifth of a pixel or more. -/
theorem way_tick {e : Engine} (h : Hosting e) {i : Input} (hno : isEvent (.tick i) e = false) :
    way (e.tick i).1 < way e := by
  obtain ⟨hhit, hgoal⟩ := isEvent_eq_false.mp hno
  obtain ⟨hl, hr⟩ := goals_eq_nil.mp hgoal
  obtain ⟨n, hn, hmod⟩ := h.court.lively
  have hvx := (Engine.afterRight_of_noHit hhit).1
  have hx := (e.afterRight_same i).1
  rw [Engine.tick_eq h.inHost, if_neg hl, if_neg hr]
  simp only [Engine.outLeft, Engine.outRight, constants, not_lt] at hl hr
  have hzero : (0 : ℚ) = ((0 : Int) : ℚ) := rfl
  unfold way
  rw [hvx, hx]
  simp only [constants]
  split
  · rename_i hpos
    have hn₀ : 0 < n := by
      have : (0 : ℚ) < n := by linarith
      exact_mod_cast this
    have hsub : 5 * (800 - (e.ballX + e.ballVx)) = 5 * (800 - e.ballX) - n := by linarith
    have hle : (n : Int) ≤ ⌊5 * (800 - e.ballX)⌋ := Int.le_floor.mpr (by linarith)
    rw [hsub, Int.floor_sub_intCast]
    omega
  · rename_i hneg
    have hn₀ : n < 0 := by
      have hle : (n : ℚ) ≤ 0 := by linarith
      have hle : n ≤ 0 := by exact_mod_cast hle
      omega
    have hadd : 5 * (e.ballX + e.ballVx + 14) = 5 * (e.ballX + 14) + n := by linarith
    have hle : (-n : Int) ≤ ⌊5 * (e.ballX + 14)⌋ := Int.le_floor.mpr (by push_cast; linarith)
    rw [hadd, Int.floor_add_intCast]
    omega

theorem way_turn {e : Engine} (h : Hosting e) (t : Turn) :
    (isTick t e).toNat + way (turn t e) ≤ way e + 4071 * (isEvent t e).toNat := by
  cases t with
  | message text =>
    obtain ⟨hx, hvx, -⟩ := Match.still_message h.inHost.role text
    have hway : way (e.message text) = way e := by
      unfold way
      rw [hx, hvx]
    show 0 + way (e.message text) ≤ way e + 0
    omega
  | tick i =>
    show 1 + way (e.tick i).1 ≤ _
    have hle := way_le (h.turn (.tick i)).court
    cases hev : isEvent (.tick i) e with
    | false =>
      have hlt := way_tick h hev
      simp only [Bool.toNat_false]
      omega
    | true =>
      have hle : way (e.tick i).1 ≤ 4070 := hle
      simp only [Bool.toNat_true]
      omega

/-- **No endless ball**: whatever the inputs and whatever the peer sends, no stretch of a host's
game has more than 4070 ticks in a row without a hit or a goal. -/
theorem rally_bounded (e : Engine) (ms ts : List Turn) :
    tally turn isTick ts (run turn ms (e.startGame .host)) ≤
      4070 + 4071 * tally turn isEvent ts (run turn ms (e.startGame .host)) := by
  have h := hosting_run ms e
  have hway := way_le h.court
  have hrun : tally turn isTick ts _ + way _ ≤ way _ + 4071 * tally turn isEvent ts _ :=
    tally_le (fun t _ h => h.turn t) (fun t _ h => way_turn h t) ts h
  omega

/-! ## The scoreboard -/

/-- What the goals of a game make. -/
structure Board where
  leftScore : Int
  rightScore : Int
  serveSeed : Int
  deriving DecidableEq

def Engine.board (e : Engine) : Board := ⟨e.leftScore, e.rightScore, e.serveSeed⟩

namespace Board

def goal (b : Board) : Side → Board
  | .left => { b with leftScore := i32 (b.leftScore + 1), serveSeed := i32 (b.serveSeed + 1) }
  | .right => { b with rightScore := i32 (b.rightScore + 1), serveSeed := i32 (b.serveSeed + 1) }

/-- The board of so many goals. -/
def of (l r n : Int) : Board := ⟨i32 l, i32 r, i32 n⟩

theorem goals_of (gs : List Side) (l r n : Int) : gs.foldl goal (of l r n) =
    of (l + gs.count .left) (r + gs.count .right) (n + gs.length) := by
  induction gs generalizing l r n with
  | nil => simp
  | cons side gs ih =>
    have hstep : ∀ k : Int, i32 (i32 k + 1) = i32 (k + 1) := fun k => by
      unfold i32
      omega
    cases side with
    | left =>
      have hgoal : (of l r n).goal .left = of (l + 1) r (n + 1) := by simp [goal, of, hstep]
      rw [List.foldl_cons, hgoal, ih]
      simp [add_assoc, add_comm (1 : Int)]
    | right =>
      have hgoal : (of l r n).goal .right = of l (r + 1) (n + 1) := by simp [goal, of, hstep]
      rw [List.foldl_cons, hgoal, ih]
      simp [add_assoc, add_comm (1 : Int)]

end Board

theorem board_turn {e : Engine} (h : Hosting e) (t : Turn) :
    (turn t e).board = (goals t e).foldl Board.goal e.board := by
  cases t with
  | message text =>
    show (e.message text).board = e.board
    rw [Engine.message_host h.inHost.role]
    simp only
    split <;> rfl
  | tick i =>
    obtain ⟨-, hl, hr, hs⟩ := e.afterRight_same i
    show (e.tick i).1.board = _
    rw [Engine.tick_eq h.inHost]
    simp only [goals]
    split_ifs <;> simp [Engine.board, Engine.resetBall, Board.goal, hl, hr, hs]

/-! ## Serves -/

/-- The ball `n` ticks after it was served away from a side, with no hit since. -/
structure Serving (side : Side) (n : Nat) (e : Engine) : Prop where
  ballX : e.ballX = halfW - ballSize / 2 + side.serve * ballSpeedX * n
  ballVx : e.ballVx = side.serve * ballSpeedX
  ballVy : |e.ballVy| = ballSpeedY

/-- The ball is served away from a side, with `n` for `serve_seed`. -/
structure Served (side : Side) (n : Int) (e : Engine) : Prop extends Serving side 0 e where
  ballY : e.ballY = canvasH / 2 - ballSize / 2
  /-- The serves go up and down by turns. -/
  turns : e.ballVy = if n % 2 = 1 then ballSpeedY else -ballSpeedY

theorem Served.resetBall (side : Side) (e : Engine) :
    Served side e.serveSeed (e.resetBall side.serve) := by
  refine ⟨⟨by simp [Engine.resetBall], rfl, ?_⟩, rfl, rfl⟩
  simp only [Engine.resetBall]
  split <;> simp [constants]

theorem served_of_goal {e : Engine} (h : Hosting e) {t : Turn} {side : Side}
    (hgoal : goals t e = [side]) : Served side e.serveSeed (turn t e) := by
  cases t with
  | message text => cases hgoal
  | tick i =>
    have hseed := (e.afterRight_same i).2.2.2
    show Served side _ (e.tick i).1
    rw [Engine.tick_eq h.inHost]
    simp only [goals] at hgoal
    split_ifs at hgoal ⊢
    · cases hgoal
      rw [← hseed]
      exact .resetBall .right { e.afterRight i with rightScore := i32 (e.rightScore + 1) }
    · cases hgoal
      rw [← hseed]
      exact .resetBall .left { e.afterRight i with leftScore := i32 (e.leftScore + 1) }

theorem Served.congr {side : Side} {m n : Int} {e : Engine} (h : Served side m e)
    (hmn : m % 2 = n % 2) : Served side n e :=
  ⟨h.toServing, h.ballY, hmn ▸ h.turns⟩

/-- What the goals of the run `ts` from `s` make. -/
structure Scoreboard (s : Engine) (ts : List Turn) : Prop where
  left : (run turn ts s).leftScore = i32 ((outputs turn goals ts s).count .left)
  right : (run turn ts s).rightScore = i32 ((outputs turn goals ts s).count .right)
  serves : ∀ t side, goals t (run turn ts s) = [side] →
    Served side (s.serveSeed + (outputs turn goals ts s).length) (run turn (ts ++ [t]) s)

namespace Serving

variable {side : Side} {n : Nat} {e : Engine}

theorem goals (h : Serving side n e) (i : Input) :
    goals (.tick i) e = if n < 81 then [] else [side] := by
  have hx := h.ballX
  have hvx := h.ballVx
  by_cases hn : n < 81
  · have hle : (n : ℚ) ≤ 80 := by exact_mod_cast Nat.le_of_lt_succ hn
    have hge : (0 : ℚ) ≤ n := n.cast_nonneg
    rw [if_pos hn, goals_eq_nil]
    unfold Engine.outLeft Engine.outRight
    rw [hx, hvx]
    cases side <;> simp only [Side.serve, constants] <;> push_cast <;> constructor <;> linarith
  · have hge : (81 : ℚ) ≤ n := by exact_mod_cast not_lt.mp hn
    rw [if_neg hn]
    cases side with
    | left =>
      have hr : e.outRight := by
        unfold Engine.outRight
        rw [hx, hvx]
        simp only [Side.serve, constants]
        push_cast
        linarith
      simp only [Game.goals, e.outRight_not_outLeft hr, hr, if_false, if_true]
    | right =>
      have hl : e.outLeft := by
        unfold Engine.outLeft
        rw [hx, hvx]
        simp only [Side.serve, constants]
        push_cast
        linarith
      simp only [Game.goals, hl, if_true]

theorem message (h : Serving side n e) (hrole : e.role = .host) (text : Bytes) :
    Serving side n (e.message text) := by
  rw [Engine.message_host hrole]
  simp only
  split <;> exact ⟨h.ballX, h.ballVx, h.ballVy⟩

theorem tick (h : Serving side n e) (hin : In .host e) {i : Input}
    (hno : isHit (.tick i) e = false) (hn : n < 81) : Serving side (n + 1) (e.tick i).1 := by
  obtain ⟨hl, hr⟩ := goals_eq_nil.mp ((h.goals i).trans (if_pos hn))
  obtain ⟨hvx, hvy⟩ := Engine.afterRight_of_noHit hno
  have hx := (e.afterRight_same i).1
  rw [Engine.tick_eq hin, if_neg hl, if_neg hr]
  refine ⟨?_, hvx.trans h.ballVx, hvy.trans h.ballVy⟩
  rw [hx, h.ballX, h.ballVx]
  push_cast
  ring

end Serving

/-- The run `ms` from `s` ends with a serve away from a side: it starts the game with one, and has
one after each goal. -/
def Serves (s : Engine) (side : Side) (ms : List Turn) : Prop :=
  (ms = [] ∧ side = .left) ∨ ∃ ms' t, ms = ms' ++ [t] ∧ goals t (run turn ms' s) = [side]

/-- What comes of `n` ticks without a hit, from a serve away from a side to the state `e`. -/
structure Unreturned (side : Side) (n : Nat) (gs : List Side) (e : Engine) : Prop where
  goals : gs = List.replicate (n / 82) side
  serving : Serving side (n % 82) e

theorem unreturned_from {side : Side} {n : Nat} {e : Engine} (h : Hosting e)
    (hs : Serving side n e) (hn : n < 82) {ts : List Turn}
    (hno : Guarded turn (fun t e => isHit t e = false) ts e) :
    Unreturned side (n + tally turn isTick ts e) (outputs turn goals ts e) (run turn ts e) := by
  induction ts generalizing n e with
  | nil =>
    refine ⟨?_, ?_⟩
    · simp [outputs, tally, Nat.div_eq_of_lt hn]
    · simp [tally, Nat.mod_eq_of_lt hn, hs]
  | cons t ts ih =>
    obtain ⟨hhit, hrest⟩ := hno
    have h' := h.turn t
    rw [outputs, tally, run_cons]
    cases t with
    | message text =>
      have hrun := ih h' (hs.message h.inHost.role text) hn hrest
      simpa [goals, isTick] using hrun
    | tick i =>
      rw [hs.goals i]
      by_cases hlast : n < 81
      · have hrun := ih h' (hs.tick h.inHost hhit hlast) (by omega) hrest
        simpa [hlast, isTick, add_assoc] using hrun
      · have hgoal := (hs.goals i).trans (if_neg hlast)
        have hrun := ih h' (served_of_goal h hgoal).toServing (by omega) hrest
        have hsum : n + ((isTick (.tick i) e).toNat + tally turn isTick ts (turn (.tick i) e)) =
            0 + tally turn isTick ts (turn (.tick i) e) + 82 := by
          simp only [isTick, Bool.toNat_true]
          omega
        rw [if_neg hlast, hsum]
        refine ⟨?_, ?_⟩
        · rw [Nat.add_div_right _ (by omega), List.replicate_succ, ← hrun.goals]
          rfl
        · rw [Nat.add_mod_right]
          exact hrun.serving

/-- A serve to the right, and a guest that does not move. -/
def watched : List Turn := [.message (ascii "P 764 255"), .tick ⟨0, 1⟩, .tick ⟨0, 1⟩]

end PongPp.Game
