import Mathlib.Algebra.Order.Field.Basic
import Mathlib.Data.Rat.Floor
import Mathlib.Tactic.Linarith
import PongPp.Game.Engine
import PongPp.Lib.Run

/-!
# The court

Where paddles and ball can be. A host keeps its court whatever its peer sends (`host_court`): the
paddles stand on whole pixels of their own halves, and five times the ball's x-velocity is a whole
number that 3 does not divide, so the ball never stands still. A guest keeps it as long as the
snapshots it takes over are in range (`guest_court`): it does not look at them.
-/

namespace PongPp.Game

open Lib

/-! ## Whole numbers -/

/-- `q` is a whole number from `lo` to `hi`. -/
def Whole (lo hi : Int) (q : ℚ) : Prop := ∃ n : Int, q = n ∧ lo ≤ n ∧ n ≤ hi

namespace Whole

variable {lo hi : Int} {q : ℚ}

theorem bounds (h : Whole lo hi q) : (lo : ℚ) ≤ q ∧ q ≤ hi := by
  obtain ⟨n, rfl, hlo, hhi⟩ := h
  exact ⟨by exact_mod_cast hlo, by exact_mod_cast hhi⟩

theorem isInt (h : Whole lo hi q) : ∃ n : Int, q = n := by
  obtain ⟨n, hn, -⟩ := h
  exact ⟨n, hn⟩

end Whole

theorem clampf_int (n lo hi : Int) :
    clampf n lo hi = ((if n < lo then lo else if n > hi then hi else n : Int) : ℚ) := by
  unfold clampf
  simp only [gt_iff_lt, Int.cast_lt]
  split_ifs <;> rfl

theorem whole_clampf (n lo hi : Int) (h : lo ≤ hi) : Whole lo hi (clampf n lo hi) := by
  refine ⟨_, clampf_int n lo hi, ?_, ?_⟩ <;> split_ifs <;> omega

theorem sign_cases (s : SignType) : ∃ n : Int, (s : ℚ) = n ∧ -1 ≤ n ∧ n ≤ 1 := by
  cases s
  · exact ⟨0, by simp, by omega, by omega⟩
  · exact ⟨-1, by simp, by omega, by omega⟩
  · exact ⟨1, by simp, by omega, by omega⟩

/-- A clamped move by `v` or less from a place inside: it stays inside, and goes no further. -/
theorem whole_move {lo hi : Int} {x : ℚ} (hx : Whole lo hi x) {v : Int} (hv : 0 ≤ v)
    (s : SignType) :
    Whole lo hi (clampf (x + s * v) lo hi) ∧ Whole (-v) v (clampf (x + s * v) lo hi - x) := by
  obtain ⟨n, rfl, hlo, hhi⟩ := hx
  obtain ⟨k, hk, hk₁, hk₂⟩ := sign_cases s
  have hkv : -v ≤ k * v ∧ k * v ≤ v := ⟨by nlinarith, by nlinarith⟩
  have hsum : (n : ℚ) + s * v = ((n + k * v : Int) : ℚ) := by rw [hk]; push_cast; ring
  rw [hsum, clampf_int]
  refine ⟨?_, ?_⟩
  · refine ⟨_, rfl, ?_, ?_⟩ <;> split_ifs <;> omega
  · refine ⟨_, (Int.cast_sub _ n).symm, ?_, ?_⟩ <;> split_ifs <;> omega

theorem toInt_neg (q : ℚ) : toInt (-q) = -toInt q := by
  unfold toInt
  rw [Rat.num_neg_eq_neg_num, Rat.den_neg_eq_den, Int.neg_tdiv]

theorem toInt_of_nonneg {q : ℚ} (h : 0 ≤ q) : toInt q = ⌊q⌋ := by
  rw [toInt, Int.tdiv_eq_ediv_of_nonneg (Rat.num_nonneg.mpr h), Rat.floor_def']

/-- A negative number is cast by way of its opposite. -/
theorem toInt_of_nonpos {q : ℚ} (h : q ≤ 0) : toInt q = -⌊-q⌋ := by
  rw [← toInt_of_nonneg (neg_nonneg.mpr h), toInt_neg, neg_neg]

theorem toInt_int (n : Int) : toInt n = n := by
  simp [toInt]

theorem abs_sub_toInt_lt (q : ℚ) : |q - toInt q| < 1 := by
  rcases le_total 0 q with h | h
  · rw [toInt_of_nonneg h, abs_lt]
    constructor <;> linarith [Int.floor_le q, Int.lt_floor_add_one q]
  · rw [toInt_of_nonpos h, abs_lt]
    push_cast
    constructor <;> linarith [Int.floor_le (-q), Int.lt_floor_add_one (-q)]

theorem toInt_bounds {q : ℚ} {l u : Int} (h : (l : ℚ) ≤ q ∧ q ≤ u) :
    l ≤ toInt q ∧ toInt q ≤ u := by
  obtain ⟨hlo, hhi⟩ := h
  rcases le_total 0 q with hq | hq
  · rw [toInt_of_nonneg hq]
    refine ⟨Int.le_floor.mpr hlo, ?_⟩
    exact_mod_cast (Int.floor_le q).trans hhi
  · rw [toInt_of_nonpos hq]
    refine ⟨?_, ?_⟩
    · have h : ((l : Int) : ℚ) ≤ ((-⌊-q⌋ : Int) : ℚ) := by
        push_cast
        linarith [Int.floor_le (-q)]
      exact_mod_cast h
    · have h : -u ≤ ⌊-q⌋ := Int.le_floor.mpr (by push_cast; linarith)
      omega

theorem Whole.toInt {lo hi : Int} {q : ℚ} (h : Whole lo hi q) :
    lo ≤ toInt q ∧ toInt q ≤ hi ∧ (toInt q : ℚ) = q := by
  obtain ⟨n, rfl, hlo, hhi⟩ := h
  rw [toInt_int]
  exact ⟨hlo, hhi, rfl⟩

/-! ## What the ball leaves alone -/

/-- Two states that differ in nothing but ball, scores and serve. -/
structure Frame (e e' : Engine) : Prop where
  inGame : e'.inGame = e.inGame
  role : e'.role = e.role
  leftX : e'.leftX = e.leftX
  leftY : e'.leftY = e.leftY
  rightX : e'.rightX = e.rightX
  rightY : e'.rightY = e.rightY
  leftVx : e'.leftVx = e.leftVx
  rightVx : e'.rightVx = e.rightVx
  msgBuf : e'.msgBuf = e.msgBuf

namespace Frame

variable {e e₁ e₂ : Engine}

theorem refl (e : Engine) : Frame e e := ⟨rfl, rfl, rfl, rfl, rfl, rfl, rfl, rfl, rfl⟩

theorem trans (h₁ : Frame e e₁) (h₂ : Frame e₁ e₂) : Frame e e₂ :=
  ⟨h₂.1.trans h₁.1, h₂.2.trans h₁.2, h₂.3.trans h₁.3, h₂.4.trans h₁.4, h₂.5.trans h₁.5,
    h₂.6.trans h₁.6, h₂.7.trans h₁.7, h₂.8.trans h₁.8, h₂.9.trans h₁.9⟩

theorem moveBall (e : Engine) : Frame e e.moveBall := by
  unfold Engine.moveBall
  simp only
  split_ifs <;> exact ⟨rfl, rfl, rfl, rfl, rfl, rfl, rfl, rfl, rfl⟩

theorem tryPaddleCollide (e : Engine) (x y v : ℚ) (b : Bool) :
    Frame e (e.tryPaddleCollide x y v b) := by
  unfold Engine.tryPaddleCollide
  split
  · exact ⟨rfl, rfl, rfl, rfl, rfl, rfl, rfl, rfl, rfl⟩
  · exact .refl e

theorem hitPaddles (e : Engine) : Frame e e.hitPaddles :=
  (tryPaddleCollide e _ _ _ _).trans (tryPaddleCollide _ _ _ _ _)

theorem scoreGoal (e : Engine) : Frame e e.scoreGoal := by
  unfold Engine.scoreGoal
  split_ifs
  · exact ⟨rfl, rfl, rfl, rfl, rfl, rfl, rfl, rfl, rfl⟩
  · exact ⟨rfl, rfl, rfl, rfl, rfl, rfl, rfl, rfl, rfl⟩
  · exact .refl e

theorem simulateBall (e : Engine) : Frame e e.simulateBall :=
  (moveBall e).trans ((hitPaddles _).trans (scoreGoal _))

end Frame

namespace Engine

variable (e : Engine)

/-- The ball crosses the left goal line in the host's next tick. -/
def outLeft : Prop := e.ballX + e.ballVx + ballSize < 0

/-- The ball crosses the right goal line in the host's next tick. -/
def outRight : Prop := canvasW < e.ballX + e.ballVx

instance : Decidable e.outLeft := inferInstanceAs (Decidable (_ < _))
instance : Decidable e.outRight := inferInstanceAs (Decidable (_ < _))

theorem moveBall_ballX : e.moveBall.ballX = e.ballX + e.ballVx := by
  unfold moveBall
  simp only
  split_ifs <;> rfl

theorem moveBall_scores :
    e.moveBall.leftScore = e.leftScore ∧ e.moveBall.rightScore = e.rightScore := by
  unfold moveBall
  simp only
  split_ifs <;> exact ⟨rfl, rfl⟩

theorem tryPaddleCollide_same (x y v : ℚ) (b : Bool) :
    (e.tryPaddleCollide x y v b).ballX = e.ballX ∧
      (e.tryPaddleCollide x y v b).ballY = e.ballY ∧
      (e.tryPaddleCollide x y v b).leftScore = e.leftScore ∧
      (e.tryPaddleCollide x y v b).rightScore = e.rightScore := by
  unfold tryPaddleCollide
  split <;> exact ⟨rfl, rfl, rfl, rfl⟩

theorem hitPaddles_same : e.hitPaddles.ballX = e.ballX ∧ e.hitPaddles.ballY = e.ballY ∧
    e.hitPaddles.leftScore = e.leftScore ∧ e.hitPaddles.rightScore = e.rightScore := by
  unfold hitPaddles
  simp only [tryPaddleCollide_same, and_self]

/-- What the goal lines are tested on: no paddle moves the ball. -/
theorem scoreGoal_eq : e.moveBall.hitPaddles.scoreGoal =
    if e.outLeft then { e.moveBall.hitPaddles with
      rightScore := i32 (e.rightScore + 1) }.resetBall (-1)
    else if e.outRight then { e.moveBall.hitPaddles with
      leftScore := i32 (e.leftScore + 1) }.resetBall 1
    else e.moveBall.hitPaddles := by
  unfold scoreGoal outLeft outRight
  simp only [hitPaddles_same, moveBall_ballX, moveBall_scores, gt_iff_lt]

/-- **The ball's place after a simulated step.** -/
theorem simulateBall_ballX : e.simulateBall.ballX =
    if e.outLeft ∨ e.outRight then halfW - ballSize / 2 else e.ballX + e.ballVx := by
  rw [simulateBall, scoreGoal_eq]
  by_cases hl : e.outLeft
  · simp [hl, resetBall]
  · by_cases hr : e.outRight
    · simp [hl, hr, resetBall]
    · simp [hl, hr, hitPaddles_same, moveBall_ballX]

theorem simulateBall_rightScore : e.simulateBall.rightScore =
    if e.outLeft then i32 (e.rightScore + 1) else e.rightScore := by
  rw [simulateBall, scoreGoal_eq]
  by_cases hl : e.outLeft
  · simp [hl, resetBall]
  · by_cases hr : e.outRight
    · simp [hl, hr, resetBall, hitPaddles_same, moveBall_scores]
    · simp [hl, hr, hitPaddles_same, moveBall_scores]

theorem outRight_not_outLeft (h : e.outRight) : ¬ e.outLeft := by
  unfold outRight at h
  unfold outLeft
  simp only [constants] at h ⊢
  linarith

theorem simulateBall_leftScore : e.simulateBall.leftScore =
    if e.outRight then i32 (e.leftScore + 1) else e.leftScore := by
  rw [simulateBall, scoreGoal_eq]
  by_cases hr : e.outRight
  · simp [e.outRight_not_outLeft hr, hr, resetBall]
  · by_cases hl : e.outLeft
    · simp [hl, hr, resetBall, hitPaddles_same, moveBall_scores]
    · simp [hl, hr, hitPaddles_same, moveBall_scores]

end Engine

/-! ## The host's court -/

/-- Both paddles on whole pixels of their own halves. -/
structure Paddles (e : Engine) : Prop where
  leftX : Whole 0 388 e.leftX
  leftY : Whole 0 510 e.leftY
  rightX : Whole 400 788 e.rightX
  rightY : Whole 0 510 e.rightY
  leftVx : Whole (-4) 4 e.leftVx
  rightVx : ∃ n : Int, e.rightVx = n

/-- `5 v` is a whole number that 3 does not divide. -/
def Lively (v : ℚ) : Prop := ∃ n : Int, 5 * v = n ∧ n % 3 ≠ 0

structure Ball (e : Engine) : Prop where
  ballY : 0 ≤ e.ballY ∧ e.ballY ≤ 586
  ballVy : |e.ballVy| ≤ 9 / 2
  ballVx : |e.ballVx| ≤ 14
  lively : Lively e.ballVx

structure Court (e : Engine) : Prop extends Paddles e, Ball e where
  ballX : -14 ≤ e.ballX ∧ e.ballX ≤ 800

theorem Lively.moving {v : ℚ} (h : Lively v) : 1 / 5 ≤ |v| := by
  obtain ⟨n, hn, hmod⟩ := h
  have hne : n ≠ 0 := by
    rintro rfl
    exact hmod rfl
  have hone : (1 : ℚ) ≤ |(n : ℚ)| := by exact_mod_cast Int.one_le_abs hne
  rw [← hn, abs_mul] at hone
  norm_num at hone
  linarith

theorem Lively.neg {v : ℚ} (h : Lively v) : Lively (-v) := by
  obtain ⟨n, hn, hmod⟩ := h
  exact ⟨-n, by push_cast; linarith, by omega⟩

theorem Paddles.frame {e e' : Engine} (h : Paddles e) (hf : Frame e e') : Paddles e' := by
  obtain ⟨h₁, h₂, h₃, h₄, h₅, h₆⟩ := h
  rw [← hf.leftX] at h₁
  rw [← hf.leftY] at h₂
  rw [← hf.rightX] at h₃
  rw [← hf.rightY] at h₄
  rw [← hf.leftVx] at h₅
  rw [← hf.rightVx] at h₆
  exact ⟨h₁, h₂, h₃, h₄, h₅, h₆⟩

namespace Ball

variable {e : Engine}

theorem resetBall (e : Engine) {d : Int} (hd : d = 1 ∨ d = -1) : Ball (e.resetBall d) := by
  have hvy : |(e.resetBall d).ballVy| ≤ 9 / 2 := by
    simp only [Engine.resetBall, ballSpeedY]
    split <;> norm_num
  refine ⟨?_, hvy, ?_, ?_⟩
  · simp only [Engine.resetBall, constants]
    norm_num
  · rcases hd with rfl | rfl <;> simp only [Engine.resetBall, constants] <;> norm_num
  · rcases hd with rfl | rfl
    · exact ⟨25, by simp only [Engine.resetBall, constants]; norm_num, by omega⟩
    · exact ⟨-25, by simp only [Engine.resetBall, constants]; norm_num, by omega⟩

theorem moveBall (h : Ball e) : Ball e.moveBall := by
  obtain ⟨hy, hvy, hvx, hl⟩ := h
  unfold Engine.moveBall
  simp only [constants]
  split_ifs with h₁ h₂ h₂
  · exact ⟨by norm_num at h₂, by simpa using hvy, hvx, hl⟩
  · exact ⟨by norm_num, by simpa using hvy, hvx, hl⟩
  · exact ⟨by norm_num, by simpa using hvy, hvx, hl⟩
  · exact ⟨⟨not_lt.mp h₁, by linarith⟩, hvy, hvx, hl⟩

/-- The response to a hit keeps the ball lively: `5 v` becomes `3 k - 5 v`, or 70 or -70. -/
theorem bounce (h : Ball e) (paddleY : ℚ) {paddleVx : ℚ} (hv : ∃ n : Int, paddleVx = n) :
    Ball (e.bounce paddleY paddleVx) := by
  obtain ⟨k, rfl⟩ := hv
  obtain ⟨n, hn, hmod⟩ := h.lively
  have hraw : Lively (-e.ballVx + k * paddleBoost) := by
    refine ⟨-n + 3 * k, ?_, by omega⟩
    simp only [paddleBoost]
    push_cast
    linarith
  have hmax : Lively maxBallVx := ⟨70, by simp only [constants]; norm_num, by omega⟩
  have hvx : Lively (e.bounce paddleY k).ballVx ∧ |(e.bounce paddleY k).ballVx| ≤ 14 := by
    simp only [Engine.bounce]
    refine ⟨?_, ?_⟩
    · split_ifs <;> first | exact hmax.neg | exact hmax | exact hraw
    · simp only [constants, abs_le]
      split_ifs <;> constructor <;> linarith
  have hvy : |(e.bounce paddleY k).ballVy| ≤ 9 / 2 := by
    simp only [Engine.bounce, constants, abs_le]
    split_ifs <;> constructor <;> linarith
  exact ⟨h.ballY, hvy, hvx.2, hvx.1⟩

theorem tryPaddleCollide (h : Ball e) (x y : ℚ) {v : ℚ} (hv : ∃ n : Int, v = n) (b : Bool) :
    Ball (e.tryPaddleCollide x y v b) := by
  unfold Engine.tryPaddleCollide
  split
  · exact h.bounce y hv
  · exact h

theorem hitPaddles (h : Ball e) (hp : Paddles e) : Ball e.hitPaddles :=
  (h.tryPaddleCollide _ _ hp.leftVx.isInt _).tryPaddleCollide _ _
    (hp.frame (.tryPaddleCollide ..)).rightVx _

end Ball

namespace Court

variable {e : Engine}

theorem moving (h : Court e) : 1 / 5 ≤ |e.ballVx| := h.lively.moving

theorem startGame (e : Engine) (r : Role) : Court (e.startGame r) where
  leftX := ⟨24, by simp only [Engine.startGame, Engine.resetBall, constants]; norm_num,
    by omega, by omega⟩
  leftY := ⟨255, by
    simp only [Engine.startGame, Engine.resetBall, Engine.homeY, constants]
    norm_num, by omega, by omega⟩
  rightX := ⟨764, by simp only [Engine.startGame, Engine.resetBall, constants]; norm_num,
    by omega, by omega⟩
  rightY := ⟨255, by
    simp only [Engine.startGame, Engine.resetBall, Engine.homeY, constants]
    norm_num, by omega, by omega⟩
  leftVx := ⟨0, by simp [Engine.startGame, Engine.resetBall], by omega, by omega⟩
  rightVx := ⟨0, by simp [Engine.startGame, Engine.resetBall]⟩
  toBall := by
    have h := Ball.resetBall (e := e) (d := if r = Role.host then 1 else -1) (by split <;> simp)
    exact ⟨h.ballY, h.ballVy, h.ballVx, h.lively⟩
  ballX := by
    simp only [Engine.startGame, Engine.resetBall, constants]
    norm_num

theorem moveLocalPaddle (h : Court e) (hrole : e.role = .host) (i : Input) :
    Court (e.moveLocalPaddle i) := by
  obtain ⟨hx, hvx⟩ := whole_move h.leftX (v := 4) (by omega) i.x
  obtain ⟨hy, -⟩ := whole_move h.leftY (v := 6) (by omega) i.y
  norm_num at hx hvx hy
  unfold Engine.moveLocalPaddle
  rw [hrole]
  simp only [constants]
  norm_num
  exact { h with leftX := hx, leftY := hy, leftVx := hvx }

theorem simulateBall (h : Court e) : Court e.simulateBall := by
  have hp := h.toPaddles.frame (.simulateBall e)
  have hball : Ball e.moveBall.hitPaddles :=
    h.toBall.moveBall.hitPaddles (h.toPaddles.frame (.moveBall e))
  refine ⟨hp, ?_, ?_⟩
  · rw [Engine.simulateBall, Engine.scoreGoal]
    split_ifs
    · exact .resetBall _ (.inr rfl)
    · exact .resetBall _ (.inl rfl)
    · exact hball
  · rw [Engine.simulateBall_ballX]
    unfold Engine.outLeft Engine.outRight
    simp only [constants]
    split_ifs with hout
    · norm_num
    · rw [not_or, not_lt, not_lt] at hout
      exact ⟨by linarith [hout.1], hout.2⟩

theorem mirror (h : Court e) (x y : Int) : Court (e.mirror x y) := by
  have hx := whole_clampf x 400 788 (by omega)
  have hy := whole_clampf y 0 510 (by omega)
  obtain ⟨m, hm⟩ := hx.isInt
  obtain ⟨n, hn⟩ := h.rightX.isInt
  have hvx : ∃ k : Int, clampf x ((400 : Int) : ℚ) ((788 : Int) : ℚ) - e.rightX = k :=
    ⟨m - n, by rw [hm, hn]; push_cast; rfl⟩
  unfold Engine.mirror
  simp only [constants]
  norm_num at hx hy hvx ⊢
  exact { h with rightX := hx, rightY := hy, rightVx := hvx }

theorem message (h : Court e) (hrole : e.role = .host) (text : Bytes) : Court (e.message text) := by
  have hw : Court (e.writeMsg text).2 := { h with }
  rw [Engine.message_host hrole]
  simp only
  split
  · exact hw.mirror _ _
  · exact hw

end Court

/-! ## Roles -/

theorem role_moveLocalPaddle (e : Engine) (i : Input) : (e.moveLocalPaddle i).role = e.role := by
  unfold Engine.moveLocalPaddle
  split <;> rfl

theorem tick_host {e : Engine} (hin : e.inGame = true) (hrole : e.role = .host) (i : Input) :
    e.tick i = ((e.moveLocalPaddle i).simulateBall,
      some (e.moveLocalPaddle i).simulateBall.sendState) := by
  simp only [Engine.tick, hin, if_true, role_moveLocalPaddle, hrole]

theorem tick_guest {e : Engine} (hin : e.inGame = true) (hrole : e.role = .guest) (i : Input) :
    e.tick i = (e.moveLocalPaddle i, some (e.moveLocalPaddle i).sendPaddle) := by
  simp only [Engine.tick, hin, if_true, role_moveLocalPaddle, hrole]

theorem tick_idle {e : Engine} (hin : e.inGame = false) (i : Input) : e.tick i = (e, none) := by
  simp only [Engine.tick, hin, Bool.false_eq_true, if_false]

theorem role_tick (e : Engine) (i : Input) : (e.tick i).1.role = e.role := by
  cases hin : e.inGame with
  | false => rw [tick_idle hin]
  | true =>
    cases hrole : e.role with
    | host =>
      rw [tick_host hin hrole, (Frame.simulateBall _).role, role_moveLocalPaddle, hrole]
    | guest => rw [tick_guest hin hrole, role_moveLocalPaddle, hrole]

theorem role_message (e : Engine) (text : Bytes) : (e.message text).role = e.role := by
  rw [Engine.message_eq]
  simp only
  split
  · unfold Engine.read
    split <;> rfl
  · rfl

theorem role_turn (t : Turn) (e : Engine) : (turn t e).role = e.role := by
  cases t with
  | tick i => exact role_tick e i
  | message text => exact role_message e text

theorem inGame_tick (e : Engine) (i : Input) : (e.tick i).1.inGame = e.inGame := by
  have hmove : (e.moveLocalPaddle i).inGame = e.inGame := by
    unfold Engine.moveLocalPaddle
    split <;> rfl
  cases hin : e.inGame with
  | false => rw [tick_idle hin, hin]
  | true =>
    cases hrole : e.role with
    | host => rw [tick_host hin hrole, (Frame.simulateBall _).inGame, hmove, hin]
    | guest => rw [tick_guest hin hrole, hmove, hin]

theorem inGame_message (e : Engine) (text : Bytes) : (e.message text).inGame = e.inGame := by
  rw [Engine.message_eq]
  simp only
  split
  · unfold Engine.read
    split <;> rfl
  · rfl

theorem Court.turn {e : Engine} (h : Court e) (hrole : e.role = .host) (t : Turn) :
    Court (turn t e) := by
  cases t with
  | message text => exact h.message hrole text
  | tick i =>
    show Court (e.tick i).1
    cases hin : e.inGame with
    | false =>
      rw [tick_idle hin]
      exact h
    | true =>
      rw [tick_host hin hrole]
      exact (h.moveLocalPaddle hrole i).simulateBall

/-- **The host's court**: whatever the inputs and whatever the peer sends, both paddles stay on
whole pixels of their halves, the ball in the court, and its x-velocity away from 0. -/
theorem host_court (e : Engine) (ts : List Turn) :
    Court (run turn ts (e.startGame .host)) ∧
      1 / 5 ≤ |(run turn ts (e.startGame .host)).ballVx| := by
  have h := run_inv (I := fun e => Court e ∧ e.role = .host)
    (fun t e h => ⟨h.1.turn h.2 t, (role_turn t e).trans h.2⟩) ts
    ⟨Court.startGame e .host, rfl⟩
  exact ⟨h.1, h.1.moving⟩

/-! ## The guest's court -/

theorem guest_paddle {e : Engine} (hx : Whole 400 788 e.rightX) (hy : Whole 0 510 e.rightY)
    (hrole : e.role = .guest) (i : Input) :
    Whole 400 788 (e.moveLocalPaddle i).rightX ∧ Whole 0 510 (e.moveLocalPaddle i).rightY ∧
      Whole (-4) 4 ((e.moveLocalPaddle i).rightX - e.rightX) := by
  obtain ⟨hx, hvx⟩ := whole_move hx (v := 4) (by omega) i.x
  obtain ⟨hy, -⟩ := whole_move hy (v := 6) (by omega) i.y
  norm_num at hx hvx hy
  unfold Engine.moveLocalPaddle
  rw [hrole]
  simp only [constants]
  norm_num
  exact ⟨hx, hy, hvx⟩

structure GuestCourt (e : Engine) : Prop where
  leftX : leftXMin ≤ e.leftX ∧ e.leftX ≤ leftXMax
  leftY : 0 ≤ e.leftY ∧ e.leftY ≤ canvasH - paddleH
  rightX : rightXMin ≤ e.rightX ∧ e.rightX ≤ rightXMax
  rightY : 0 ≤ e.rightY ∧ e.rightY ≤ canvasH - paddleH
  ballX : -ballSize ≤ e.ballX ∧ e.ballX ≤ canvasW
  ballY : 0 ≤ e.ballY ∧ e.ballY ≤ canvasH - ballSize
  leftScore : 0 ≤ e.leftScore
  rightScore : 0 ≤ e.rightScore

/-- The numbers of a snapshot that a guest takes over are in range. -/
structure InRange (vals : List Int) : Prop where
  ballX : -14 ≤ vals.getD 0 0 ∧ vals.getD 0 0 ≤ 800
  ballY : 0 ≤ vals.getD 1 0 ∧ vals.getD 1 0 ≤ 586
  leftX : 0 ≤ vals.getD 2 0 ∧ vals.getD 2 0 ≤ 388
  leftY : 0 ≤ vals.getD 3 0 ∧ vals.getD 3 0 ≤ 510
  leftScore : 0 ≤ vals.getD 6 0
  rightScore : 0 ≤ vals.getD 7 0

/-- A message that a guest reads is a snapshot in range. -/
def Honest : Turn → Engine → Prop
  | .tick _, _ => True
  | .message text, e => e.Reads text → InRange (fields 8 text)

namespace GuestCourt

variable {e : Engine}

theorem startGame (e : Engine) (r : Role) : GuestCourt (e.startGame r) := by
  constructor <;> simp only [Engine.startGame, Engine.resetBall, Engine.homeY, constants] <;>
    norm_num

theorem clampf_bounds (v : ℚ) {lo hi : ℚ} (h : lo ≤ hi) :
    lo ≤ clampf v lo hi ∧ clampf v lo hi ≤ hi := by
  unfold clampf
  split_ifs with h₁ h₂
  · exact ⟨le_rfl, h⟩
  · exact ⟨h, le_rfl⟩
  · exact ⟨not_lt.mp h₁, not_lt.mp h₂⟩

theorem tick (h : GuestCourt e) (hrole : e.role = .guest) (i : Input) :
    GuestCourt (e.tick i).1 := by
  cases hin : e.inGame with
  | false =>
    rw [tick_idle hin]
    exact h
  | true =>
    rw [tick_guest hin hrole]
    unfold Engine.moveLocalPaddle
    rw [hrole]
    exact { h with
      rightX := clampf_bounds _ (by simp only [constants]; norm_num)
      rightY := clampf_bounds _ (by simp only [constants]; norm_num) }

theorem cast_range (a b v : Int) {l u : ℚ} (hlo : l = a) (hhi : u = b) :
    l ≤ (v : ℚ) ∧ (v : ℚ) ≤ u ↔ a ≤ v ∧ v ≤ b := by
  rw [hlo, hhi, Int.cast_le, Int.cast_le]

/-- A guest takes over what it is told: it stays in its court just if that is in range. -/
theorem adopt_iff (h : GuestCourt e) (vals : List Int) :
    GuestCourt (e.adopt vals) ↔ InRange vals := by
  have hballX := cast_range (-14) 800 (vals.getD 0 0) (l := -ballSize) (u := canvasW)
    (by simp only [constants]; norm_num) (by simp only [constants]; norm_num)
  have hballY := cast_range 0 586 (vals.getD 1 0) (l := 0) (u := canvasH - ballSize)
    (by norm_num) (by simp only [constants]; norm_num)
  have hleftX := cast_range 0 388 (vals.getD 2 0) (l := leftXMin) (u := leftXMax)
    (by simp only [constants]; norm_num) (by simp only [constants]; norm_num)
  have hleftY := cast_range 0 510 (vals.getD 3 0) (l := 0) (u := canvasH - paddleH)
    (by norm_num) (by simp only [constants]; norm_num)
  refine ⟨?_, ?_⟩
  · intro h'
    exact ⟨hballX.mp h'.ballX, hballY.mp h'.ballY, hleftX.mp h'.leftX, hleftY.mp h'.leftY,
      h'.leftScore, h'.rightScore⟩
  · intro hr
    exact ⟨hleftX.mpr hr.leftX, hleftY.mpr hr.leftY, h.rightX, h.rightY, hballX.mpr hr.ballX,
      hballY.mpr hr.ballY, hr.leftScore, hr.rightScore⟩

theorem turn_iff (h : GuestCourt e) (hrole : e.role = .guest) (t : Turn) :
    GuestCourt (turn t e) ↔ Honest t e := by
  cases t with
  | tick i => exact iff_of_true (h.tick hrole i) trivial
  | message text =>
    have hw : GuestCourt (e.writeMsg text).2 := { h with }
    have hreads : (e.writeMsg text).2.Reads text ↔ e.Reads text := Iff.rfl
    show GuestCourt (e.message text) ↔ _
    rw [Engine.message_guest hrole]
    simp only [hreads, Honest]
    split
    · rename_i hread
      exact (hw.adopt_iff _).trans (by simp [hread])
    · rename_i hread
      exact iff_of_true hw (fun h => absurd h hread)

end GuestCourt

/-- **The guest's court**: a guest stays in it just as long as every snapshot it reads is in
range. -/
theorem guest_court (e : Engine) (ts : List Turn) :
    (∀ n, GuestCourt (run turn (ts.take n) (e.startGame .guest))) ↔
      Guarded turn Honest ts (e.startGame .guest) :=
  Guarded.iff_run (F := fun e => e.role = .guest ∧ GuestCourt e)
    (fun t e hg h => ⟨(role_turn t e).trans h.1, (h.2.turn_iff h.1 t).mpr hg⟩) (fun _ h => h.2)
    (fun t _ h => h.2.turn_iff h.1 t) ⟨rfl, GuestCourt.startGame e .guest⟩

/-- A snapshot that puts the host's paddle into the guest's half. -/
def trespass : List Turn := [.message (ascii "S 100 100 500 0 764 255 0 0")]

theorem guest_trespassed :
    ¬ ∀ ts, GuestCourt (run turn ts (Engine.zero.init.startGame .guest)) := fun h => by
  have hx := (h trespass).leftX.2
  revert hx
  decide +kernel

end PongPp.Game
