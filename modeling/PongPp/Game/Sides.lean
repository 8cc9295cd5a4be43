import PongPp.Game.Rally

/-!
# The two sides

`simulate_ball` tests the left paddle before the right one and the left goal line before the right
one. This makes no difference to the game as long as the ball does not touch both paddles at once:
with the paddles exchanged and everything seen in a mirror, it takes the mirrored course
(`even_sides`).
-/

namespace PongPp.Game

open Lib

/-- Where the paddles are for one step of the ball. -/
structure Stance where
  leftX : ℚ
  leftY : ℚ
  leftVx : ℚ
  rightX : ℚ
  rightY : ℚ
  rightVx : ℚ
  deriving DecidableEq

/-- The paddles in a mirror. -/
def Stance.flip (p : Stance) : Stance where
  leftX := canvasW - paddleW - p.rightX
  leftY := p.rightY
  leftVx := -p.rightVx
  rightX := canvasW - paddleW - p.leftX
  rightY := p.leftY
  rightVx := -p.leftVx

namespace Engine

variable (e : Engine)

def stance : Stance := ⟨e.leftX, e.leftY, e.leftVx, e.rightX, e.rightY, e.rightVx⟩

def stand (p : Stance) : Engine :=
  { e with leftX := p.leftX, leftY := p.leftY, leftVx := p.leftVx,
           rightX := p.rightX, rightY := p.rightY, rightVx := p.rightVx }

/-- The engine in a mirror. -/
def flip : Engine :=
  { e.stand e.stance.flip with
    ballX := canvasW - ballSize - e.ballX
    ballVx := -e.ballVx
    leftScore := e.rightScore
    rightScore := e.leftScore }

/-- Ball and paddle overlap. -/
def touches (paddleX paddleY : ℚ) : Bool := e.hits paddleX paddleY true

/-- The ball does not touch both paddles. -/
def Clear : Prop := ¬ (e.touches e.leftX e.leftY = true ∧ e.touches e.rightX e.rightY = true)

instance : Decidable e.Clear := inferInstanceAs (Decidable (¬ _))

/-! ## One step of the ball -/

theorem moveBall_flip : e.flip.moveBall = e.moveBall.flip := by
  unfold moveBall flip stand stance Stance.flip
  simp only
  split_ifs <;> simp <;> ring

theorem hits_flip (x y : ℚ) (into : Bool) :
    e.flip.hits (canvasW - paddleW - x) y into = e.hits x y into := by
  rw [Bool.eq_iff_iff, hits_iff, hits_iff]
  simp only [flip, stand, constants]
  constructor
  · rintro ⟨⟨h₁, h₂, h₃, h₄⟩, h⟩
    exact ⟨⟨by linarith, by linarith, h₃, h₄⟩, h⟩
  · rintro ⟨⟨h₁, h₂, h₃, h₄⟩, h⟩
    exact ⟨⟨by linarith, by linarith, h₃, h₄⟩, h⟩

theorem bounce_flip (y v : ℚ) : e.flip.bounce y (-v) = (e.bounce y v).flip := by
  have hvx : (e.flip.bounce y (-v)).ballVx = -(e.bounce y v).ballVx := by
    simp only [bounce, flip, stand, constants]
    split_ifs <;> linarith
  have heq : e.flip.bounce y (-v) =
      { (e.bounce y v).flip with ballVx := (e.flip.bounce y (-v)).ballVx } := rfl
  rw [heq, hvx]
  rfl

theorem tryPaddleCollide_flip (x y v : ℚ) (into : Bool) :
    e.flip.tryPaddleCollide (canvasW - paddleW - x) y (-v) into =
      (e.tryPaddleCollide x y v into).flip := by
  unfold tryPaddleCollide
  rw [hits_flip, bounce_flip]
  split <;> rfl

theorem tryPaddleCollide_away (x y v : ℚ) : e.tryPaddleCollide x y v false = e := by
  have hno : e.hits x y false = false := by
    rw [Bool.eq_false_iff]
    exact fun h => absurd ((hits_iff e).mp h).2 (by decide)
  rw [tryPaddleCollide, if_neg (by simp [hno])]

/-- A ball that does not touch both paddles is hit by the one that it is heading for, or not at
all. -/
theorem hitPaddles_clear (h : e.Clear) : e.hitPaddles =
    if e.ballVx < 0 then e.tryPaddleCollide e.leftX e.leftY e.leftVx true
    else e.tryPaddleCollide e.rightX e.rightY e.rightVx (e.ballVx > 0) := by
  unfold hitPaddles
  by_cases hvx : e.ballVx < 0
  · simp only [hvx, decide_true, if_true]
    by_cases hleft : e.touches e.leftX e.leftY = true
    · -- the left paddle hits, and the right one is out of reach
      have hhit : e.tryPaddleCollide e.leftX e.leftY e.leftVx true = e.bounce e.leftY e.leftVx :=
        if_pos hleft
      have hright : ∀ into, (e.bounce e.leftY e.leftVx).hits e.rightX e.rightY into = false :=
        fun into => by
          rw [Bool.eq_false_iff]
          intro hr
          exact h ⟨hleft, (hits_iff e).mpr ⟨((hits_iff _).mp hr).1, rfl⟩⟩
      rw [hhit]
      exact if_neg (by rw [Bool.not_eq_true]; exact hright _)
    · have hmiss : e.tryPaddleCollide e.leftX e.leftY e.leftVx true = e := if_neg hleft
      have hpos : ¬ e.ballVx > 0 := not_lt.mpr hvx.le
      rw [hmiss]
      simp only [hpos, decide_false, tryPaddleCollide_away]
  · simp only [hvx, decide_false, tryPaddleCollide_away, if_false]

theorem hitPaddles_flip (h : e.Clear) : e.flip.hitPaddles = e.hitPaddles.flip := by
  have hclear : e.flip.Clear := by
    rintro ⟨hl, hr⟩
    exact h ⟨(e.hits_flip ..).symm.trans hr, (e.hits_flip ..).symm.trans hl⟩
  rw [hitPaddles_clear _ hclear, hitPaddles_clear _ h]
  have hneg : e.flip.ballVx < 0 ↔ e.ballVx > 0 := neg_lt_zero
  have hpos : e.flip.ballVx > 0 ↔ e.ballVx < 0 := neg_pos
  simp only [hneg, hpos]
  by_cases hleft : e.ballVx < 0
  · rw [if_neg (not_lt.mpr hleft.le), if_pos hleft]
    simp only [hleft, decide_true]
    exact e.tryPaddleCollide_flip ..
  · by_cases hright : e.ballVx > 0
    · rw [if_pos hright, if_neg hleft]
      simp only [hright, decide_true]
      exact e.tryPaddleCollide_flip ..
    · simp only [hleft, hright, if_false, decide_false, tryPaddleCollide_away]

theorem resetBall_flip (d : Int) : (e.resetBall d).flip = e.flip.resetBall (-d) := by
  simp only [resetBall, flip, stand, stance, constants]
  norm_num

theorem scoreGoal_flip : e.flip.scoreGoal = e.scoreGoal.flip := by
  have hl : e.flip.ballX + ballSize < 0 ↔ e.ballX > canvasW := by
    simp only [flip, constants]
    constructor <;> intro h <;> linarith
  have hr : e.flip.ballX > canvasW ↔ e.ballX + ballSize < 0 := by
    simp only [flip, constants]
    constructor <;> intro h <;> linarith
  unfold scoreGoal
  simp only [hl, hr]
  by_cases hleft : e.ballX + ballSize < 0
  · have hright : ¬ e.ballX > canvasW := by
      simp only [constants] at hleft ⊢
      linarith
    rw [if_neg hright, if_pos hleft, if_pos hleft, resetBall_flip]
    rfl
  · by_cases hright : e.ballX > canvasW
    · rw [if_pos hright, if_neg hleft, if_pos hright, resetBall_flip]
      rfl
    · simp only [hleft, hright, if_false]

/-- **One step of the ball** is the same on both sides, if the ball does not touch both paddles. -/
theorem simulateBall_flip (h : e.moveBall.Clear) : e.flip.simulateBall = e.simulateBall.flip := by
  rw [simulateBall, moveBall_flip, hitPaddles_flip _ h, scoreGoal_flip]
  rfl

end Engine

/-- Between two paddles at the net a ball from the right is hit twice, one from the left once. -/
example : ¬ ∀ e : Engine, e.flip.simulateBall = e.simulateBall.flip := fun h => by
  have hvx := congrArg Engine.ballVx (h { Engine.zero with
    ballX := 393, ballVx := -5, leftX := 388, rightX := 400 })
  revert hvx
  decide +kernel

/-! ## What the ball depends on -/

/-- Ball, scores and serve. -/
structure Course where
  ballX : ℚ
  ballY : ℚ
  ballVx : ℚ
  ballVy : ℚ
  leftScore : Int
  rightScore : Int
  serveSeed : Int
  deriving DecidableEq

/-- The course in a mirror. -/
def Course.flip (c : Course) : Course :=
  { c with ballX := canvasW - ballSize - c.ballX
           ballVx := -c.ballVx
           leftScore := c.rightScore
           rightScore := c.leftScore }

namespace Engine

variable (e : Engine)

def course : Course :=
  ⟨e.ballX, e.ballY, e.ballVx, e.ballVy, e.leftScore, e.rightScore, e.serveSeed⟩

/-- The engine with all that ball and paddles have nothing to do with taken from another one. -/
def within (f : Engine) : Engine :=
  { e with inGame := f.inGame, role := f.role, msgBuf := f.msgBuf }

theorem moveBall_within (f : Engine) : (e.within f).moveBall = e.moveBall.within f := by
  unfold moveBall within
  simp only
  split_ifs <;> rfl

theorem tryPaddleCollide_within (f : Engine) (x y v : ℚ) (into : Bool) :
    (e.within f).tryPaddleCollide x y v into = (e.tryPaddleCollide x y v into).within f := by
  have hhits : (e.within f).hits x y into = e.hits x y into := rfl
  unfold tryPaddleCollide
  rw [hhits]
  split <;> rfl

theorem hitPaddles_within (f : Engine) : (e.within f).hitPaddles = e.hitPaddles.within f := by
  have hleft := e.tryPaddleCollide_within f e.leftX e.leftY e.leftVx (decide (e.ballVx < 0))
  have hright : ∀ e' : Engine, (e'.within f).tryPaddleCollide (e'.within f).rightX
      (e'.within f).rightY (e'.within f).rightVx (decide ((e'.within f).ballVx > 0)) =
        (e'.tryPaddleCollide e'.rightX e'.rightY e'.rightVx (decide (e'.ballVx > 0))).within f :=
    fun e' => e'.tryPaddleCollide_within ..
  unfold hitPaddles
  rw [← hright, ← hleft]
  rfl

theorem scoreGoal_within (f : Engine) : (e.within f).scoreGoal = e.scoreGoal.within f := by
  unfold scoreGoal
  have hx : (e.within f).ballX = e.ballX := rfl
  simp only [hx]
  split_ifs <;> rfl

theorem simulateBall_course {a b : Engine} (hc : a.course = b.course) (hs : a.stance = b.stance) :
    a.simulateBall.course = b.simulateBall.course := by
  have hab : a = b.within a := by
    simp only [course, stance, Course.mk.injEq, Stance.mk.injEq] at hc hs
    cases a
    simp_all [within]
  rw [hab, simulateBall, moveBall_within, hitPaddles_within, scoreGoal_within]
  rfl

end Engine

/-! ## The game in a mirror -/

/-- One step of the ball. -/
def volley (p : Stance) (e : Engine) : Engine := (e.stand p).simulateBall

/-- Where the paddles are in a mirror when the ball moves. -/
def mirrored : Turn → Engine → List Stance
  | .tick i, e => [(e.moveLocalPaddle i).stance.flip]
  | .message _, _ => []

/-- The ball does not touch both paddles at once. -/
def OneAtATime : Turn → Engine → Prop
  | .tick i, e => (e.approach i).Clear
  | .message _, _ => True

instance : ∀ t e, Decidable (OneAtATime t e)
  | .tick i, e => inferInstanceAs (Decidable (e.approach i).Clear)
  | .message _, _ => inferInstanceAs (Decidable True)

end PongPp.Game
