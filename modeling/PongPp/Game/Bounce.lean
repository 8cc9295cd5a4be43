import PongPp.Game.Tunnel

/-!
# The way a ball leaves a paddle

A hit turns the ball around and then adds three fifths of the paddle's last step, so the ball
leaves a paddle just if that does not retreat too fast (`Held`). While no paddle does, a paddle that
hits in two ticks in a row has the other one hit in between (`ball_returned`).
-/

namespace PongPp.Game

open Lib

namespace Engine

variable (e : Engine)

/-! ## One hit -/

theorem bounce_right (y v : ℚ) : 0 ≤ (e.bounce y v).ballVx ↔ e.ballVx ≤ v * paddleBoost := by
  simp only [bounce, constants]
  split_ifs <;> constructor <;> intro h <;> linarith

theorem bounce_left (y v : ℚ) : (e.bounce y v).ballVx ≤ 0 ↔ v * paddleBoost ≤ e.ballVx := by
  simp only [bounce, constants]
  split_ifs <;> constructor <;> intro h <;> linarith

theorem hits_iff {x y : ℚ} {into : Bool} : e.hits x y into = true ↔
    (x ≤ e.ballX + ballSize ∧ e.ballX ≤ x + paddleW ∧ y ≤ e.ballY + ballSize ∧
      e.ballY ≤ y + paddleH) ∧ into = true := by
  unfold hits
  split_ifs <;> simp_all

/-! ## The hits of a tick -/

/-- What the test for the left paddle finds. -/
def approach (i : Input) : Engine := (e.moveLocalPaddle i).moveBall

/-- The left paddle hits the ball in a host's tick. -/
def leftHit (i : Input) : Bool :=
  (e.approach i).hits (e.approach i).leftX (e.approach i).leftY (decide ((e.approach i).ballVx < 0))

/-- What the test for the right paddle finds. -/
def afterLeft (i : Input) : Engine :=
  (e.approach i).tryPaddleCollide (e.approach i).leftX (e.approach i).leftY (e.approach i).leftVx
    (decide ((e.approach i).ballVx < 0))

/-- The right paddle hits the ball in a host's tick. -/
def rightHit (i : Input) : Bool :=
  (e.afterLeft i).hits (e.afterLeft i).rightX (e.afterLeft i).rightY
    (decide ((e.afterLeft i).ballVx > 0))

def afterRight (i : Input) : Engine := (e.approach i).hitPaddles

variable {e} {i : Input}

theorem afterLeft_eq : e.afterLeft i = if e.leftHit i then
    (e.approach i).bounce (e.approach i).leftY (e.approach i).leftVx else e.approach i := rfl

theorem afterRight_eq : e.afterRight i = if e.rightHit i then
    (e.afterLeft i).bounce (e.afterLeft i).rightY (e.afterLeft i).rightVx else e.afterLeft i := rfl

theorem approach_ballVx : (e.approach i).ballVx = e.ballVx := by
  have hmove : (e.moveLocalPaddle i).moveBall.ballVx = (e.moveLocalPaddle i).ballVx := by
    unfold moveBall
    simp only
    split_ifs <;> rfl
  exact hmove.trans (e.moveLocalPaddle_ball i).2

theorem leftHit_heading (h : e.leftHit i = true) : e.ballVx < 0 := by
  rw [← approach_ballVx (i := i)]
  exact of_decide_eq_true ((hits_iff _).mp h).2

theorem rightHit_heading (h : e.rightHit i = true) : 0 < (e.afterLeft i).ballVx :=
  of_decide_eq_true ((hits_iff _).mp h).2

/-- A hit is no goal: the tick ends as the paddles leave it. -/
theorem tick_of_hit (hc : Court e) (h : In .host e)
    (hhit : e.leftHit i = true ∨ e.rightHit i = true) : (e.tick i).1 = e.afterRight i := by
  have hm := hc.moveLocalPaddle h.role i
  have hframe : Frame (e.moveLocalPaddle i) (e.afterLeft i) :=
    (Frame.moveBall _).trans (.tryPaddleCollide ..)
  have hx : (e.afterRight i).ballX = (e.approach i).ballX := (hitPaddles_same _).1
  have hx' : (e.afterLeft i).ballX = (e.approach i).ballX := (tryPaddleCollide_same ..).1
  have hin : 0 ≤ (e.afterRight i).ballX + ballSize ∧ (e.afterRight i).ballX ≤ canvasW := by
    rw [hx]
    rcases hhit with hl | hr
    · obtain ⟨⟨h₁, h₂, -, -⟩, -⟩ := (hits_iff _).mp hl
      have hpaddle : (e.approach i).leftX = (e.moveLocalPaddle i).leftX := (Frame.moveBall _).leftX
      have hb := hm.leftX.bounds
      norm_num at hb
      rw [hpaddle] at h₁ h₂
      simp only [constants] at h₁ h₂ ⊢
      exact ⟨by linarith, by linarith⟩
    · obtain ⟨⟨h₁, h₂, -, -⟩, -⟩ := (hits_iff _).mp hr
      have hb := hm.rightX.bounds
      norm_num at hb
      rw [hframe.rightX, hx'] at h₁ h₂
      simp only [constants] at h₁ h₂ ⊢
      exact ⟨by linarith, by linarith⟩
  rw [tick_host h.inGame h.role]
  show (e.afterRight i).scoreGoal = _
  rw [scoreGoal, if_neg (not_lt.mpr hin.1), if_neg (not_lt.mpr hin.2)]

end Engine

/-! ## The law -/

/-- A ball that a paddle hits moves away from that paddle. -/
def Away : Turn → Engine → Prop
  | .tick i, e =>
    (e.leftHit i = true → 0 ≤ (e.afterLeft i).ballVx) ∧
      (e.rightHit i = true → (e.afterRight i).ballVx ≤ 0)
  | .message _, _ => True

/-- A paddle that hits the ball does not retreat faster than five thirds of the ball's speed. -/
def Held : Turn → Engine → Prop
  | .tick i, e =>
    (e.leftHit i = true → e.ballVx ≤ (e.moveLocalPaddle i).leftVx * paddleBoost) ∧
      (e.rightHit i = true → e.rightVx * paddleBoost ≤ (e.afterLeft i).ballVx)
  | .message _, _ => True

/-- The paddles do not both hit the ball in one tick. -/
def Apart : Turn → Engine → Prop
  | .tick i, e => ¬ (e.leftHit i = true ∧ e.rightHit i = true)
  | .message _, _ => True

instance : ∀ t e, Decidable (Away t e)
  | .tick _, _ => inferInstanceAs (Decidable (_ ∧ _))
  | .message _, _ => inferInstanceAs (Decidable True)

theorem away_iff_held {e : Engine} (h : In .host e) (t : Turn) : Away t e ↔ Held t e := by
  cases t with
  | message text => exact Iff.rfl
  | tick i =>
    have hleft : e.leftHit i = true → (0 ≤ (e.afterLeft i).ballVx ↔
        e.ballVx ≤ (e.moveLocalPaddle i).leftVx * paddleBoost) := fun hl => by
      have hvx : (e.approach i).leftVx = (e.moveLocalPaddle i).leftVx := (Frame.moveBall _).leftVx
      rw [Engine.afterLeft_eq, if_pos hl, Engine.bounce_right, Engine.approach_ballVx, hvx]
    have hright : e.rightHit i = true → ((e.afterRight i).ballVx ≤ 0 ↔
        e.rightVx * paddleBoost ≤ (e.afterLeft i).ballVx) := fun hr => by
      have hframe : Frame (e.moveLocalPaddle i) (e.afterLeft i) :=
        (Frame.moveBall _).trans (.tryPaddleCollide ..)
      have hvx : (e.moveLocalPaddle i).rightVx = e.rightVx := by
        unfold Engine.moveLocalPaddle
        rw [h.role]
      rw [Engine.afterRight_eq, if_pos hr, Engine.bounce_left, hframe.rightVx, hvx]
    exact and_congr (imp_congr_right hleft) (imp_congr_right hright)

/-- Two ticks of a run from `s` with nothing but messages in between: the states they start from,
and their inputs. -/
def Consecutive (ts : List Turn) (s a : Engine) (i : Input) (b : Engine) (j : Input) : Prop :=
  ∃ (ms : List Turn) (texts : List Bytes) (rest : List Turn),
    ts = ms ++ .tick i :: (texts.map .message ++ .tick j :: rest) ∧
      a = run turn ms s ∧ b = run turn (texts.map .message) (a.tick i).1

/-- No paddle hits the ball in two ticks in a row. -/
def Once (ts : List Turn) (s : Engine) : Prop :=
  ∀ a i b j, Consecutive ts s a i b j →
    ¬ (a.leftHit i = true ∧ b.leftHit j = true) ∧ ¬ (a.rightHit i = true ∧ b.rightHit j = true)

theorem In.turn {e : Engine} (h : In .host e) (t : Turn) : In .host (turn t e) := by
  cases t with
  | tick i => exact (host_tick h i).1
  | message text =>
    have hin : (e.message text).inGame = e.inGame := by
      rw [Engine.message_host h.role]
      simp only
      split <;> rfl
    exact ⟨hin.trans h.inGame, (role_message e text).trans h.role⟩

theorem ballVx_messages {e : Engine} (h : In .host e) (texts : List Bytes) :
    (run turn (texts.map .message) e).ballVx = e.ballVx := by
  induction texts generalizing e with
  | nil => rfl
  | cons text texts ih =>
    rw [List.map_cons, run_cons, ih (h.turn _)]
    exact (Match.still_message h.role text).ballVx

section Ticks

variable {a : Engine} {i j : Input} {texts : List Bytes}

theorem left_again (hc : Court a) (h : In .host a) (ha : Held (.tick i) a)
    (hi : a.leftHit i = true)
    (hj : (run turn (texts.map .message) (a.tick i).1).leftHit j = true) : a.rightHit i = true := by
  by_contra hr
  have haway := ((away_iff_held h (.tick i)).mpr ha).1 hi
  have hvx := Engine.leftHit_heading hj
  rw [ballVx_messages (host_tick h i).1, Engine.tick_of_hit hc h (.inl hi), Engine.afterRight_eq,
    if_neg hr] at hvx
  exact absurd haway (not_le.mpr hvx)

theorem right_again (hc : Court a) (h : In .host a) (ha : Held (.tick i) a)
    (hi : a.rightHit i = true)
    (hj : (run turn (texts.map .message) (a.tick i).1).rightHit j = true) :
    (run turn (texts.map .message) (a.tick i).1).leftHit j = true := by
  by_contra hl
  have haway := ((away_iff_held h (.tick i)).mpr ha).2 hi
  have hvx := Engine.rightHit_heading hj
  rw [Engine.afterLeft_eq, if_neg hl, Engine.approach_ballVx, ballVx_messages (host_tick h i).1,
    Engine.tick_of_hit hc h (.inr hi)] at hvx
  exact absurd haway (not_le.mpr hvx)

end Ticks

/-- What a rally does from the state `s` on. -/
structure Returned (s : Engine) : Prop where
  /-- Every hit sends the ball away just if every paddle that hits holds against it. -/
  away : ∀ ts, Guarded turn Away ts s ↔ Guarded turn Held ts s
  /-- A paddle hits in two ticks in a row only if the other one hits in between. -/
  between : ∀ ts a i b j, Guarded turn Held ts s → Consecutive ts s a i b j →
    (a.leftHit i = true → b.leftHit j = true → a.rightHit i = true) ∧
      (a.rightHit i = true → b.rightHit j = true → b.leftHit j = true)
  /-- So it never does, if no tick has both hit. -/
  once : ∀ ts, Guarded turn Held ts s → Guarded turn Apart ts s → Once ts s

/-- **Collision response**: whatever the inputs and whatever the peer sends. -/
theorem ball_returned (e : Engine) : Returned (e.startGame .host) := by
  have hstate : ∀ ms, Court (run turn ms (e.startGame .host)) ∧
      In .host (run turn ms (e.startGame .host)) := fun ms =>
    run_inv (I := fun e => Court e ∧ In .host e)
      (fun t e h => ⟨h.1.turn h.2.role t, h.2.turn t⟩) ms ⟨Court.startGame e .host, rfl, rfl⟩
  have hheld : ∀ {ts a i b j} {G : Turn → Engine → Prop}, Guarded turn G ts (e.startGame .host) →
      Consecutive ts (e.startGame .host) a i b j → Court a ∧ In .host a ∧ G (.tick i) a ∧
        G (.tick j) b := by
    rintro ts a i b j G hg ⟨ms, texts, rest, rfl, rfl, rfl⟩
    have hrest := (Guarded.append.mp hg).2
    exact ⟨(hstate ms).1, (hstate ms).2, hrest.1, (Guarded.append.mp hrest.2).2.1⟩
  have hbetween : ∀ ts a i b j, Guarded turn Held ts (e.startGame .host) →
      Consecutive ts (e.startGame .host) a i b j →
      (a.leftHit i = true → b.leftHit j = true → a.rightHit i = true) ∧
        (a.rightHit i = true → b.rightHit j = true → b.leftHit j = true) := by
    intro ts a i b j hg hcons
    obtain ⟨hc, hin, ha, -⟩ := hheld hg hcons
    obtain ⟨ms, texts, rest, -, -, rfl⟩ := hcons
    exact ⟨left_again hc hin ha, right_again hc hin ha⟩
  refine ⟨fun ts => ?_, hbetween, fun ts hg hap a i b j hcons => ?_⟩
  · exact Guarded.congr_inv (I := In .host) (fun t _ _ h => h.turn t)
      (fun t _ h => away_iff_held h t) ⟨rfl, rfl⟩
  · obtain ⟨hl, hr⟩ := hbetween ts a i b j hg hcons
    obtain ⟨-, -, hai, hbj⟩ := hheld hap hcons
    exact ⟨fun h => hai ⟨h.1, hl h.1 h.2⟩, fun h => hbj ⟨hr h.1 h.2, h.2⟩⟩

/-- The guest's paddle comes to the net and takes a step back from the ball. -/
def retreat : List Turn :=
  [.message (ascii "P 400 255"), .message (ascii "P 410 255"), .tick ⟨0, 0⟩, .tick ⟨0, 0⟩]

/-- A rally that ends between two paddles at the net. -/
def squeeze : List Turn :=
  .message (ascii "P 764 471") :: List.replicate 142 (.tick ⟨1, 1⟩) ++
    List.replicate 2 (.message (ascii "P 400 471"))

theorem not_returned :
    (¬ ∀ ts, Guarded turn Away ts (Engine.zero.init.startGame .host)) ∧
      ¬ ∀ ts, Guarded turn Away ts (Engine.zero.init.startGame .host) →
        Once ts (Engine.zero.init.startGame .host) := by
  refine ⟨?_, ?_⟩
  · intro h
    exact absurd (h retreat) (by decide +kernel)
  · intro h
    have hon := h (squeeze ++ [.tick ⟨1, 1⟩, .tick ⟨1, 1⟩]) (by decide +kernel) _ _ _ _
      ⟨squeeze, [], [], rfl, rfl, rfl⟩
    exact hon.1 (by decide +kernel)

end PongPp.Game
