import PongPp.Game.Court

/-!
# The engine's buffers

Every character of a number goes to an index of `tmp`, `send_buf` or the `buf` of `render`;
`writes` lists them. `tmp` and `send_buf` are large enough for every number there can be. The
eight bytes of `buf` are not: a guest shows the scores it is told, and the writes stay inside
just as long as every score on display fits (`buffers_exact`).
-/

namespace PongPp.Game

open Lib

inductive Buffer where
  | tmp
  | sendBuf
  | scoreBuf
  deriving DecidableEq, Repr

def Buffer.size : Buffer → Nat
  | .tmp => 16
  | .sendBuf => 128
  | .scoreBuf => 8

/-- One assignment `buffer[index] = …`. -/
structure Write where
  buffer : Buffer
  index : Nat
  deriving DecidableEq, Repr

def Write.InBounds (w : Write) : Prop := w.index < w.buffer.size

instance (w : Write) : Decidable w.InBounds := inferInstanceAs (Decidable (_ < _))

/-! ## Writes -/

/-- Writes to `len` places of `buffer`, from `pos` on. -/
def writesFrom (buffer : Buffer) (pos len : Nat) : List Write :=
  (List.range len).map fun i => ⟨buffer, pos + i⟩

/-- The writes of `int_to_str(n, buffer + pos)`. -/
def intToStrWrites (buffer : Buffer) (pos : Nat) (n : Int) : List Write :=
  let sign := if n < 0 then 1 else 0
  writesFrom buffer pos sign ++
    if unsigned n = 0 then writesFrom buffer (pos + sign) 1
    else writesFrom .tmp 0 (tmpDigits (unsigned n)).length ++
      writesFrom buffer (pos + sign) (tmpDigits (unsigned n)).length

/-- The writes of the numbers of a line, from `send_buf[pos]` on. -/
def spacedWrites (pos : Nat) : List Int → List Write
  | [] => []
  | n :: ns =>
    ⟨.sendBuf, pos⟩ :: intToStrWrites .sendBuf (pos + 1) n ++
      spacedWrites (pos + 1 + (intToStr n).length) ns

/-- The writes of a line: its letter and its numbers. -/
def lineWrites (ns : List Int) : List Write := ⟨.sendBuf, 0⟩ :: spacedWrites 1 ns

/-- The writes of `render`. -/
def renderWrites (e : Engine) : List Write :=
  intToStrWrites .scoreBuf 0 e.leftScore ++ intToStrWrites .scoreBuf 0 e.rightScore

/-- The writes of one event: only a tick in a game writes. -/
def writes : Event → Engine → List Write
  | .turn (.tick i), e =>
    if e.inGame then
      let e := (e.tick i).1
      match e.role with
      | .host => lineWrites e.stateInts ++ renderWrites e
      | .guest => lineWrites e.paddleInts ++ renderWrites e
    else []
  | _, _ => []

/-! ## In bounds -/

theorem inBounds_writesFrom {buffer : Buffer} {pos len : Nat} :
    (∀ w ∈ writesFrom buffer pos len, w.InBounds) ↔ len = 0 ∨ pos + len ≤ buffer.size := by
  simp only [writesFrom, List.mem_map, List.mem_range, forall_exists_index, and_imp,
    forall_apply_eq_imp_iff₂, Write.InBounds]
  refine ⟨?_, ?_⟩
  · intro h
    cases len with
    | zero => exact .inl rfl
    | succ len => exact .inr (h len (Nat.lt_succ_self _))
  · rintro (rfl | h) i hi <;> omega

theorem inBounds_intToStr {buffer : Buffer} {pos : Nat} {n : Int} (hn : IsI32 n) :
    (∀ w ∈ intToStrWrites buffer pos n, w.InBounds) ↔
      pos + (intToStr n).length ≤ buffer.size := by
  have htmp := length_tmpDigits_le hn
  have hsize : Buffer.tmp.size = 16 := rfl
  rw [length_intToStr]
  unfold intToStrWrites
  by_cases hz : unsigned n = 0
  · simp only [hz, if_true, List.forall_mem_append, inBounds_writesFrom]
    split <;> omega
  · have hun := unsigned_eq n
    have hpos : 0 < (tmpDigits (unsigned n)).length := by
      rw [List.length_pos_iff, ne_eq, ← List.reverse_eq_nil_iff]
      exact tmpDigits_ne_nil (by omega)
    simp only [hz, if_false, List.forall_mem_append, inBounds_writesFrom]
    split <;> omega

theorem inBounds_spaced {ns : List Int} (hns : ∀ n ∈ ns, IsI32 n) {pos : Nat}
    (hpos : pos + 12 * ns.length ≤ 128) : ∀ w ∈ spacedWrites pos ns, w.InBounds := by
  induction ns generalizing pos with
  | nil => simp [spacedWrites]
  | cons n ns ih =>
    have hn := hns n (List.mem_cons_self ..)
    have hlen := length_intToStr_le hn
    have hsize : Buffer.sendBuf.size = 128 := rfl
    rw [List.length_cons] at hpos
    rw [spacedWrites, List.cons_append, List.forall_mem_cons, List.forall_mem_append,
      inBounds_intToStr hn]
    refine ⟨?_, ?_, ih (fun m hm => hns m (List.mem_cons_of_mem _ hm)) ?_⟩
    · show pos < 128
      omega
    · omega
    · omega

/-- **A line of eight numbers or fewer fits `send_buf`.** -/
theorem inBounds_line {ns : List Int} (hns : ∀ n ∈ ns, IsI32 n) (hlen : ns.length ≤ 8) :
    ∀ w ∈ lineWrites ns, w.InBounds := by
  rw [lineWrites, List.forall_mem_cons]
  refine ⟨?_, inBounds_spaced hns (by omega)⟩
  show 0 < 128
  decide

/-- What `render` hands to `fill_text` is what it has written to `buf`. -/
theorem inBounds_render {e : Engine} (hl : IsI32 e.leftScore) (hr : IsI32 e.rightScore) :
    (∀ w ∈ renderWrites e, w.InBounds) ↔ ∀ text ∈ e.render, text.length ≤ 8 := by
  rw [renderWrites, List.forall_mem_append, inBounds_intToStr hl, inBounds_intToStr hr,
    Nat.zero_add, Nat.zero_add]
  simp only [Engine.render, List.forall_mem_cons, List.not_mem_nil, false_implies, implies_true,
    and_true]
  rfl

theorem fits_render (e : Engine) :
    (∀ text ∈ e.render, text.length ≤ 8) ↔ Fits e.leftScore ∧ Fits e.rightScore := by
  simp only [Engine.render, List.forall_mem_cons, List.not_mem_nil, false_implies, implies_true,
    and_true, length_intToStr_le_eight]

/-! ## The numbers an engine writes -/

namespace Engine

variable (e : Engine)

/-- The scores on display after the next tick. -/
def leftShown : Int :=
  if e.inGame = true ∧ e.role = .host ∧ e.outRight then i32 (e.leftScore + 1) else e.leftScore

def rightShown : Int :=
  if e.inGame = true ∧ e.role = .host ∧ e.outLeft then i32 (e.rightScore + 1) else e.rightScore

theorem moveLocalPaddle_scores (i : Input) : (e.moveLocalPaddle i).leftScore = e.leftScore ∧
    (e.moveLocalPaddle i).rightScore = e.rightScore := by
  unfold moveLocalPaddle
  split <;> exact ⟨rfl, rfl⟩

theorem moveLocalPaddle_out (i : Input) : ((e.moveLocalPaddle i).outLeft ↔ e.outLeft) ∧
    ((e.moveLocalPaddle i).outRight ↔ e.outRight) := by
  unfold moveLocalPaddle
  split <;> exact ⟨Iff.rfl, Iff.rfl⟩

theorem tick_scores (i : Input) :
    (e.tick i).1.leftScore = e.leftShown ∧ (e.tick i).1.rightScore = e.rightShown := by
  unfold leftShown rightShown
  cases hin : e.inGame with
  | false => simp [tick_idle hin]
  | true =>
    cases hr : e.role with
    | host =>
      rw [tick_host hin hr]
      simp [simulateBall_leftScore, simulateBall_rightScore, moveLocalPaddle_scores,
        moveLocalPaddle_out]
    | guest =>
      rw [tick_guest hin hr]
      simp [moveLocalPaddle_scores]

end Engine

/-- What holds of an engine whatever happens to it. -/
structure Sane (e : Engine) : Prop where
  court : e.role = .host → Court e
  rightX : Whole 400 788 e.rightX
  rightY : Whole 0 510 e.rightY
  leftScore : IsI32 e.leftScore
  rightScore : IsI32 e.rightScore

namespace Sane

variable {e : Engine}

theorem shown (h : Sane e) : IsI32 e.leftShown ∧ IsI32 e.rightShown := by
  unfold Engine.leftShown Engine.rightShown
  refine ⟨?_, ?_⟩
  · split
    · exact isI32_i32 _
    · exact h.leftScore
  · split
    · exact isI32_i32 _
    · exact h.rightScore

theorem isI32_zero : IsI32 0 := by decide

theorem startGame (e : Engine) (r : Role) : Sane (e.startGame r) where
  court _ := .startGame e r
  rightX := (Court.startGame e r).rightX
  rightY := (Court.startGame e r).rightY
  leftScore := isI32_zero
  rightScore := isI32_zero

/-- `init` leaves what `start_game(0)` does, but for the serve and `in_game`. -/
theorem init (e : Engine) : Sane e.init := by
  have hc := Court.startGame e .host
  have hb := Ball.resetBall { e with serveSeed := 0 } (.inl rfl : (1 : Int) = 1 ∨ _)
  refine ⟨fun _ => ⟨?_, ?_, hc.ballX⟩, hc.rightX, hc.rightY, isI32_zero, isI32_zero⟩
  · exact ⟨hc.leftX, hc.leftY, hc.rightX, hc.rightY, hc.leftVx, hc.rightVx⟩
  · exact ⟨hb.ballY, hb.ballVy, hb.ballVx, hb.lively⟩

theorem isI32_fields (k : Nat) (text : Bytes) (j : Nat) : IsI32 ((fields k text).getD j 0) :=
  getD_of_forall isI32_zero isI32_ints j

theorem tick (h : Sane e) (i : Input) : Sane (e.tick i).1 := by
  obtain ⟨hl, hr⟩ := h.shown
  rw [← (e.tick_scores i).1] at hl
  rw [← (e.tick_scores i).2] at hr
  cases hrole : e.role with
  | host =>
    have hcourt : Court (e.tick i).1 := (h.court hrole).turn hrole (.tick i)
    exact ⟨fun _ => hcourt, hcourt.rightX, hcourt.rightY, hl, hr⟩
  | guest =>
    have hpaddle : Whole 400 788 (e.tick i).1.rightX ∧ Whole 0 510 (e.tick i).1.rightY := by
      cases hin : e.inGame with
      | false =>
        rw [tick_idle hin]
        exact ⟨h.rightX, h.rightY⟩
      | true =>
        obtain ⟨hx, hy, -⟩ := guest_paddle h.rightX h.rightY hrole i
        rw [tick_guest hin hrole]
        exact ⟨hx, hy⟩
    refine ⟨fun hh => ?_, hpaddle.1, hpaddle.2, hl, hr⟩
    rw [role_tick, hrole] at hh
    cases hh

theorem writeMsg (h : Sane e) (text : Bytes) : Sane (e.writeMsg text).2 :=
  ⟨fun hr => { h.court hr with }, h.rightX, h.rightY, h.leftScore, h.rightScore⟩

theorem adopt (h : Sane e) (hrole : e.role = .guest) {vals : List Int}
    (hvals : ∀ j, IsI32 (vals.getD j 0)) : Sane (e.adopt vals) where
  court hr := by cases hrole.symm.trans hr
  rightX := h.rightX
  rightY := h.rightY
  leftScore := hvals 6
  rightScore := hvals 7

theorem message (h : Sane e) (text : Bytes) : Sane (e.message text) := by
  cases hrole : e.role with
  | host =>
    have hcourt := (h.court hrole).message hrole text
    have hscores : (e.message text).leftScore = e.leftScore ∧
        (e.message text).rightScore = e.rightScore := by
      rw [Engine.message_host hrole]
      simp only
      split <;> exact ⟨rfl, rfl⟩
    exact ⟨fun _ => hcourt, hcourt.rightX, hcourt.rightY, hscores.1 ▸ h.leftScore,
      hscores.2 ▸ h.rightScore⟩
  | guest =>
    rw [Engine.message_guest hrole]
    simp only
    split
    · exact (h.writeMsg text).adopt hrole (isI32_fields 8 text)
    · exact h.writeMsg text

theorem step (h : Sane e) (ev : Event) : Sane (step ev e) := by
  cases ev with
  | init => exact .init e
  | startGame r => exact .startGame e r
  | stopGame => exact ⟨fun hr => { h.court hr with }, h.rightX, h.rightY, h.leftScore, h.rightScore⟩
  | turn t =>
    cases t with
    | tick i => exact h.tick i
    | message text => exact h.message text

theorem isI32_toInt {l u : Int} {q : ℚ} (h : (l : ℚ) ≤ q ∧ q ≤ u)
    (hlo : -2147483648 ≤ l) (hhi : u < 2147483648) : IsI32 (toInt q) := by
  obtain ⟨h₁, h₂⟩ := toInt_bounds h
  exact ⟨hlo.trans h₁, h₂.trans_lt hhi⟩

theorem stateInts (h : Sane e) (hrole : e.role = .host) : ∀ n ∈ e.stateInts, IsI32 n := by
  have hc := h.court hrole
  have hx := isI32_toInt (l := -14) (u := 800) (by exact_mod_cast hc.ballX) (by omega) (by omega)
  have hy := isI32_toInt (l := 0) (u := 586) (by exact_mod_cast hc.ballY) (by omega) (by omega)
  simp only [Engine.stateInts, List.forall_mem_cons, List.not_mem_nil, false_implies, implies_true,
    and_true]
  exact ⟨hx, hy, isI32_toInt hc.leftX.bounds (by omega) (by omega),
    isI32_toInt hc.leftY.bounds (by omega) (by omega),
    isI32_toInt hc.rightX.bounds (by omega) (by omega),
    isI32_toInt hc.rightY.bounds (by omega) (by omega), h.leftScore, h.rightScore⟩

theorem paddleInts (h : Sane e) : ∀ n ∈ e.paddleInts, IsI32 n := by
  simp only [Engine.paddleInts, List.forall_mem_cons, List.not_mem_nil, false_implies, implies_true,
    and_true]
  exact ⟨isI32_toInt h.rightX.bounds (by omega) (by omega),
    isI32_toInt h.rightY.bounds (by omega) (by omega)⟩

end Sane

/-! ## The law -/

/-- A tick in a game has scores to show that fit. -/
def Shows : Event → Engine → Prop
  | .turn (.tick _), e => e.inGame = true → Fits e.leftShown ∧ Fits e.rightShown
  | _, _ => True

theorem inBounds_writes {e : Engine} (h : Sane e) (ev : Event) :
    (∀ w ∈ writes ev e, w.InBounds) ↔ Shows ev e := by
  cases ev with
  | turn t =>
    cases t with
    | tick i =>
      have h' := h.tick i
      have hrender := inBounds_render h'.leftScore h'.rightScore
      rw [fits_render, (e.tick_scores i).1, (e.tick_scores i).2] at hrender
      cases hin : e.inGame with
      | false => simp [writes, Shows, hin]
      | true =>
        simp only [writes, Shows, hin, if_true, true_implies]
        cases hrole : (e.tick i).1.role with
        | host =>
          simp only
          rw [List.forall_mem_append, hrender,
            and_iff_right (inBounds_line (h'.stateInts hrole) (by simp [Engine.stateInts]))]
        | guest =>
          simp only
          rw [List.forall_mem_append, hrender,
            and_iff_right (inBounds_line h'.paddleInts (by simp [Engine.paddleInts]))]
    | message text => simp [writes, Shows]
  | _ => simp [writes, Shows]

/-- **The buffers**: all that an engine ever writes stays inside its destination just as long as
every score it shows fits the eight bytes of `buf`. -/
theorem buffers_exact (evs : List Event) :
    (∀ w ∈ outputs step writes evs Engine.zero.init, w.InBounds) ↔
      Guarded step Shows evs Engine.zero.init := by
  rw [forall_outputs]
  exact Guarded.congr_inv (I := Sane) (fun ev _ _ h => h.step ev)
    (fun ev _ h => inBounds_writes h ev) (Sane.init Engine.zero)

/-- A peer tells a guest a score of nine digits, and the guest shows it. -/
def overrun : List Event :=
  [.startGame .guest, .turn (.message (ascii "S 0 0 0 0 0 0 123456789 0")),
    .turn (.tick ⟨0, 0⟩)]

theorem buffers_overrun :
    ¬ ∀ w ∈ outputs step writes overrun Engine.zero.init, w.InBounds := by
  decide +kernel

end PongPp.Game
