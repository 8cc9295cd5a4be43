import PongPp.Game.Wire

/-!
# Overflow on peer input

`parse_int` multiplies as long as there are digits, and what it comes to goes back into
`int_to_str` when the scores are drawn. `arithmetic` lists the values on both ways. They are in
range just as long as every number that is read fits but for its sign (`no_overflow`).
-/

namespace PongPp.Game

open Lib

/-- Of the numbers that a tick hands to `int_to_str`, those that `on_peer_message` may have stored:
the right paddle of a host's snapshot, and the scores that a guest draws. -/
def Engine.retold (e : Engine) : List Int :=
  match e.role with
  | .host => [toInt e.rightX, toInt e.rightY]
  | .guest => [e.leftScore, e.rightScore]

/-- The values that an event has computed from what the peer sends: those of reading a message, and
in a tick those of writing what was read. -/
def arithmetic : Event → Engine → List Int
  | .turn (.message text), e =>
    if e.Reads text then readValues (e.buffered text) (e.writeMsg text).1 e.role.count 1 else []
  | .turn (.tick i), e => if e.inGame then (e.tick i).1.retold.flatMap writtenValues else []
  | _, _ => []

/-- The digits of every number that a message is read for are worth less than 2^31. -/
def Small : Event → Engine → Prop
  | .turn (.message text), e => e.Reads text →
    ∀ m ∈ magnitudes e.role.count ((text.take (msgBufSize - 1)).drop 1), m < 2 ^ 31
  | _, _ => True

/-! ## Reading -/

theorem symmetric_ints {k : Nat} {t : Bytes} (h : ∀ m ∈ magnitudes k t, m < 2147483648) :
    ∀ n ∈ ints k t, Symmetric n := by
  induction k generalizing t with
  | zero => simp [ints]
  | succ k ih =>
    obtain ⟨hfirst, hrest⟩ := List.forall_mem_cons.mp h
    obtain ⟨c, hc, hint⟩ := intOf_eq (t.dropWhile fun b => !isNumeral b)
    rw [ints, hint]
    simp only [List.forall_mem_cons]
    refine ⟨?_, ih hrest⟩
    rw [i32_eq]
    · unfold Symmetric
      rcases hc with rfl | rfl <;> omega
    · unfold IsI32
      rcases hc with rfl | rfl <;> omega

/-- **Reading** a message overflows just if one of its numbers is too large. -/
theorem isI32_message (e : Engine) (text : Bytes) :
    (∀ v ∈ arithmetic (.turn (.message text)) e, IsI32 v) ↔ Small (.turn (.message text)) e := by
  have hreading : arithmetic (.turn (.message text)) e = if e.Reads text then
      readValues (e.buffered text) (e.writeMsg text).1 e.role.count 1 else [] := rfl
  rw [hreading, Small]
  split
  · rename_i hreads
    rw [isI32_readValues, forall_prop_of_true hreads, e.left_buffered]
    exact Iff.rfl
  · rename_i hreads
    exact iff_of_true (by simp) fun h => absurd h hreads

/-! ## Writing what was read -/

theorem symmetric_zero : Symmetric 0 := by decide

/-- What a peer has told an engine can be negated. -/
def Tame (e : Engine) : Prop := ∀ n ∈ e.retold, Symmetric n

namespace Tame

variable {e : Engine}

theorem host (hrole : e.role = .host) : Tame e ↔
    Symmetric (toInt e.rightX) ∧ Symmetric (toInt e.rightY) := by
  rw [Tame, Engine.retold, hrole]
  simp

theorem guest (hrole : e.role = .guest) : Tame e ↔
    Symmetric e.leftScore ∧ Symmetric e.rightScore := by
  rw [Tame, Engine.retold, hrole]
  simp

theorem of_paddle (hrole : e.role = .host) (hx : 400 ≤ e.rightX ∧ e.rightX ≤ 788)
    (hy : 0 ≤ e.rightY ∧ e.rightY ≤ 510) : Tame e := by
  have hx := toInt_bounds (l := 400) (u := 788) (by exact_mod_cast hx)
  have hy := toInt_bounds (l := 0) (u := 510) (by exact_mod_cast hy)
  rw [host hrole]
  unfold Symmetric
  omega

theorem startGame (e : Engine) (r : Role) : Tame (e.startGame r) := by
  cases r with
  | host =>
    have hc := Court.startGame e .host
    have hx := hc.rightX.bounds
    have hy := hc.rightY.bounds
    norm_num at hx hy
    exact of_paddle rfl hx hy
  | guest => exact (guest rfl).mpr ⟨symmetric_zero, symmetric_zero⟩

theorem init (e : Engine) : Tame e.init := by
  have hs := Sane.init e
  have hx := hs.rightX.bounds
  have hy := hs.rightY.bounds
  norm_num at hx hy
  exact of_paddle rfl hx hy

theorem retold_tick (e : Engine) (i : Input) : (e.tick i).1.retold = e.retold := by
  cases hin : e.inGame with
  | false => rw [tick_idle hin]
  | true =>
    unfold Engine.retold
    rw [role_tick]
    cases hrole : e.role with
    | host =>
      obtain ⟨-, hsame, -⟩ := host_tick ⟨hin, hrole⟩ i
      simp only [hsame.1, hsame.2]
    | guest =>
      obtain ⟨hsame, -⟩ := moveLocalPaddle_guest hrole i
      rw [tick_guest hin hrole]
      simp only [hsame.leftScore, hsame.rightScore]

theorem mirror (hrole : e.role = .host) (x y : Int) : Tame (e.mirror x y) := by
  have hmin : rightXMin = 400 := by simp only [constants]
  have hmax : rightXMax = 788 := by simp only [constants]
  have hdown : canvasH - paddleH = 510 := by
    simp only [constants]
    norm_num
  have hx := GuestCourt.clampf_bounds x (show rightXMin ≤ rightXMax by rw [hmin, hmax]; norm_num)
  have hy := GuestCourt.clampf_bounds y (show 0 ≤ canvasH - paddleH by rw [hdown]; norm_num)
  exact of_paddle hrole ⟨hmin.ge.trans hx.1, hx.2.trans hmax.le⟩ ⟨hy.1, hy.2.trans hdown.le⟩

theorem adopt (hrole : e.role = .guest) {vals : List Int} (h : ∀ n ∈ vals, Symmetric n) :
    Tame (e.adopt vals) :=
  (guest (e := e.adopt vals) hrole).mpr
    ⟨getD_of_forall symmetric_zero h 6, getD_of_forall symmetric_zero h 7⟩

/-- Whatever an engine held before, a small message that it reads makes it tame. -/
theorem of_message {text : Bytes} (hreads : e.Reads text) (h : Small (.turn (.message text)) e) :
    Tame (e.message text) := by
  have hwrite : (e.writeMsg text).2.Reads text := hreads
  have hsmall := h hreads
  cases hrole : e.role with
  | host =>
    rw [Engine.message_host hrole]
    simp only
    rw [if_pos hwrite]
    exact mirror hrole _ _
  | guest =>
    rw [hrole] at hsmall
    rw [Engine.message_guest hrole]
    simp only
    rw [if_pos hwrite]
    exact adopt hrole (symmetric_ints hsmall)

theorem message {text : Bytes} (he : Tame e) (h : Small (.turn (.message text)) e) :
    Tame (e.message text) := by
  by_cases hreads : e.Reads text
  · exact of_message hreads h
  · rw [e.message_eq_buffered, if_neg hreads]
    exact he

theorem step {ev : Event} (he : Tame e) (h : Small ev e) : Tame (step ev e) := by
  cases ev with
  | init => exact .init e
  | startGame r => exact .startGame e r
  | stopGame => exact he
  | turn t =>
    cases t with
    | tick i => exact fun n hn => he n (retold_tick e i ▸ hn)
    | message text => exact he.message h

/-- **Writing** what was read never overflows. -/
theorem isI32_tick (he : Tame e) (i : Input) : ∀ v ∈ arithmetic (.turn (.tick i)) e, IsI32 v := by
  have hwriting : arithmetic (.turn (.tick i)) e =
      if e.inGame then (e.tick i).1.retold.flatMap writtenValues else [] := rfl
  intro v hv
  rw [hwriting, retold_tick] at hv
  split at hv
  · obtain ⟨n, hn, hv⟩ := List.mem_flatMap.mp hv
    exact isI32_writtenValues (he n hn) v hv
  · cases hv

theorem isI32_event (he : Tame e) (ev : Event) :
    (∀ v ∈ arithmetic ev e, IsI32 v) ↔ Small ev e := by
  cases ev with
  | turn t =>
    cases t with
    | tick i => exact iff_of_true (he.isI32_tick i) trivial
    | message text => exact isI32_message e text
  | _ => exact iff_of_true (by simp [arithmetic]) trivial

theorem isI32_run (he : Tame e) (evs : List Event) :
    (∀ v ∈ outputs Game.step arithmetic evs e, IsI32 v) ↔ Guarded Game.step Small evs e := by
  rw [forall_outputs]
  exact Guarded.congr_inv (I := Tame) (fun _ _ hs he => he.step hs)
    (fun ev _ he => he.isI32_event ev) he

end Tame

/-! ## The law -/

/-- What becomes of a message at an engine in any state, and of the events behind it. -/
structure NoOverflow (e : Engine) (text : Bytes) (evs : List Event) : Prop where
  /-- Reading the message overflows just if one of its numbers is too large. -/
  reading : (∀ v ∈ arithmetic (.turn (.message text)) e, IsI32 v) ↔
    Small (.turn (.message text)) e
  /-- If the message is read, nothing that is read or written from then on overflows just if no
  message has a number that is too large. -/
  later : e.Reads text →
    ((∀ v ∈ outputs step arithmetic (.turn (.message text) :: evs) e, IsI32 v) ↔
      Guarded step Small (.turn (.message text) :: evs) e)
  /-- Nor does it in any other run. -/
  run : (∀ v ∈ outputs step arithmetic evs Engine.zero.init, IsI32 v) ↔
    Guarded step Small evs Engine.zero.init

/-- **Overflow**: only numbers of a peer that do not fit make the engine overflow on them. -/
theorem no_overflow (e : Engine) (text : Bytes) (evs : List Event) : NoOverflow e text evs where
  reading := isI32_message e text
  later hreads := by
    rw [outputs, List.forall_mem_append, isI32_message, Guarded]
    exact and_congr_right fun h => (Tame.of_message hreads h).isI32_run evs
  run := (Tame.init Engine.zero).isI32_run evs

/-- A number of 2^31 overflows when it is read, and one of -2^31 when it is written again. -/
theorem peer_overflow :
    (¬ ∀ (e : Engine) (text : Bytes), text.length ≤ 255 →
      ∀ v ∈ arithmetic (.turn (.message text)) e, IsI32 v) ∧
    ¬ ∀ (e : Engine) (text : Bytes) (evs : List Event), text.length ≤ 255 →
      ∀ v ∈ outputs step arithmetic evs (e.message text), IsI32 v := by
  refine ⟨fun h => ?_, fun h => ?_⟩
  · have hread := h (Engine.zero.init.startGame .guest) (ascii "S 0 0 0 0 0 0 2147483648 0")
      (by decide)
    exact absurd hread (by decide +kernel)
  · have hwrite := h (Engine.zero.init.startGame .guest) (ascii "S 0 0 0 0 0 0 -2147483648 0")
      [.turn (.tick ⟨0, 0⟩)] (by decide)
    exact absurd hwrite (by decide +kernel)

end PongPp.Game
