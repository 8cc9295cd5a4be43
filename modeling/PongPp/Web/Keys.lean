import Mathlib.Data.Sign.Defs
import PongPp.Lib.Run
import PongPp.Web.Signaling

/-!
# The keyboard

`loader.ts` keeps one flag for each of the four directions, which three keys share. `keys_exact`
says when the paddle goes where the keys that are down point: as long as no key goes up under
another one of its direction. `Flagged` is the invariant behind it.
-/

namespace PongPp.Web

open Lib Function

inductive Dir where
  | up
  | down
  | left
  | right
  deriving DecidableEq, Repr

/-- The direction of `e.key`: `isUpKey`, `isDownKey`, `isLeftKey`, `isRightKey`. -/
def dirOf (key : Str) : Option Dir :=
  if key = "ArrowUp".toList ∨ key = "w".toList ∨ key = "W".toList then some .up
  else if key = "ArrowDown".toList ∨ key = "s".toList ∨ key = "S".toList then some .down
  else if key = "ArrowLeft".toList ∨ key = "a".toList ∨ key = "A".toList then some .left
  else if key = "ArrowRight".toList ∨ key = "d".toList ∨ key = "D".toList then some .right
  else none

structure Keyboard where
  pressed : Dir → Bool
  paddleDirX : SignType
  paddleDirY : SignType

inductive KeyEvent where
  | keydown (key : Str)
  | keyup (key : Str)
  deriving DecidableEq, Repr

namespace Keyboard

def init : Keyboard := ⟨fun _ => false, 0, 0⟩

/-- One axis of `recomputeDir`. -/
def axis (neg pos : Bool) : SignType :=
  if neg && !pos then -1 else if pos && !neg then 1 else 0

def recomputeDir (k : Keyboard) : Keyboard :=
  { k with paddleDirY := axis (k.pressed .up) (k.pressed .down)
           paddleDirX := axis (k.pressed .left) (k.pressed .right) }

def press (d : Dir) (b : Bool) (k : Keyboard) : Keyboard :=
  { k with pressed := update k.pressed d b }.recomputeDir

/-- The two listeners. -/
def step : KeyEvent → Keyboard → Keyboard
  | .keydown key, k => match dirOf key with
    | some d => k.press d true
    | none => k
  | .keyup key, k => match dirOf key with
    | some d => k.press d false
    | none => k

end Keyboard

/-! ## The keys that are down -/

/-- The keys of a direction. -/
def keysOf : Dir → List Str
  | .up => ["ArrowUp".toList, "w".toList, "W".toList]
  | .down => ["ArrowDown".toList, "s".toList, "S".toList]
  | .left => ["ArrowLeft".toList, "a".toList, "A".toList]
  | .right => ["ArrowRight".toList, "d".toList, "D".toList]

theorem dirOf_iff {key : Str} {d : Dir} : dirOf key = some d ↔ key ∈ keysOf d := by
  refine ⟨?_, ?_⟩
  · intro h
    unfold dirOf at h
    split_ifs at h with h₁ h₂ h₃ h₄ <;> cases h <;> simpa [keysOf] using ‹_ ∨ _ ∨ _›
  · intro h
    cases d <;> simp only [keysOf, List.mem_cons, List.not_mem_nil, or_false] at h <;>
      rcases h with rfl | rfl | rfl <;> decide

/-- A keyboard and the keys that are down on it. -/
structure Held where
  keyboard : Keyboard
  down : Str → Bool

namespace Held

def init : Held := ⟨.init, fun _ => false⟩

def step (e : KeyEvent) (h : Held) : Held where
  keyboard := h.keyboard.step e
  down := match e with
    | .keydown key => update h.down key true
    | .keyup key => update h.down key false

/-- A key of direction `d` is down. -/
def holds (h : Held) (d : Dir) : Bool := (keysOf d).any h.down

/-- The paddle goes where the keys that are down point. -/
structure Exact (h : Held) : Prop where
  paddleDirX : h.keyboard.paddleDirX = Keyboard.axis (h.holds .left) (h.holds .right)
  paddleDirY : h.keyboard.paddleDirY = Keyboard.axis (h.holds .up) (h.holds .down)

/-- No other key of its direction is down when a key goes up. -/
def Single : KeyEvent → Held → Prop
  | .keydown _, _ => True
  | .keyup key, h => ∀ d, dirOf key = some d → ∀ key', key' ≠ key → dirOf key' = some d →
    h.down key' = false

/-- Every flag says whether a key of its direction is down. -/
structure Flagged (h : Held) : Prop extends Exact h where
  pressed : ∀ d, h.keyboard.pressed d = h.holds d

variable {h : Held}

theorem holds_iff {d : Dir} : h.holds d = true ↔ ∃ key, dirOf key = some d ∧ h.down key = true := by
  simp only [holds, List.any_eq_true, dirOf_iff]

theorem Flagged.init : Flagged init := ⟨⟨rfl, rfl⟩, fun d => by cases d <;> rfl⟩

/-- Keys of another direction do not count. -/
theorem holds_update {key : Str} {d : Dir} (hd : dirOf key ≠ some d) (k : Keyboard) (b : Bool) :
    holds ⟨k, update h.down key b⟩ d = h.holds d := by
  rw [Bool.eq_iff_iff, holds_iff, holds_iff]
  refine exists_congr fun key' => and_congr_right fun hd' => ?_
  have hk : key' ≠ key := by
    rintro rfl
    exact hd hd'
  simp [hk]

theorem holds_down {key : Str} {d : Dir} (hd : dirOf key = some d) (k : Keyboard) :
    holds ⟨k, update h.down key true⟩ d = true :=
  holds_iff.mpr ⟨key, hd, by simp⟩

/-- When a key goes up, another one of its direction is down just if `Single` does not hold. -/
theorem holds_up {key : Str} {d : Dir} (hd : dirOf key = some d) (k : Keyboard) :
    holds ⟨k, update h.down key false⟩ d = false ↔ Single (.keyup key) h := by
  rw [Bool.eq_false_iff, ne_eq, holds_iff]
  refine ⟨?_, ?_⟩
  · intro hno d' hd' key' hk hdir
    cases hd.symm.trans hd'
    by_contra hdown
    exact hno ⟨key', hdir, by simpa [hk] using hdown⟩
  · rintro hs ⟨key', hd', hdown⟩
    by_cases hk : key' = key
    · subst hk
      simp at hdown
    · have hup := hs d hd key' hk hd'
      simp [hk, hup] at hdown

namespace Flagged

/-- A flag that is set as it should be. -/
theorem press (hf : Flagged h) {key : Str} {d : Dir} (hd : dirOf key = some d) {b : Bool}
    (hb : holds ⟨h.keyboard.press d b, update h.down key b⟩ d = b) :
    Flagged ⟨h.keyboard.press d b, update h.down key b⟩ := by
  have hp : ∀ d', (h.keyboard.press d b).pressed d' =
      holds ⟨h.keyboard.press d b, update h.down key b⟩ d' := fun d' => by
    show update h.keyboard.pressed d b d' = _
    by_cases hdd : d' = d
    · subst hdd
      rw [update_self, hb]
    · rw [update_of_ne hdd, holds_update (by simpa [hd] using Ne.symm hdd), hf.pressed]
  refine ⟨⟨?_, ?_⟩, hp⟩
  · rw [← hp, ← hp]
    rfl
  · rw [← hp, ← hp]
    rfl

/-- A key without a direction. -/
theorem other (hf : Flagged h) {key : Str} (hd : dirOf key = none) (b : Bool) :
    Flagged ⟨h.keyboard, update h.down key b⟩ := by
  have hholds : ∀ d, holds ⟨h.keyboard, update h.down key b⟩ d = h.holds d := fun d =>
    holds_update (by simp [hd]) _ b
  refine ⟨⟨?_, ?_⟩, fun d => (hf.pressed d).trans (hholds d).symm⟩
  · rw [hholds, hholds]
    exact hf.paddleDirX
  · rw [hholds, hholds]
    exact hf.paddleDirY

theorem step (hf : Flagged h) {e : KeyEvent} (hs : Single e h) : Flagged (step e h) := by
  cases e with
  | keydown key =>
    simp only [Held.step, Keyboard.step]
    cases hd : dirOf key with
    | none => exact hf.other hd true
    | some d => exact hf.press hd (holds_down hd _)
  | keyup key =>
    simp only [Held.step, Keyboard.step]
    cases hd : dirOf key with
    | none => exact hf.other hd false
    | some d => exact hf.press hd ((holds_up hd _).mpr hs)

/-- A flag that goes out while a key of its direction is down turns the paddle. -/
theorem not_exact (hf : Flagged h) {key : Str} {d : Dir} (hd : dirOf key = some d)
    (hheld : holds ⟨h.keyboard.press d false, update h.down key false⟩ d = true) :
    ¬ Exact ⟨h.keyboard.press d false, update h.down key false⟩ := by
  have hother : ∀ d', d' ≠ d → h.keyboard.pressed d' =
      holds ⟨h.keyboard.press d false, update h.down key false⟩ d' := fun d' hne => by
    rw [holds_update (by simpa [hd] using Ne.symm hne), hf.pressed]
  have hneg : ∀ b, Keyboard.axis false b ≠ Keyboard.axis true b := by decide
  have hpos : ∀ b, Keyboard.axis b false ≠ Keyboard.axis b true := by decide
  rintro ⟨hx, hy⟩
  cases d with
  | up =>
    rw [hheld, ← hother .down (by decide)] at hy
    exact hneg _ hy
  | down =>
    rw [hheld, ← hother .up (by decide)] at hy
    exact hpos _ hy
  | left =>
    rw [hheld, ← hother .right (by decide)] at hx
    exact hneg _ hx
  | right =>
    rw [hheld, ← hother .left (by decide)] at hx
    exact hpos _ hx

theorem step_iff (hf : Flagged h) (e : KeyEvent) : Exact (Held.step e h) ↔ Single e h := by
  refine ⟨fun hx => ?_, fun hs => (hf.step hs).toExact⟩
  cases e with
  | keydown key => trivial
  | keyup key =>
    simp only [Held.step, Keyboard.step] at hx
    cases hd : dirOf key with
    | none =>
      intro d' hd'
      rw [hd] at hd'
      cases hd'
    | some d =>
      rw [hd] at hx
      rw [← holds_up hd (h.keyboard.press d false)]
      by_contra hheld
      exact hf.not_exact hd (by simpa using hheld) hx

end Flagged

end Held

/-- **Keys**: over any run of key events the paddle goes where the keys that are down point, just
as long as no key goes up under another one of its direction. -/
theorem keys_exact (es : List KeyEvent) :
    (∀ n, (run Held.step (es.take n) .init).Exact) ↔ Guarded Held.step Held.Single es .init :=
  Guarded.iff_run (F := Held.Flagged) (fun _ _ hs hf => hf.step hs) (fun _ hf => hf.toExact)
    (fun e _ hf => hf.step_iff e) .init

/-- Both up keys are held and one is let go: the paddle stops. -/
theorem keys_stuck : ¬ ∀ es : List KeyEvent, (run Held.step es .init).Exact := fun h =>
  absurd (h [.keydown "w".toList, .keydown "ArrowUp".toList, .keyup "w".toList]).paddleDirY
    (by decide)

end PongPp.Web
