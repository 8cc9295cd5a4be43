import Mathlib.Data.List.Basic

/-!
# Loops whose steps may fault

A body that may fault is a function into `Option`: `none` stands for a step that the language
leaves undefined, such as an index outside its buffer. `loop body fuel s` repeats a body for at
most `fuel` turns, and faults when they run out. `loop_eq` is the rule of total correctness: with
an invariant that rules faults out and a variant that is below the fuel, the loop comes to what
the function it computes says.
-/

namespace PongPp.Lib

/-- How a turn of a loop ends: with the state for another one, or with the loop's result. -/
inductive Next (σ ρ : Type*) where
  | again (s : σ)
  | done (r : ρ)

section Loop

variable {σ ρ : Type*} (body : σ → Option (Next σ ρ))

def loop : Nat → σ → Option ρ
  | 0, _ => none
  | fuel + 1, s =>
    match body s with
    | none => none
    | some (.done r) => some r
    | some (.again s) => loop fuel s

/-- What a turn from `s` comes to, when the loop computes `f` with the variant `m`. -/
def Turns (I : σ → Prop) (m : σ → Nat) (f : σ → ρ) (s : σ) : Prop :=
  body s = some (.done (f s)) ∨
    ∃ s', body s = some (.again s') ∧ I s' ∧ m s' < m s ∧ f s' = f s

variable {body} {I : σ → Prop} {m : σ → Nat} {f : σ → ρ}

/-- **Loop rule.** -/
theorem loop_eq (hturn : ∀ s, I s → Turns body I m f s) {fuel : Nat} {s : σ} (hs : I s)
    (hfuel : m s < fuel) : loop body fuel s = some (f s) := by
  induction fuel generalizing s with
  | zero => omega
  | succ fuel ih =>
    rw [loop]
    rcases hturn s hs with hdone | ⟨s', hagain, hs', hlt, hf⟩
    · rw [hdone]
    · rw [hagain]
      simp only
      rw [ih hs' (by omega), hf]

end Loop

/-! ## Loops over a list -/

section Lists

variable {α β : Type*} {l : List α}

theorem mapM_some {f : α → Option β} {g : α → β} (h : ∀ a ∈ l, f a = some (g a)) :
    l.mapM f = some (l.map g) := by
  induction l with
  | nil => rfl
  | cons a l ih =>
    obtain ⟨ha, hl⟩ := List.forall_mem_cons.mp h
    rw [List.mapM_cons, ha, ih hl]
    rfl

theorem foldlM_some {f : β → α → Option β} {g : β → α → β}
    (h : ∀ a ∈ l, ∀ b, f b a = some (g b a)) (b : β) : l.foldlM f b = some (l.foldl g b) := by
  induction l generalizing b with
  | nil => rfl
  | cons a l ih =>
    obtain ⟨ha, hl⟩ := List.forall_mem_cons.mp h
    rw [List.foldlM_cons, ha b, List.foldl_cons]
    exact ih hl (g b a)

theorem allM_some {p : α → Option Bool} {q : α → Bool} (h : ∀ a ∈ l, p a = some (q a)) :
    l.allM p = some (l.all q) := by
  induction l with
  | nil => rfl
  | cons a l ih =>
    obtain ⟨ha, hl⟩ := List.forall_mem_cons.mp h
    rw [List.allM_cons, ha, List.all_cons]
    cases q a with
    | false => rfl
    | true => exact ih hl

theorem getElem?_eq_getD {i : Nat} (h : i < l.length) (a : α) : l[i]? = some (l.getD i a) := by
  rw [List.getD_eq_getElem?_getD, List.getElem?_eq_getElem h]
  rfl

end Lists

end PongPp.Lib
