import Mathlib.Data.List.Basic

/-!
# A link that keeps order

A one-way link between two parties. It loses what is sent before it opens; once open, it delivers
everything in the order it was sent. A message carries the state its sender was in and the number
of the send; they are history, which no operation reads. `Carries` is what holds of a link whose
sender sends the encoding of its own state, and there is one rule for each thing that can happen.
-/

namespace PongPp.Lib

structure Mail (σ μ : Type*) where
  text : μ
  sender : σ
  number : Nat

structure Link (σ μ : Type*) where
  isOpen : Bool
  /-- What is on its way, oldest first. -/
  queue : List (Mail σ μ)
  /-- The last message delivered. -/
  heard : Option (Mail σ μ)
  /-- The number of messages sent, lost ones included. -/
  sent : Nat

namespace Link

variable {σ μ : Type*}

def init : Link σ μ := ⟨false, [], none, 0⟩

def opened (k : Link σ μ) : Link σ μ := { k with isOpen := true }

def send (k : Link σ μ) (text : μ) (sender : σ) : Link σ μ :=
  { k with queue := if k.isOpen then k.queue ++ [⟨text, sender, k.sent + 1⟩] else k.queue
           sent := k.sent + 1 }

/-- The next message, if one is on its way. -/
def recv (k : Link σ μ) : Option (μ × Link σ μ) :=
  match k.queue with
  | [] => none
  | x :: queue => some (x.text, { k with queue, heard := some x })

/-- Every message there is has the encoding of its sender's state, which met `P`; the latest one is
related by `R` to the state `s` that the sender is in now. -/
structure Carries (enc : σ → μ) (P : σ → Prop) (R : σ → σ → Prop) (s : σ) (k : Link σ μ) :
    Prop where
  text : ∀ x, x ∈ k.queue ∨ x ∈ k.heard → x.text = enc x.sender
  good : ∀ x, x ∈ k.queue ∨ x ∈ k.heard → P x.sender
  number : ∀ x, x ∈ k.queue ∨ x ∈ k.heard → 0 < x.number ∧ x.number ≤ k.sent
  latest : ∀ x, x ∈ k.queue ∨ x ∈ k.heard → x.number = k.sent → R x.sender s

namespace Carries

variable {enc : σ → μ} {P : σ → Prop} {R : σ → σ → Prop} {s t : σ} {k k' : Link σ μ}

theorem init : Carries enc P R s (init : Link σ μ) := by
  constructor <;> rintro x (hx | hx) <;> cases hx

theorem opened (h : Carries enc P R s k) : Carries enc P R s k.opened := ⟨h.1, h.2, h.3, h.4⟩

theorem change (h : Carries enc P R s k) (hR : ∀ x, R x s → R x t) : Carries enc P R t k :=
  ⟨h.text, h.good, h.number, fun x hx hn => hR _ (h.latest x hx hn)⟩

theorem mem_send {x : Mail σ μ} {text : μ}
    (hx : x ∈ (k.send text s).queue ∨ x ∈ (k.send text s).heard) :
    (x ∈ k.queue ∨ x ∈ k.heard) ∨ x = ⟨text, s, k.sent + 1⟩ := by
  rcases hx with hx | hx
  · simp only [send] at hx
    split at hx
    · rcases List.mem_append.mp hx with hx | hx
      · exact .inl (.inl hx)
      · exact .inr (List.mem_singleton.mp hx)
    · exact .inl (.inl hx)
  · exact .inl (.inr hx)

theorem send (h : Carries enc P R s k) (hP : P t) (hR : R t t) :
    Carries enc P R t (k.send (enc t) t) where
  text x hx := by
    rcases mem_send hx with hx | rfl
    · exact h.text x hx
    · rfl
  good x hx := by
    rcases mem_send hx with hx | rfl
    · exact h.good x hx
    · exact hP
  number x hx := by
    rcases mem_send hx with hx | rfl
    · exact ⟨(h.number x hx).1, Nat.le_succ_of_le (h.number x hx).2⟩
    · exact ⟨Nat.succ_pos _, Nat.le_refl _⟩
  latest x hx hn := by
    rcases mem_send hx with hx | rfl
    · have hle := (h.number x hx).2
      have hn : x.number = k.sent + 1 := hn
      omega
    · exact hR

theorem recv (h : Carries enc P R s k) {text : μ} (hr : k.recv = some (text, k')) :
    Carries enc P R s k' ∧ k'.sent = k.sent ∧
      ∃ x, k'.heard = some x ∧ text = enc x.sender ∧ P x.sender := by
  unfold Link.recv at hr
  cases hq : k.queue with
  | nil =>
    rw [hq] at hr
    cases hr
  | cons x queue =>
    rw [hq] at hr
    cases hr
    have hold : ∀ y, y ∈ queue ∨ y ∈ some x → y ∈ k.queue ∨ y ∈ k.heard := fun y hy => by
      rcases hy with hy | hy
      · exact .inl (hq ▸ List.mem_cons_of_mem _ hy)
      · cases hy
        exact .inl (hq ▸ List.mem_cons_self ..)
    have hx := hold x (.inr rfl)
    exact ⟨⟨fun y hy => h.text y (hold y hy), fun y hy => h.good y (hold y hy),
      fun y hy => h.number y (hold y hy), fun y hy => h.latest y (hold y hy)⟩, rfl,
      x, rfl, h.text x hx, h.good x hx⟩

end Carries

end Link

end PongPp.Lib
