import Mathlib.Data.List.Basic

/-!
# Runs of a labelled deterministic machine

`run step ls s` feeds the labels `ls` to `step` from `s`. `Guarded step G ls s` says every
label of the run meets the guard `G` in the state it is taken from. The rules carry an
invariant from one step to a run (`run_inv`, `run_inv_guarded`), one guard to another that
follows from it or comes to the same under an invariant (`Guarded.of_inv`, `Guarded.congr_inv`),
an exact guard of one step to the exact guard of a run (`Guarded.iff_run`), a measure that steps
make smaller to a bound on runs (`Guarded.length_le`), one that some steps use up and others refill
to a bound on the former by the latter (`tally_le`), and a step-by-step match with another
machine to whole runs of the two (`Matched.of_step`). What each step folds its outputs into is the
fold of all of them (`run_fold`), and outputs that another machine takes for its labels make it
follow the run (`run_outputs`). `Reaches step G s P` says a guarded run leads from `s` to a state
with `P`; it is enough to match each step of a machine by such a run of another (`Reaches.of_run`).
-/

namespace PongPp.Lib

section Run

variable {σ ℓ : Type*} (step : ℓ → σ → σ)

/-- The state after the labels `ls`, oldest first. -/
def run : List ℓ → σ → σ
  | [], s => s
  | l :: ls, s => run ls (step l s)

@[simp] theorem run_nil (s : σ) : run step [] s = s := rfl

@[simp] theorem run_cons (l : ℓ) (ls : List ℓ) (s : σ) :
    run step (l :: ls) s = run step ls (step l s) := rfl

theorem run_append (ls ms : List ℓ) (s : σ) :
    run step (ls ++ ms) s = run step ms (run step ls s) := by
  induction ls generalizing s with
  | nil => rfl
  | cons l ls ih => exact ih _

theorem run_concat (ls : List ℓ) (l : ℓ) (s : σ) :
    run step (ls ++ [l]) s = step l (run step ls s) := by
  rw [run_append]; rfl

/-- Every label of the run meets `G` in the state it is taken from. -/
def Guarded (G : ℓ → σ → Prop) : List ℓ → σ → Prop
  | [], _ => True
  | l :: ls, s => G l s ∧ Guarded G ls (step l s)

instance Guarded.decidable {G : ℓ → σ → Prop} [∀ l s, Decidable (G l s)] :
    ∀ ls s, Decidable (Guarded step G ls s)
  | [], _ => .isTrue trivial
  | l :: ls, s =>
    have := Guarded.decidable (G := G) ls (step l s)
    inferInstanceAs (Decidable (_ ∧ _))

/-- All that the steps of a run put out. -/
def outputs {ω : Type*} (out : ℓ → σ → List ω) : List ℓ → σ → List ω
  | [], _ => []
  | l :: ls, s => out l s ++ outputs out ls (step l s)

/-- The number of steps of a run whose label and state meet `P`. -/
def tally (P : ℓ → σ → Bool) : List ℓ → σ → Nat
  | [], _ => 0
  | l :: ls, s => (P l s).toNat + tally P ls (step l s)

variable {step} {G : ℓ → σ → Prop} {I : σ → Prop}

theorem forall_outputs {ω : Type*} {out : ℓ → σ → List ω} {P : ω → Prop} {ls : List ℓ} {s : σ} :
    (∀ x ∈ outputs step out ls s, P x) ↔ Guarded step (fun l s => ∀ x ∈ out l s, P x) ls s := by
  induction ls generalizing s with
  | nil => simp [outputs, Guarded]
  | cons l ls ih => rw [outputs, List.forall_mem_append, ih, Guarded]

theorem mem_outputs {ω : Type*} {out : ℓ → σ → List ω} {ls : List ℓ} {s : σ} {x : ω} :
    x ∈ outputs step out ls s ↔
      ∃ ls₁ l ls₂, ls = ls₁ ++ l :: ls₂ ∧ x ∈ out l (run step ls₁ s) := by
  induction ls generalizing s with
  | nil => simp [outputs]
  | cons l ls ih =>
    rw [outputs, List.mem_append, ih]
    refine ⟨?_, ?_⟩
    · rintro (h | ⟨ls₁, k, ls₂, rfl, h⟩)
      · exact ⟨[], l, ls, rfl, h⟩
      · exact ⟨l :: ls₁, k, ls₂, rfl, h⟩
    · rintro ⟨_ | ⟨k, ls₁⟩, l', ls₂, heq, h⟩
      · cases heq
        exact .inl h
      · cases heq
        exact .inr ⟨ls₁, l', ls₂, rfl, h⟩

theorem Guarded.append {ls ms : List ℓ} {s : σ} :
    Guarded step G (ls ++ ms) s ↔ Guarded step G ls s ∧ Guarded step G ms (run step ls s) := by
  induction ls generalizing s with
  | nil => simp [Guarded]
  | cons l ls ih => simp only [List.cons_append, Guarded, ih, run_cons, and_assoc]

theorem Guarded.of_forall (h : ∀ l s, G l s) (ls : List ℓ) (s : σ) : Guarded step G ls s := by
  induction ls generalizing s with
  | nil => trivial
  | cons l ls ih => exact ⟨h l s, ih _⟩

theorem Guarded.mono {H : ℓ → σ → Prop} (hGH : ∀ l s, G l s → H l s) {ls : List ℓ} {s : σ}
    (h : Guarded step G ls s) : Guarded step H ls s := by
  induction ls generalizing s with
  | nil => trivial
  | cons l ls ih => exact ⟨hGH l s h.1, ih h.2⟩

theorem Guarded.and {H : ℓ → σ → Prop} {ls : List ℓ} {s : σ} (hG : Guarded step G ls s)
    (hH : Guarded step H ls s) : Guarded step (fun l s => G l s ∧ H l s) ls s := by
  induction ls generalizing s with
  | nil => trivial
  | cons l ls ih => exact ⟨⟨hG.1, hH.1⟩, ih hG.2 hH.2⟩

/-- **Run rule.** What every step preserves, every run preserves. -/
theorem run_inv (hstep : ∀ l s, I s → I (step l s)) (ls : List ℓ) {s : σ} (h : I s) :
    I (run step ls s) := by
  induction ls generalizing s with
  | nil => exact h
  | cons l ls ih => exact ih (hstep l s h)

/-- **Guarded run rule.** What every guarded step preserves, every guarded run preserves. -/
theorem run_inv_guarded (hstep : ∀ l s, G l s → I s → I (step l s)) {ls : List ℓ} {s : σ}
    (hg : Guarded step G ls s) (h : I s) : I (run step ls s) := by
  induction ls generalizing s with
  | nil => exact h
  | cons l ls ih => exact ih hg.2 (hstep l s hg.1 h)

/-- **Guard rule.** In a guarded run that keeps `I`, every guard that follows from `I` and the
given one is met too. -/
theorem Guarded.of_inv {H : ℓ → σ → Prop} (hstep : ∀ l s, G l s → I s → I (step l s))
    (himp : ∀ l s, G l s → I s → H l s) {ls : List ℓ} {s : σ} (hg : Guarded step G ls s)
    (h : I s) : Guarded step H ls s := by
  induction ls generalizing s with
  | nil => trivial
  | cons l ls ih => exact ⟨himp l s hg.1 h, ih hg.2 (hstep l s hg.1 h)⟩

/-- **Exchange rule.** Guards that come to the same wherever `I` holds guard the same runs. -/
theorem Guarded.congr_inv {H : ℓ → σ → Prop} (hstep : ∀ l s, H l s → I s → I (step l s))
    (hiff : ∀ l s, I s → (G l s ↔ H l s)) {ls : List ℓ} {s : σ} (h : I s) :
    Guarded step G ls s ↔ Guarded step H ls s := by
  refine ⟨fun hg => ?_, fun hg => ?_⟩
  · exact hg.of_inv (fun l s hl hs => hstep l s ((hiff l s hs).mp hl) hs)
      (fun l s hl hs => (hiff l s hs).mp hl) h
  · exact hg.of_inv hstep (fun l s hl hs => (hiff l s hs).mpr hl) h

/-- **Exactness rule.** Guarded steps keep `F`, and where `F` holds, `G` is just what a step needs
to have `I`: the guarded runs are just those that have `I` all along. -/
theorem Guarded.iff_run {F : σ → Prop} (hF : ∀ l s, G l s → F s → F (step l s))
    (hI : ∀ s, F s → I s) (hstep : ∀ l s, F s → (I (step l s) ↔ G l s)) {ls : List ℓ} {s : σ}
    (hs : F s) : (∀ n, I (run step (ls.take n) s)) ↔ Guarded step G ls s := by
  induction ls generalizing s with
  | nil => exact ⟨fun _ => trivial, fun _ n => by simpa using hI s hs⟩
  | cons l ls ih =>
    refine ⟨?_, ?_⟩
    · intro h
      have hg : G l s := (hstep l s hs).mp (h 1)
      exact ⟨hg, (ih (hF l s hg hs)).mp fun n => h (n + 1)⟩
    · rintro ⟨hg, hrest⟩ n
      cases n with
      | zero => exact hI s hs
      | succ n => exact (ih (hF l s hg hs)).mpr hrest n

/-- **Measure rule.** A run whose every step makes `μ` smaller is at most as long as `μ` is
large. -/
theorem Guarded.length_le {μ : σ → Nat} (hI : ∀ l s, G l s → I s → I (step l s))
    (hμ : ∀ l s, G l s → I s → μ (step l s) < μ s) {ls : List ℓ} {s : σ}
    (hg : Guarded step G ls s) (h : I s) : ls.length + μ (run step ls s) ≤ μ s := by
  induction ls generalizing s with
  | nil => exact Nat.le_of_eq (Nat.zero_add _)
  | cons l ls ih =>
    have hrest := ih hg.2 (hI l s hg.1 h)
    have hstep := hμ l s hg.1 h
    rw [List.length_cons, run_cons]
    omega

/-- **Budget rule.** Steps with `P` use up `μ`, and only a step with `Q` refills it, by `c` at
most. -/
theorem tally_le {P Q : ℓ → σ → Bool} {μ : σ → Nat} {c : Nat}
    (hI : ∀ l s, I s → I (step l s))
    (hμ : ∀ l s, I s → (P l s).toNat + μ (step l s) ≤ μ s + c * (Q l s).toNat) (ls : List ℓ)
    {s : σ} (h : I s) :
    tally step P ls s + μ (run step ls s) ≤ μ s + c * tally step Q ls s := by
  induction ls generalizing s with
  | nil => exact Nat.le_of_eq (Nat.zero_add _)
  | cons l ls ih =>
    have hrest := ih (hI l s h)
    have hstep := hμ l s h
    simp only [tally, run_cons, Nat.mul_add]
    omega

/-- **Fold rule.** A part of the state that every step folds its outputs into. -/
theorem run_fold {ω β : Type*} {out : ℓ → σ → List ω} {f : σ → β} {g : β → ω → β}
    (hI : ∀ l s, I s → I (step l s))
    (hf : ∀ l s, I s → f (step l s) = (out l s).foldl g (f s)) (ls : List ℓ) {s : σ} (h : I s) :
    f (run step ls s) = (outputs step out ls s).foldl g (f s) := by
  induction ls generalizing s with
  | nil => rfl
  | cons l ls ih => rw [run_cons, ih (hI l s h), hf l s h, outputs, List.foldl_append]

variable (step G) in
/-- A guarded run leads from `s` to a state with `P`. -/
def Reaches (s : σ) (P : σ → Prop) : Prop := ∃ ls, Guarded step G ls s ∧ P (run step ls s)

variable {s : σ} {P Q : σ → Prop}

theorem Reaches.here (h : P s) : Reaches step G s P := ⟨[], trivial, h⟩

theorem Reaches.next {l : ℓ} (hl : G l s) (h : Reaches step G (step l s) P) :
    Reaches step G s P := by
  obtain ⟨ls, hls, hP⟩ := h
  exact ⟨l :: ls, ⟨hl, hls⟩, hP⟩

theorem Reaches.single {l : ℓ} (hl : G l s) (h : P (step l s)) : Reaches step G s P :=
  .next hl (.here h)

theorem Reaches.bind (h : Reaches step G s P) (k : ∀ t, P t → Reaches step G t Q) :
    Reaches step G s Q := by
  obtain ⟨ls, hls, hP⟩ := h
  obtain ⟨ms, hms, hQ⟩ := k _ hP
  exact ⟨ls ++ ms, Guarded.append.mpr ⟨hls, hms⟩, by rw [run_append]; exact hQ⟩

end Run

section Simulation

variable {σ τ ℓ α : Type*} {step : ℓ → σ → σ} {astep : α → τ → τ} {G : ℓ → σ → Prop}
  {H : α → τ → Prop} {R : σ → τ → Prop}

/-- **Weak simulation rule.** It is enough to match one guarded step by a guarded run. -/
theorem Reaches.of_run
    (hmatch : ∀ l s t, G l s → R s t → Reaches astep H t fun t' => R (step l s) t')
    {ls : List ℓ} {s : σ} {t : τ} (hg : Guarded step G ls s) (hR : R s t) :
    Reaches astep H t fun t' => R (run step ls s) t' := by
  induction ls generalizing s t with
  | nil => exact .here hR
  | cons l ls ih => exact (hmatch l s t hg.1 hR).bind fun t' hR' => ih hg.2 hR'

end Simulation

section Outputs

variable {σ τ ℓ α : Type*} {step : ℓ → σ → σ} {astep : α → τ → τ} {out : ℓ → σ → List α}
  {G : ℓ → σ → Prop} {R : σ → τ → Prop}

/-- **Projection rule.** Where the outputs of a step are what another machine does for it, those of
a run are what it does for the run. -/
theorem run_outputs (hstep : ∀ l s t, G l s → R s t → R (step l s) (run astep (out l s) t))
    {ls : List ℓ} {s : σ} {t : τ} (hg : Guarded step G ls s) (hR : R s t) :
    R (run step ls s) (run astep (outputs step out ls s) t) := by
  induction ls generalizing s t with
  | nil => exact hR
  | cons l ls ih =>
    rw [run_cons, outputs, run_append]
    exact ih hg.2 (hstep l s t hg.1 hR)

end Outputs

section Matched

variable {σ τ ℓ α ω υ : Type*} (step : ℓ → σ → σ) (out : ℓ → σ → ω) (astep : α → τ → τ)
  (aout : α → τ → υ) (act : ℓ → σ → α) (R : σ → τ → Prop) (S : ω → υ → Prop)

/-- The run of `ls` from `s` and the run of the actions it stands for from `t`: the states are
related all along, and so are the outputs of every step. -/
def Matched : List ℓ → σ → τ → Prop
  | [], s, t => R s t
  | l :: ls, s, t =>
    R s t ∧ S (out l s) (aout (act l s) t) ∧ Matched ls (step l s) (astep (act l s) t)

variable {step out astep aout act R S} {G : ℓ → σ → Prop} {I : σ → Prop}

/-- **Simulation rule.** It is enough to match one guarded step, from states that have an
invariant of the concrete machine. -/
theorem Matched.of_step (hI : ∀ l s, G l s → I s → I (step l s))
    (hmatch : ∀ l s t, G l s → I s → R s t →
      S (out l s) (aout (act l s) t) ∧ R (step l s) (astep (act l s) t))
    {ls : List ℓ} {s : σ} {t : τ} (hg : Guarded step G ls s) (hs : I s) (hR : R s t) :
    Matched step out astep aout act R S ls s t := by
  induction ls generalizing s t with
  | nil => exact hR
  | cons l ls ih =>
    obtain ⟨hout, hR'⟩ := hmatch l s t hg.1 hs hR
    exact ⟨hR, hout, ih hg.2 (hI l s hg.1 hs) hR'⟩

end Matched

end PongPp.Lib
