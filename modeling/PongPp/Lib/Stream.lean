import Mathlib.Data.List.Basic

/-!
# Incremental decoders

A `Decoder` reads frames off the front of a buffer that grows at its end. Its laws say that a
frame or an error, once found, does not depend on what arrives later. `drain` reads frames
until the buffer holds no complete one; `feed` drains after every chunk. `feed_eq_drain`: for
any cut into chunks, `feed` has the effects and the outcome of draining the whole stream once.
-/

namespace PongPp.Lib

universe u v

/-- What a decoder finds at the front of a buffer. -/
inductive Parse (α : Type u) (φ : Type v) where
  | needMore
  | bad
  | got (f : φ) (rest : List α)

structure Decoder (α : Type u) (φ : Type v) where
  parse : List α → Parse α φ
  got_lt : ∀ {b r : List α} {f : φ}, parse b = .got f r → r.length < b.length
  got_append : ∀ {b r : List α} {f : φ}, parse b = .got f r → ∀ t, parse (b ++ t) = .got f (r ++ t)
  bad_append : ∀ {b : List α}, parse b = .bad → ∀ t, parse (b ++ t) = .bad

/-- Why draining ended: nothing complete is left, an error, or the reader stopped with `r`. -/
inductive Stop (ρ : Type*) where
  | more
  | bad
  | halted (r : ρ)
  deriving DecidableEq

variable {α : Type u} {φ : Type v} {ε ρ : Type*}

/-- Read frames while there are any; `react` gives each frame's effects and may stop. -/
def Decoder.drain (D : Decoder α φ) (react : φ → List ε × Option ρ) (b : List α) :
    List ε × Stop ρ × List α :=
  match _h : D.parse b with
  | .needMore => ([], .more, b)
  | .bad => ([], .bad, b)
  | .got f r =>
    match react f with
    | (es, some x) => (es, .halted x, r)
    | (es, none) => (es ++ (D.drain react r).1, (D.drain react r).2)
termination_by b.length
decreasing_by all_goals exact D.got_lt _h

/-- Drain after every chunk, up to the first chunk that ends the reading. -/
def Decoder.feed (D : Decoder α φ) (react : φ → List ε × Option ρ) :
    List (List α) → List α → List ε × Stop ρ × List α
  | [], b => ([], .more, b)
  | c :: cs, b =>
    match D.drain react (b ++ c) with
    | (es, .more, r) => (es ++ (D.feed react cs r).1, (D.feed react cs r).2)
    | (es, stop, r) => (es, stop, r)

/-- The chunk that completes the first part `r` of a stream. -/
theorem exists_completing {cs : List (List α)} {r s : List α} (hr : r ≠ [])
    (h : cs.flatten = r ++ s) :
    ∃ pre chunk post s₀, cs = pre ++ chunk :: post ∧ s = s₀ ++ post.flatten ∧
      pre.flatten ++ chunk = r ++ s₀ ∧ pre.flatten <+: r ∧ pre.flatten ≠ r := by
  induction cs generalizing r with
  | nil =>
    rw [List.flatten_nil, eq_comm, List.append_eq_nil_iff] at h
    exact absurd h.1 hr
  | cons c cs ih =>
    rw [List.flatten_cons, List.append_eq_append_iff] at h
    rcases h with ⟨r', rfl, hrest⟩ | ⟨s₀, hc, hs⟩
    · by_cases hr' : r' = []
      · subst hr'
        exact ⟨[], c, cs, [], rfl, hrest.symm, by simp, List.nil_prefix, hr.symm⟩
      · obtain ⟨pre, chunk, post, s₀, rfl, hs, hflat, ⟨t, ht⟩, hne⟩ := ih hr' hrest
        refine ⟨c :: pre, chunk, post, s₀, rfl, hs, ?_, ⟨t, ?_⟩, ?_⟩
        · rw [List.flatten_cons, List.append_assoc, hflat, List.append_assoc]
        · rw [List.flatten_cons, List.append_assoc, ht]
        · rw [List.flatten_cons]
          exact fun h => hne (List.append_cancel_left h)
    · exact ⟨[], c, cs, s₀, rfl, hs, hc, List.nil_prefix, hr.symm⟩

/-- `fs` are the frames at the front of `b`, and no complete one is in what follows, `r`. -/
def Decoder.Reads (D : Decoder α φ) : List φ → List α → List α → Prop
  | [], b, r => D.parse b = .needMore ∧ r = b
  | f :: fs, b, r => ∃ b', D.parse b = .got f b' ∧ D.Reads fs b' r

/-- The frames that draining comes by, the one that stops it included. -/
def Decoder.taken (D : Decoder α φ) (react : φ → List ε × Option ρ) (b : List α) : List φ :=
  (D.drain (fun f => ([f], (react f).2)) b).1

namespace Decoder

variable {D : Decoder α φ} {react : φ → List ε × Option ρ} {b r : List α} {f : φ}

theorem drain_needMore (h : D.parse b = .needMore) : D.drain react b = ([], .more, b) := by
  rw [drain]; split <;> simp_all

theorem drain_bad (h : D.parse b = .bad) : D.drain react b = ([], .bad, b) := by
  rw [drain]; split <;> simp_all

theorem drain_halt {es : List ε} {x : ρ} (h : D.parse b = .got f r)
    (hf : react f = (es, some x)) : D.drain react b = (es, .halted x, r) := by
  rw [drain]; split <;> simp_all

theorem drain_next {es : List ε} (h : D.parse b = .got f r) (hf : react f = (es, none)) :
    D.drain react b = (es ++ (D.drain react r).1, (D.drain react r).2) := by
  rw [drain]; split <;> simp_all

theorem drain_more {es : List ε} (h : D.drain react b = (es, .more, r)) :
    D.parse r = .needMore := by
  induction hn : b.length using Nat.strongRecOn generalizing b es with
  | ind n ih =>
    subst hn
    cases hp : D.parse b with
    | needMore => rw [drain_needMore hp] at h; cases h; exact hp
    | bad => rw [drain_bad hp] at h; cases h
    | got f r' =>
      rcases hf : react f with ⟨fs, _ | x⟩
      · rw [drain_next hp hf] at h
        simp only [Prod.mk.injEq] at h
        exact ih _ (D.got_lt hp) (Prod.ext rfl h.2) rfl
      · rw [drain_halt hp hf] at h; cases h

/-- The effects of draining are those of the frames it goes on from, then those of the frame
that stops it. -/
theorem drain_split {P : ε → Prop} (hP : ∀ f es, react f = (es, none) → ∀ e ∈ es, P e)
    {es : List ε} {o : Stop ρ} (h : D.drain react b = (es, o, r)) :
    ∃ pre last, es = pre ++ last ∧ (∀ e ∈ pre, P e) ∧
      (last = [] ∨ ∃ f x, react f = (last, some x) ∧ o = .halted x) := by
  induction hn : b.length using Nat.strongRecOn generalizing b es with
  | ind n ih =>
    subst hn
    cases hp : D.parse b with
    | needMore => rw [drain_needMore hp] at h; cases h; exact ⟨[], [], rfl, by simp, .inl rfl⟩
    | bad => rw [drain_bad hp] at h; cases h; exact ⟨[], [], rfl, by simp, .inl rfl⟩
    | got f r' =>
      rcases hf : react f with ⟨fs, _ | x⟩
      · rw [drain_next hp hf] at h
        simp only [Prod.mk.injEq] at h
        obtain ⟨pre, last, hes, hpre, hlast⟩ := ih _ (D.got_lt hp) (Prod.ext rfl h.2) rfl
        refine ⟨fs ++ pre, last, by rw [← h.1, List.append_assoc, ← hes], ?_, hlast⟩
        intro e he
        rcases List.mem_append.mp he with he | he
        · exact hP f fs hf e he
        · exact hpre e he
      · rw [drain_halt hp hf] at h
        cases h
        exact ⟨[], es, rfl, by simp, .inr ⟨f, x, hf, rfl⟩⟩

theorem drain_taken : (D.drain react b).1 = (D.taken react b).flatMap fun f => (react f).1 := by
  unfold taken
  induction hn : b.length using Nat.strongRecOn generalizing b with
  | ind n ih =>
    subst hn
    cases hp : D.parse b with
    | needMore => rw [drain_needMore hp, drain_needMore hp]; rfl
    | bad => rw [drain_bad hp, drain_bad hp]; rfl
    | got f r =>
      rcases hf : react f with ⟨es, _ | x⟩
      · have htaken : (([f], (react f).2) : List φ × Option ρ) = ([f], none) := by rw [hf]
        rw [drain_next hp hf, drain_next hp htaken, ih _ (D.got_lt hp) rfl, List.flatMap_append,
          List.flatMap_singleton, hf]
      · have htaken : (([f], (react f).2) : List φ × Option ρ) = ([f], some x) := by rw [hf]
        rw [drain_halt hp hf, drain_halt hp htaken, List.flatMap_singleton, hf]

theorem mem_taken (h : f ∈ D.taken react b) : ∃ b' r, D.parse b' = .got f r := by
  unfold taken at h
  induction hn : b.length using Nat.strongRecOn generalizing b with
  | ind n ih =>
    subst hn
    cases hp : D.parse b with
    | needMore => rw [drain_needMore hp] at h; cases h
    | bad => rw [drain_bad hp] at h; cases h
    | got g r =>
      rcases hg : (react g).2 with _ | x
      · rw [drain_next hp (congrArg (Prod.mk [g]) hg), List.mem_append, List.mem_singleton] at h
        rcases h with rfl | h
        · exact ⟨b, r, hp⟩
        · exact ih _ (D.got_lt hp) h rfl
      · rw [drain_halt hp (congrArg (Prod.mk [g]) hg), List.mem_singleton] at h
        subst h
        exact ⟨b, r, hp⟩

/-- Bytes behind an error or a stop are never looked at. -/
theorem drain_append_stopped {es : List ε} {o : Stop ρ} (h : D.drain react b = (es, o, r))
    (ho : o ≠ .more) (t : List α) : D.drain react (b ++ t) = (es, o, r ++ t) := by
  induction hn : b.length using Nat.strongRecOn generalizing b es with
  | ind n ih =>
    subst hn
    cases hp : D.parse b with
    | needMore => rw [drain_needMore hp] at h; cases h; exact absurd rfl ho
    | bad => rw [drain_bad hp] at h; cases h; exact drain_bad (D.bad_append hp t)
    | got f r' =>
      have hp' := D.got_append hp t
      rcases hf : react f with ⟨fs, _ | x⟩
      · rw [drain_next hp hf] at h
        simp only [Prod.mk.injEq] at h
        have hr := ih _ (D.got_lt hp) (Prod.ext rfl h.2) rfl
        rw [drain_next hp' hf, hr, h.1]
      · rw [drain_halt hp hf] at h
        cases h
        exact drain_halt hp' hf

theorem drain_append_more {es : List ε} (h : D.drain react b = (es, .more, r)) (t : List α) :
    D.drain react (b ++ t) = (es ++ (D.drain react (r ++ t)).1, (D.drain react (r ++ t)).2) := by
  induction hn : b.length using Nat.strongRecOn generalizing b es with
  | ind n ih =>
    subst hn
    cases hp : D.parse b with
    | needMore => rw [drain_needMore hp] at h; cases h; rfl
    | bad => rw [drain_bad hp] at h; cases h
    | got f r' =>
      rcases hf : react f with ⟨fs, _ | x⟩
      · rw [drain_next hp hf] at h
        simp only [Prod.mk.injEq] at h
        have hr := ih _ (D.got_lt hp) (Prod.ext rfl h.2) rfl
        rw [drain_next (D.got_append hp t) hf, hr, ← h.1, List.append_assoc]
      · rw [drain_halt hp hf] at h; cases h

/-- Draining gets from `b` to `r` with the effects `es`, whatever arrives later. -/
def Passes (D : Decoder α φ) (react : φ → List ε × Option ρ) (b : List α) (es : List ε)
    (r : List α) : Prop :=
  ∀ t, D.drain react (b ++ t) = (es ++ (D.drain react (r ++ t)).1, (D.drain react (r ++ t)).2)

theorem Passes.refl (b : List α) : D.Passes react b [] b := fun _ => rfl

theorem Passes.more {es fs : List ε} {c r' : List α} (h : D.Passes react b es r)
    (hd : D.drain react (r ++ c) = (fs, .more, r')) : D.Passes react (b ++ c) (es ++ fs) r' := by
  intro t
  rw [List.append_assoc, h, ← List.append_assoc, drain_append_more hd, List.append_assoc]

theorem Passes.drain {es : List ε} (h : D.Passes react b es r) (c : List α) :
    (D.drain react (b ++ c)).1 = es ++ (D.drain react (r ++ c)).1 := by rw [h c]

theorem reads_flatMap {β : Type*} {enc : β → List α} {dec : β → φ}
    (hnil : D.parse [] = .needMore) {xs : List β}
    (h : ∀ x ∈ xs, ∀ t, D.parse (enc x ++ t) = .got (dec x) t) :
    D.Reads (xs.map dec) (xs.flatMap enc) [] := by
  induction xs with
  | nil => exact ⟨hnil, rfl⟩
  | cons x xs ih =>
    exact ⟨_, h x (List.mem_cons_self ..) _, ih fun y hy => h y (List.mem_cons_of_mem _ hy)⟩

theorem Reads.append {fs gs : List φ} {c : List α} (hb : D.Reads fs b []) (hc : D.Reads gs c r) :
    D.Reads (fs ++ gs) (b ++ c) r := by
  induction fs generalizing b with
  | nil =>
    obtain ⟨-, rfl⟩ := hb
    exact hc
  | cons f fs ih =>
    obtain ⟨b', hp, h⟩ := hb
    exact ⟨b' ++ c, D.got_append hp c, ih h⟩

theorem Reads.rest {fs : List φ} (h : D.Reads fs b r) : D.parse r = .needMore := by
  induction fs generalizing b with
  | nil => exact h.2 ▸ h.1
  | cons f fs ih =>
    obtain ⟨b', -, h⟩ := h
    exact ih h

theorem Reads.eq_nil {fs : List φ} (h : D.Reads fs b r) (hb : D.parse b = .needMore) : fs = [] := by
  cases fs with
  | nil => rfl
  | cons f fs =>
    obtain ⟨b', hp, -⟩ := h
    rw [hb] at hp
    cases hp

/-- What has arrived of a stream holds its first frame, or no frame. -/
theorem Reads.front {fs : List φ} {t : List α} (h : D.Reads (f :: fs) (b ++ t) r) :
    D.parse b = .needMore ∨ ∃ b', D.parse b = .got f b' ∧ D.Reads fs (b' ++ t) r := by
  obtain ⟨b', hp, hrest⟩ := h
  cases hb : D.parse b with
  | needMore => exact .inl rfl
  | bad =>
    rw [D.bad_append hb t] at hp
    cases hp
  | got g c =>
    rw [D.got_append hb t] at hp
    cases hp
    exact .inr ⟨c, rfl, hrest⟩

theorem Reads.drain {fs : List φ} (h : D.Reads fs b r) (hf : ∀ f ∈ fs, (react f).2 = none) :
    D.drain react b = (fs.flatMap fun f => (react f).1, .more, r) := by
  induction fs generalizing b with
  | nil =>
    obtain ⟨hp, rfl⟩ := h
    exact drain_needMore hp
  | cons f fs ih =>
    obtain ⟨b', hp, h⟩ := h
    have hnone : react f = ((react f).1, none) := Prod.ext rfl (hf f (List.mem_cons_self ..))
    rw [drain_next hp hnone, ih h fun g hg => hf g (List.mem_cons_of_mem _ hg),
      List.flatMap_cons]

theorem Reads.split {fs : List φ} {t : List α} (h : D.Reads fs (b ++ t) r) :
    ∃ fs₁ fs₂ r', fs = fs₁ ++ fs₂ ∧ D.Reads fs₁ b r' ∧ D.Reads fs₂ (r' ++ t) r := by
  induction fs generalizing b with
  | nil =>
    obtain ⟨hp, rfl⟩ := h
    refine ⟨[], [], b, rfl, ⟨?_, rfl⟩, hp, rfl⟩
    cases hb : D.parse b with
    | needMore => rfl
    | bad => rw [D.bad_append hb t] at hp; cases hp
    | got f b' => rw [D.got_append hb t] at hp; cases hp
  | cons f fs ih =>
    cases hb : D.parse b with
    | needMore => exact ⟨[], f :: fs, b, rfl, ⟨hb, rfl⟩, h⟩
    | bad =>
      obtain ⟨b', hp, -⟩ := h
      rw [D.bad_append hb t] at hp
      cases hp
    | got g b' =>
      obtain ⟨b'', hp, h⟩ := h
      rw [D.got_append hb t] at hp
      cases hp
      obtain ⟨fs₁, fs₂, r', rfl, h₁, h₂⟩ := ih h
      exact ⟨f :: fs₁, fs₂, r', rfl, ⟨b', hb, h₁⟩, h₂⟩

variable (D react)

/-- **Chunks do not matter.** Feeding chunks is draining the whole stream, up to bytes `t`
that were never read because the reading ended. -/
theorem feed_eq_drain {cs : List (List α)} (hcs : cs ≠ []) (b : List α) :
    ∃ t, D.drain react (b ++ cs.flatten) =
        ((D.feed react cs b).1, (D.feed react cs b).2.1, (D.feed react cs b).2.2 ++ t) ∧
      ((D.feed react cs b).2.1 = .more → t = []) := by
  induction cs generalizing b with
  | nil => exact absurd rfl hcs
  | cons c cs ih =>
    rw [List.flatten_cons, ← List.append_assoc]
    rcases hd : D.drain react (b ++ c) with ⟨es, o, r⟩
    cases o with
    | more =>
      rcases cs with _ | ⟨c', cs⟩
      · refine ⟨[], ?_, fun _ => rfl⟩
        simp [feed, hd]
      · obtain ⟨t, ht, hm⟩ := ih (List.cons_ne_nil _ _) r
        have hfeed : D.feed react (c :: c' :: cs) b =
            (es ++ (D.feed react (c' :: cs) r).1, (D.feed react (c' :: cs) r).2) := by
          rw [feed, hd]
        rw [drain_append_more hd, ht, hfeed]
        exact ⟨t, rfl, hm⟩
    | bad =>
      rw [drain_append_stopped hd (by simp), feed, hd]
      exact ⟨cs.flatten, rfl, by simp⟩
    | halted x =>
      rw [drain_append_stopped hd (by simp), feed, hd]
      exact ⟨cs.flatten, rfl, by simp⟩

variable {D react} in
theorem Reads.feed {cs : List (List α)} {fs : List φ} (h : D.Reads fs (b ++ cs.flatten) r)
    (hcs : cs ≠ []) (hf : ∀ f ∈ fs, (react f).2 = none) :
    D.feed react cs b = (fs.flatMap fun f => (react f).1, .more, r) := by
  obtain ⟨t, ht, hmore⟩ := feed_eq_drain D react hcs b
  rw [h.drain hf] at ht
  simp only [Prod.mk.injEq] at ht
  obtain ⟨hes, hstop, hrest⟩ := ht
  rw [hmore hstop.symm, List.append_nil] at hrest
  exact Prod.ext hes.symm (Prod.ext hstop.symm hrest.symm)

/-- Two cuts of one stream have the same effects and outcome, and leave the same buffer when
the reading goes on. -/
theorem feed_eq_feed {cs ds : List (List α)} (hc : [] ∉ cs) (hd : [] ∉ ds)
    (h : cs.flatten = ds.flatten) (b : List α) :
    (D.feed react cs b).1 = (D.feed react ds b).1 ∧
      (D.feed react cs b).2.1 = (D.feed react ds b).2.1 ∧
      ((D.feed react cs b).2.1 = .more → (D.feed react cs b).2.2 = (D.feed react ds b).2.2) := by
  have flat_nil : ∀ {es : List (List α)}, [] ∉ es → es.flatten = [] → es = [] := by
    rintro (_ | ⟨e, es⟩) he hf
    · rfl
    · simp only [List.flatten_cons, List.append_eq_nil_iff] at hf
      exact absurd (hf.1 ▸ List.mem_cons_self ..) he
  by_cases hcs : cs = []
  · subst hcs
    rw [flat_nil hd h.symm]
    simp
  · have hds : ds ≠ [] := fun e => hcs (flat_nil hc (by rw [h, e]; rfl))
    obtain ⟨t, ht, hmt⟩ := feed_eq_drain D react hcs b
    obtain ⟨u, hu, hmu⟩ := feed_eq_drain D react hds b
    rw [h, hu] at ht
    simp only [Prod.mk.injEq] at ht
    refine ⟨ht.1.symm, ht.2.1.symm, fun hm => ?_⟩
    have := ht.2.2
    rw [hmt hm, hmu (ht.2.1.trans hm)] at this
    simpa using this.symm

end Decoder

end PongPp.Lib
