import Mathlib.Data.List.Forall2
import PongPp.Lib.Run
import PongPp.Ws.Frame

/-!
# Writes to a socket

`Connection::Write` hands a string to its socket in as many calls of `::write` as it takes. What
each of them comes to is an `Outcome`; a `Socket` has those to come, and what it took so far.
An error ends the call and nothing remembers it: the strings that follow are sent all the same.
So the socket takes a prefix of all strings as long as it takes nothing behind an error, and all
of them if there is none (`ordered_writes`).
-/

namespace PongPp.Ws

open Lib

/-- What one `::write` of some bytes comes to. -/
inductive Outcome where
  /-- `more + 1` bytes are taken, or all there are. -/
  | accepted (more : Nat)
  | eintr
  /-- Any other `errno`. -/
  | error
  deriving DecidableEq, Repr

def Outcome.accepts : Outcome → Bool
  | .accepted _ => true
  | _ => false

/-- The loop of `Write`: the bytes that are taken of `s`, and the outcomes that are left when it
returns; `none` if it is still in its loop when there are no more. -/
def writeLoop (s : Bytes) : List Outcome → Bytes × Option (List Outcome)
  | [] => ([], if s = [] then some [] else none)
  | o :: os =>
    if s = [] then ([], some (o :: os))
    else
      match o with
      | .eintr => writeLoop s os
      | .error => ([], some os)
      | .accepted more =>
        (s.take (more + 1) ++ (writeLoop (s.drop (more + 1)) os).1,
          (writeLoop (s.drop (more + 1)) os).2)

structure Socket where
  /-- The bytes taken so far. -/
  taken : Bytes
  /-- The outcomes to come; `none` while a call of `Write` is in its loop. -/
  outcomes : Option (List Outcome)

/-- `Connection::Write`. -/
def Socket.write (s : Bytes) (k : Socket) : Socket :=
  match k.outcomes with
  | none => k
  | some os => ⟨k.taken ++ (writeLoop s os).1, (writeLoop s os).2⟩

/-- The socket after the strings `ss` were passed to `Write`, one after the other. -/
def sendAll (ss : List Bytes) (os : List Outcome) : Socket := run Socket.write ss ⟨[], some os⟩

/-! ## One call -/

/-- How a call ends: with all bytes taken, with an error, or not yet. -/
inductive Ended (s : Bytes) (os : List Outcome) : Bytes → Option (List Outcome) → Prop where
  | whole {used rest : List Outcome} (hos : os = used ++ rest) (hgood : .error ∉ used) :
    Ended s os s (some rest)
  | cut {used rest : List Outcome} {p : Bytes} (hos : os = used ++ .error :: rest)
    (hgood : .error ∉ used) (hp : p <+: s) : Ended s os p (some rest)
  | running {p : Bytes} (hgood : .error ∉ os) (hp : p <+: s) : Ended s os p none

theorem Ended.again {s p : Bytes} {o : Outcome} {os : List Outcome} {r : Option (List Outcome)}
    (ho : .error ≠ o) (n : Nat) (h : Ended (s.drop n) os p r) :
    Ended s (o :: os) (s.take n ++ p) r := by
  have hmem : ∀ {used : List Outcome}, .error ∉ used → .error ∉ o :: used := fun hgood =>
    List.not_mem_cons_of_ne_of_not_mem ho hgood
  have hback : p <+: s.drop n → s.take n ++ p <+: s := fun hp => by
    conv_rhs => rw [← List.take_append_drop n s]
    exact (List.prefix_append_right_inj _).mpr hp
  cases h with
  | whole hos hgood =>
    rw [List.take_append_drop]
    exact .whole (congrArg (o :: ·) hos) (hmem hgood)
  | cut hos hgood hp => exact .cut (congrArg (o :: ·) hos) (hmem hgood) (hback hp)
  | running hgood hp => exact .running (hmem hgood) (hback hp)

/-- **A call** of `Write`. -/
theorem writeLoop_ended (s : Bytes) (os : List Outcome) :
    Ended s os (writeLoop s os).1 (writeLoop s os).2 := by
  induction os generalizing s with
  | nil =>
    unfold writeLoop
    by_cases hs : s = []
    · rw [if_pos hs, hs]
      exact .whole rfl List.not_mem_nil
    · rw [if_neg hs]
      exact .running List.not_mem_nil List.nil_prefix
  | cons o os ih =>
    unfold writeLoop
    by_cases hs : s = []
    · rw [if_pos hs, hs]
      exact .whole (List.nil_append _).symm List.not_mem_nil
    rw [if_neg hs]
    cases o with
    | eintr => exact .again (by decide) 0 (ih s)
    | error => exact .cut (List.nil_append _).symm List.not_mem_nil List.nil_prefix
    | accepted more => exact .again (by simp) (more + 1) (ih _)

theorem Ended.rest {s p : Bytes} {os rest : List Outcome} (h : Ended s os p (some rest)) :
    rest <:+ os := by
  cases h with
  | whole hos _ => exact ⟨_, hos.symm⟩
  | cut hos _ _ => exact (List.suffix_cons ..).trans ⟨_, hos.symm⟩

theorem Ended.part {s p : Bytes} {os : List Outcome} {r : Option (List Outcome)}
    (h : Ended s os p r) : p <+: s := by
  cases h with
  | whole _ _ => exact List.prefix_rfl
  | cut _ _ hp => exact hp
  | running _ hp => exact hp

theorem writeLoop_refused {os : List Outcome} (h : ∀ o ∈ os, o.accepts = false) (s : Bytes) :
    (writeLoop s os).1 = [] := by
  induction os with
  | nil => rfl
  | cons o os ih =>
    obtain ⟨ho, hos⟩ := List.forall_mem_cons.mp h
    unfold writeLoop
    by_cases hs : s = []
    · rw [if_pos hs]
    rw [if_neg hs]
    cases o with
    | eintr => exact ih hos
    | error => rfl
    | accepted more => cases ho

theorem writeLoop_returns {s : Bytes} {os : List Outcome}
    (h : s.length ≤ os.countP Outcome.accepts) : ∃ rest, (writeLoop s os).2 = some rest ∧
      os.countP Outcome.accepts ≤ rest.countP Outcome.accepts + s.length := by
  induction os generalizing s with
  | nil =>
    obtain rfl : s = [] := List.eq_nil_of_length_eq_zero (Nat.le_zero.mp h)
    exact ⟨[], rfl, le_rfl⟩
  | cons o os ih =>
    unfold writeLoop
    by_cases hs : s = []
    · rw [if_pos hs]
      exact ⟨o :: os, rfl, Nat.le_add_right ..⟩
    rw [if_neg hs]
    cases o with
    | eintr =>
      rw [List.countP_cons_of_neg (by decide)] at h ⊢
      exact ih h
    | error =>
      rw [List.countP_cons_of_neg (by decide)]
      exact ⟨os, rfl, Nat.le_add_right ..⟩
    | accepted more =>
      have hpos := List.length_pos_of_ne_nil hs
      rw [List.countP_cons_of_pos (by rfl)] at h ⊢
      have hdrop : (s.drop (more + 1)).length = s.length - (more + 1) := List.length_drop
      obtain ⟨rest, hrest, hcount⟩ := ih (s := s.drop (more + 1)) (by omega)
      exact ⟨rest, hrest, by omega⟩

/-! ## Many calls -/

/-- No bytes are taken behind an error: the peer is gone. -/
def Final (os : List Outcome) : Prop := os.Pairwise fun o o' => o = .error → o'.accepts = false

instance (os : List Outcome) : Decidable (Final os) :=
  inferInstanceAs (Decidable (List.Pairwise ..))

section Run

variable {t : Bytes} {os : List Outcome}

theorem run_write_none (ss : List Bytes) (t : Bytes) :
    run Socket.write ss ⟨t, none⟩ = ⟨t, none⟩ := by
  induction ss with
  | nil => rfl
  | cons s ss ih => exact ih

theorem run_write_cons (s : Bytes) (ss : List Bytes) (t : Bytes) (os : List Outcome) :
    run Socket.write (s :: ss) ⟨t, some os⟩ =
      run Socket.write ss ⟨t ++ (writeLoop s os).1, (writeLoop s os).2⟩ := rfl

theorem run_write_parts (ss : List Bytes) (t : Bytes) (os : List Outcome) :
    ∃ ps, List.Forall₂ (· <+: ·) ps ss ∧
      (run Socket.write ss ⟨t, some os⟩).taken = t ++ ps.flatten := by
  induction ss generalizing t os with
  | nil => exact ⟨[], .nil, (List.append_nil t).symm⟩
  | cons s ss ih =>
    rw [run_write_cons]
    have hended := writeLoop_ended s os
    cases hr : (writeLoop s os).2 with
    | none =>
      refine ⟨(writeLoop s os).1 :: ss.map fun _ => [], .cons hended.part ?_, ?_⟩
      · rw [List.forall₂_map_left_iff]
        exact List.forall₂_same.mpr fun _ _ => List.nil_prefix
      · rw [run_write_none]
        simp
    | some rest =>
      obtain ⟨ps, hps, htaken⟩ := ih (t ++ (writeLoop s os).1) rest
      exact ⟨_ :: ps, .cons hended.part hps, by rw [htaken, List.append_assoc, List.flatten_cons]⟩

theorem run_write_refused (ss : List Bytes) (h : ∀ o ∈ os, o.accepts = false) :
    (run Socket.write ss ⟨t, some os⟩).taken = t := by
  induction ss generalizing os with
  | nil => rfl
  | cons s ss ih =>
    have hended := writeLoop_ended s os
    rw [run_write_cons, writeLoop_refused h, List.append_nil]
    cases hr : (writeLoop s os).2 with
    | none => rw [run_write_none]
    | some rest =>
      rw [hr] at hended
      exact ih fun o ho => h o (hended.rest.mem ho)

theorem run_write_part (ss : List Bytes) (h : Final os) :
    ∃ p, p <+: ss.flatten ∧ (run Socket.write ss ⟨t, some os⟩).taken = t ++ p := by
  induction ss generalizing t os with
  | nil => exact ⟨[], List.nil_prefix, (List.append_nil t).symm⟩
  | cons s ss ih =>
    rw [run_write_cons, List.flatten_cons]
    have hended := writeLoop_ended s os
    generalize (writeLoop s os).1 = p at hended ⊢
    generalize (writeLoop s os).2 = r at hended ⊢
    cases hended with
    | whole hos hgood =>
      rw [hos] at h
      obtain ⟨p, hp, htaken⟩ := ih (t := t ++ s) (List.pairwise_append.mp h).2.1
      exact ⟨s ++ p, (List.prefix_append_right_inj s).mpr hp, by rw [htaken, List.append_assoc]⟩
    | cut hos hgood hp =>
      rw [hos] at h
      have hrest := (List.pairwise_cons.mp (List.pairwise_append.mp h).2.1).1
      exact ⟨p, hp.trans (List.prefix_append ..), run_write_refused ss fun o ho => hrest o ho rfl⟩
    | running hgood hp =>
      exact ⟨p, hp.trans (List.prefix_append ..), by rw [run_write_none]⟩

theorem run_write_whole (ss : List Bytes) (h : .error ∉ os)
    (hreturned : (run Socket.write ss ⟨t, some os⟩).outcomes ≠ none) :
    (run Socket.write ss ⟨t, some os⟩).taken = t ++ ss.flatten := by
  induction ss generalizing t os with
  | nil => exact (List.append_nil t).symm
  | cons s ss ih =>
    rw [run_write_cons] at hreturned ⊢
    have hended := writeLoop_ended s os
    generalize (writeLoop s os).1 = p at hended hreturned ⊢
    generalize (writeLoop s os).2 = r at hended hreturned ⊢
    cases hended with
    | @whole used rest hos hgood =>
      have hrest : .error ∉ rest := fun hm => h (hos ▸ List.mem_append_right _ hm)
      rw [ih hrest hreturned, List.append_assoc, List.flatten_cons]
    | cut hos hgood hp => exact absurd (hos ▸ List.mem_append_right _ (List.mem_cons_self ..)) h
    | running hgood hp =>
      rw [run_write_none] at hreturned
      exact absurd rfl hreturned

theorem run_write_returns (ss : List Bytes)
    (h : ss.flatten.length ≤ os.countP Outcome.accepts) :
    (run Socket.write ss ⟨t, some os⟩).outcomes ≠ none := by
  induction ss generalizing t os with
  | nil => exact Option.some_ne_none os
  | cons s ss ih =>
    rw [List.flatten_cons, List.length_append] at h
    have henough : s.length ≤ os.countP Outcome.accepts := by omega
    obtain ⟨rest, hrest, hcount⟩ := writeLoop_returns henough
    rw [run_write_cons, hrest]
    exact ih (by omega)

end Run

/-- What a socket with the outcomes `os` takes of the strings `ss`. -/
structure Ordered (ss : List Bytes) (os : List Outcome) : Prop where
  /-- A prefix of every string, in their order, -/
  parts : ∃ ps, List.Forall₂ (· <+: ·) ps ss ∧ (sendAll ss os).taken = ps.flatten
  /-- which is one of all strings as long as errors are final: nothing follows a string that is
  cut short. -/
  ordered : Final os → (sendAll ss os).taken <+: ss.flatten
  /-- Without errors nothing is missing once the calls have returned, -/
  whole : .error ∉ os → (sendAll ss os).outcomes ≠ none → (sendAll ss os).taken = ss.flatten
  /-- as they do when there are as many acceptances as bytes. -/
  returned : ss.flatten.length ≤ os.countP Outcome.accepts → (sendAll ss os).outcomes ≠ none

/-- **Writes** to one socket. -/
theorem ordered_writes (ss : List Bytes) (os : List Outcome) : Ordered ss os where
  parts := run_write_parts ss [] os
  ordered h := by
    obtain ⟨p, hp, htaken⟩ := run_write_part (t := []) ss h
    rw [sendAll, htaken]
    exact hp
  whole h hreturned := run_write_whole ss h hreturned
  returned h := run_write_returns ss h

/-- After an error in the middle of a frame the next frame is sent all the same. -/
theorem cut_frame_followed :
    ¬ ∀ (ss : List Bytes) (os : List Outcome), (sendAll ss os).taken <+: ss.flatten := by
  intro h
  have hcut := h [encodeFrame .text (ascii "a"), encodeFrame .text (ascii "b")]
    [.accepted 0, .error, .accepted 9]
  revert hcut
  decide +kernel

end PongPp.Ws
