import PongPp.Server.Quiet

/-!
# The event loop

`main` registers its callbacks with the reactor under file descriptors, which the kernel hands
out again once they are closed. `Loop` is the reactor's state around the server's: `handlers_`,
the rest of the poll array, and who owns which descriptor. `handlers_` and the registry agree
after every callback, and the events of one poll round go to the callbacks that were registered
when `poll` was called (`loop_agrees`).
-/

namespace PongPp.Server

open Function Lib Signaling

abbrev Fd := Nat

/-- The callbacks that `main` registers. -/
inductive Handler where
  | listener
  | client (p : PlayerId)
  deriving DecidableEq, Repr

structure Loop where
  server : State
  /-- `Reactor::handlers_`. -/
  handlers : AList fun _ : Fd => Handler
  /-- `Connection::fd_`. -/
  fdOf : PlayerId → Fd
  /-- The descriptors that are open. -/
  opened : List Fd
  /-- The players whose connection has closed its descriptor, oldest first. -/
  closed : List PlayerId
  /-- The rest of the poll array: the descriptors that have events and were not reached yet. -/
  pfds : List Fd

/-- One turn of `Reactor::Run`: `poll` reports descriptors in some order, or the loop comes to
the next descriptor of the array. `cfd` is what `accept` returns, should that be the listener's
(`none`: it fails, or is not called), `chunk` what one `read` gets, should it be a client's. -/
inductive Turn where
  | poll (ready : List Fd)
  | dispatch (cfd : Option Fd) (chunk : Bytes)
  deriving DecidableEq, Repr

def Turn.isDispatch : Turn → Bool
  | .poll _ => false
  | .dispatch .. => true

namespace Loop

/-- `main` before `reactor.Run()`: a listener on `lfd`. -/
def init (lfd : Fd) : Loop where
  server := .init
  handlers := AList.singleton lfd .listener
  fdOf _ := 0
  opened := [lfd]
  closed := []
  pfds := []

variable (l : Loop) (o : Order)

/-- The listener's callback. -/
def onListener (cfd : Option Fd) : Loop :=
  match cfd with
  | none => l
  | some fd =>
    { l with server := l.server.accept
             handlers := l.handlers.insert fd (.client l.server.world.nextPlayer)
             fdOf := update l.fdOf l.server.world.nextPlayer fd
             opened := fd :: l.opened }

/-- `Connection::~Connection`: `Reactor::Remove`, then `close`. -/
def destroy (p : PlayerId) : Loop :=
  { l with handlers := l.handlers.erase (l.fdOf p)
           opened := l.opened.erase (l.fdOf p)
           closed := l.closed ++ [p] }

/-- A client's callback. The player's connection goes with the player. -/
def onClient (p : PlayerId) (chunk : Bytes) : Loop :=
  let l' := { l with server := l.server.readable o p chunk }
  if l.server.world.alive p && !l'.server.world.alive p then l'.destroy p else l'

def poll (ready : List Fd) : Loop := if l.pfds = [] then { l with pfds := ready } else l

def dispatch (cfd : Option Fd) (chunk : Bytes) : Loop :=
  match l.pfds with
  | [] => l
  | fd :: pfds =>
    let l := { l with pfds }
    match l.handlers.lookup fd with
    | none => l
    | some .listener => l.onListener cfd
    | some (.client p) => l.onClient o p chunk

def step : Order × Turn → Loop → Loop
  | (_, .poll ready), l => l.poll ready
  | (o, .dispatch cfd chunk), l => l.dispatch o cfd chunk

/-- What the kernel does: `poll` reports descriptors it was asked about, each once, and `accept`
returns one that is not open. -/
def Kernel : Order × Turn → Loop → Prop
  | (_, .poll ready), l => ready.Nodup ∧ ∀ fd ∈ ready, fd ∈ l.handlers
  | (_, .dispatch cfd _), l => ∀ fd ∈ cfd, fd ∉ l.opened

instance (t : Order × Turn) (l : Loop) : Decidable (Kernel t l) :=
  match t with
  | (_, .poll _) => inferInstanceAs (Decidable (_ ∧ _))
  | (_, .dispatch cfd _) => inferInstanceAs (Decidable (∀ fd ∈ cfd, _))

/-! ## The server inside the loop -/

theorem step_server (t : Order × Turn) :
    (step t l).server = l.server ∨ ∃ i, (step t l).server = Server.step (t.1, i) l.server := by
  obtain ⟨o, ready | ⟨cfd, chunk⟩⟩ := t
  · refine .inl ?_
    simp only [step, poll]
    split <;> rfl
  · simp only [step, dispatch]
    split
    · exact .inl rfl
    · split
      · exact .inl rfl
      · cases cfd with
        | none => exact .inl rfl
        | some fd => exact .inr ⟨.accept, rfl⟩
      · rename_i p _
        refine .inr ⟨.readable p chunk, ?_⟩
        simp only [onClient]
        split <;> rfl

/-- **A run of the loop is a run of the server.** -/
theorem run_server (ts : List (Order × Turn)) :
    ∃ ls, (run step ts l).server = run Server.step ls l.server := by
  induction ts generalizing l with
  | nil => exact ⟨[], rfl⟩
  | cons t ts ih =>
    obtain ⟨ls, hls⟩ := ih (step t l)
    rcases l.step_server t with h | ⟨i, h⟩
    · exact ⟨ls, by rw [run_cons, hls, h]⟩
    · exact ⟨(t.1, i) :: ls, by rw [run_cons, hls, h, run_cons]⟩

/-! ## Handlers, players and descriptors -/

/-- What the table, the registry and the kernel know of each other. -/
structure Kept (lfd : Fd) (l : Loop) : Prop where
  wf : Wf l.server.world
  listener : ∀ fd, l.handlers.lookup fd = some .listener ↔ fd = lfd
  client : ∀ fd p, l.handlers.lookup fd = some (.client p) ↔
    p ∈ l.server.world.players ∧ l.fdOf p = fd
  opened : ∀ fd ∈ l.handlers, fd ∈ l.opened
  nodup : l.closed.Nodup
  closed : ∀ p, p ∈ l.closed ↔ p < l.server.world.nextPlayer ∧ p ∉ l.server.world.players
  pfds : l.pfds.Nodup
  waiting : ∀ fd ∈ l.pfds, fd ∈ l.handlers

/-- The descriptors that are left of a round have the handlers they had in `H`. -/
def Fresh (H : AList fun _ : Fd => Handler) (l : Loop) : Prop :=
  ∀ fd ∈ l.pfds, l.handlers.lookup fd = H.lookup fd

namespace Kept

variable {l o} {lfd : Fd} {H : AList fun _ : Fd => Handler}

theorem init : Kept lfd (init lfd) := by
  have hlook : ∀ fd, (Loop.init lfd).handlers.lookup fd =
      if fd = lfd then some .listener else none := fun fd => by
    by_cases h : fd = lfd
    · subst h; simp [Loop.init, ← AList.insert_empty]
    · simp [Loop.init, ← AList.insert_empty, AList.lookup_insert_ne h, h]
  refine ⟨.init, ?_, ?_, ?_, List.nodup_nil, ?_, List.nodup_nil, ?_⟩
  · intro fd; rw [hlook]; split <;> simp_all
  · intro fd p; rw [hlook]; simp [Loop.init, State.init, World.init]
  · intro fd hfd
    rw [← AList.lookup_isSome, hlook] at hfd
    split at hfd
    · simp [Loop.init, *]
    · cases hfd
  · intro p; simp [Loop.init, State.init, World.init]
  · intro fd hfd; cases hfd

theorem next (h : Kept lfd l) {fd : Fd} {pfds : List Fd} (hp : l.pfds = fd :: pfds) :
    Kept lfd { l with pfds } ∧ fd ∉ pfds := by
  have hnd : fd ∉ pfds ∧ pfds.Nodup := List.nodup_cons.mp (hp ▸ h.pfds)
  exact ⟨{ h with
    pfds := hnd.2
    waiting := fun g hg => h.waiting g (hp ▸ List.mem_cons_of_mem _ hg) }, hnd.1⟩

/-- A new client gets a descriptor that is not open, so no handler and no event is under it. -/
theorem onListener (h : Kept lfd l) {fd : Fd} (hfd : fd ∉ l.opened) :
    Kept lfd (l.onListener (some fd)) ∧ (Fresh H l → Fresh H (l.onListener (some fd))) := by
  have hnone : l.handlers.lookup fd = none := by
    rw [AList.lookup_eq_none]
    exact fun hm => hfd (h.opened fd hm)
  have hold : ∀ p ∈ l.server.world.players, p ≠ l.server.world.nextPlayer := fun p hp =>
    (h.wf.player_lt p hp).ne
  have hlook : ∀ g, (l.onListener (some fd)).handlers.lookup g =
      if g = fd then some (.client l.server.world.nextPlayer) else l.handlers.lookup g :=
    fun g => by
      by_cases hg : g = fd
      · subst hg; simp [Loop.onListener]
      · simp [Loop.onListener, hg, AList.lookup_insert_ne hg]
  have hmem : ∀ p, p ∈ (l.onListener (some fd)).server.world.players ↔
      p = l.server.world.nextPlayer ∨ p ∈ l.server.world.players := fun p => List.mem_insert_iff
  have hfdOf : ∀ p, (l.onListener (some fd)).fdOf p =
      if p = l.server.world.nextPlayer then fd else l.fdOf p := fun p => update_apply ..
  refine ⟨?_, ?_⟩
  · refine ⟨h.wf.register, ?_, ?_, ?_, h.nodup, ?_, h.pfds, ?_⟩
    · intro g
      rw [hlook]
      split
      · rename_i hg
        subst hg
        simp only [Option.some.injEq, reduceCtorEq, false_iff]
        rintro rfl
        rw [(h.listener _).mpr rfl] at hnone
        cases hnone
      · exact h.listener g
    · intro g p
      rw [hlook, hmem, hfdOf]
      by_cases hp : p = l.server.world.nextPlayer
      · subst hp
        have hno : l.handlers.lookup g ≠ some (.client l.server.world.nextPlayer) := fun he =>
          hold _ ((h.client g _).mp he).1 rfl
        by_cases hg : g = fd
        · simp [hg]
        · simp [hg, hno, Ne.symm hg]
      · by_cases hg : g = fd
        · subst hg
          have hno : ¬ (p ∈ l.server.world.players ∧ l.fdOf p = g) := fun he => by
            rw [(h.client g p).mpr he] at hnone
            cases hnone
          simpa [hp, Ne.symm hp] using hno
        · simp [hg, hp, h.client]
    · intro g hg
      rcases AList.mem_insert _ |>.mp hg with rfl | hg
      · exact List.mem_cons_self ..
      · exact List.mem_cons_of_mem _ (h.opened g hg)
    · intro p
      show p ∈ l.closed ↔ p < l.server.world.nextPlayer + 1 ∧ _
      rw [h.closed, hmem, Nat.lt_succ_iff_lt_or_eq]
      by_cases hp : p = l.server.world.nextPlayer
      · simp [hp]
      · simp [hp]
    · exact fun g hg => (AList.mem_insert _).mpr (.inr (h.waiting g hg))
  · intro hf g hg
    have hne : g ≠ fd := by
      rintro rfl
      exact hfd (h.opened g (h.waiting g hg))
    rw [hlook, if_neg hne]
    exact hf g hg

theorem destroy (h : Kept lfd l) {p : PlayerId}
    (hp : l.handlers.lookup (l.fdOf p) = some (.client p)) (hfd : l.fdOf p ∉ l.pfds) {s : State}
    (hwf : Wf s.world) (hnext : s.world.nextPlayer = l.server.world.nextPlayer)
    (hmem : ∀ q, q ∈ s.world.players ↔ q ∈ l.server.world.players ∧ q ≠ p) :
    Kept lfd ({ l with server := s }.destroy p) ∧
      (Fresh H l → Fresh H ({ l with server := s }.destroy p)) := by
  have hplayer := ((h.client _ p).mp hp).1
  have hlook : ∀ g, ({ l with server := s }.destroy p).handlers.lookup g =
      if g = l.fdOf p then none else l.handlers.lookup g := fun g => by
    by_cases hg : g = l.fdOf p
    · subst hg; simp [Loop.destroy]
    · simp [Loop.destroy, hg, AList.lookup_erase_ne hg]
  have hkeys : ∀ g, g ∈ ({ l with server := s }.destroy p).handlers ↔
      g ≠ l.fdOf p ∧ g ∈ l.handlers := fun g => AList.mem_erase
  have hne : ∀ g ∈ l.pfds, g ≠ l.fdOf p := fun g hg he => hfd (he ▸ hg)
  refine ⟨?_, ?_⟩
  · refine ⟨hwf, ?_, ?_, ?_, ?_, ?_, h.pfds, ?_⟩
    · intro g
      rw [hlook]
      split
      · rename_i hg
        have hlfd : g ≠ lfd := fun he => by
          rw [← hg, (h.listener g).mpr he] at hp
          cases hp
        simp [hlfd]
      · exact h.listener g
    · intro g q
      rw [hlook]
      show _ ↔ q ∈ s.world.players ∧ l.fdOf q = g
      rw [hmem]
      split
      · rename_i hg
        subst hg
        refine iff_of_false (by simp) fun hq => hq.1.2 ?_
        have hsome := (h.client _ q).mpr ⟨hq.1.1, hq.2⟩
        rw [hp] at hsome
        cases hsome
        rfl
      · rename_i hg
        rw [h.client]
        refine ⟨?_, ?_⟩
        · rintro ⟨hq, rfl⟩
          exact ⟨⟨hq, fun hqp => hg (hqp ▸ rfl)⟩, rfl⟩
        · exact fun hq => ⟨hq.1.1, hq.2⟩
    · intro g hg
      obtain ⟨hgp, hg⟩ := (hkeys g).mp hg
      exact (List.mem_erase_of_ne hgp).mpr (h.opened g hg)
    · refine List.nodup_append'.mpr ⟨h.nodup, List.nodup_singleton p, ?_⟩
      rw [List.disjoint_singleton]
      exact fun hm => ((h.closed p).mp hm).2 hplayer
    · intro q
      show q ∈ l.closed ++ [p] ↔ q < s.world.nextPlayer ∧ q ∉ s.world.players
      rw [List.mem_append, List.mem_singleton, h.closed, hmem, hnext]
      by_cases hq : q = p
      · subst hq
        simp [h.wf.player_lt q hplayer]
      · simp [hq]
    · exact fun g hg => (hkeys g).mpr ⟨hne g hg, h.waiting g hg⟩
  · intro hf g hg
    rw [hlook, if_neg (hne g hg)]
    exact hf g hg

theorem onClient (h : Kept lfd l) {p : PlayerId}
    (hp : l.handlers.lookup (l.fdOf p) = some (.client p)) (hfd : l.fdOf p ∉ l.pfds)
    (chunk : Bytes) :
    Kept lfd (l.onClient o p chunk) ∧ (Fresh H l → Fresh H (l.onClient o p chunk)) := by
  have hplayer := ((h.client _ p).mp hp).1
  have halive := (h.wf.alive_iff p).mpr hplayer
  obtain ⟨-, hnext, hmem⟩ := readable_grown o chunk h.wf hplayer
  have hwf : Wf (l.server.readable o p chunk).world := wf_step h.wf (o, .readable p chunk)
  by_cases herr : (calls l.server p chunk).1 = .err
  · have hdead : (l.server.readable o p chunk).world.alive p = false := by
      have hgone : ¬ p ∈ (l.server.readable o p chunk).world.players := fun hm =>
        ((hmem p).mp hm).2 herr rfl
      exact hwf.not_alive hgone
    have heq : l.onClient o p chunk =
        { l with server := l.server.readable o p chunk }.destroy p := by
      simp [Loop.onClient, halive, hdead]
    rw [heq]
    exact h.destroy hp hfd hwf hnext fun q => by rw [hmem]; simp [herr]
  · have hsame : ∀ q, q ∈ (l.server.readable o p chunk).world.players ↔
        q ∈ l.server.world.players := fun q => by rw [hmem]; simp [herr]
    have heq : l.onClient o p chunk = { l with server := l.server.readable o p chunk } := by
      simp [Loop.onClient, (hwf.alive_iff p).mpr ((hsame p).mpr hplayer)]
    rw [heq]
    refine ⟨⟨hwf, h.listener, ?_, h.opened, h.nodup, ?_, h.pfds, h.waiting⟩, fun hf => hf⟩
    · exact fun fd q => (h.client fd q).trans (and_congr_left' (hsame q).symm)
    · intro q
      simp only [hnext, hsame]
      exact h.closed q

theorem dispatch (h : Kept lfd l) {cfd : Option Fd} (hcfd : ∀ fd ∈ cfd, fd ∉ l.opened)
    (chunk : Bytes) :
    Kept lfd (l.dispatch o cfd chunk) ∧ (Fresh H l → Fresh H (l.dispatch o cfd chunk)) := by
  unfold Loop.dispatch
  split
  · exact ⟨h, id⟩
  · rename_i fd pfds hpfds
    obtain ⟨hk, hfd⟩ := h.next hpfds
    have hfresh : Fresh H l → Fresh H { l with pfds } := fun hf g hg =>
      hf g (hpfds ▸ List.mem_cons_of_mem _ hg)
    simp only
    split
    · exact ⟨hk, hfresh⟩
    · cases cfd with
      | none => exact ⟨hk, hfresh⟩
      | some fd' =>
        obtain ⟨hk', hf'⟩ := hk.onListener (H := H) (hcfd fd' rfl)
        exact ⟨hk', hf' ∘ hfresh⟩
    · rename_i p hp
      obtain rfl : l.fdOf p = fd := ((h.client fd p).mp hp).2
      obtain ⟨hk', hf'⟩ := hk.onClient (H := H) (o := o) hp hfd chunk
      exact ⟨hk', hf' ∘ hfresh⟩

theorem step {t : Order × Turn} (hg : Kernel t l) (h : Kept lfd l) : Kept lfd (step t l) := by
  obtain ⟨o, ready | ⟨cfd, chunk⟩⟩ := t
  · simp only [Loop.step, Loop.poll]
    split
    · exact { h with pfds := hg.1, waiting := hg.2 }
    · exact h
  · exact (h.dispatch (H := ∅) hg chunk).1

end Kept

/-! ## The agreement -/

/-- `handlers_` is the listener and the registered players. -/
structure Agrees (lfd : Fd) (l : Loop) : Prop where
  keys : ∀ fd, fd ∈ l.handlers ↔ fd = lfd ∨ ∃ p ∈ l.server.world.players, l.fdOf p = fd
  distinct : ∀ p ∈ l.server.world.players, l.fdOf p ≠ lfd ∧
    ∀ q ∈ l.server.world.players, l.fdOf p = l.fdOf q → p = q
  opened : ∀ fd ∈ l.handlers, fd ∈ l.opened
  /-- A connection is closed once, when its player is gone. -/
  once : l.closed.Nodup
  gone : ∀ p, p ∈ l.closed ↔ p < l.server.world.nextPlayer ∧ p ∉ l.server.world.players

/-- The next event goes to the handler its descriptor had in `l₀`, of a player that was
registered then and still is. -/
structure Delivered (l₀ l : Loop) (fd : Fd) : Prop where
  handler : ∃ h, l.handlers.lookup fd = some h ∧ l₀.handlers.lookup fd = some h
  client : ∀ p, l.handlers.lookup fd = some (.client p) →
    p ∈ l₀.server.world.players ∧ p ∈ l.server.world.players

theorem Kept.agrees {lfd : Fd} {l : Loop} (h : Kept lfd l) : Agrees lfd l where
  keys fd := by
    rw [← AList.lookup_isSome, Option.isSome_iff_exists]
    refine ⟨?_, ?_⟩
    · rintro ⟨_ | p, hh⟩
      · exact .inl ((h.listener fd).mp hh)
      · exact .inr ⟨p, (h.client fd p).mp hh⟩
    · rintro (rfl | ⟨p, hp⟩)
      · exact ⟨_, (h.listener _).mpr rfl⟩
      · exact ⟨_, (h.client fd p).mpr hp⟩
  distinct p hp := by
    have hlook := (h.client _ p).mpr ⟨hp, rfl⟩
    refine ⟨?_, ?_⟩
    · intro he
      rw [(h.listener _).mpr he] at hlook
      cases hlook
    · intro q hq he
      rw [(h.client _ q).mpr ⟨hq, he.symm⟩] at hlook
      cases hlook
      rfl
  opened := h.opened
  once := h.nodup
  gone := h.closed

/-- **Loop and registry agree**: after every turn `handlers_` is the listener and the registered
players, each under an open descriptor of its own, and no connection is closed twice. Every event
of a poll round goes to the handler that was registered when `poll` was called. -/
theorem loop_agrees (lfd : Fd) (ts : List (Order × Turn))
    (hts : Guarded step Kernel ts (init lfd)) :
    Agrees lfd (run step ts (init lfd)) ∧
      ∀ ts₀ o ready ds, ts = ts₀ ++ (o, .poll ready) :: ds → (∀ d ∈ ds, d.2.isDispatch = true) →
        let l₀ := run step ts₀ (init lfd)
        let l := run step ts (init lfd)
        l₀.pfds = [] → ∀ fd pfds, l.pfds = fd :: pfds → Delivered l₀ l fd := by
  have hkept : Kept lfd (run step ts (init lfd)) :=
    run_inv_guarded (fun _ _ hg h => h.step hg) hts Kept.init
  refine ⟨hkept.agrees, ?_⟩
  rintro ts₀ o ready ds rfl hds
  simp only
  intro hnil fd pfds hpfds
  obtain ⟨hts₀, hpoll, hrest⟩ := Guarded.append.mp hts
  have hkept₀ : Kept lfd (run step ts₀ (init lfd)) :=
    run_inv_guarded (fun _ _ hg h => h.step hg) hts₀ Kept.init
  generalize hl₀ : run step ts₀ (init lfd) = l₀ at *
  -- the round, from the state `poll` leaves
  have hround : ∀ (ds : List (Order × Turn)) l, Guarded step Kernel ds l →
      (∀ d ∈ ds, d.2.isDispatch = true) → Kept lfd l → Fresh l₀.handlers l →
      Fresh l₀.handlers (run step ds l) := by
    intro ds
    induction ds with
    | nil => exact fun _ _ _ _ hf => hf
    | cons d ds ih =>
      intro l hg hd hk hf
      refine ih _ hg.2 (fun d hm => hd d (List.mem_cons_of_mem _ hm)) (hk.step hg.1) ?_
      obtain ⟨o, ready | ⟨cfd, chunk⟩⟩ := d
      · cases hd _ (List.mem_cons_self ..)
      · exact (hk.dispatch hg.1 chunk).2 hf
  have hstart : step (o, .poll ready) l₀ = { l₀ with pfds := ready } := by
    simp [step, Loop.poll, hnil]
  have hfresh := hround ds _ hrest hds (hkept₀.step hpoll) (by rw [hstart]; exact fun _ _ => rfl)
  rw [run_append, run_cons, hl₀] at hkept hpfds ⊢
  generalize run step ds (step (o, .poll ready) l₀) = l at *
  have hfd : fd ∈ l.pfds := hpfds ▸ List.mem_cons_self ..
  have hsame : l.handlers.lookup fd = l₀.handlers.lookup fd := hfresh fd hfd
  obtain ⟨h, hh⟩ := Option.isSome_iff_exists.mp (AList.lookup_isSome.mpr (hkept.waiting fd hfd))
  refine ⟨⟨h, hh, hsame ▸ hh⟩, fun p hp => ?_⟩
  exact ⟨((hkept₀.client fd p).mp (hsame ▸ hp)).1, ((hkept.client fd p).mp hp).1⟩

/-- Descriptor 4 is closed and accepted again within one round. -/
def recycled : List (Order × Turn) :=
  [(.id, .poll [3]), (.id, .dispatch (some 4) []), (.id, .poll [4, 3]), (.id, .dispatch none []),
    (.id, .dispatch (some 4) [])]

theorem loop_agrees_recycled :
    (run step recycled (init 3)).closed = [0] ∧ Agrees 3 (run step recycled (init 3)) :=
  ⟨by decide, (loop_agrees 3 recycled (by decide)).1⟩

end Loop

end PongPp.Server
