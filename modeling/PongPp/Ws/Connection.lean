import PongPp.Lib.Stream
import PongPp.Ws.Frame
import PongPp.Ws.Handshake

/-!
# Connections

A `Connection` is its state and its input buffer. What it calls out to (the message handler
and its socket) is an `Io` on some world `σ`. `handleFrames` is the drain loop; it is shown
equal to draining the frame decoder (`handleFrames_eq`), which makes a connection in the open
state indifferent to how its bytes are cut (`readAll_chunking`).
-/

namespace PongPp.Ws

open Lib

/-- What a connection calls: `on_message_` and `Write`. -/
structure Io (σ : Type*) where
  onMessage : Bytes → σ → σ
  write : Bytes → σ → σ

inductive State where
  | handshake
  | open
  deriving DecidableEq, Repr

inductive ReadResult where
  | ok
  | err
  deriving DecidableEq, Repr

structure Connection where
  state : State
  inBuf : Bytes
  deriving DecidableEq, Repr

/-- A connection just accepted. -/
def Connection.fresh : Connection := ⟨.handshake, []⟩

inductive HandshakePhase where
  | needMore
  | bad
  | responseSent
  deriving DecidableEq, Repr

inductive FramesPhase where
  /-- Not enough bytes for the next frame. -/
  | needMore
  /-- Malformed frame; tear down. -/
  | bad
  /-- Peer sent Close and we acked it; tear down. -/
  | closed
  deriving DecidableEq, Repr

variable {σ : Type*} (io : Io σ)

/-- The phase, the input buffer and the world after `HandleHandshake`. -/
def handleHandshake (buf : Bytes) (w : σ) : HandshakePhase × Bytes × σ :=
  match processHandshake buf with
  | (.needMore, _, buf) => (.needMore, buf, w)
  | (.bad, _, buf) => (.bad, buf, w)
  | (.notUpgrade, response, buf) => (.bad, buf, io.write response w)
  | (.done, response, buf) => (.responseSent, buf, io.write response w)

/-- The phase, the input buffer and the world after `HandleFrames`. -/
def handleFrames (buf : Bytes) (w : σ) : FramesPhase × Bytes × σ :=
  match _h : parseFrame buf with
  | (.needMore, buf) => (.needMore, buf, w)
  | (.bad, buf) => (.bad, buf, w)
  | (.got f, rest) =>
    if !f.fin || f.opcode = .continuation then (.bad, rest, w)
    else
      match f.opcode with
      | .text | .binary => handleFrames rest (io.onMessage f.payload w)
      | .ping => handleFrames rest (io.write (encodeFrame .pong f.payload) w)
      | .pong => handleFrames rest w
      | .close => (.closed, rest, io.write (encodeFrame .close []) w)
      | .continuation => (.bad, rest, w)
      | .reserved _ => handleFrames rest w
termination_by buf.length
decreasing_by all_goals have := parseFrame_got_lt _h; omega

/-- One `Read` that gets `chunk` off the socket; `[]` stands for `n <= 0`, end of file or an
error. -/
def read (c : Connection) (chunk : Bytes) (w : σ) : ReadResult × Connection × σ :=
  if chunk = [] then (.err, c, w)
  else
    let buf := c.inBuf ++ chunk
    match c.state with
    | .handshake =>
      match handleHandshake io buf w with
      | (.needMore, buf, w) => (.ok, ⟨.handshake, buf⟩, w)
      | (.bad, buf, w) => (.err, ⟨.handshake, buf⟩, w)
      | (.responseSent, buf, w) => (.ok, ⟨.open, buf⟩, w)
    | .open =>
      match handleFrames io buf w with
      | (.needMore, buf, w) => (.ok, ⟨.open, buf⟩, w)
      | (.bad, buf, w) => (.err, ⟨.open, buf⟩, w)
      | (.closed, buf, w) => (.err, ⟨.open, buf⟩, w)

/-- Successive reads, up to the first that returns `err`. -/
def readAll : List Bytes → Connection → σ → ReadResult × Connection × σ
  | [], c, w => (.ok, c, w)
  | chunk :: cs, c, w =>
    match read io c chunk w with
    | (.ok, c, w) => readAll cs c w
    | (.err, c, w) => (.err, c, w)

/-! ## The drain loop is the decoder's -/

/-- One call out of a connection. -/
inductive Effect where
  | message (payload : Bytes)
  | write (bytes : Bytes)
  deriving DecidableEq, Repr

def Io.apply (w : σ) : Effect → σ
  | .message m => io.onMessage m w
  | .write b => io.write b w

/-- The world that records every call, oldest first. -/
def trace : Io (List Effect) := ⟨fun m es => es ++ [.message m], fun b es => es ++ [.write b]⟩

/-- `parseFrame` as a decoder. -/
def frames : Decoder UInt8 Frame where
  parse buf :=
    match parseFrame buf with
    | (.needMore, _) => .needMore
    | (.bad, _) => .bad
    | (.got f, rest) => .got f rest
  got_lt {b r f} h := by
    split at h <;> cases h
    rename_i hp
    have := parseFrame_got_lt hp
    omega
  got_append {b r f} h t := by
    split at h <;> cases h
    rename_i hp
    rw [parseFrame_got_append hp]
  bad_append {b} h t := by
    split at h <;> cases h
    rename_i hp
    rw [parseFrame_bad_append hp]

/-- The two ways a frame ends the loop. -/
inductive Teardown where
  | bad
  | closed

/-- What the body of the drain loop does with one frame. -/
def react (f : Frame) : List Effect × Option Teardown :=
  if !f.fin || f.opcode = .continuation then ([], some .bad)
  else
    match f.opcode with
    | .text | .binary => ([.message f.payload], none)
    | .ping => ([.write (encodeFrame .pong f.payload)], none)
    | .pong | .reserved _ => ([], none)
    | .close => ([.write (encodeFrame .close [])], some .closed)
    | .continuation => ([], some .bad)

def phaseOf : Stop Teardown → FramesPhase
  | .more => .needMore
  | .bad | .halted .bad => .bad
  | .halted .closed => .closed

theorem handleFrames_waits {buf rest : Bytes} (h : parseFrame buf = (.needMore, rest)) (w : σ) :
    handleFrames io buf w = (.needMore, rest, w) := by
  rw [handleFrames]
  split <;> rename_i hp <;> rw [hp] at h <;> cases h
  rfl

theorem handleFrames_bad {buf rest : Bytes} (h : parseFrame buf = (.bad, rest)) (w : σ) :
    handleFrames io buf w = (.bad, rest, w) := by
  rw [handleFrames]
  split <;> rename_i hp <;> rw [hp] at h <;> cases h
  rfl

theorem handleFrames_got {buf rest : Bytes} {f : Frame} (h : parseFrame buf = (.got f, rest))
    (w : σ) : handleFrames io buf w =
      match react f with
      | (es, none) => handleFrames io rest (es.foldl io.apply w)
      | (es, some p) => (phaseOf (.halted p), rest, es.foldl io.apply w) := by
  rw [handleFrames]
  split
  · rename_i hp; rw [hp] at h; cases h
  · rename_i hp; rw [hp] at h; cases h
  · rename_i hp
    rw [hp] at h
    cases h
    unfold react
    by_cases hf : (!f.fin || f.opcode = .continuation) = true
    · simp [hf, phaseOf]
    · simp only [hf]
      cases f.opcode <;> simp [Io.apply, phaseOf]

theorem handleFrames_eq (buf : Bytes) (w : σ) :
    handleFrames io buf w =
      (phaseOf (frames.drain react buf).2.1, (frames.drain react buf).2.2,
        (frames.drain react buf).1.foldl io.apply w) := by
  induction hn : buf.length using Nat.strongRecOn generalizing buf w with
  | ind n ih =>
    subst hn
    rcases hp : parseFrame buf with ⟨_ | _ | f, rest⟩
    · obtain rfl := parseFrame_needMore hp
      have hd : frames.parse rest = .needMore := by simp [frames, hp]
      rw [Decoder.drain_needMore hd, handleFrames_waits io hp]
      rfl
    · obtain rfl := parseFrame_bad hp
      have hd : frames.parse rest = .bad := by simp [frames, hp]
      rw [Decoder.drain_bad hd, handleFrames_bad io hp]
      rfl
    · have hd : frames.parse buf = .got f rest := by simp [frames, hp]
      rw [handleFrames_got io hp]
      rcases hr : react f with ⟨es, _ | p⟩
      · rw [Decoder.drain_next hd hr]
        have := parseFrame_got_lt hp
        simp only [ih _ (by omega) rest _ rfl, List.foldl_append]
      · rw [Decoder.drain_halt hd hr]

theorem handleFrames_needMore {buf rest : Bytes} {w w' : σ}
    (h : handleFrames io buf w = (.needMore, rest, w')) : parseFrame rest = (.needMore, rest) := by
  rw [handleFrames_eq] at h
  rcases hd : frames.drain react buf with ⟨es, o, r⟩
  rw [hd] at h
  simp only [Prod.mk.injEq] at h
  obtain ⟨ho, rfl, -⟩ := h
  have hmore : o = .more := by rcases o with _ | _ | _ | _ <;> simp_all [phaseOf]
  have hp := Decoder.drain_more (hmore ▸ hd)
  rcases hr : parseFrame r with ⟨_ | _ | f, r'⟩ <;> simp only [frames, hr] at hp
  · rw [parseFrame_needMore hr]
  all_goals cases hp

/-! ## Reads in the open state -/

def resultOf : Stop Teardown → ReadResult
  | .more => .ok
  | .bad | .halted _ => .err

theorem resultOf_ok {o : Stop Teardown} : resultOf o = .ok ↔ o = .more := by
  cases o <;> simp [resultOf]

theorem read_open (buf : Bytes) {chunk : Bytes} (hc : chunk ≠ []) (w : σ) :
    read io ⟨.open, buf⟩ chunk w =
      (resultOf (frames.drain react (buf ++ chunk)).2.1,
        ⟨.open, (frames.drain react (buf ++ chunk)).2.2⟩,
        (frames.drain react (buf ++ chunk)).1.foldl io.apply w) := by
  simp only [read, if_neg hc, handleFrames_eq]
  rcases frames.drain react (buf ++ chunk) with ⟨es, _ | _ | _ | _, r⟩ <;> rfl

theorem readAll_open {cs : List Bytes} (hcs : [] ∉ cs) (buf : Bytes) (w : σ) :
    readAll io cs ⟨.open, buf⟩ w =
      (resultOf (frames.feed react cs buf).2.1, ⟨.open, (frames.feed react cs buf).2.2⟩,
        (frames.feed react cs buf).1.foldl io.apply w) := by
  induction cs generalizing buf w with
  | nil => rfl
  | cons chunk cs ih =>
    simp only [List.mem_cons, not_or] at hcs
    simp only [readAll, read_open io buf (Ne.symm hcs.1), Decoder.feed]
    rcases frames.drain react (buf ++ chunk) with ⟨es, _ | _ | x, r⟩
    · simp only [resultOf, ih hcs.2, List.foldl_append]
    · rfl
    · rfl

theorem foldl_trace (es fs : List Effect) : es.foldl trace.apply fs = fs ++ es := by
  induction es generalizing fs with
  | nil => simp
  | cons e es ih =>
    rw [List.foldl_cons, ih]
    cases e <;> simp [Io.apply, trace]

/-- **Chunking independence.** In the open state two ways of cutting one stream into non-empty
reads dispatch the same messages and write the same frames in the same order, end alike, and
leave the same buffer when they end well. -/
theorem readAll_chunking (buf : Bytes) {cs ds : List Bytes} (hc : [] ∉ cs) (hd : [] ∉ ds)
    (h : cs.flatten = ds.flatten) :
    (readAll trace cs ⟨.open, buf⟩ []).2.2 = (readAll trace ds ⟨.open, buf⟩ []).2.2 ∧
      (readAll trace cs ⟨.open, buf⟩ []).1 = (readAll trace ds ⟨.open, buf⟩ []).1 ∧
      ((readAll trace cs ⟨.open, buf⟩ []).1 = .ok →
        (readAll trace cs ⟨.open, buf⟩ []).2.1 = (readAll trace ds ⟨.open, buf⟩ []).2.1) := by
  obtain ⟨hes, ho, hb⟩ := Decoder.feed_eq_feed frames react hc hd h buf
  simp only [readAll_open trace hc, readAll_open trace hd, foldl_trace, List.nil_append]
  exact ⟨hes, by rw [ho], fun hok => by rw [hb (resultOf_ok.mp hok)]⟩

/-- A ping cut in two places. -/
theorem readAll_chunking_ping :
    let cs : List Bytes := [[0x89, 0x80], [0, 0, 0, 0]]
    let ds : List Bytes := [[0x89], [0x80, 0, 0, 0], [0]]
    (readAll trace cs ⟨.open, []⟩ []).2.2 = (readAll trace ds ⟨.open, []⟩ []).2.2 ∧
      (readAll trace cs ⟨.open, []⟩ []).1 = (readAll trace ds ⟨.open, []⟩ []).1 ∧
      ((readAll trace cs ⟨.open, []⟩ []).1 = .ok →
        (readAll trace cs ⟨.open, []⟩ []).2.1 = (readAll trace ds ⟨.open, []⟩ []).2.1) :=
  readAll_chunking [] (by decide) (by decide) (by decide)

end PongPp.Ws
