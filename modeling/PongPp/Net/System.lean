import PongPp.Net.Browser
import PongPp.Server.Greeting

/-!
# Browsers and server

Any number of browsers and the one server, with nothing between them but bytes. The network hands
them over in pieces of any size, at any time and for any connection next; a connection can break at
any time, and its two ends notice in their own time. A socket takes all that is written to it.
-/

namespace PongPp.Net

open Function Lib Signaling

structure State where
  server : Server.State
  tab : PlayerId → Tab

def State.init : State := ⟨.init, fun _ => .init .plain fun _ _ => 0⟩

/-- What happens: a browser opens a page and its connection is accepted; something happens at a
page by itself; the server reads the next bytes of a page, at most `n`; a read of the server's
fails, or is at the end of the file; the next bytes from the server arrive, at most `n`; a browser
notices that its connection has ended. -/
inductive Move where
  | connect (q : Upgrade) (keys : Nat → Ws.Key)
  | happen (p : PlayerId) (e : Web.Event)
  | readable (p : PlayerId) (n : Nat)
  | hangup (p : PlayerId)
  | arrive (p : PlayerId) (n : Nat)
  | lost (p : PlayerId)

namespace State

variable (s : State)

/-- Something happens to a page that was opened. -/
def modify (p : PlayerId) (f : Tab → Tab) : State :=
  if p < s.server.world.nextPlayer then { s with tab := update s.tab p (f (s.tab p)) } else s

/-- What the server reads next. -/
def toRead (p : PlayerId) (n : Nat) : Bytes := (s.tab p).out.take n

/-- What arrives at a page next. -/
def toArrive (p : PlayerId) (n : Nat) : Bytes :=
  ((Server.written s.server p).drop (s.tab p).taken).take n

end State

def step : Order × Move → State → State
  | (o, .connect q keys), s =>
    ⟨Server.step (o, .accept) s.server, update s.tab s.server.world.nextPlayer (.init q keys)⟩
  | (_, .happen p e), s => if e.isLocal then s.modify p (·.happen e) else s
  | (o, .readable p n), s =>
    if s.toRead p n = [] then s
    else ⟨Server.step (o, .readable p (s.toRead p n)) s.server,
      update s.tab p { s.tab p with out := (s.tab p).out.drop n }⟩
  | (o, .hangup p), s => { s with server := Server.step (o, .readable p []) s.server }
  | (_, .arrive p n), s => s.modify p (·.receive (s.toArrive p n))
  | (_, .lost p), s => s.modify p (·.happen .wsClose)

/-- The signaling events of a move. -/
def State.events (s : State) : Order × Move → List Label
  | (o, .connect _ _) => [(o, .connect)]
  | (o, .readable p n) =>
    if s.toRead p n = [] then []
    else (Server.events s.server (.readable p (s.toRead p n))).map (o, ·)
  | (o, .hangup p) => (Server.events s.server (.readable p [])).map (o, ·)
  | _ => []

/-! ## Users -/

/-- The user asks for nothing while the answer to a `CREATE` or `JOIN` is out, envelopes do not end
in a newline, and what the page says fits into a frame that the server takes. -/
def Patient (l : Order × Move) (s : State) : Prop :=
  match l.2 with
  | .happen p e =>
    ((Web.linesOf ((s.tab p).page.step e).2).any (·.isRequest) = true →
      (s.tab p).asked = false) ∧ Session.Envelope e ∧
      ∀ line ∈ Web.linesOf ((s.tab p).page.step e).2, (utf8Encode line.text).length ≤ 2 ^ 20
  | _ => True

/-- There are room codes left, and what is written is no longer than a string can be. -/
def Roomy (e : Label) (w : World) : Prop :=
  CodeLeft e w ∧ ∀ x ∈ Signaling.sent e w, x.2.bytes.length < 2 ^ 63

def Fair (l : Order × Move) (s : State) : Prop :=
  Patient l s ∧ Guarded Signaling.step Roomy (s.events l) (Server.texts s.server.world)

instance (l : Order × Move) (s : State) : Decidable (Patient l s) :=
  match l with
  | (_, .happen ..) => inferInstanceAs (Decidable ((_ → _) ∧ _ ∧ ∀ line ∈ _, _))
  | (_, .connect ..) | (_, .readable ..) | (_, .hangup _) | (_, .arrive ..) | (_, .lost _) =>
    .isTrue trivial

instance (e : Label) (w : World) : Decidable (Roomy e w) :=
  inferInstanceAs (Decidable (_ ∧ ∀ x ∈ _, _))

instance (l : Order × Move) (s : State) : Decidable (Fair l s) :=
  inferInstanceAs (Decidable (_ ∧ _))

end PongPp.Net
