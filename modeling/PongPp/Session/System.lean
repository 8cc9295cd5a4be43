import PongPp.Server.Relaying
import PongPp.Signaling.Codes
import PongPp.Signaling.Refine
import PongPp.Web.Page

/-!
# Pages and server together

Any number of pages, each with a connection to the one server. A connection is two queues: lines
on their way up, and what the server has written on its way down, the answer to the upgrade
request among it. The pages, the server and both directions of every connection go on in any
order; a connection can break at any time, and the two ends notice in their own time. Room and
game that a line belongs to, and what was said and heard in a game, are history: no guard and no
step reads them.
-/

namespace PongPp.Session

open Lib Signaling

/-- What comes down a connection: the answer to the upgrade request, then lines. -/
inductive Item where
  | response
  | line (msg : Msg)
  deriving DecidableEq, Repr

structure Client where
  page : Web.Page
  /-- The server has answered the upgrade request. -/
  upgraded : Bool
  /-- Lines on their way to the server with the game they were sent in, oldest first. -/
  up : List (Option RoomId × Web.Line)
  /-- What is on its way to the page, with the page's room when it was written. -/
  down : List (Option RoomId × Item)
  /-- A `CREATE` or `JOIN` of the user has not been answered. -/
  asked : Bool
  /-- The game the page is in. -/
  game : Option RoomId
  /-- What the page has relayed, and what it was relayed, game by game. -/
  said : List (RoomId × Web.Str)
  heard : List (RoomId × Web.Str)

def Client.init : Client where
  page := .init
  upgraded := false
  up := []
  down := []
  asked := false
  game := none
  said := []
  heard := []

structure System where
  world : World
  client : PlayerId → Client

def System.init : System := ⟨.init, fun _ => .init⟩

/-! ## Lines -/

/-- What a player in `room` is written, as it goes on its way. -/
def itemsOf (room : Option RoomId) (ps : List Packet) : List (Option RoomId × Item) :=
  ps.filterMap fun
    | .text msg => some (room, .line msg)
    | .raw _ => none

/-- A call that answers a `CREATE` or `JOIN`. -/
def isAnswer : Web.Call → Bool
  | .onCreated _ | .onReady _ => true
  | .onError reason => reason = "join_failed".toList
  | _ => false

/-! ## A page and its connection -/

namespace Client

variable (c : Client)

/-- Something happens at the page. -/
def happen (e : Web.Event) : Client :=
  let (page, outs) := c.page.step e
  let lines := Web.linesOf outs
  { c with page
           up := c.up ++ lines.map (c.game, ·)
           asked := c.asked || lines.any (·.isRequest)
           said := c.said ++ lines.filterMap fun
             | .relay body => c.game.map (·, body)
             | _ => none }

/-- The history of a call of the page. -/
def note (room : Option RoomId) (call : Web.Call) : Client :=
  { c with asked := c.asked && !isAnswer call
           game := match call with
             | .onReady _ => room
             | .onPeerLeft => none
             | _ => c.game
           heard := match call with
             | .onRelay body =>
               if c.page.pc.isSome then c.heard ++ (c.game.map (·, body)).toList else c.heard
             | _ => c.heard }

/-- The browser gives up on the connection. -/
def fail : Client := (c.happen .wsError).happen .wsClose

/-- A line arrives at a page. In front of the answer to the upgrade request, or with bytes that are
not UTF-8, it ends the connection. -/
def hear (room : Option RoomId) (msg : Msg) : Client :=
  match c.page.ws with
  | .connecting => c.fail
  | .open =>
    match utf8Decode msg.text with
    | some data =>
      match Web.Signaling.handleMessage data with
      | some call => (c.note room call).happen (.wsMessage data)
      | none => c
    | none => c.fail
  | _ => c

/-- The next thing arrives at the page. -/
def deliver : Client :=
  match c.down with
  | [] => c
  | (room, item) :: down =>
    let c := { c with down }
    match item with
    | .response => if c.page.ws = .connecting then c.happen .wsOpen else c
    | .line msg => c.hear room msg

/-- What the server writes goes on its way. -/
def receive (room : Option RoomId) (ps : List Packet) : Client :=
  { c with down := c.down ++ itemsOf room ps }

/-- The server answers the upgrade request. -/
def upgrade : Client :=
  if c.upgraded then c else { c with upgraded := true, down := c.down ++ [(none, .response)] }

end Client

/-! ## Moves -/

/-- What happens: a page is opened and its connection accepted, its upgrade request answered;
something happens at the page by itself; the server handles the next line of a page; the next
thing from the server arrives at a page; the server, or the page, notices that its connection has
ended. -/
inductive Move where
  | connect
  | upgrade (p : PlayerId)
  | happen (p : PlayerId) (e : Web.Event)
  | serve (p : PlayerId)
  | deliver (p : PlayerId)
  | hangup (p : PlayerId)
  | lost (p : PlayerId)
  deriving DecidableEq

namespace System

variable (s : System)

/-- Something happens to the client of a page that was opened. -/
def modify (p : PlayerId) (f : Client → Client) : System :=
  if p < s.world.nextPlayer then { s with client := Function.update s.client p (f (s.client p)) }
  else s

/-- An event of the server: what it writes goes on its way. -/
def serverEvent (l : Label) : System where
  world := Signaling.step l s.world
  client q := (s.client q).receive ((Signaling.step l s.world).roomOf q) (inbox q (sent l s.world))

end System

def step : Order × Move → System → System
  | (o, .connect), s => s.serverEvent (o, .connect)
  | (_, .upgrade p), s => if p ∈ s.world.players then s.modify p .upgrade else s
  | (_, .happen p e), s => if e.isLocal then s.modify p (·.happen e) else s
  | (o, .serve p), s =>
    match (s.client p).up with
    | [] => s
    | (_, line) :: up =>
      (s.modify p ({ · with up })).serverEvent (o, .message p (utf8Encode line.text))
  | (_, .deliver p), s => s.modify p .deliver
  | (o, .hangup p), s => s.serverEvent (o, .disconnect p)
  | (_, .lost p), s => s.modify p (·.happen .wsClose)

/-- The event of the server in a move. -/
def System.event (s : System) : Order × Move → Option Label
  | (o, .connect) => some (o, .connect)
  | (o, .serve p) => (s.client p).up.head?.map fun x => (o, .message p (utf8Encode x.2.text))
  | (o, .hangup p) => some (o, .disconnect p)
  | _ => none

/-- The events of the server in a run. -/
def events (ls : List (Order × Move)) (s : System) : List Label :=
  outputs step (fun l s => (s.event l).toList) ls s

/-! ## Users -/

/-- What `JSON.stringify` gives for an envelope does not end in a newline. -/
def Envelope : Web.Event → Prop
  | .signal body => Server.Endable body
  | _ => True

/-- The user asks for nothing while the answer to a `CREATE` or `JOIN` is out. -/
def Patient (l : Order × Move) (s : System) : Prop :=
  match l.2 with
  | .happen p e =>
    ((Web.linesOf ((s.client p).page.step e).2).any (·.isRequest) = true →
      (s.client p).asked = false) ∧ Envelope e
  | _ => True

/-- A patient user, and room codes left. -/
def Fair (l : Order × Move) (s : System) : Prop :=
  Patient l s ∧ ∀ e ∈ s.event l, CodeLeft e s.world

instance (body : Web.Str) : Decidable (Server.Endable body) := Option.decidableForallMem _

instance (e : Web.Event) : Decidable (Envelope e) :=
  match e with
  | .signal body => inferInstanceAs (Decidable (Server.Endable body))
  | .wsOpen | .wsError | .wsClose | .wsMessage _ | .dataChannel _ | .dcOpen | .dcClose
  | .dcMessage _ | .connectionState _ | .clickHost | .clickJoin | .clickRoom _ | .clickCancel
  | .enter | .input _ | .key _ | .frame => .isTrue trivial

instance (l : Order × Move) (s : System) : Decidable (Patient l s) :=
  match l with
  | (_, .happen ..) => inferInstanceAs (Decidable ((_ → _) ∧ _))
  | (_, .connect) | (_, .upgrade _) | (_, .serve _) | (_, .deliver _) | (_, .hangup _)
  | (_, .lost _) => .isTrue trivial

instance (e : Label) (w : World) : Decidable (CodeLeft e w) :=
  inferInstanceAs (Decidable (_ → _))

instance (l : Order × Move) (s : System) : Decidable (Fair l s) :=
  have : Decidable (∀ e ∈ s.event l, CodeLeft e s.world) := Option.decidableForallMem _
  inferInstanceAs (Decidable (_ ∧ ∀ e ∈ s.event l, _))

end PongPp.Session
