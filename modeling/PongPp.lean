import PongPp.Util.Fips
import PongPp.Ws.Buffering
import PongPp.Ws.Pipeline
import PongPp.Ws.RoundTrip
import PongPp.Ws.Upgrade
import PongPp.Server.Delivery
import PongPp.Server.Greeting
import PongPp.Server.Closing
import PongPp.Server.Control
import PongPp.Server.Reactor
import PongPp.Server.Texts
import PongPp.Server.Relaying
import PongPp.Signaling.Codes
import PongPp.Signaling.Departure
import PongPp.Signaling.Identity
import PongPp.Signaling.Lobby
import PongPp.Signaling.Relay
import PongPp.Signaling.Refine
import PongPp.Game.Sides
import PongPp.Game.Wire
import PongPp.Game.Overflow
import PongPp.Ws.Bounds
import PongPp.Ws.Sending
import PongPp.Session.Settling
import PongPp.Server.Streams
import PongPp.Net.Agreement
import PongPp.Session.Signals
