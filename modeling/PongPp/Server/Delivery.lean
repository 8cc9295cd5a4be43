import PongPp.Server.Greeting
import PongPp.Ws.Sending

/-!
# What reaches a client

In the model every socket takes all that is written to it. Of a socket that takes less at a time,
or fails, a client gets a prefix of that as long as errors are final (`delivered_part`), and all
of it if there are none (`delivered_written`).
-/

namespace PongPp.Server

open Lib Signaling

/-- The strings that were passed to `Write` on `p`'s connection. -/
def strings (s : State) (p : PlayerId) : List Bytes := (inbox p s.world.wire).map Packet.bytes

/-- What `p`'s socket took of them. -/
def delivered (os : List Ws.Outcome) (s : State) (p : PlayerId) : Bytes :=
  (Ws.sendAll (strings s p) os).taken

variable {os : List Ws.Outcome}

theorem strings_flatten (s : State) (p : PlayerId) : (strings s p).flatten = written s p :=
  List.flatMap_def.symm

theorem delivered_part (h : Ws.Final os) (s : State) (p : PlayerId) :
    delivered os s p <+: written s p := by
  obtain ⟨b, hb, htaken⟩ := Ws.run_write_part (t := []) (strings s p) h
  rw [delivered, Ws.sendAll, htaken, ← strings_flatten]
  exact hb

theorem delivered_written (h : .error ∉ os) {s : State} {p : PlayerId}
    (hreturned : (Ws.sendAll (strings s p) os).outcomes ≠ none) :
    delivered os s p = written s p :=
  (Ws.run_write_whole _ h hreturned).trans (strings_flatten s p)

end PongPp.Server
