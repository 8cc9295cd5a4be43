import PongPp.Util.Base64
import PongPp.Util.Sha1

/-!
# The HTTP upgrade

`findHeader` walks the header lines of a request; `processHandshake` answers a complete
request with a 101 or a 426 response and takes it off the buffer.
-/

namespace PongPp.Ws

open Util

def kWebSocketGuid : Bytes := ascii "258EAFA5-E914-47DA-95CA-C5AB0DC85B11"

def kNotUpgradeBody : Bytes := ascii "This endpoint accepts WebSocket connections only.\n"

def crlf : Bytes := [0x0D, 0x0A]

/-- `std::tolower` on an unsigned char, in the C locale. -/
def tolower (b : UInt8) : UInt8 := if 0x41 ≤ b && b ≤ 0x5A then b + 0x20 else b

/-- The `name_len` bytes at `i` are `name` up to case. -/
def nameMatches (buf : Bytes) (i : Nat) (name : Bytes) : Bool :=
  (List.range name.length).all fun k => tolower (buf.getD (i + k) 0) == tolower (name.getD k 0)

/-- Skip spaces and tabs from `v` up to `lineEnd`. -/
def skipBlank (buf : Bytes) (lineEnd v : Nat) : Nat :=
  if v < lineEnd ∧ (buf.getD v 0 = 0x20 ∨ buf.getD v 0 = 0x09) then skipBlank buf lineEnd (v + 1)
  else v
termination_by lineEnd - v

/-- `buf.substr(pos, n)`. -/
def substr (buf : Bytes) (pos n : Nat) : Bytes := (buf.drop pos).take n

/-- The loop of `FindHeader`, from the line that starts at `i`. -/
def findHeaderFrom (buf name : Bytes) (i : Nat) : Bytes :=
  if i < buf.length then
    match _h : findFrom crlf buf i with
    | none => []
    | some lineEnd =>
      if lineEnd = i then []
      else
        match findFrom [0x3A] buf i with
        | none => findHeaderFrom buf name (lineEnd + 2)
        | some colon =>
          if lineEnd < colon then findHeaderFrom buf name (lineEnd + 2)
          else if colon - i = name.length ∧ nameMatches buf i name then
            let v := skipBlank buf lineEnd (colon + 1)
            substr buf v (lineEnd - v)
          else findHeaderFrom buf name (lineEnd + 2)
  else []
termination_by buf.length - i
decreasing_by all_goals have := findFrom_bounds (by decide) _h; omega

/-- Case-insensitive header lookup; the request line is skipped. -/
def findHeader (buf name : Bytes) : Bytes :=
  match find crlf buf with
  | none => []
  | some i => findHeaderFrom buf name (i + 2)

inductive HandshakeResult where
  | needMore
  | bad
  /-- A complete request without an upgrade; the response is a 426. -/
  | notUpgrade
  /-- The response is a 101. -/
  | done
  deriving DecidableEq, Repr

def upgradeRequired : Bytes :=
  ascii "HTTP/1.1 426 Upgrade Required\r\nUpgrade: websocket\r\nConnection: Upgrade\r\n" ++
    ascii "Content-Type: text/plain; charset=utf-8\r\nContent-Length: " ++
    toString kNotUpgradeBody.length ++ ascii "\r\n\r\n" ++ kNotUpgradeBody

def switchingProtocols (accept : Bytes) : Bytes :=
  ascii "HTTP/1.1 101 Switching Protocols\r\nUpgrade: websocket\r\nConnection: Upgrade\r\n" ++
    ascii "Sec-WebSocket-Accept: " ++ accept ++ ascii "\r\n\r\n"

/-- The result, `out_response`, and the buffer afterwards. -/
def processHandshake (buf : Bytes) : HandshakeResult × Bytes × Bytes :=
  match find (crlf ++ crlf) buf with
  | none => (.needMore, [], buf)
  | some end_ =>
    let key := findHeader buf (ascii "Sec-WebSocket-Key")
    if key = [] then (.notUpgrade, upgradeRequired, buf.drop (end_ + 4))
    else
      let accept := base64Encode (sha1 (key ++ kWebSocketGuid))
      (.done, switchingProtocols accept, buf.drop (end_ + 4))

theorem processHandshake_done {buf response rest : Bytes}
    (h : processHandshake buf = (.done, response, rest)) :
    ∃ accept, response = switchingProtocols accept := by
  unfold processHandshake at h
  split at h
  · cases h
  · simp only at h
    split at h <;> cases h
    exact ⟨_, rfl⟩

theorem processHandshake_notUpgrade {buf response rest : Bytes}
    (h : processHandshake buf = (.notUpgrade, response, rest)) : response = upgradeRequired := by
  unfold processHandshake at h
  split at h
  · cases h
  · simp only at h
    split at h <;> cases h
    rfl

/-- A request that upgrades; the key is sixteen zero bytes. -/
def plainRequest : Bytes :=
  ascii "GET / HTTP/1.1\r\nSec-WebSocket-Key: AAAAAAAAAAAAAAAAAAAAAA==\r\n\r\n"

end PongPp.Ws
