import PongPp.Util.Utf8

/-!
# The page's signaling client

The lines that `Signaling` sends and what `handleMessage` makes of a line it receives. A string
is its list of characters; one with lone surrogates cannot be sent and does not come out of a
text message.
-/

namespace PongPp.Web

abbrev Str := List Char

inductive Role where
  | host
  | guest
  deriving DecidableEq, Repr

/-- The hooks that `handleMessage` calls, with what it passes to them. -/
inductive Call where
  | onRooms (codes : List Str)
  | onCreated (code : Str)
  | onReady (role : Role)
  | onPeerLeft
  | onError (reason : Str)
  | onRelay (body : Str)
  deriving DecidableEq, Repr

namespace Signaling

/-! ## Outbound verbs -/

def list : Str := "LIST".toList

def create : Str := "CREATE".toList

def join (code : Str) : Str := "JOIN ".toList ++ code

def relay (body : Str) : Str := "RELAY ".toList ++ body

/-! ## Inbound dispatch -/

/-- `handleMessage` of a string; `none` where it ignores the line. -/
def handleMessage (data : Str) : Option Call :=
  let verb := data.takeWhile (· != ' ')
  let body := (data.dropWhile (· != ' ')).drop 1
  if verb = "ROOMS".toList then some (.onRooms (if body = [] then [] else body.splitOn ' '))
  else if verb = "CREATED".toList then some (.onCreated body)
  else if verb = "READY".toList then
    some (.onReady (if body = "host".toList then .host else .guest))
  else if verb = "PEER_LEFT".toList then some .onPeerLeft
  else if verb = "ERROR".toList then some (.onError body)
  else if verb = "RELAY".toList then some (.onRelay body)
  else none

theorem splitOn_words {c : Str} {cs : List Str} (hc : ' ' ∉ c) (hcs : ∀ s ∈ cs, ' ' ∉ s) :
    (c ++ cs.flatMap fun s => ' ' :: s).splitOn ' ' = c :: cs := by
  induction cs generalizing c with
  | nil => rw [List.flatMap_nil, List.append_nil, List.splitOn_eq_singleton hc]
  | cons s cs ih =>
    rw [List.flatMap_cons, List.cons_append, List.splitOn_append_cons_self_of_not_mem hc,
      ih (hcs s (List.mem_cons_self ..)) fun t ht => hcs t (List.mem_cons_of_mem _ ht)]

theorem handleMessage_rooms {cs : List Str} (hcs : ∀ s ∈ cs, s ≠ [] ∧ ' ' ∉ s) :
    handleMessage ("ROOMS".toList ++ cs.flatMap fun s => ' ' :: s) = some (.onRooms cs) := by
  cases cs with
  | nil => rfl
  | cons c cs =>
    obtain ⟨hne, hc⟩ := hcs c (List.mem_cons_self ..)
    have hspace : ' ' ∉ "ROOMS".toList := by decide
    obtain ⟨hverb, hbody⟩ := split_append hspace (c ++ cs.flatMap fun s => ' ' :: s)
    have hsome : c ++ cs.flatMap (fun s => ' ' :: s) ≠ [] := by simp [hne]
    rw [List.flatMap_cons, List.cons_append]
    simp only [handleMessage, hverb, hbody, if_true, if_neg hsome]
    rw [splitOn_words hc fun s hs => (hcs s (List.mem_cons_of_mem _ hs)).2]

theorem handleMessage_relay (body : Str) : handleMessage (relay body) = some (.onRelay body) := by
  have hsplit : relay body = "RELAY".toList ++ ' ' :: body := rfl
  have hspace : ' ' ∉ "RELAY".toList := by decide
  obtain ⟨hverb, hbody⟩ := split_append hspace body
  simp only [handleMessage, hsplit, hverb, hbody]
  rfl

theorem utf8Encode_relay (body : Str) :
    utf8Encode (relay body) = ascii "RELAY " ++ utf8Encode body := by
  have hverb : utf8Encode "RELAY ".toList = ascii "RELAY " := utf8Encode_ascii (by decide)
  exact (utf8Encode_append _ _).trans (congrArg (· ++ utf8Encode body) hverb)

end Signaling

end PongPp.Web
