import PongPp.Signaling.Lines
import PongPp.Web.Signaling

/-!
# Room codes on the wire

The server lists codes as decimal numbers in one line, the page cuts the line into strings, and
sends one of them back behind `JOIN` for the server to read: `room_codes` says that the code that
arrives is the code that was listed, and which strings are codes at all.
-/

namespace PongPp.Signaling

/-- A code in decimal, as a string of the page. -/
def decimal (c : RoomCode) : Web.Str := Nat.toDigits 10 c.toNat

theorem utf8Encode_decimal (c : RoomCode) : utf8Encode (decimal c) = toString c.toNat :=
  utf8Encode_toDigits _

/-! ## The list -/

theorem decimal_word (c : RoomCode) : decimal c ≠ [] ∧ ' ' ∉ decimal c := by
  refine ⟨?_, ?_⟩
  · intro h
    have hlen := Nat.length_toDigits_pos (b := 10) (n := c.toNat)
    rw [show Nat.toDigits 10 c.toNat = [] from h] at hlen
    exact absurd hlen (by decide)
  · intro h
    exact absurd (Nat.isDigit_of_mem_toDigits (by decide) (by decide) h) (by decide)

/-- The line of a list of codes, as the page gets it. -/
def roomsText (cs : List RoomCode) : Web.Str :=
  "ROOMS".toList ++ (cs.map decimal).flatMap fun s => ' ' :: s

theorem utf8Encode_roomsText (cs : List RoomCode) :
    utf8Encode (roomsText cs) = (Msg.rooms cs).text := by
  have hverb : utf8Encode "ROOMS".toList = ascii "ROOMS" := utf8Encode_ascii (by decide)
  have hspace : utf8Encode [' '] = ascii " " := utf8Encode_ascii (by decide)
  rw [roomsText, utf8Encode_append, hverb]
  refine congrArg _ ?_
  induction cs with
  | nil => rfl
  | cons c cs ih =>
    have hword : utf8Encode (' ' :: decimal c) = ascii " " ++ toString c.toNat := by
      rw [← List.singleton_append, utf8Encode_append, hspace, utf8Encode_decimal]
    rw [List.map_cons, List.flatMap_cons, utf8Encode_append, ih, hword, List.flatMap_cons]

/-! ## The way back -/

theorem parseVerb_join {m b : Bytes} (h : line m = ascii "JOIN " ++ b) : parseVerb m = .join b := by
  have hl : m.rdropWhile (fun b => b == 0x0A || b == 0x0D) = ascii "JOIN" ++ 0x20 :: b := h
  have hspace : (0x20 : UInt8) ∉ ascii "JOIN" := by decide
  obtain ⟨hverb, hbody⟩ := split_append hspace b
  simp only [parseVerb, hl, hverb, hbody]
  rfl

/-- What the page sends to join the room of a code. -/
theorem parseVerb_decimal (c : RoomCode) :
    parseVerb (utf8Encode (Web.Signaling.join (decimal c))) = .join (utf8Encode (decimal c)) := by
  have hverb : utf8Encode "JOIN ".toList = ascii "JOIN " := utf8Encode_ascii (by decide)
  apply parseVerb_join
  rw [Web.Signaling.join, utf8Encode_append, hverb]
  refine line_eq_self fun b hb => ?_
  rw [utf8Encode_decimal, List.getLast?_append_of_ne_nil _ (toString_ne_nil _)] at hb
  have hdigit := isDigit_iff.mp (isDigit_toString b (List.mem_of_getLast? hb))
  simp only [isNewline, Bool.or_eq_false_iff, beq_eq_false_iff_ne, ne_eq, ← UInt8.toNat_inj]
  have hlf : (0x0A : UInt8).toNat = 10 := rfl
  have hcr : (0x0D : UInt8).toNat = 13 := rfl
  omega

theorem parseCode_of_fromChars {s : Bytes} {v : RoomCode} (h : fromChars s = some (v, [])) :
    parseCode s = v := by
  rw [parseCode, h]

theorem parseCode_eq {s : Bytes} {v : RoomCode} (hv : v ≠ 0) : parseCode s = v ↔
    s ≠ [] ∧ (∀ b ∈ s, isDigit b = true) ∧ digitsValue s = v.toNat := by
  rw [← fromChars_all]
  refine ⟨fun h => ?_, parseCode_of_fromChars⟩
  unfold parseCode at h
  split at h
  · rename_i u hu
    rw [hu, h]
  · exact absurd h.symm hv

/-- What names a room: digits of a number from 1 to the largest code. -/
def Names (s : Bytes) : Prop :=
  s ≠ [] ∧ (∀ b ∈ s, isDigit b = true) ∧ 1 ≤ digitsValue s ∧ digitsValue s ≤ 2 ^ 64 - 1

theorem parseCode_eq_zero {s : Bytes} : parseCode s = 0 ↔ ¬ Names s := by
  rw [← not_iff_not, not_not]
  refine ⟨?_, ?_⟩
  · intro hne
    obtain ⟨hs, hdigits, hval⟩ := (parseCode_eq hne).mp rfl
    have hlt := (parseCode s).toNat_lt
    have hpos : (parseCode s).toNat ≠ 0 := fun h => hne (UInt64.toNat_inj.mp h)
    exact ⟨hs, hdigits, by omega, by omega⟩
  · rintro ⟨hs, hdigits, hlo, hhi⟩ h
    have hval : (UInt64.ofNat (digitsValue s)).toNat = digitsValue s := by
      rw [UInt64.toNat_ofNat']
      omega
    have hv : UInt64.ofNat (digitsValue s) ≠ 0 := fun h0 => by
      rw [h0] at hval
      have h0' : (0 : UInt64).toNat = 0 := rfl
      omega
    exact hv (((parseCode_eq hv).mpr ⟨hs, hdigits, hval.symm⟩).symm.trans h)

/-! ## The law -/

/-- Codes in a list, and on their way to the server. -/
structure RoomCodes : Prop where
  /-- In any state the page gets the joinable codes, in the order they are listed. -/
  listed : ∀ (w : World) (o : Order),
    utf8Decode (w.roomsLine o).text = some (roomsText (w.joinableCodes o)) ∧
      Web.Signaling.handleMessage (roomsText (w.joinableCodes o)) =
        some (.onRooms ((w.joinableCodes o).map decimal))
  /-- The server reads back each of them. -/
  joined : ∀ (w : World) (o : Order), ∀ c ∈ w.joinableCodes o,
    parseVerb (utf8Encode (Web.Signaling.join (decimal c))) = .join (utf8Encode (decimal c)) ∧
      parseCode (utf8Encode (decimal c)) = c
  /-- A string is read as a code just if it spells it, -/
  read : ∀ (s : Bytes) (v : RoomCode), v ≠ 0 → (parseCode s = v ↔
    s ≠ [] ∧ (∀ b ∈ s, isDigit b = true) ∧ digitsValue s = v.toNat)
  /-- and no other string names a room. -/
  refused : ∀ s : Bytes, parseCode s = 0 ↔ ¬ Names s

theorem room_codes : RoomCodes where
  listed w o := by
    refine ⟨utf8Decode_eq_some.mpr (utf8Encode_roomsText _), ?_⟩
    refine Web.Signaling.handleMessage_rooms fun s hs => ?_
    obtain ⟨c, -, rfl⟩ := List.mem_map.mp hs
    exact decimal_word c
  joined w o c _ := by
    refine ⟨parseVerb_decimal c, parseCode_of_fromChars (fromChars_all.mpr ?_)⟩
    rw [utf8Encode_decimal]
    exact ⟨toString_ne_nil _, isDigit_toString, digitsValue_toString _⟩
  read _ _ hv := parseCode_eq hv
  refused _ := parseCode_eq_zero

end PongPp.Signaling
