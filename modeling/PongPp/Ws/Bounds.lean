import PongPp.Lib.Loop
import PongPp.Ws.Request

/-!
# The parsers stay in bounds

`Checked` holds the parsers once more, with every index, every `substr` and every difference of
positions checked, and the two loops on fuel: `none` is an access outside the buffer, or a loop
that goes on. `in_bounds` says that this never comes up, and what a parsed frame takes off the
buffer.
-/

namespace PongPp.Ws

open Lib

namespace Checked

/-! ## `ParseFrame` -/

/-- `payload_len` and `header_len`; as in the model, the inner `none` waits for more. -/
def payloadLen (buf : Bytes) (p1 : UInt8) : Option (Option (UInt64 × UInt64)) :=
  let len := (p1 &&& 0x7F).toUInt64
  if len = 126 then
    if buf.length < 4 then some none
    else do
      let p2 ← buf[2]?
      let p3 ← buf[3]?
      some (some ((p2.toUInt64 <<< 8) ||| p3.toUInt64, 4))
  else if len = 127 then
    if buf.length < 10 then some none
    else do
      let n ← (List.range 8).foldlM (fun (n : UInt64) i => do
        let p ← buf[2 + i]?
        some ((n <<< 8) ||| p.toUInt64)) 0
      some (some (n, 10))
  else some (some (len, 2))

/-- The loop over the payload. -/
def unmask (buf : Bytes) (headerLen payloadLen : Nat) : Option Bytes :=
  (List.range payloadLen).mapM fun i => do
    let src ← buf[headerLen + 4 + i]?
    let key ← buf[headerLen + i % 4]?
    some (src ^^^ key)

def parseFrame (buf : Bytes) : Option (ParseResult × Bytes) :=
  if buf.length < 2 then some (.needMore, buf)
  else do
    let p0 ← buf[0]?
    if p0 &&& 0x70 ≠ 0 then some (.bad, buf)
    else do
      let p1 ← buf[1]?
      if p1 &&& 0x80 = 0 then some (.bad, buf)
      else
        match ← payloadLen buf p1 with
        | none => some (.needMore, buf)
        | some (len, headerLen) =>
          if kMaxFramePayload < len then some (.bad, buf)
          else
            let total := headerLen + 4 + len
            if buf.length < total.toNat then some (.needMore, buf)
            else do
              let payload ← unmask buf headerLen.toNat len.toNat
              some (.got ⟨p0 &&& 0x80 ≠ 0, .ofByte (p0 &&& 0x0F), payload⟩,
                buf.drop total.toNat)

/-! ## `FindHeader` -/

/-- A difference of positions, which does not wrap. -/
def sub (a b : Nat) : Option Nat := if b ≤ a then some (a - b) else none

/-- `buf.substr(pos, n)` of a range inside `buf`. -/
def substr (buf : Bytes) (pos n : Nat) : Option Bytes :=
  if pos + n ≤ buf.length then some (Ws.substr buf pos n) else none

/-- The loop over `name_len` characters, up to the first that differ. -/
def nameMatches (buf : Bytes) (i nameLen : Nat) (name : Bytes) : Option Bool :=
  (List.range nameLen).allM fun k => do
    let a ← buf[i + k]?
    let b ← name[k]?
    some (tolower a == tolower b)

def skipBlank (buf : Bytes) (lineEnd v : Nat) : Option Nat :=
  if v < lineEnd then do
    let b ← buf[v]?
    if b = 0x20 ∨ b = 0x09 then skipBlank buf lineEnd (v + 1) else some v
  else some v
termination_by lineEnd - v

/-- What the loop of `FindHeader` does with a line that has a colon. -/
def header (buf name : Bytes) (i lineEnd colon : Nat) : Option (Next Nat Bytes) := do
  let nameLen ← sub colon i
  let found ← if nameLen = name.length then nameMatches buf i nameLen name else some false
  if found then do
    let v ← skipBlank buf lineEnd (colon + 1)
    let n ← sub lineEnd v
    let value ← substr buf v n
    some (.done value)
  else some (.again (lineEnd + 2))

/-- One turn of the loop, on the line that starts at `i`. -/
def line (buf name : Bytes) (i : Nat) : Option (Next Nat Bytes) :=
  if i < buf.length then
    match findFrom crlf buf i with
    | none => some (.done [])
    | some lineEnd =>
      if lineEnd = i then some (.done [])
      else
        match findFrom [0x3A] buf i with
        | none => some (.again (lineEnd + 2))
        | some colon =>
          if lineEnd < colon then some (.again (lineEnd + 2))
          else header buf name i lineEnd colon
  else some (.done [])

def findHeader (fuel : Nat) (buf name : Bytes) : Option Bytes :=
  match find crlf buf with
  | none => some []
  | some i => loop (line buf name) fuel (i + 2)

/-! ## `HandleFrames` -/

variable {σ : Type*} (io : Io σ)

/-- One turn of the loop of `HandleFrames`. -/
def frame : Bytes × σ → Option (Next (Bytes × σ) (FramesPhase × Bytes × σ))
  | (buf, w) =>
    match parseFrame buf with
    | none => none
    | some (.needMore, buf) => some (.done (.needMore, buf, w))
    | some (.bad, buf) => some (.done (.bad, buf, w))
    | some (.got f, rest) =>
      if !f.fin || f.opcode = .continuation then some (.done (.bad, rest, w))
      else
        match f.opcode with
        | .text | .binary => some (.again (rest, io.onMessage f.payload w))
        | .ping => some (.again (rest, io.write (encodeFrame .pong f.payload) w))
        | .pong => some (.again (rest, w))
        | .close => some (.done (.closed, rest, io.write (encodeFrame .close []) w))
        | .continuation => some (.done (.bad, rest, w))
        | .reserved _ => some (.again (rest, w))

def handleFrames (fuel : Nat) (buf : Bytes) (w : σ) : Option (FramesPhase × Bytes × σ) :=
  loop (frame io) fuel (buf, w)

/-! ## Nothing is outside -/

variable {buf : Bytes}

theorem payloadLen_eq (buf : Bytes) (p1 : UInt8) :
    payloadLen buf p1 = some (Ws.payloadLen buf p1) := by
  unfold payloadLen Ws.payloadLen
  simp only
  split
  · split
    · rfl
    · rw [getElem?_eq_getD (by omega) 0, getElem?_eq_getD (by omega) 0]
      rfl
  · split
    · split
      · rfl
      · have hbytes : ∀ i ∈ List.range 8, ∀ n : UInt64,
            (do let p ← buf[2 + i]?; some ((n <<< 8) ||| p.toUInt64)) =
              some ((n <<< 8) ||| (buf.getD (2 + i) 0).toUInt64) := fun i hi n => by
          have := List.mem_range.mp hi
          rw [getElem?_eq_getD (by omega) 0]
          rfl
        rw [foldlM_some hbytes]
        rfl
    · rfl

theorem unmask_eq {headerLen len : Nat} (h : headerLen + 4 + len ≤ buf.length) :
    unmask buf headerLen len = some (Ws.unmask buf headerLen len) := by
  refine mapM_some fun i hi => ?_
  have hi := List.mem_range.mp hi
  have hmod := Nat.mod_lt i (show 4 > 0 by omega)
  rw [getElem?_eq_getD (by omega) 0, getElem?_eq_getD (by omega) 0]
  rfl

theorem parseFrame_eq (buf : Bytes) : parseFrame buf = some (Ws.parseFrame buf) := by
  unfold parseFrame Ws.parseFrame
  split
  · rfl
  rw [getElem?_eq_getD (by omega) 0, getElem?_eq_getD (by omega) 0]
  simp only [Option.bind_eq_bind, Option.bind_some, payloadLen_eq]
  split
  · rfl
  split
  · rfl
  cases hp : Ws.payloadLen buf (buf.getD 1 0) with
  | none => rfl
  | some x =>
    obtain ⟨len, headerLen⟩ := x
    simp only
    split
    · rfl
    · rename_i hcap
      split
      · rfl
      · rename_i hlen
        rw [total_toNat hcap (payloadLen_header hp).1] at hlen
        rw [unmask_eq (by omega)]
        rfl

theorem nameMatches_eq {i : Nat} {name : Bytes} (h : i + name.length ≤ buf.length) :
    nameMatches buf i name.length name = some (Ws.nameMatches buf i name) := by
  refine allM_some fun k hk => ?_
  have hk := List.mem_range.mp hk
  rw [getElem?_eq_getD (by omega) 0, getElem?_eq_getD hk 0]
  rfl

theorem skipBlank_eq {lineEnd : Nat} (h : lineEnd ≤ buf.length) (v : Nat) :
    skipBlank buf lineEnd v = some (Ws.skipBlank buf lineEnd v) := by
  fun_induction Ws.skipBlank buf lineEnd v with
  | case1 v hv ih =>
    rw [skipBlank, if_pos hv.1, getElem?_eq_getD (hv.1.trans_le h) 0]
    simp only [Option.bind_eq_bind, Option.bind_some]
    rw [if_pos hv.2]
    exact ih
  | case2 v hv =>
    rw [skipBlank]
    split
    · rename_i hlt
      rw [getElem?_eq_getD (hlt.trans_le h) 0]
      simp only [Option.bind_eq_bind, Option.bind_some]
      rw [if_neg fun hb => hv ⟨hlt, hb⟩]
    · rfl

theorem skipBlank_le {lineEnd v : Nat} (h : v ≤ lineEnd) :
    Ws.skipBlank buf lineEnd v ≤ lineEnd := by
  fun_induction Ws.skipBlank buf lineEnd v with
  | case1 v hv ih => exact ih hv.1
  | case2 v hv => exact h

theorem colon_lt {i lineEnd colon : Nat} (hend : findFrom crlf buf i = some lineEnd)
    (hcolon : findFrom [0x3A] buf i = some colon) (hle : colon ≤ lineEnd) :
    i ≤ colon ∧ colon < lineEnd ∧ lineEnd ≤ buf.length := by
  obtain ⟨-, hlen⟩ := findFrom_bounds (by decide) hend
  refine ⟨(findFrom_bounds (by decide) hcolon).1, lt_of_le_of_ne hle ?_, hlen.le⟩
  rintro rfl
  obtain ⟨j, hj, hji⟩ := Option.map_eq_some_iff.mp hend
  obtain ⟨k, hk, hki⟩ := Option.map_eq_some_iff.mp hcolon
  obtain rfl : j = k := by omega
  -- a line does not end in a colon
  have hcr := (find_eq_some.mp hj).1
  have hco := (find_eq_some.mp hk).1
  cases hd : (buf.drop i).drop j with
  | nil =>
    rw [hd] at hco
    exact absurd hco (by decide)
  | cons b s =>
    rw [hd] at hcr hco
    have hb := colon_first.mp hco
    rw [hb] at hcr
    exact absurd (List.cons_prefix_cons.mp hcr).1 (by decide)

theorem header_eq {i lineEnd colon : Nat} (name : Bytes) (hi : i ≤ colon)
    (hcolon : colon < lineEnd) (hend : lineEnd ≤ buf.length) :
    header buf name i lineEnd colon =
      some (if colon - i = name.length ∧ Ws.nameMatches buf i name then
        .done (Ws.substr buf (Ws.skipBlank buf lineEnd (colon + 1))
          (lineEnd - Ws.skipBlank buf lineEnd (colon + 1)))
      else .again (lineEnd + 2)) := by
  have hlen : sub colon i = some (colon - i) := if_pos hi
  simp only [header, hlen, Option.bind_eq_bind, Option.bind_some]
  by_cases hname : colon - i = name.length
  · rw [if_pos hname, hname, nameMatches_eq (by omega), Option.bind_some]
    cases Ws.nameMatches buf i name with
    | false => simp
    | true =>
      have hv : Ws.skipBlank buf lineEnd (colon + 1) ≤ lineEnd := skipBlank_le hcolon
      have hvalue : sub lineEnd (Ws.skipBlank buf lineEnd (colon + 1)) = some _ := if_pos hv
      have hsub : Ws.skipBlank buf lineEnd (colon + 1) +
          (lineEnd - Ws.skipBlank buf lineEnd (colon + 1)) ≤ buf.length := by omega
      rw [if_pos rfl, skipBlank_eq hend, Option.bind_some, hvalue, Option.bind_some, substr,
        if_pos hsub, if_pos ⟨rfl, rfl⟩]
      rfl
  · have hother : ¬ (colon - i = name.length ∧ Ws.nameMatches buf i name = true) := fun h =>
      hname h.1
    rw [if_neg hname, if_neg hother]
    rfl

/-- **A line** is looked at within the buffer, and the next one is behind it. -/
theorem line_turns (buf name : Bytes) (i : Nat) :
    Turns (line buf name) (fun _ => True) (buf.length - ·) (findHeaderFrom buf name) i := by
  unfold Turns line
  by_cases hi : i < buf.length
  · rw [if_pos hi]
    cases hend : findFrom crlf buf i with
    | none =>
      refine .inl ?_
      rw [findHeaderFrom_end hend]
    | some lineEnd =>
      have hnext : buf.length - (lineEnd + 2) < buf.length - i := by
        have := findFrom_bounds (by decide) hend
        omega
      by_cases hblank : lineEnd = i
      · rw [hblank] at hend
        exact .inl (by simp only [if_pos hblank, findHeaderFrom_blank hend])
      · have hmodel := @findHeaderFrom_line buf name i lineEnd hend hblank
        simp only [if_neg hblank]
        cases hcolon : findFrom [0x3A] buf i with
        | none =>
          rw [hcolon] at hmodel
          exact .inr ⟨lineEnd + 2, rfl, trivial, hnext, hmodel.symm⟩
        | some colon =>
          rw [hcolon] at hmodel
          simp only at hmodel ⊢
          by_cases hlate : lineEnd < colon
          · rw [if_pos hlate] at hmodel ⊢
            exact .inr ⟨lineEnd + 2, rfl, trivial, hnext, hmodel.symm⟩
          · obtain ⟨h₁, h₂, h₃⟩ := colon_lt hend hcolon (not_lt.mp hlate)
            rw [if_neg hlate] at hmodel ⊢
            rw [header_eq name h₁ h₂ h₃]
            split
            · rename_i hfound
              exact .inl (by rw [hmodel, if_pos hfound])
            · rename_i hfound
              rw [if_neg hfound] at hmodel
              exact .inr ⟨lineEnd + 2, rfl, trivial, hnext, hmodel.symm⟩
  · refine .inl ?_
    rw [if_neg hi, findHeaderFrom, if_neg hi]

theorem findHeader_eq {fuel : Nat} (h : buf.length ≤ fuel) (name : Bytes) :
    findHeader fuel buf name = some (Ws.findHeader buf name) := by
  unfold findHeader Ws.findHeader
  cases hf : find crlf buf with
  | none => rfl
  | some i =>
    have hlt := find_lt (by decide) hf
    exact loop_eq (fun i _ => line_turns buf name i) trivial (by omega)

section Drain

variable {σ : Type*} (io : Io σ)

/-- **A frame** is parsed within the buffer, and what is left is six bytes shorter. -/
theorem frame_turns (buf : Bytes) (w : σ) :
    Turns (frame io) (fun _ => True) (fun s => s.1.length / 6)
      (fun s => Ws.handleFrames io s.1 s.2) (buf, w) := by
  unfold Turns frame
  rcases hp : Ws.parseFrame buf with ⟨_ | _ | f, rest⟩
  · exact .inl (by simp only [parseFrame_eq, hp, handleFrames_waits io hp])
  · exact .inl (by simp only [parseFrame_eq, hp, handleFrames_bad io hp])
  · have hmodel := handleFrames_got io hp w
    have hlt := parseFrame_got_lt hp
    have hnext : rest.length / 6 < buf.length / 6 := by omega
    simp only [parseFrame_eq, hp]
    unfold react at hmodel
    by_cases hf : (!f.fin || f.opcode = .continuation) = true
    · rw [if_pos hf] at hmodel
      exact .inl (by rw [if_pos hf, hmodel]; rfl)
    · rw [if_neg hf] at hmodel
      rw [if_neg hf]
      cases hop : f.opcode <;> rw [hop] at hmodel
      case close | continuation => exact .inl (by rw [hmodel]; rfl)
      all_goals exact .inr ⟨_, rfl, trivial, hnext, hmodel.symm⟩

theorem handleFrames_eq {fuel : Nat} (h : buf.length < 6 * fuel) (w : σ) :
    handleFrames io fuel buf w = some (Ws.handleFrames io buf w) := by
  have hvariant : buf.length / 6 < fuel := by omega
  exact loop_eq (I := fun _ => True) (m := fun s : Bytes × σ => s.1.length / 6)
    (fun s _ => frame_turns io s.1 s.2) trivial hvariant

end Drain

end Checked

theorem parseFrame_consumes {buf rest : Bytes} {f : Frame} (h : parseFrame buf = (.got f, rest)) :
    ∃ n, 6 ≤ n ∧ n ≤ 2 ^ 20 + 14 ∧ n ≤ buf.length ∧ rest = buf.drop n := by
  rcases parseFrame_cases buf with h' | ⟨h', -⟩ | ⟨len, hl, H, hb, h'⟩ <;> rw [h'] at h <;> cases h
  have hlen := toNat_le_of_cap H.cap
  refine ⟨hl.toNat + 4 + len.toNat, ?_, ?_, hb, rfl⟩ <;>
    rcases (payloadLen_header H.size).1 with rfl | rfl | rfl <;>
    simp only [UInt64.reduceToNat] <;> omega

/-- What holds of the parsers on the buffer `buf`. -/
structure InBounds {σ : Type*} (io : Io σ) (buf : Bytes) : Prop where
  parse : Checked.parseFrame buf = some (parseFrame buf)
  /-- The walk goes over no more lines than there are bytes. -/
  header : ∀ name fuel, buf.length ≤ fuel →
    Checked.findHeader fuel buf name = some (findHeader buf name)
  /-- The drain loop takes no more turns than there are frames of six bytes, and one. -/
  drain : ∀ w fuel, buf.length < 6 * fuel →
    Checked.handleFrames io fuel buf w = some (handleFrames io buf w)
  got : ∀ f rest, parseFrame buf = (.got f, rest) →
    ∃ n, 6 ≤ n ∧ n ≤ 2 ^ 20 + 14 ∧ n ≤ buf.length ∧ rest = buf.drop n
  kept : ∀ rest, parseFrame buf = (.needMore, rest) ∨ parseFrame buf = (.bad, rest) → rest = buf

/-- **Bounds**, of every buffer. -/
theorem in_bounds {σ : Type*} (io : Io σ) (buf : Bytes) : InBounds io buf where
  parse := Checked.parseFrame_eq buf
  header name _ h := Checked.findHeader_eq h name
  drain w _ h := Checked.handleFrames_eq io h w
  got _ _ h := parseFrame_consumes h
  kept _ h := h.elim parseFrame_needMore parseFrame_bad

end PongPp.Ws
