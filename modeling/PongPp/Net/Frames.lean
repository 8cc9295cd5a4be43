import PongPp.Net.Browser
import PongPp.Session.Agreement

/-!
# Lines in frames

What a page says goes out in frames that the server reads back (`Tab.happen_eq`, `drain_lines`),
and what the server writes comes out of its frames as what happens at the page (`parse_line`).
-/

namespace PongPp.Net

open Lib Signaling Session

/-! ## To the server -/

/-- A line of a page, as the server reads it: unmasked. -/
def lineFrame (line : Web.Line) : Ws.Frame := ⟨true, .text, utf8Encode line.text⟩

def closeFrame : Ws.Frame := ⟨true, .close, []⟩

theorem reads_nil : Ws.frames.Reads [] [] [] := ⟨rfl, rfl⟩

theorem reads_frame {opcode : Ws.Op} (hop : opcode.Named) (key : Ws.Key) {payload : Bytes}
    (hlen : payload.length ≤ 2 ^ 20) :
    Ws.frames.Reads [⟨true, opcode, payload⟩] (Ws.clientFrame opcode key payload) [] := by
  refine ⟨[], ?_, reads_nil⟩
  have hparse := Ws.parseFrame_clientFrame hop key hlen []
  rw [List.append_nil] at hparse
  simp only [Ws.frames, hparse]

namespace Tab

theorem sendLines (lines : List Web.Line) (t : Tab) :
    ∃ bs keys, lines.foldl sendLine t = { t with out := t.out ++ bs, keys } ∧
      ((∀ line ∈ lines, (utf8Encode line.text).length ≤ 2 ^ 20) →
        Ws.frames.Reads (lines.map lineFrame) bs []) := by
  induction lines generalizing t with
  | nil => exact ⟨[], t.keys, by simp, fun _ => reads_nil⟩
  | cons line lines ih =>
    obtain ⟨bs, keys, heq, hreads⟩ := ih (t.sendLine line)
    refine ⟨Ws.clientFrame .text (t.keys 0) (utf8Encode line.text) ++ bs, keys, ?_, fun hlen => ?_⟩
    · rw [List.foldl_cons, heq]
      simp [sendLine, sendFrame]
    · obtain ⟨hline, hrest⟩ := List.forall_mem_cons.mp hlen
      exact (reads_frame Ws.Op.text_named _ hline).append (hreads hrest)

theorem happen_buf (t : Tab) (e : Web.Event) (r : Bytes) :
    { t with buf := r }.happen e = { t.happen e with buf := r } := by
  have hlines : ∀ (lines : List Web.Line) (t : Tab),
      lines.foldl sendLine { t with buf := r } = { lines.foldl sendLine t with buf := r } := by
    intro lines
    induction lines with
    | nil => exact fun _ => rfl
    | cons line lines ih => exact fun t => ih (t.sendLine line)
  unfold happen
  simp only [hlines _ { t with page := _, asked := _ }]
  split <;> rfl

/-- The Close frame of a page that closes its socket. -/
def closing (t : Tab) (e : Web.Event) : List Ws.Frame :=
  if t.page.ws = .open ∧ (t.page.step e).1.ws = .closing then [closeFrame] else []

/-- **An event at a page**: it changes the page, and what the page says goes out. -/
theorem happen_eq (t : Tab) (e : Web.Event) :
    ∃ bs keys, t.happen e =
        { t with
          page := (t.page.step e).1
          asked := (t.asked && !answers e) || (Web.linesOf (t.page.step e).2).any (·.isRequest)
          out := t.out ++ bs
          keys } ∧
      ((∀ line ∈ Web.linesOf (t.page.step e).2, (utf8Encode line.text).length ≤ 2 ^ 20) →
        Ws.frames.Reads ((Web.linesOf (t.page.step e).2).map lineFrame ++ t.closing e) bs []) := by
  have hclose : Ws.Op.close.Named := fun _ => Ws.Op.noConfusion
  generalize hlines : Web.linesOf (t.page.step e).2 = lines
  obtain ⟨bs, keys, heq, hreads⟩ := sendLines lines
    { t with
      page := (t.page.step e).1
      asked := (t.asked && !answers e) || lines.any (·.isRequest) }
  unfold happen closing
  simp only [hlines, heq]
  split
  · refine ⟨bs ++ Ws.clientFrame .close (keys 0) [], fun i => keys (i + 1), ?_, fun hlen => ?_⟩
    · simp [sendFrame]
    · exact (hreads hlen).append (reads_frame hclose _ (Nat.zero_le _))
  · refine ⟨bs, keys, rfl, fun hlen => ?_⟩
    rw [List.append_nil]
    exact hreads hlen

end Tab

/-- **The server reads lines** off what has arrived of a stream of them, up to a Close frame. -/
theorem drain_lines {us : List (Option RoomId × Web.Line)} {tail : List Ws.Frame}
    (htail : tail = [] ∨ tail = [closeFrame]) {b t : Bytes}
    (h : Ws.frames.Reads (us.map (fun x => lineFrame x.2) ++ tail) (b ++ t) []) :
    (∃ xs ys r, us = xs ++ ys ∧
        Ws.frames.drain Ws.react b =
          (xs.map fun x => .message (utf8Encode x.2.text), .more, r) ∧
        Ws.frames.Reads (ys.map (fun x => lineFrame x.2) ++ tail) (r ++ t) []) ∨
      tail = [closeFrame] ∧ ∃ r, Ws.frames.drain Ws.react b =
        ((us.map fun x => .message (utf8Encode x.2.text)) ++
          [.write (Ws.encodeFrame .close [])], .halted .closed, r) := by
  induction us generalizing b with
  | nil =>
    rcases htail with rfl | rfl
    · obtain ⟨-, hnil⟩ := h
      obtain ⟨rfl, rfl⟩ := List.append_eq_nil_iff.mp hnil.symm
      exact .inl ⟨[], [], [], rfl, Decoder.drain_needMore rfl, reads_nil⟩
    · rcases Decoder.Reads.front h with hb | ⟨b', hb, -⟩
      · exact .inl ⟨[], [], b, rfl, Decoder.drain_needMore hb, h⟩
      · exact .inr ⟨rfl, b', Decoder.drain_halt hb rfl⟩
  | cons u us ih =>
    rcases Decoder.Reads.front h with hb | ⟨b', hb, hrest⟩
    · exact .inl ⟨[], u :: us, b, rfl, Decoder.drain_needMore hb, h⟩
    · have hreact : Ws.react (lineFrame u.2) = ([.message (utf8Encode u.2.text)], none) := rfl
      rw [Decoder.drain_next hb hreact]
      rcases ih hrest with ⟨xs, ys, r, rfl, hdrain, hreads⟩ | ⟨htail', r, hdrain⟩
      · exact .inl ⟨u :: xs, ys, r, rfl, by rw [hdrain]; rfl, hreads⟩
      · exact .inr ⟨htail', r, by rw [hdrain]; rfl⟩

/-! ## To the page -/

/-- What an item is on the wire. -/
def itemBytes (q : Upgrade) : Item → Bytes
  | .response => q.accept
  | .line msg => Ws.encodeFrame .text msg.text

/-- The items on their way, as bytes. -/
def streamOf (q : Upgrade) (down : List (Option RoomId × Item)) : Bytes :=
  down.flatMap fun x => itemBytes q x.2

/-- Short enough for a frame. -/
def Short : Item → Prop
  | .response => True
  | .line msg => msg.text.length < 2 ^ 63

theorem parse_line {msg : Msg} (h : Short (.line msg)) (t : Bytes) :
    Web.frames.parse (Ws.encodeFrame .text msg.text ++ t) = .got ⟨true, .text, msg.text⟩ t :=
  Web.parse_encodeFrame Ws.Op.text_named h t

theorem react_line {msg : Msg} {data : Web.Str} (h : utf8Decode msg.text = some data) :
    react ⟨true, .text, msg.text⟩ = ([.wsMessage data], none) := by
  simp [react, h]

section Read

variable {t : Tab} {r : Bytes} {f : Ws.Frame} {e : Web.Event}

theorem Tab.readFrames_needMore (h : Web.frames.parse t.buf = .needMore) : t.readFrames = t := by
  unfold readFrames
  rw [Decoder.drain_needMore h]
  rfl

theorem Tab.readFrames_next (h : Web.frames.parse t.buf = .got f r)
    (hf : react f = ([e], none)) : t.readFrames = ({ t with buf := r }.happen e).readFrames := by
  have hsame : ∀ b, { { t with buf := r }.happen e with buf := b } =
      { t with buf := b }.happen e := fun b => by rw [happen_buf t e r, happen_buf t e b]
  have hbuf : ({ t with buf := r }.happen e).buf = r := by rw [happen_buf t e r]
  unfold readFrames
  rw [hbuf, Decoder.drain_next h hf]
  obtain ⟨es, stop, rest⟩ := Web.frames.drain react r
  cases stop <;> simp only [hsame] <;> rfl

end Read

theorem accept_head (q : Upgrade) : ∃ bs, q.accept = 0x48 :: bs := by
  have hkey : Ws.trim q.keyValue ≠ [] := fun h => q.key_ne (Ws.trim_eq_nil.mp h)
  unfold Upgrade.accept Ws.answer
  rw [if_neg hkey]
  exact ⟨_, rfl⟩

theorem frame_head (msg : Msg) : ∃ bs, Ws.encodeFrame .text msg.text = 0x81 :: bs := ⟨_, rfl⟩

/-- A frame is not taken for the answer to the upgrade request, nor for the beginning of one. -/
theorem not_accept (q : Upgrade) {b t s : Bytes} {msg : Msg} (hb : b ≠ [])
    (h : b ++ t = Ws.encodeFrame .text msg.text ++ s) :
    ¬ q.accept <+: b ∧ ¬ b <+: q.accept := by
  obtain ⟨as, has⟩ := accept_head q
  obtain ⟨fs, hfs⟩ := frame_head msg
  cases b with
  | nil => exact absurd rfl hb
  | cons x b =>
    rw [hfs, List.cons_append, List.cons_append] at h
    obtain ⟨rfl, -⟩ := List.cons.inj h
    rw [has]
    refine ⟨fun hp => ?_, fun hp => ?_⟩
    · exact absurd (List.cons_prefix_cons.mp hp).1 (by decide)
    · exact absurd (List.cons_prefix_cons.mp hp).1 (by decide)

end PongPp.Net
