import PongPp.Ws.Request

/-!
# The answer to a request

`ProcessHandshake` answers a request by its `Sec-WebSocket-Key` and by nothing else. The answer is
the one that the protocol asks for, unless blanks are left at the end of the key's line
(`accept_value`). It does not depend on what comes behind the request, nor on how the bytes arrive
(`request_only`).
-/

namespace PongPp.Ws

open Lib Util

/-- A value without the blanks around it. -/
def trim (value : Bytes) : Bytes := (value.dropWhile isBlank).rdropWhile isBlank

/-- The value does not end in a blank, unless it is nothing else. -/
def Tidy (value : Bytes) : Prop := ∀ b ∈ (value.dropWhile isBlank).getLast?, isBlank b = false

/-- What the request's `Sec-WebSocket-Key` line says. -/
def Request.keyValue (q : Request) : Bytes := q.value (ascii "Sec-WebSocket-Key")

/-- The answer to a key: a 101 with the value to accept it, or a 426 where there is none. -/
def answer (key : Bytes) : HandshakeResult × Bytes :=
  if key = [] then (.notUpgrade, upgradeRequired)
  else (.done, switchingProtocols (base64Encode (sha1 (key ++ kWebSocketGuid))))

theorem answer_done {key : Bytes} : (answer key).1 = .done ↔ key ≠ [] := by
  unfold answer
  split <;> simp_all

theorem answer_notUpgrade {key : Bytes} : (answer key).1 = .notUpgrade ↔ key = [] := by
  unfold answer
  split <;> simp_all

theorem answer_inj {k l : Bytes} (h : answer k = answer l) (hk : k ≠ []) :
    sha1 (k ++ kWebSocketGuid) = sha1 (l ++ kWebSocketGuid) := by
  unfold answer at h
  rw [if_neg hk] at h
  split at h
  · cases h
  · have hresp := (Prod.ext_iff.mp h).2
    simp only [switchingProtocols, List.append_cancel_left_eq, List.append_cancel_right_eq] at hresp
    exact base64Encode_inj hresp

theorem answer_congr {k l : Bytes} (hnil : k = [] ↔ l = [])
    (hsha : sha1 (k ++ kWebSocketGuid) = sha1 (l ++ kWebSocketGuid)) : answer k = answer l := by
  simp only [answer, hnil, hsha]

theorem trim_of_tidy {value : Bytes} (h : Tidy value) : trim value = value.dropWhile isBlank := by
  rw [trim, List.rdropWhile_eq_self_iff]
  intro hne hlast
  rw [h _ (List.getLast?_eq_some_getLast hne)] at hlast
  cases hlast

theorem trim_eq_nil {value : Bytes} : trim value = [] ↔ value.dropWhile isBlank = [] := by
  refine ⟨?_, ?_⟩
  · intro h
    by_contra hne
    have hall := List.rdropWhile_eq_nil_iff.mp h
    have hhead := List.head_dropWhile_not isBlank hne
    rw [hall _ (List.head_mem hne)] at hhead
    cases hhead
  · intro h
    rw [trim, h]
    rfl

/-- **The answer** depends on the key alone. -/
theorem processHandshake_eq (q : Request) (s : Bytes) :
    processHandshake (q.bytes ++ s) =
      ((answer (q.keyValue.dropWhile isBlank)).1, (answer (q.keyValue.dropWhile isBlank)).2,
        s) := by
  have hdrop : (q.bytes ++ s).drop (q.bytes.length - 4 + 4) = s := by
    rw [Nat.sub_add_cancel q.four_le, List.drop_left]
  have hkey := findHeader_eq q s (ascii "Sec-WebSocket-Key")
  simp only [processHandshake, q.find_blank, hkey, hdrop, answer, Request.keyValue]
  by_cases hempty : (q.value (ascii "Sec-WebSocket-Key")).dropWhile isBlank = []
  · simp only [hempty, if_true]
  · simp only [hempty, if_false]

theorem processHandshake_bytes (q : Request) :
    processHandshake q.bytes =
      ((answer (q.keyValue.dropWhile isBlank)).1, (answer (q.keyValue.dropWhile isBlank)).2,
        []) := by
  have hself := processHandshake_eq q []
  rwa [List.append_nil] at hself

/-- The buffer is answered as the protocol asks for: by the value of the key's line, without the
blanks around it. -/
def Answers (buf : Bytes) (q : Request) (s : Bytes) : Prop :=
  processHandshake buf = ((answer (trim q.keyValue)).1, (answer (trim q.keyValue)).2, s)

/-- A buffer with a blank line starts with a request. It is answered by a 101 just where the request
has a key; and the answer is the right one just where no blank is left at the end of the key's line,
apart from keys whose hash the blanks behind them do not change. -/
structure AcceptValue (buf : Bytes) : Prop where
  request : ∃ (q : Request) (s : Bytes), buf = q.bytes ++ s
  done : ∀ (q : Request) (s : Bytes), buf = q.bytes ++ s →
    ((processHandshake buf).1 = .done ↔ trim q.keyValue ≠ [])
  notUpgrade : ∀ (q : Request) (s : Bytes), buf = q.bytes ++ s →
    ((processHandshake buf).1 = .notUpgrade ↔ trim q.keyValue = [])
  exact : ∀ (q : Request) (s : Bytes), buf = q.bytes ++ s →
    (Answers buf q s ↔ Tidy q.keyValue ∨
      sha1 (q.keyValue.dropWhile isBlank ++ kWebSocketGuid) =
        sha1 (trim q.keyValue ++ kWebSocketGuid))

/-- **The accept value** of every buffer that holds a complete request. -/
theorem accept_value {buf : Bytes} (h : crlf ++ crlf <:+: buf) : AcceptValue buf where
  request := exists_request h
  done q s hbuf := by
    rw [hbuf, processHandshake_eq, answer_done, ne_eq, ne_eq, trim_eq_nil]
  notUpgrade q s hbuf := by
    rw [hbuf, processHandshake_eq, answer_notUpgrade, trim_eq_nil]
  exact q s hbuf := by
    rw [Answers, hbuf, processHandshake_eq]
    refine ⟨?_, ?_⟩
    · intro hans
      obtain ⟨hresult, hrest⟩ := Prod.ext_iff.mp hans
      refine or_iff_not_imp_left.mpr fun htidy =>
        answer_inj (Prod.ext hresult (Prod.ext_iff.mp hrest).1) fun hnil => htidy ?_
      rw [Tidy, hnil]
      simp
    · rintro (htidy | hsha)
      · rw [trim_of_tidy htidy]
      · rw [answer_congr trim_eq_nil.symm hsha]

theorem accept_value_plain : AcceptValue plainRequest := accept_value (by decide +kernel)

/-- A request whose key has a space behind it. -/
def untidy : Request where
  requestLine := ascii "GET / HTTP/1.1"
  fieldLines := [ascii "Sec-WebSocket-Key: k "]
  requestLine_ok := by decide
  fieldLines_ok := by decide

theorem untidy_misread : ¬ ∀ (buf : Bytes) (q : Request) (s : Bytes), buf = q.bytes ++ s →
    Answers buf q s := by
  intro h
  have hans := h untidy.bytes untidy [] (by simp)
  revert hans
  unfold Answers
  decide +kernel

/-! ## The request and what comes behind it -/

/-- `r` ends in a blank line and has no other. -/
def OneRequest (r : Bytes) : Prop :=
  crlf ++ crlf <:+ r ∧ ∀ a b, r = a ++ (crlf ++ crlf) ++ b → b = []

/-- What a connection does with an answer, when `rest` is what came behind the request. -/
def answered {σ : Type*} (io : Io σ) (a : HandshakeResult × Bytes) (rest : Bytes) (w : σ) :
    ReadResult × Connection × σ :=
  match a with
  | (.done, response) => (.ok, ⟨.open, rest⟩, io.write response w)
  | (_, response) => (.err, ⟨.handshake, rest⟩, io.write response w)

structure RequestOnly {σ : Type*} (io : Io σ) (r : Bytes) : Prop where
  waits : ∀ p, p <+: r → p ≠ r → processHandshake p = (.needMore, [], p)
  answer : ∀ s, processHandshake (r ++ s) =
    ((processHandshake r).1, (processHandshake r).2.1, s)
  /-- However the request and what follows it are cut into reads, the one that brings the end of
  the request answers it, and what it brings of the rest stays in the buffer. -/
  reads : ∀ (cs : List Bytes) (s : Bytes) (w : σ), [] ∉ cs → cs.flatten = r ++ s →
    ∃ pre chunk post s₀, cs = pre ++ chunk :: post ∧ s = s₀ ++ post.flatten ∧
      readAll io pre .fresh w = (.ok, ⟨.handshake, pre.flatten⟩, w) ∧
      readAll io (pre ++ [chunk]) .fresh w =
        answered io ((processHandshake r).1, (processHandshake r).2.1) s₀ w

theorem OneRequest.request {r : Bytes} (h : OneRequest r) : ∃ q : Request, r = q.bytes := by
  obtain ⟨q, s, rfl⟩ := exists_request h.1.isInfix
  obtain ⟨b, hb⟩ := (find_eq_some.mp (q.find_blank s)).1
  have hcut : q.bytes ++ s =
      (q.bytes ++ s).take (q.bytes.length - 4) ++ (crlf ++ crlf) ++ b := by
    rw [List.append_assoc, hb, List.take_append_drop]
  have hnil := h.2 _ _ hcut
  have hcrlf : crlf.length = 2 := rfl
  have hlen := congrArg List.length hb
  have hmin := q.four_le
  simp only [hnil, List.append_nil, List.length_append, List.length_drop, hcrlf] at hlen
  have hs : s = [] := List.eq_nil_of_length_eq_zero (by omega)
  exact ⟨q, by rw [hs, List.append_nil]⟩

theorem Request.oneRequest (q : Request) : OneRequest q.bytes := by
  have hfind := find_eq_some.mp (List.append_nil q.bytes ▸ q.find_blank [])
  have hcrlf : crlf.length = 2 := rfl
  have hmin := q.four_le
  refine ⟨?_, fun a b hab => ?_⟩
  · obtain ⟨b, hb⟩ := hfind.1
    have hlen := congrArg List.length hb
    simp only [List.length_append, List.length_drop, hcrlf] at hlen
    have hnil : b = [] := List.eq_nil_of_length_eq_zero (by omega)
    rw [hnil, List.append_nil] at hb
    exact hb ▸ List.drop_suffix ..
  · have hlate : ¬ a.length < q.bytes.length - 4 := fun hlt => hfind.2 a.length hlt (by
      rw [hab, List.append_assoc, List.drop_left]
      exact List.prefix_append ..)
    have hlen := congrArg List.length hab
    simp only [List.length_append, hcrlf] at hlen
    exact List.eq_nil_of_length_eq_zero (by omega)

theorem OneRequest.find_none {r p : Bytes} (h : OneRequest r) (hp : p <+: r) (hne : p ≠ r) :
    find (crlf ++ crlf) p = none := by
  by_contra hsome
  obtain ⟨a, b, hab⟩ := exists_find.mp (Option.ne_none_iff_exists'.mp hsome)
  obtain ⟨t, rfl⟩ := hp
  have hnil := h.2 a (b ++ t) (by rw [← hab, List.append_assoc])
  rw [List.append_eq_nil_iff] at hnil
  exact hne (by rw [hnil.2, List.append_nil])

/-- **The handshake** depends on the request only: not on how its bytes arrive, and not on what
comes behind it, of which no byte is lost. -/
theorem request_only {σ : Type*} (io : Io σ) {r : Bytes} (h : OneRequest r) : RequestOnly io r := by
  obtain ⟨q, hq⟩ := h.request
  have hanswer : ∀ s, processHandshake (r ++ s) =
      ((processHandshake r).1, (processHandshake r).2.1, s) := fun s => by
    rw [hq, processHandshake_eq, processHandshake_bytes]
  refine ⟨fun p hp hne => processHandshake_none (h.find_none hp hne), hanswer, ?_⟩
  intro cs s w hcs hflat
  have hr : r ≠ [] := by
    rintro rfl
    exact absurd h.1 (by decide)
  obtain ⟨pre, chunk, post, s₀, rfl, hs, hchunk, hpre, hne⟩ := exists_completing hr hflat
  have hwait := readAll_waiting io (w := w) (fun hmem => hcs (List.mem_append_left _ hmem))
    (h.find_none hpre hne)
  refine ⟨pre, chunk, post, s₀, rfl, hs, hwait, ?_⟩
  have hc : chunk ≠ [] := fun hnil => hcs (by simp [hnil])
  rw [readAll_concat, hwait]
  simp only [read, if_neg hc, handleHandshake, hchunk, hanswer s₀]
  have hres : (processHandshake r).1 = .done ∨ (processHandshake r).1 = .notUpgrade := by
    rw [hq, processHandshake_bytes, answer_done, answer_notUpgrade]
    exact (em _).symm
  generalize processHandshake r = x at hres ⊢
  obtain ⟨res, response, rest⟩ := x
  rcases hres with rfl | rfl <;> rfl

theorem request_only_untidy : RequestOnly trace untidy.bytes :=
  request_only trace untidy.oneRequest

end PongPp.Ws
