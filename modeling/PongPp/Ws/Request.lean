import PongPp.Ws.Pipeline

/-!
# Requests

A `Request` is a request line and header lines, none with a line break in it. Every buffer that
holds a blank line starts with the bytes of one (`exists_request`), whatever comes behind them.
`findHeader` looks at the request only: it finds the value of the first line with the name it
looks for, without the blanks in front (`findHeader_eq`).
-/

namespace PongPp.Ws

/-- Spaces and tabs. -/
def isBlank (b : UInt8) : Bool := b == 0x20 || b == 0x09

/-- The name in front of the first colon of a line and the value behind it. -/
def field (line : Bytes) : Option (Bytes × Bytes) :=
  if 0x3A ∈ line then
    some (line.takeWhile (· != 0x3A), (line.dropWhile (· != 0x3A)).drop 1)
  else none

/-- The value of a line whose name is `name` up to case. -/
def valueOf (name line : Bytes) : Option Bytes :=
  (field line).bind fun f => if f.1.map tolower = name.map tolower then some f.2 else none

structure Request where
  requestLine : Bytes
  fieldLines : List Bytes
  requestLine_ok : ¬ crlf <:+: requestLine
  fieldLines_ok : ∀ line ∈ fieldLines, line ≠ [] ∧ ¬ crlf <:+: line

namespace Request

variable (q : Request)

/-- Each line ends in CRLF, and a blank one ends the request. -/
def bytes : Bytes := q.requestLine ++ crlf ++ (q.fieldLines.flatMap (· ++ crlf) ++ crlf)

/-- The value of the first line with the name, as it stands; nothing when there is none. -/
def value (name : Bytes) : Bytes := (q.fieldLines.findSome? (valueOf name)).getD []

end Request

/-! ## Finding line breaks -/

theorem not_prefix_line {b : UInt8} {l : Bytes} (h : ¬ crlf <:+: b :: l) (t : Bytes) :
    ¬ crlf <+: b :: (l ++ (crlf ++ t)) := by
  intro hpre
  cases l with
  | nil =>
    -- the second byte would be the CR behind the line
    obtain ⟨hb, hrest⟩ := List.cons_prefix_cons.mp hpre
    have hne : (0x0A : UInt8) = 0x0D := (List.cons_prefix_cons.mp hrest).1
    exact absurd hne (by decide)
  | cons c l =>
    obtain ⟨hb, hrest⟩ := List.cons_prefix_cons.mp hpre
    have hc := (List.cons_prefix_cons.mp hrest).1
    refine h (List.IsPrefix.isInfix ?_)
    rw [← hb, ← hc]
    exact ⟨l, rfl⟩

theorem not_infix_of_cons {b : UInt8} {l : Bytes} (h : ¬ crlf <:+: b :: l) : ¬ crlf <:+: l :=
  fun hl => h (hl.trans (List.suffix_cons b l).isInfix)

theorem find_cons_of_not {pat : Bytes} {b : UInt8} {s : Bytes} (h : ¬ pat <+: b :: s) :
    find pat (b :: s) = (find pat s).map (· + 1) := by
  rw [find, if_neg fun hp => h (List.isPrefixOf_iff_prefix.mp hp)]

theorem find_here {pat : Bytes} {s : Bytes} (h : pat <+: s) : find pat s = some 0 :=
  find_eq_some.mpr ⟨h, fun k hk => absurd hk (Nat.not_lt_zero k)⟩

theorem find_line {l : Bytes} (h : ¬ crlf <:+: l) (t : Bytes) :
    find crlf (l ++ (crlf ++ t)) = some l.length := by
  induction l with
  | nil => exact find_here (List.prefix_append ..)
  | cons b l ih =>
    rw [List.cons_append, find_cons_of_not (not_prefix_line h t), ih (not_infix_of_cons h)]
    rfl

theorem find_blank {l : Bytes} (h : ¬ crlf <:+: l) (t : Bytes) :
    find (crlf ++ crlf) (l ++ (crlf ++ t)) =
      if crlf <+: t then some l.length
      else (find (crlf ++ crlf) t).map (· + (l.length + 2)) := by
  have hfirst : ∀ s : Bytes, crlf ++ crlf <+: s → crlf <+: s := fun s hs =>
    (List.prefix_append ..).trans hs
  induction l with
  | nil =>
    by_cases ht : crlf <+: t
    · rw [if_pos ht]
      exact find_here (List.prefix_append_right_inj .. |>.mpr ht)
    · rw [if_neg ht]
      have h₁ : ¬ crlf ++ crlf <+: 0x0D :: 0x0A :: t := fun hp =>
        ht ((List.prefix_append_right_inj crlf).mp hp)
      have h₂ : ¬ crlf ++ crlf <+: 0x0A :: t := fun hp =>
        absurd (List.cons_prefix_cons.mp hp).1 (by decide)
      show find (crlf ++ crlf) (0x0D :: 0x0A :: t) = _
      rw [find_cons_of_not h₁, find_cons_of_not h₂, Option.map_map]
      rfl
  | cons b l ih =>
    have hb : ¬ crlf ++ crlf <+: b :: (l ++ (crlf ++ t)) := fun hp =>
      not_prefix_line h t (hfirst _ hp)
    rw [List.cons_append, find_cons_of_not hb, ih (not_infix_of_cons h)]
    split
    · rfl
    · rw [Option.map_map]
      rfl

/-! ## Cutting a buffer into lines -/

theorem exists_line {t : Bytes} (h : crlf <:+: t) :
    ∃ l t', t = l ++ (crlf ++ t') ∧ ¬ crlf <:+: l := by
  induction t with
  | nil => exact absurd h (by decide)
  | cons b t ih =>
    by_cases hp : crlf <+: b :: t
    · obtain ⟨t', ht'⟩ := hp
      exact ⟨[], t', ht'.symm, by decide⟩
    · have hinf : crlf <:+: t := (List.infix_cons_iff.mp h).resolve_left hp
      obtain ⟨l, t', rfl, hl⟩ := ih hinf
      refine ⟨b :: l, t', rfl, fun hbl => ?_⟩
      rcases List.infix_cons_iff.mp hbl with hpre | hinf
      · exact hp (hpre.trans ⟨crlf ++ t', rfl⟩)
      · exact hl hinf

theorem blank_behind {l t : Bytes} (hl : ¬ crlf <:+: l) (h : crlf ++ crlf <:+: l ++ (crlf ++ t)) :
    crlf <+: t ∨ crlf ++ crlf <:+: t := by
  obtain ⟨j, hj⟩ := exists_find.mpr h
  rw [find_blank hl] at hj
  split at hj
  · exact .inl ‹_›
  · obtain ⟨k, hk, -⟩ := Option.map_eq_some_iff.mp hj
    exact .inr (exists_find.mp ⟨k, hk⟩)

theorem exists_fields (t : Bytes) (h : crlf <+: t ∨ crlf ++ crlf <:+: t) :
    ∃ (ls : List Bytes) (s : Bytes), (∀ l ∈ ls, l ≠ [] ∧ ¬ crlf <:+: l) ∧
      t = ls.flatMap (· ++ crlf) ++ (crlf ++ s) := by
  induction hn : t.length using Nat.strongRecOn generalizing t with
  | ind n ih =>
    subst hn
    by_cases hp : crlf <+: t
    · obtain ⟨s, rfl⟩ := hp
      exact ⟨[], s, by simp, rfl⟩
    · have hbreak := h.resolve_left hp
      obtain ⟨l, t', rfl, hl⟩ := exists_line ((List.prefix_append crlf crlf).isInfix.trans hbreak)
      have hne : l ≠ [] := by
        rintro rfl
        exact hp (List.prefix_append ..)
      have hcrlf : crlf.length = 2 := rfl
      obtain ⟨ls, s, hls, rfl⟩ :=
        ih t'.length (by simp [hcrlf]; omega) t' (blank_behind hl hbreak) rfl
      exact ⟨l :: ls, s, List.forall_mem_cons.mpr ⟨⟨hne, hl⟩, hls⟩, by simp⟩

theorem exists_request {buf : Bytes} (h : crlf ++ crlf <:+: buf) :
    ∃ (q : Request) (s : Bytes), buf = q.bytes ++ s := by
  obtain ⟨l, t, rfl, hl⟩ := exists_line ((List.prefix_append crlf crlf).isInfix.trans h)
  obtain ⟨ls, s, hls, rfl⟩ := exists_fields t (blank_behind hl h)
  exact ⟨⟨l, ls, hl, hls⟩, s, by simp [Request.bytes]⟩

theorem find_fields {ls : List Bytes} (hls : ∀ l ∈ ls, l ≠ [] ∧ ¬ crlf <:+: l) {l : Bytes}
    (hl : ¬ crlf <:+: l) (s : Bytes) :
    find (crlf ++ crlf) (l ++ (crlf ++ (ls.flatMap (· ++ crlf) ++ (crlf ++ s)))) =
      some (l.length + (ls.flatMap (· ++ crlf)).length) := by
  induction ls generalizing l with
  | nil =>
    rw [find_blank hl, List.flatMap_nil, List.nil_append, if_pos (List.prefix_append ..)]
    rfl
  | cons k ls ih =>
    obtain ⟨⟨hne, hk⟩, hls⟩ := List.forall_mem_cons.mp hls
    have hsplit : (k :: ls).flatMap (· ++ crlf) ++ (crlf ++ s) =
        k ++ (crlf ++ (ls.flatMap (· ++ crlf) ++ (crlf ++ s))) := by simp
    have hnot : ¬ crlf <+: k ++ (crlf ++ (ls.flatMap (· ++ crlf) ++ (crlf ++ s))) := by
      cases k with
      | nil => exact absurd rfl hne
      | cons b k => exact not_prefix_line hk _
    rw [hsplit, find_blank hl, if_neg hnot, ih hls hk, Option.map_some, List.flatMap_cons,
      List.length_append, List.length_append]
    congr 1
    have : crlf.length = 2 := rfl
    omega

theorem Request.four_le (q : Request) : 4 ≤ q.bytes.length := by
  have hcrlf : crlf.length = 2 := rfl
  simp only [Request.bytes, List.length_append, hcrlf]
  omega

theorem Request.find_blank (q : Request) (s : Bytes) :
    find (crlf ++ crlf) (q.bytes ++ s) = some (q.bytes.length - 4) := by
  have hcrlf : crlf.length = 2 := rfl
  have hlen : q.bytes.length - 4 =
      q.requestLine.length + (q.fieldLines.flatMap (· ++ crlf)).length := by
    simp only [Request.bytes, List.length_append, hcrlf]
    omega
  rw [hlen, ← find_fields q.fieldLines_ok q.requestLine_ok s]
  simp [Request.bytes]

/-! ## Looking a header up -/

theorem colon_first {b : UInt8} {s : Bytes} : [0x3A] <+: b :: s ↔ b = 0x3A := by
  simp [List.cons_prefix_cons, eq_comm]

theorem find_colon {l : Bytes} (h : 0x3A ∈ l) (t : Bytes) :
    find [0x3A] (l ++ t) = some (l.takeWhile (· != 0x3A)).length := by
  induction l with
  | nil => cases h
  | cons b l ih =>
    by_cases hb : b = 0x3A
    · rw [List.cons_append, find_here (colon_first.mpr hb),
        List.takeWhile_cons_of_neg (by simp [hb])]
      rfl
    · have hl : 0x3A ∈ l := (List.mem_cons.mp h).resolve_left (Ne.symm hb)
      rw [List.cons_append, find_cons_of_not (colon_first.not.mpr hb), ih hl,
        List.takeWhile_cons_of_pos (by simpa using hb)]
      rfl

theorem find_colon_behind {l : Bytes} (h : 0x3A ∉ l) (t : Bytes) :
    find [0x3A] (l ++ t) = (find [0x3A] t).map (· + l.length) := by
  induction l with
  | nil => simp
  | cons b l ih =>
    rw [List.mem_cons, not_or] at h
    rw [List.cons_append, find_cons_of_not (colon_first.not.mpr (Ne.symm h.1)), ih h.2,
      Option.map_map]
    rfl

theorem nameMatches_iff {buf name : Bytes} {i : Nat} (h : i + name.length ≤ buf.length) :
    nameMatches buf i name = true ↔
      ((buf.drop i).take name.length).map tolower = name.map tolower := by
  have hname : (List.range name.length).map (fun k => name.getD k 0) = name := by
    have hrange : (List.range name.length).map (fun k => name.getD (0 + k) 0) =
        (name.drop 0).take name.length := map_getD_range (by omega)
    simpa using hrange
  conv_rhs => rw [← map_getD_range h, ← hname, List.length_map, List.length_range]
  rw [List.map_map, List.map_map, List.map_inj_left]
  simp [nameMatches]

theorem drop_skipBlank {buf : Bytes} {e : Nat} (he : e ≤ buf.length) (v : Nat) :
    (buf.take e).drop (skipBlank buf e v) = ((buf.take e).drop v).dropWhile isBlank := by
  fun_induction skipBlank buf e v with
  | case1 v h ih =>
    rw [ih, drop_take_cons h.1 (h.1.trans_le he), List.dropWhile_cons_of_pos]
    rcases h.2 with hb | hb <;> rw [hb] <;> rfl
  | case2 v h =>
    by_cases hv : v < e
    · rw [drop_take_cons hv (hv.trans_le he), List.dropWhile_cons_of_neg]
      intro hb
      simp only [isBlank, Bool.or_eq_true, beq_iff_eq] at hb
      exact h ⟨hv, hb⟩
    · rw [List.drop_eq_nil_of_le (by simp; omega), List.dropWhile_nil]

section Walk

variable {buf name : Bytes} {i e : Nat}

theorem findHeaderFrom_blank (h : findFrom crlf buf i = some i) :
    findHeaderFrom buf name i = [] := by
  rw [findHeaderFrom]
  split
  · split
    · rfl
    · rename_i hf
      rw [hf] at h
      cases h
      rw [if_pos rfl]
  · rfl

/-- The walk stops where no line ends. -/
theorem findHeaderFrom_end (h : findFrom crlf buf i = none) : findHeaderFrom buf name i = [] := by
  rw [findHeaderFrom]
  split
  · split
    · rfl
    · rename_i hf
      rw [hf] at h
      cases h
  · rfl

theorem findHeaderFrom_line (h : findFrom crlf buf i = some e) (hne : e ≠ i) :
    findHeaderFrom buf name i =
      match findFrom [0x3A] buf i with
      | none => findHeaderFrom buf name (e + 2)
      | some colon =>
        if e < colon then findHeaderFrom buf name (e + 2)
        else if colon - i = name.length ∧ nameMatches buf i name then
          substr buf (skipBlank buf e (colon + 1)) (e - skipBlank buf e (colon + 1))
        else findHeaderFrom buf name (e + 2) := by
  have hi : i < buf.length := by
    have := findFrom_bounds (by decide) h
    omega
  rw [findHeaderFrom, if_pos hi]
  split
  · rename_i hf
    rw [hf] at h
    cases h
  · rename_i hf
    rw [hf] at h
    cases h
    exact if_neg hne

end Walk

theorem substr_value (pre l t : Bytes) :
    let buf := pre ++ (l ++ t)
    let e := l.length + pre.length
    let v := skipBlank buf e ((l.takeWhile (· != 0x3A)).length + pre.length + 1)
    substr buf v (e - v) = ((l.dropWhile (· != 0x3A)).drop 1).dropWhile isBlank := by
  intro buf e v
  have htake : buf.take e = pre ++ l := by
    have hlen : (pre ++ l).length = e := by rw [List.length_append, Nat.add_comm]
    exact (congrArg (List.take e) (List.append_assoc pre l t).symm).trans (List.take_left' hlen)
  have hdrop : (pre ++ l).drop ((l.takeWhile (· != 0x3A)).length + pre.length + 1) =
      (l.dropWhile (· != 0x3A)).drop 1 := by
    rw [Nat.add_right_comm, Nat.add_comm, ← List.drop_drop, List.drop_left, ← List.drop_drop]
    congr 1
    have hsplit : l.takeWhile (· != 0x3A) ++ l.dropWhile (· != 0x3A) = l :=
      List.takeWhile_append_dropWhile
    exact (congrArg (List.drop _) hsplit.symm).trans (List.drop_left' rfl)
  have he : e ≤ buf.length := by simp [e, buf]; omega
  rw [substr, ← List.drop_take, drop_skipBlank he, htake, hdrop]

theorem name_iff (pre l t name : Bytes) :
    ((l.takeWhile (· != 0x3A)).length + pre.length - pre.length = name.length ∧
        nameMatches (pre ++ (l ++ t)) pre.length name = true) ↔
      (l.takeWhile (· != 0x3A)).map tolower = name.map tolower := by
  have hpre : l.takeWhile (· != 0x3A) <+: l ++ t :=
    (List.takeWhile_prefix _).trans (List.prefix_append ..)
  have htake : (l ++ t).take (l.takeWhile (· != 0x3A)).length = l.takeWhile (· != 0x3A) :=
    (List.prefix_iff_eq_take.mp hpre).symm
  have hmatch : (l.takeWhile (· != 0x3A)).length = name.length →
      (nameMatches (pre ++ (l ++ t)) pre.length name = true ↔
        (l.takeWhile (· != 0x3A)).map tolower = name.map tolower) := fun hlen => by
    have hle := hpre.length_le
    rw [nameMatches_iff (by rw [List.length_append]; omega), List.drop_left, ← hlen, htake]
  rw [Nat.add_sub_cancel]
  refine ⟨?_, ?_⟩
  · rintro ⟨hlen, hn⟩
    exact (hmatch hlen).mp hn
  · intro hn
    have hlen : (l.takeWhile (· != 0x3A)).length = name.length := by
      simpa using congrArg List.length hn
    exact ⟨hlen, (hmatch hlen).mpr hn⟩

theorem findHeaderFrom_lines (name : Bytes) {ls : List Bytes}
    (hls : ∀ l ∈ ls, l ≠ [] ∧ ¬ crlf <:+: l) (pre s : Bytes) :
    findHeaderFrom (pre ++ (ls.flatMap (· ++ crlf) ++ (crlf ++ s))) name pre.length =
      ((ls.findSome? (valueOf name)).getD []).dropWhile isBlank := by
  have hfrom : ∀ pre pat t : Bytes, findFrom pat (pre ++ t) pre.length =
      (find pat t).map (· + pre.length) := fun pre pat t => by rw [findFrom, List.drop_left]
  induction ls generalizing pre with
  | nil =>
    apply findHeaderFrom_blank
    rw [hfrom, List.flatMap_nil, List.nil_append, find_here (List.prefix_append ..),
      Option.map_some, Nat.zero_add]
  | cons l ls ih =>
    obtain ⟨⟨hne, hl⟩, hls⟩ := List.forall_mem_cons.mp hls
    have hpos := List.length_pos_of_ne_nil hne
    generalize ht : ls.flatMap (· ++ crlf) ++ (crlf ++ s) = t at ih
    have hbuf : (l :: ls).flatMap (· ++ crlf) ++ (crlf ++ s) = l ++ (crlf ++ t) := by
      rw [List.flatMap_cons, List.append_assoc, ht, List.append_assoc]
    have hend : findFrom crlf (pre ++ (l ++ (crlf ++ t))) pre.length =
        some (l.length + pre.length) := by rw [hfrom, find_line hl, Option.map_some]
    have hnext : findHeaderFrom (pre ++ (l ++ (crlf ++ t))) name (l.length + pre.length + 2) =
        ((ls.findSome? (valueOf name)).getD []).dropWhile isBlank := by
      have hpre : (pre ++ (l ++ crlf)).length = l.length + pre.length + 2 := by
        have hcrlf : crlf.length = 2 := rfl
        rw [List.length_append, List.length_append, hcrlf]
        omega
      rw [← ih hls (pre ++ (l ++ crlf)), hpre, List.append_assoc, List.append_assoc]
    rw [hbuf, findHeaderFrom_line hend (by omega), hfrom]
    by_cases hcolon : 0x3A ∈ l
    · have hle : (l.takeWhile (· != 0x3A)).length ≤ l.length :=
        (List.takeWhile_prefix _).length_le
      have hvalue : valueOf name l =
          if (l.takeWhile (· != 0x3A)).map tolower = name.map tolower then
            some ((l.dropWhile (· != 0x3A)).drop 1) else none := by
        rw [valueOf, field, if_pos hcolon]
        rfl
      rw [find_colon hcolon, Option.map_some]
      simp only [if_neg (show ¬ l.length + pre.length <
        (l.takeWhile (· != 0x3A)).length + pre.length by omega), name_iff, hnext, substr_value,
        List.findSome?_cons, hvalue]
      split
      · rfl
      · rfl
    · have hvalue : valueOf name l = none := by rw [valueOf, field, if_neg hcolon]; rfl
      rw [find_colon_behind hcolon, List.findSome?_cons, hvalue]
      cases hk : find [0x3A] (crlf ++ t) with
      | none => exact hnext
      | some k =>
        -- the colon is behind the end of the line
        have hk0 : k ≠ 0 := by
          rintro rfl
          have hp := (find_eq_some.mp hk).1
          exact absurd (colon_first.mp hp) (by decide)
        simp only [Option.map_some]
        rw [if_pos (by omega)]
        exact hnext

/-- **`FindHeader`** looks at the lines of the request only. -/
theorem findHeader_eq (q : Request) (s name : Bytes) :
    findHeader (q.bytes ++ s) name = (q.value name).dropWhile isBlank := by
  have hbuf : q.bytes ++ s =
      q.requestLine ++ (crlf ++ (q.fieldLines.flatMap (· ++ crlf) ++ (crlf ++ s))) := by
    simp [Request.bytes]
  have hpre : (q.requestLine ++ crlf).length = q.requestLine.length + 2 := by
    rw [List.length_append]
    rfl
  have hlines := findHeaderFrom_lines name q.fieldLines_ok (q.requestLine ++ crlf) s
  rw [hpre, List.append_assoc, ← hbuf] at hlines
  rw [findHeader, hbuf, find_line q.requestLine_ok, ← hbuf]
  exact hlines

end PongPp.Ws
