import Mathlib.Data.List.Infix

/-!
# Frames between delimiters

A stream is cut into frames at delimiters. What a decoder takes off a buffer is what comes before
the first delimiter; where no delimiter contains another one, more bytes behind the buffer do not
change it (`FrameDecoder.stable`). A decoder that keeps what it cannot decode yet therefore gives
the same messages, however the stream is cut into chunks (`feed_eq`).
-/

namespace Xenon.Foundation

variable {α μ : Type*} {delimiters : List (List α)}

/-! ## One frame -/

/-- A decoder that takes the shortest frame off a buffer, without its delimiter. -/
structure FrameDecoder (delimiters : List (List α)) where
  decode : List α → Option (List α × List α)
  decode_some : ∀ {buffer frame rest}, decode buffer = some (frame, rest) →
    (∃ d ∈ delimiters, buffer = frame ++ (d ++ rest)) ∧
      ∀ d ∈ delimiters, ∀ frame' rest', buffer = frame' ++ (d ++ rest') →
        frame.length ≤ frame'.length
  decode_none : ∀ {buffer}, decode buffer = none →
    ∀ d ∈ delimiters, ∀ frame rest, buffer ≠ frame ++ (d ++ rest)

/-- No delimiter is empty or part of another one. -/
structure Unnested (delimiters : List (List α)) : Prop where
  ne_nil : ∀ d ∈ delimiters, d ≠ []
  eq_of_infix : ∀ d ∈ delimiters, ∀ d' ∈ delimiters, d <:+: d' → d = d'

namespace FrameDecoder

variable (decoder : FrameDecoder delimiters) {buffer frame rest d : List α}

/-- The first delimiter decides. -/
theorem decode_eq_some (hd : Unnested delimiters) (hmem : d ∈ delimiters)
    (hleast : ∀ d' ∈ delimiters, ∀ frame' rest', frame ++ (d ++ rest) = frame' ++ (d' ++ rest') →
      frame.length ≤ frame'.length) :
    decoder.decode (frame ++ (d ++ rest)) = some (frame, rest) := by
  cases hdecode : decoder.decode (frame ++ (d ++ rest)) with
  | none => exact absurd rfl (decoder.decode_none hdecode d hmem frame rest)
  | some p =>
      obtain ⟨frame', rest'⟩ := p
      obtain ⟨⟨d', hmem', heq⟩, hleast'⟩ := decoder.decode_some hdecode
      have hlength : frame.length = frame'.length :=
        le_antisymm (hleast d' hmem' _ _ heq) (hleast' d hmem _ _ rfl)
      obtain ⟨rfl, hrest⟩ := List.append_inj heq hlength
      -- of two delimiters at one place, one begins with the other
      have hd' : d = d' := by
        rcases List.append_eq_append_iff.mp hrest with ⟨t, h, -⟩ | ⟨t, h, -⟩
        · exact hd.eq_of_infix d hmem d' hmem' ⟨[], t, by rw [h, List.nil_append]⟩
        · exact (hd.eq_of_infix d' hmem' d hmem ⟨[], t, by rw [h, List.nil_append]⟩).symm
      subst hd'
      rw [List.append_cancel_left hrest]

/-- A delimiter that begins before the first one and reaches behind the buffer would contain it. -/
theorem stable (hd : Unnested delimiters) (h : decoder.decode buffer = some (frame, rest))
    (more : List α) : decoder.decode (buffer ++ more) = some (frame, rest ++ more) := by
  obtain ⟨⟨d, hmem, rfl⟩, hleast⟩ := decoder.decode_some h
  have hassoc : frame ++ (d ++ rest) ++ more = frame ++ (d ++ (rest ++ more)) := by simp
  rw [hassoc]
  refine decoder.decode_eq_some hd hmem fun d' hmem' frame' rest' heq => ?_
  by_contra hlt
  have hlt : frame'.length < frame.length := not_le.mp hlt
  obtain ⟨t, rfl, hrest⟩ : ∃ t, frame = frame' ++ t ∧
      (t ++ d) ++ (rest ++ more) = d' ++ rest' := by
    rcases List.append_eq_append_iff.mp heq with ⟨t, h, -⟩ | ⟨t, h, hrest⟩
    · rw [h, List.length_append] at hlt
      omega
    · exact ⟨t, h, by rw [hrest, List.append_assoc]⟩
  rcases List.append_eq_append_iff.mp hrest with ⟨u, h, -⟩ | ⟨u, h, -⟩
  · -- it reaches behind the buffer
    have hinfix : d <:+: d' := ⟨t, u, h.symm⟩
    have hlength := congrArg List.length h
    rw [← hd.eq_of_infix d hmem d' hmem' hinfix, List.length_append, List.length_append] at hlength
    rw [List.length_append] at hlt
    omega
  · -- it is in the buffer
    have hbuffer : frame' ++ t ++ (d ++ rest) = frame' ++ (d' ++ (u ++ rest)) := by
      rw [← List.append_assoc d', ← h]
      simp
    have := hleast d' hmem' frame' (u ++ rest) hbuffer
    omega

/-- The decoder that looks for a delimiter at one place after the other. -/
def scanFrom [BEq α] (delimiters : List (List α)) : List α → Option (List α × List α)
  | [] => none
  | x :: buffer =>
      match delimiters.find? (·.isPrefixOf (x :: buffer)) with
      | some d => some ([], (x :: buffer).drop d.length)
      | none => (scanFrom delimiters buffer).map fun (frame, rest) => (x :: frame, rest)

theorem prefix_of_find? [DecidableEq α] (h : delimiters.find? (·.isPrefixOf buffer) = some d) :
    d ∈ delimiters ∧ d ++ buffer.drop d.length = buffer := by
  have hstart : d.isPrefixOf buffer = true := by simpa using List.find?_some h
  obtain ⟨t, rfl⟩ := List.isPrefixOf_iff_prefix.mp hstart
  exact ⟨List.mem_of_find?_eq_some h, by rw [List.drop_left]⟩

theorem not_prefix_of_find? [DecidableEq α] (h : delimiters.find? (·.isPrefixOf buffer) = none)
    (hmem : d ∈ delimiters) (rest : List α) : buffer ≠ d ++ rest := by
  rintro rfl
  exact List.find?_eq_none.mp h d hmem (List.isPrefixOf_iff_prefix.mpr (List.prefix_append _ _))

theorem scanFrom_some [DecidableEq α] (h : scanFrom delimiters buffer = some (frame, rest)) :
    (∃ d ∈ delimiters, buffer = frame ++ (d ++ rest)) ∧
      ∀ d ∈ delimiters, ∀ frame' rest', buffer = frame' ++ (d ++ rest') →
        frame.length ≤ frame'.length := by
  induction buffer generalizing frame with
  | nil => cases h
  | cons x buffer ih =>
      unfold scanFrom at h
      cases hfind : delimiters.find? (·.isPrefixOf (x :: buffer)) with
      | some d =>
          rw [hfind] at h
          cases h
          obtain ⟨hmem, hsplit⟩ := prefix_of_find? hfind
          exact ⟨⟨d, hmem, hsplit.symm⟩, fun _ _ _ _ _ => Nat.zero_le _⟩
      | none =>
          rw [hfind] at h
          obtain ⟨⟨frame₀, rest₀⟩, hscan, heq⟩ := Option.map_eq_some_iff.mp h
          cases heq
          obtain ⟨⟨d, hmem, rfl⟩, hleast⟩ := ih hscan
          refine ⟨⟨d, hmem, rfl⟩, fun d' hmem' frame' rest' hsplit => ?_⟩
          cases frame' with
          | nil => exact absurd hsplit (not_prefix_of_find? hfind hmem' rest')
          | cons y frame' =>
              have := hleast d' hmem' frame' rest' (List.cons.inj hsplit).2
              simpa using this

theorem scanFrom_none [DecidableEq α] (hd : Unnested delimiters)
    (h : scanFrom delimiters buffer = none) :
    ∀ d ∈ delimiters, ∀ frame rest, buffer ≠ frame ++ (d ++ rest) := by
  intro d hmem
  induction buffer with
  | nil =>
      intro frame rest heq
      have hnil := (List.append_eq_nil_iff.mp heq.symm).2
      exact hd.ne_nil d hmem (List.append_eq_nil_iff.mp hnil).1
  | cons x buffer ih =>
      unfold scanFrom at h
      cases hfind : delimiters.find? (·.isPrefixOf (x :: buffer)) with
      | some d =>
          rw [hfind] at h
          cases h
      | none =>
          rw [hfind] at h
          intro frame rest heq
          cases frame with
          | nil => exact not_prefix_of_find? hfind hmem rest heq
          | cons y frame =>
              exact ih (Option.map_eq_none_iff.mp h) frame rest (List.cons.inj heq).2

/-- Decoders exist. -/
def scan [DecidableEq α] (hd : Unnested delimiters) : FrameDecoder delimiters where
  decode := scanFrom delimiters
  decode_some := scanFrom_some
  decode_none := scanFrom_none hd

end FrameDecoder

/-! ## Streams -/

/-- A decoder that keeps what is not decoded yet: `callDecode` decodes as long as there are
messages. -/
structure StreamDecoder (α μ : Type*) where
  callDecode : (List α → Option (μ × List α)) → List α → List μ × List α
  callDecode_none : ∀ {decode buffer}, decode buffer = none →
    callDecode decode buffer = ([], buffer)
  callDecode_some : ∀ {decode buffer message rest}, decode buffer = some (message, rest) →
    rest.length < buffer.length →
      callDecode decode buffer =
        (message :: (callDecode decode rest).1, (callDecode decode rest).2)

/-- A message does not depend on what follows it, and takes something off the buffer. -/
structure Stable (decode : List α → Option (μ × List α)) : Prop where
  append : ∀ {buffer message rest}, decode buffer = some (message, rest) → ∀ more,
    decode (buffer ++ more) = some (message, rest ++ more)
  lt : ∀ {buffer message rest}, decode buffer = some (message, rest) → rest.length < buffer.length

theorem FrameDecoder.stable_map (decoder : FrameDecoder delimiters) (hd : Unnested delimiters)
    (message : List α → μ) :
    Stable fun buffer => (decoder.decode buffer).map fun (frame, rest) => (message frame, rest) := by
  constructor
  · intro buffer m rest h more
    obtain ⟨⟨frame, rest⟩, hdecode, heq⟩ := Option.map_eq_some_iff.mp h
    cases heq
    simp only [decoder.stable hd hdecode more, Option.map_some]
  · intro buffer m rest h
    obtain ⟨⟨frame, rest⟩, hdecode, heq⟩ := Option.map_eq_some_iff.mp h
    cases heq
    obtain ⟨⟨d, hmem, rfl⟩, -⟩ := decoder.decode_some hdecode
    have := List.length_pos_of_ne_nil (hd.ne_nil d hmem)
    simp only [List.length_append]
    omega

namespace StreamDecoder

variable (s : StreamDecoder α μ) {decode : List α → Option (μ × List α)}

/-- The chunks of a stream, one after the other, with what is left of those before. -/
def feed (decode : List α → Option (μ × List α)) : List α → List (List α) → List μ × List α
  | buffer, [] => ([], buffer)
  | buffer, chunk :: chunks =>
      let r := s.callDecode decode (buffer ++ chunk)
      (r.1 ++ (feed decode r.2 chunks).1, (feed decode r.2 chunks).2)

/-- Nothing is left that could be decoded. -/
theorem decode_callDecode (h : Stable decode) (buffer : List α) :
    decode (s.callDecode decode buffer).2 = none := by
  induction hlength : buffer.length using Nat.strong_induction_on generalizing buffer with
  | _ n ih =>
      cases hdecode : decode buffer with
      | none =>
          rw [s.callDecode_none hdecode]
          exact hdecode
      | some p =>
          obtain ⟨message, rest⟩ := p
          have hlt := h.lt hdecode
          rw [s.callDecode_some hdecode hlt]
          exact ih rest.length (hlength ▸ hlt) rest rfl

theorem callDecode_append (h : Stable decode) (buffer more : List α) :
    s.callDecode decode (buffer ++ more) =
      ((s.callDecode decode buffer).1 ++
          (s.callDecode decode ((s.callDecode decode buffer).2 ++ more)).1,
        (s.callDecode decode ((s.callDecode decode buffer).2 ++ more)).2) := by
  induction hlength : buffer.length using Nat.strong_induction_on generalizing buffer with
  | _ n ih =>
      cases hdecode : decode buffer with
      | none => rw [s.callDecode_none hdecode, List.nil_append]
      | some p =>
          obtain ⟨message, rest⟩ := p
          have hlt := h.lt hdecode
          have happend := h.append hdecode more
          rw [s.callDecode_some happend (h.lt happend), s.callDecode_some hdecode hlt,
            ih rest.length (hlength ▸ hlt) rest rfl, List.cons_append]

/-- **However a stream is cut, its messages are those of the whole.** -/
theorem feed_eq (h : Stable decode) {buffer : List α} (hbuffer : decode buffer = none)
    (chunks : List (List α)) :
    s.feed decode buffer chunks = s.callDecode decode (buffer ++ chunks.flatten) := by
  induction chunks generalizing buffer with
  | nil => rw [List.flatten_nil, List.append_nil, s.callDecode_none hbuffer, feed]
  | cons chunk chunks ih =>
      rw [feed, ih (s.decode_callDecode h _), List.flatten_cons, ← List.append_assoc,
        s.callDecode_append h (buffer ++ chunk)]

/-- The loop, as long as there is something taken off. -/
def loop (decode : List α → Option (μ × List α)) : Nat → List α → List μ × List α
  | 0, buffer => ([], buffer)
  | n + 1, buffer =>
      match decode buffer with
      | none => ([], buffer)
      | some (message, rest) =>
          if rest.length < buffer.length then
            (message :: (loop decode n rest).1, (loop decode n rest).2)
          else ([], buffer)

theorem loop_eq_loop {decode : List α → Option (μ × List α)} {n n' : Nat} {buffer : List α}
    (hn : buffer.length < n) (hn' : buffer.length < n') :
    loop decode n buffer = loop decode n' buffer := by
  induction n generalizing n' buffer with
  | zero => omega
  | succ n ih =>
      obtain ⟨n', rfl⟩ := Nat.exists_eq_succ_of_ne_zero (Nat.ne_of_gt (Nat.zero_lt_of_lt hn'))
      unfold loop
      cases hdecode : decode buffer with
      | none => rfl
      | some p =>
          obtain ⟨message, rest⟩ := p
          dsimp only
          split_ifs with hlt
          · rw [ih (show rest.length < n by omega) (show rest.length < n' by omega)]
          · rfl

def looping : StreamDecoder α μ where
  callDecode decode buffer := loop decode (buffer.length + 1) buffer
  callDecode_none h := by simp only [loop, h]
  callDecode_some {decode buffer message rest} h hlt := by
    rw [loop, h]
    simp only [hlt, if_pos]
    rw [loop_eq_loop hlt (Nat.lt_succ_self _)]

end StreamDecoder

end Xenon.Foundation
