import Mathlib.Data.List.Chain
import Xenon.Foundation.Framing
import Xenon.Foundation.Utf8
import Xenon.Http.ServerSentEventConverter

/-!
# The stream of events at the client

`com.vmware.xenon.common.http.netty.NettyHttpEventStreamHandler`. After the response that starts an
event stream, the contents that arrive are cut into frames at empty lines, and a frame is read as an
event. Frames, the buffer between two contents and the reading of bytes as UTF-8 are netty's.
-/

namespace Xenon.Http.EventStreamHandler

open Foundation Foundation.Text Foundation.Utf8 ServerSentEventConverter

def delimiters : List (List UInt8) := ["\n\n".toList, "\r\n\r\n".toList].map getBytes

/-- What the handler uses of netty: `DelimiterBasedFrameDecoder.decode`, `ByteToMessageDecoder` and
`ByteBuf.toString(ENCODING_CHARSET)`. -/
structure Netty where
  frameDecoder : FrameDecoder delimiters
  messageDecoder : StreamDecoder UInt8 ServerSentEvent
  toString : List UInt8 → List Char
  toString_getBytes : ∀ s, toString (getBytes s) = s

inductive HttpObject where
  | fullHttpMessage
  | httpResponse (contentType : Option String) (status : Int)
  | httpContent (content : List UInt8)
  | other
deriving DecidableEq

/-- What the next handler reads. -/
inductive Message where
  | unchanged (msg : HttpObject)
  | eventStreamHeaders (originalResponse : HttpObject)
  | eventStream (event : ServerSentEvent)
deriving DecidableEq

inductive Phase where
  | notInitialized
  | inEventStream
deriving DecidableEq

def mediaTypeTextEventStream : String := "text/event-stream"
def statusCodeOk : Int := 200

/-- The handler, with the bytes that are not decoded yet. -/
structure Handler where
  phase : Phase := .notInitialized
  cumulation : List UInt8 := []

namespace Handler

variable (netty : Netty)

/-- `decode`. -/
def decode (buffer : List UInt8) : Option (ServerSentEvent × List UInt8) :=
  (netty.frameDecoder.decode buffer).map fun (rawEvent, rest) =>
    (deserialize (netty.toString rawEvent), rest)

def acceptInboundMessage (h : Handler) : HttpObject → Bool
  | .httpResponse _ _ => h.phase = .notInitialized
  | .httpContent _ => h.phase = .inEventStream
  | _ => false

def resetState (h : Handler) : Handler := { h with phase := .notInitialized }

/-- `channelRead`. -/
def channelRead (h : Handler) (msg : HttpObject) : Handler × List Message :=
  if !h.acceptInboundMessage msg then (h.resetState, [.unchanged msg])
  else
    match msg with
    | .httpResponse contentType status =>
        if contentType = some mediaTypeTextEventStream ∧ status = statusCodeOk then
          ({ h with phase := .inEventStream }, [.eventStreamHeaders msg])
        else (h.resetState, [.unchanged msg])
    | .httpContent content =>
        let r := netty.messageDecoder.callDecode (decode netty) (h.cumulation ++ content)
        ({ h with cumulation := r.2 }, r.1.map .eventStream)
    | _ => (h.resetState, [.unchanged msg])

/-- The messages of a channel, one after the other. -/
def run (h : Handler) : List HttpObject → Handler × List Message
  | [] => (h, [])
  | msg :: msgs =>
      let r := h.channelRead netty msg
      ((r.1.run msgs).1, r.2 ++ (r.1.run msgs).2)

end Handler

/-- The response that starts a stream of events. -/
def streamResponse : HttpObject := .httpResponse (some mediaTypeTextEventStream) statusCodeOk

/-- What the next handler reads of a stream that arrives in chunks. -/
def received (netty : Netty) (chunks : List (List UInt8)) : List Message :=
  (Handler.run netty {} (streamResponse :: chunks.map .httpContent)).2

/-! ## Chunks -/

theorem delimiters_eq : delimiters = [[10, 10], [13, 10, 13, 10]] := by decide

theorem unnested_delimiters : Unnested delimiters := by
  rw [delimiters_eq]
  constructor <;> decide

section Chunks

variable {netty : Netty}

theorem stable_decode (netty : Netty) : Stable (Handler.decode netty) :=
  netty.frameDecoder.stable_map unnested_delimiters fun rawEvent =>
    deserialize (netty.toString rawEvent)

theorem decode_nil (netty : Netty) : Handler.decode netty [] = none := by
  cases hdecode : Handler.decode netty [] with
  | none => rfl
  | some p => exact absurd ((stable_decode netty).lt hdecode) (Nat.not_lt_zero _)

/-- One line feed is kept. -/
theorem decode_feed (netty : Netty) : Handler.decode netty [10] = none := by
  unfold Handler.decode
  rw [Option.map_eq_none_iff]
  cases hdecode : netty.frameDecoder.decode [10] with
  | none => rfl
  | some p =>
      obtain ⟨⟨d, hd, hsplit⟩, -⟩ := netty.frameDecoder.decode_some hdecode
      have hlength := congrArg List.length hsplit
      rw [delimiters_eq] at hd
      rcases List.mem_cons.mp hd with rfl | hd
      · simp at hlength
        omega
      · rw [List.mem_singleton.mp hd] at hlength
        simp at hlength
        omega

/-- In a stream of events, contents are decoded one after the other. -/
theorem run_contents (netty : Netty) (chunks : List (List UInt8)) (cumulation : List UInt8) :
    (Handler.run netty { phase := .inEventStream, cumulation }
        (chunks.map .httpContent)).2 =
      (netty.messageDecoder.feed (Handler.decode netty) cumulation chunks).1.map .eventStream := by
  induction chunks generalizing cumulation with
  | nil => rfl
  | cons chunk chunks ih =>
      rw [List.map_cons, Handler.run, StreamDecoder.feed, List.map_append, ← ih]
      rfl

/-- What is received depends on the bytes only. -/
theorem received_eq (netty : Netty) (chunks : List (List UInt8)) :
    received netty chunks = .eventStreamHeaders streamResponse ::
      (netty.messageDecoder.callDecode (Handler.decode netty) chunks.flatten).1.map
        .eventStream := by
  have hfeed := netty.messageDecoder.feed_eq (stable_decode netty) (decode_nil netty) chunks
  rw [List.nil_append] at hfeed
  rw [← hfeed, ← run_contents]
  rfl

end Chunks

/-! ## Frames -/

theorem getBytes_intercalate (lines : List (List Char)) :
    getBytes (['\n'].intercalate lines) = [10].intercalate (lines.map getBytes) := by
  induction lines with
  | nil => rfl
  | cons l lines ih =>
      cases lines with
      | nil => simp
      | cons l' lines =>
          rw [List.intercalate_cons_cons, getBytes_append, getBytes_append, ih]
          simp only [List.map_cons, List.intercalate_cons_cons]
          rfl

/-- No delimiter is in a frame, nor begins in it. -/
structure Whole (frame : List UInt8) : Prop where
  lines : (frame ++ [10]).IsChain fun a b => a ≠ 10 ∨ b ≠ 10
  carriageReturns : 13 ∉ frame

section Frames

variable {frame : List UInt8}

theorem Whole.least (h : Whole frame) {d frame' rest rest' : List UInt8} (hd : d ∈ delimiters)
    (heq : frame ++ ([10, 10] ++ rest) = frame' ++ (d ++ rest')) :
    frame.length ≤ frame'.length := by
  by_contra hlt
  obtain ⟨x, t, rfl, hrest⟩ : ∃ x t, frame = frame' ++ x :: t ∧
      d ++ rest' = x :: (t ++ ([10, 10] ++ rest)) := by
    rcases List.append_eq_append_iff.mp heq with ⟨t, ht, -⟩ | ⟨t, ht, hrest⟩
    · rw [ht, List.length_append] at hlt
      omega
    · cases t with
      | nil =>
          rw [ht, List.append_nil] at hlt
          omega
      | cons x t => exact ⟨x, t, ht, hrest⟩
  rw [delimiters_eq] at hd
  rcases List.mem_cons.mp hd with rfl | hd
  · -- two line feeds are not in a frame, and not at its end
    obtain ⟨rfl, htail⟩ := List.cons.inj hrest
    have hadjacent : ∃ u, frame' ++ 10 :: t ++ [10] = frame' ++ 10 :: 10 :: u := by
      cases t with
      | nil => exact ⟨[], by simp⟩
      | cons y t =>
          obtain ⟨rfl, -⟩ := List.cons.inj htail
          exact ⟨t ++ [10], by simp⟩
    obtain ⟨u, hu⟩ := hadjacent
    have hlines := h.lines
    rw [hu] at hlines
    have hpair := (List.isChain_cons_cons.mp (List.isChain_append.mp hlines).2.1).1
    exact hpair.elim (fun hne => hne rfl) fun hne => hne rfl
  · rw [List.mem_singleton.mp hd] at hrest
    obtain ⟨rfl, -⟩ := List.cons.inj hrest
    exact h.carriageReturns (List.mem_append_right _ List.mem_cons_self)

theorem decode_whole (netty : Netty) (h : Whole frame) (rest : List UInt8) :
    Handler.decode netty (frame ++ ([10, 10] ++ rest)) =
      some (deserialize (netty.toString frame), rest) := by
  have hmem : [10, 10] ∈ delimiters := by
    rw [delimiters_eq]
    exact List.mem_cons_self
  unfold Handler.decode
  rw [netty.frameDecoder.decode_eq_some unnested_delimiters hmem
    fun d hd frame' rest' => h.least hd]
  rfl

theorem whole_nil : Whole [] := ⟨.singleton _, List.not_mem_nil⟩

/-- Lines that are not empty, also behind a line feed. -/
theorem whole_lines {lines : List (List UInt8)} (hne : lines ≠ [])
    (h : ∀ l ∈ lines, l ≠ [] ∧ 10 ∉ l ∧ 13 ∉ l) :
    Whole ([10].intercalate lines) ∧ Whole (10 :: [10].intercalate lines) := by
  have hchain : ([10].intercalate lines ++ [10]).IsChain fun a b => a ≠ 10 ∨ b ≠ 10 := by
    rw [← flatten_map_concat _ hne, List.isChain_flatten (by simp)]
    constructor
    · intro l' hl'
      obtain ⟨l, hl, rfl⟩ := List.mem_map.mp hl'
      have hfeed : ∀ a ∈ l, a ≠ 10 := fun a ha heq => (h l hl).2.1 (heq ▸ ha)
      refine List.isChain_append.mpr ⟨?_, .singleton _, fun a ha b _ => ?_⟩
      · exact (List.pairwise_of_forall_mem_list fun a ha _ _ => Or.inl (hfeed a ha)).isChain
      · exact Or.inl (hfeed a (List.mem_of_getLast? ha))
    · refine (List.pairwise_of_forall_mem_list fun _ _ l' hl' a _ b hb => Or.inr ?_).isChain
      obtain ⟨l, hl, rfl⟩ := List.mem_map.mp hl'
      rw [Option.mem_def, List.head?_append_of_ne_nil _ (h l hl).1] at hb
      exact fun heq => (h l hl).2.1 (heq ▸ List.mem_of_head? hb)
  have hreturns : 13 ∉ [10].intercalate lines := by
    intro hmem
    rcases mem_intercalate hmem with heq | ⟨l, hl, hmem⟩
    · exact absurd heq (by decide)
    · exact (h l hl).2.2 hmem
  refine ⟨⟨hchain, hreturns⟩, ?_, ?_⟩
  · obtain ⟨l, lines, rfl⟩ := List.exists_cons_of_ne_nil hne
    rw [List.cons_append, List.isChain_cons]
    refine ⟨fun b hb => Or.inr ?_, hchain⟩
    have hl := h l List.mem_cons_self
    rw [intercalate_cons, List.append_assoc, List.head?_append_of_ne_nil _ hl.1] at hb
    exact fun heq => hl.2.1 (heq ▸ List.mem_of_head? hb)
  · rw [List.mem_cons, not_or]
    exact ⟨by decide, hreturns⟩

end Frames

/-! ## Events -/

/-- The text of an event in its frame. -/
def frameText (e : ServerSentEvent) : List Char := ['\n'].intercalate (fields e)

/-- What is between the delimiters of a stream: an event without fields is a line feed only, which
makes a delimiter with the next one, and is before the text of an event with fields. -/
def framesOf : List ServerSentEvent → List (List Char)
  | [] => []
  | e :: es =>
      if e = {} then
        match es with
        | [] => []
        | e' :: es' => (if e' = {} then [] else '\n' :: frameText e') :: framesOf es'
      else frameText e :: framesOf es

section Events

variable {e : ServerSentEvent} {es : List ServerSentEvent}

theorem fields_eq_nil : fields e = [] ↔ e = {} := by
  obtain ⟨event, data, id, retry⟩ := e
  cases event <;> cases data <;> cases id <;> cases retry <;>
    simp [fields, splitLines_ne_nil]

theorem serialize_of_ne (h : e ≠ {}) : serialize e = frameText e ++ "\n\n".toList := by
  unfold serialize frameText
  rw [flatten_map_concat _ (mt fields_eq_nil.mp h), List.append_assoc]
  rfl

theorem whole_frameText (he : WellFormed e) (h : e ≠ {}) :
    Whole (getBytes (frameText e)) ∧ Whole (getBytes ('\n' :: frameText e)) := by
  have hne : (fields e).map getBytes ≠ [] := by simpa using mt fields_eq_nil.mp h
  have hlines : ∀ l ∈ (fields e).map getBytes, l ≠ [] ∧ 10 ∉ l ∧ 13 ∉ l := by
    intro l hl
    obtain ⟨line, hline, rfl⟩ := List.mem_map.mp hl
    obtain ⟨hline, hreturn, hfeed⟩ := of_mem_fields he hline
    exact ⟨getBytes_ne_nil hline, not_mem_getBytes (by decide) (by decide) hfeed,
      not_mem_getBytes (by decide) (by decide) hreturn⟩
  have hwhole := whole_lines hne hlines
  rw [← getBytes_intercalate] at hwhole
  exact hwhole

/-- One frame is taken off, and the stream goes on behind its delimiter. -/
theorem callDecode_frame (netty : Netty) {text : List Char} (h : Whole (getBytes text))
    (rest : List Char) :
    (netty.messageDecoder.callDecode (Handler.decode netty)
        (getBytes (text ++ "\n\n".toList ++ rest))).1 =
      deserialize text ::
        (netty.messageDecoder.callDecode (Handler.decode netty) (getBytes rest)).1 := by
  have hbytes : getBytes (text ++ "\n\n".toList ++ rest) =
      getBytes text ++ ([10, 10] ++ getBytes rest) := by
    rw [getBytes_append, getBytes_append, List.append_assoc]
    rfl
  have hdecode := decode_whole netty h (getBytes rest)
  rw [hbytes, netty.messageDecoder.callDecode_some hdecode ((stable_decode netty).lt hdecode),
    netty.toString_getBytes]

theorem callDecode_stream (netty : Netty) (hes : ∀ e ∈ es, WellFormed e) :
    (netty.messageDecoder.callDecode (Handler.decode netty)
        (getBytes (es.map serialize).flatten)).1 = (framesOf es).map deserialize := by
  fun_induction framesOf es with
  | case1 =>
      rw [List.map_nil, List.flatten_nil]
      exact congrArg Prod.fst (netty.messageDecoder.callDecode_none (decode_nil netty))
  | case2 => exact congrArg Prod.fst (netty.messageDecoder.callDecode_none (decode_feed netty))
  | case3 e' es' ih =>
      have ih := ih fun e he => hes e (List.mem_cons_of_mem _ (List.mem_cons_of_mem _ he))
      show _ = deserialize _ :: (framesOf es').map deserialize
      rw [← ih]
      split_ifs with h'
      · subst h'
        exact @callDecode_frame netty [] whole_nil _
      · have he' := hes e' (List.mem_cons_of_mem _ List.mem_cons_self)
        rw [← callDecode_frame netty (whole_frameText he' h').2, List.map_cons, List.map_cons,
          List.flatten_cons, List.flatten_cons, serialize_of_ne h']
        rfl
  | case4 e es h ih =>
      have ih := ih fun e he => hes e (List.mem_cons_of_mem _ he)
      show _ = deserialize _ :: (framesOf es).map deserialize
      rw [← ih, ← callDecode_frame netty (whole_frameText (hes e List.mem_cons_self) h).1,
        List.map_cons, List.flatten_cons, serialize_of_ne h]

/-- As many frames as events only come from events with fields. -/
theorem length_framesOf (es : List ServerSentEvent) : (framesOf es).length ≤ es.length ∧
    ((framesOf es).length = es.length → ∀ e ∈ es, e ≠ {}) := by
  fun_induction framesOf es with
  | case1 => simp
  | case2 => simp
  | case3 e' es' ih =>
      refine ⟨?_, fun heq => ?_⟩
      · simp only [List.length_cons]
        omega
      · simp only [List.length_cons] at heq
        omega
  | case4 e es h ih =>
      refine ⟨by simpa using ih.1, fun heq => ?_⟩
      have := ih.2 (by simpa using heq)
      simpa [h] using this

theorem framesOf_of_ne (h : ∀ e ∈ es, e ≠ {}) : framesOf es = es.map frameText := by
  induction es with
  | nil => rfl
  | cons e es ih =>
      unfold framesOf
      rw [if_neg (h e List.mem_cons_self), ih fun e he => h e (List.mem_cons_of_mem _ he),
        List.map_cons]

/-- Whichever way the stream is cut, what is received is what was sent if and only if every event
has a field and loses no blank. -/
theorem received_iff (netty : Netty) (hes : ∀ e ∈ es, WellFormed e) {chunks : List (List UInt8)}
    (hchunks : chunks.flatten = getBytes (es.map serialize).flatten) :
    received netty chunks = .eventStreamHeaders streamResponse :: es.map .eventStream ↔
      ∀ e ∈ es, Unindented e ∧ e ≠ {} := by
  have hinj : Function.Injective Message.eventStream := fun _ _ h => Message.eventStream.inj h
  rw [received_eq, hchunks, callDecode_stream netty hes, List.cons_inj_right,
    (List.map_injective_iff.mpr hinj).eq_iff]
  constructor
  · intro h
    have hlength : (framesOf es).length = es.length := by simpa using congrArg List.length h
    have hne := (length_framesOf es).2 hlength
    rw [framesOf_of_ne hne, List.map_map] at h
    intro e he
    have hread := List.map_eq_map_iff.mp (h.trans (List.map_id es).symm) e he
    rw [Function.comp_apply, frameText, deserialize_frame (hes e he)
      (mt fields_eq_nil.mp (hne e he))] at hread
    exact ⟨(strip_eq_self_iff (hes e he)).mp hread, hne e he⟩
  · intro h
    rw [framesOf_of_ne fun e he => (h e he).2, List.map_map]
    refine (List.map_congr_left fun e he => ?_).trans (List.map_id es)
    rw [Function.comp_apply, frameText, deserialize_frame (hes e he)
      (mt fields_eq_nil.mp (h e he).2)]
    exact (strip_eq_self_iff (hes e he)).mpr (h e he).1

/-- A decoder that looks for the delimiters byte by byte. -/
def scanning : Netty where
  frameDecoder := .scan unnested_delimiters
  messageDecoder := .looping
  toString := decode
  toString_getBytes := decode_getBytes

/-- **Which events survive.** An event is deserialized from its serialization if and only if no
value and no line of its data begins with a blank; a stream of events, however it is cut into
chunks, is split into exactly these if and only if that holds of each of them, and each has a
field. -/
theorem round_trip_iff (netty : Netty) (he : WellFormed e) (hes : ∀ e ∈ es, WellFormed e) :
    (deserialize (serialize e) = e ↔ Unindented e) ∧
      ∀ chunks : List (List UInt8), chunks.flatten = getBytes (es.map serialize).flatten →
        (received netty chunks = .eventStreamHeaders streamResponse :: es.map .eventStream ↔
          ∀ e ∈ es, Unindented e ∧ e ≠ {}) := by
  refine ⟨?_, fun chunks hchunks => received_iff netty hes hchunks⟩
  rw [deserialize_serialize he]
  exact strip_eq_self_iff he

/-- Two events, cut in the middle of the first one. -/
theorem round_trip_iff_twoEvents :
    let e : ServerSentEvent := { event := some "e:".toList, data := some "a\n\nb".toList }
    let e' : ServerSentEvent := { data := some [], retry := some 7 }
    let bytes := getBytes ([e, e'].map serialize).flatten
    deserialize (serialize e) = e ∧
      received scanning [bytes.take 3, bytes.drop 3] =
        .eventStreamHeaders streamResponse :: [e, e'].map .eventStream := by
  intro e e' bytes
  have he : WellFormed e ∧ Unindented e := by
    constructor
    · constructor
      · rintro v ⟨⟩
        exact ⟨by decide, by decide⟩
      · rintro d ⟨⟩
        decide
      · exact nofun
    · constructor
      · rintro v ⟨⟩
        decide
      · rintro d ⟨⟩
        decide
      · exact nofun
  have he' : WellFormed e' ∧ Unindented e' := by
    constructor
    · constructor
      · exact nofun
      · rintro d ⟨⟩
        decide
      · exact nofun
    · constructor
      · exact nofun
      · rintro d ⟨⟩
        decide
      · exact nofun
  have hes : ∀ x ∈ [e, e'], WellFormed x ∧ Unindented x ∧ x ≠ {} := by
    intro x hx
    rcases List.mem_cons.mp hx with rfl | hx
    · exact ⟨he.1, he.2, by decide⟩
    · rw [List.mem_singleton.mp hx]
      exact ⟨he'.1, he'.2, by decide⟩
  have hiff := round_trip_iff scanning he.1 fun x hx => (hes x hx).1
  exact ⟨hiff.1.mpr he.2, (hiff.2 [bytes.take 3, bytes.drop 3] (by simp [bytes])).mpr
    fun x hx => (hes x hx).2⟩

/-- A blank before a value is lost, and so is an event without fields. -/
theorem blank_and_event_lost :
    (¬ ∀ e, WellFormed e → deserialize (serialize e) = e) ∧
      ¬ ∀ (netty : Netty) (es : List ServerSentEvent), (∀ e ∈ es, WellFormed e) →
        ∀ chunks : List (List UInt8), chunks.flatten = getBytes (es.map serialize).flatten →
          received netty chunks = .eventStreamHeaders streamResponse :: es.map .eventStream := by
  constructor
  · intro h
    have he : WellFormed { data := some " a".toList } := by
      constructor
      · exact nofun
      · rintro d ⟨⟩
        decide
      · exact nofun
    have hread := h _ he
    rw [deserialize_serialize he] at hread
    exact absurd hread (by decide)
  · intro h
    have hes : ∀ e ∈ [({} : ServerSentEvent)], WellFormed e := by
      intro e he
      rw [List.mem_singleton.mp he]
      exact ⟨nofun, nofun, nofun⟩
    have hread := h scanning [{}] hes [getBytes (serialize {})] (by simp)
    rw [received_iff scanning hes (by simp)] at hread
    exact (hread _ List.mem_cons_self).2 rfl

end Events

end Xenon.Http.EventStreamHandler
