import Xenon.Foundation.Text
import Xenon.Synchronization.VersionedLinks

/-!
# Server-sent events as text

`com.vmware.xenon.common.serialization.ServerSentEventConverter`. An event is a line for each
field, one for each line of its data, and an empty line. A text is the list of its characters.
-/

namespace Xenon.Http.ServerSentEventConverter

open Foundation.Text
open Synchronization (parseLong parseLong_toString digits_of_isDigit longValue)

structure ServerSentEvent where
  event : Option (List Char) := none
  data : Option (List Char) := none
  id : Option (List Char) := none
  retry : Option Int64 := none
deriving DecidableEq

/-! ## `String.split` -/

/-- `split("\r?\n", -1)`. -/
def splitLines : List Char → List (List Char)
  | [] => [[]]
  | '\r' :: '\n' :: s => [] :: splitLines s
  | '\n' :: s => [] :: splitLines s
  | c :: s => (splitLines s).modifyHead (c :: ·)

/-- `split("\r?\n")`: without the empty lines at the end, unless there is one line. -/
def splitFields (s : List Char) : List (List Char) :=
  if splitLines s = [s] then [s] else (splitLines s).rdropWhile (·.isEmpty)

/-! ## Fields -/

def fieldData : List Char := "data".toList
def fieldId : List Char := "id".toList
def fieldEvent : List Char := "event".toList
def fieldRetry : List Char := "retry".toList

/-- `addField`, without the delimiter at its end. -/
def field (fieldName value : List Char) : List Char := fieldName ++ ':' :: value

/-- The fields of an event, in the order in which they are added. -/
def fields (e : ServerSentEvent) : List (List Char) :=
  (e.event.map (field fieldEvent)).toList ++
    (e.data.map fun data => (splitLines data).map (field fieldData)).getD [] ++
    (e.id.map (field fieldId)).toList ++
    (e.retry.map fun retry => field fieldRetry (toString retry.toInt).toList).toList

/-- `serialize`. -/
def serialize (e : ServerSentEvent) : List Char :=
  ((fields e).map (· ++ ['\n'])).flatten ++ ['\n']

/-- What `deserialize` has read. -/
structure Reading where
  event : ServerSentEvent := {}
  dataBuilder : List Char := []
  dataAdded : Bool := false

/-- A value without the blank before it. -/
def stripBlank : List Char → List Char
  | ' ' :: value => value
  | value => value

/-- One round of the loop of `deserialize`. -/
def Reading.add (r : Reading) (field : List Char) : Reading :=
  let fieldName := field.takeWhile (· ≠ ':')
  let value := stripBlank ((field.dropWhile (· ≠ ':')).drop 1)
  if fieldName.isEmpty then r
  else if fieldName = fieldData then
    { r with
      dataBuilder := (if r.dataAdded then r.dataBuilder ++ ['\n'] else r.dataBuilder) ++ value
      dataAdded := true }
  else if fieldName = fieldEvent then { r with event := { r.event with event := some value } }
  else if fieldName = fieldRetry then
    match parseLong value with
    | some retry => { r with event := { r.event with retry := some (Int64.ofInt retry) } }
    | none => r
  else if fieldName = fieldId then { r with event := { r.event with id := some value } }
  else r

def Reading.result (r : Reading) : ServerSentEvent :=
  if r.dataAdded then { r.event with data := some r.dataBuilder } else r.event

def deserialize (serialized : List Char) : ServerSentEvent :=
  ((splitFields serialized).foldl Reading.add {}).result

/-! ## Lines -/

section Lines

variable {s l : List Char} {lines : List (List Char)}

theorem splitLines_cons {c : Char} (hc : c ≠ '\r') (hc' : c ≠ '\n') (s : List Char) :
    splitLines (c :: s) = (splitLines s).modifyHead (c :: ·) := by
  rw [splitLines]
  · exact fun s h => absurd h hc
  · exact fun h => absurd h hc'

/-- Without carriage returns, lines are what is between line feeds. -/
theorem splitLines_eq_splitOn (h : '\r' ∉ s) : splitLines s = s.splitOn '\n' := by
  induction s with
  | nil => rfl
  | cons c s ih =>
      have hc : c ≠ '\r' := fun heq => h (heq ▸ List.mem_cons_self)
      have ih := ih fun hmem => h (List.mem_cons_of_mem _ hmem)
      rw [List.splitOn_cons_eq_if_modifyHead]
      by_cases hline : c = '\n'
      · subst hline
        rw [splitLines, ih, if_pos (beq_self_eq_true _)]
      · rw [splitLines_cons hc hline, ih, if_neg (by simpa using hline)]

/-- Lines that end with a line feed each, and one more. -/
theorem splitLines_terminated (h : ∀ l ∈ lines, '\r' ∉ l ∧ '\n' ∉ l) :
    splitLines ((lines.map (· ++ ['\n'])).flatten ++ ['\n']) = lines ++ [[], []] := by
  rw [splitLines_eq_splitOn]
  · induction lines with
    | nil => rfl
    | cons l lines ih =>
        rw [List.map_cons, List.flatten_cons, List.append_assoc, List.append_assoc,
          List.singleton_append, List.splitOn_append_cons_self_of_not_mem
            (h l List.mem_cons_self).2, ih fun l hl => h l (List.mem_cons_of_mem _ hl)]
        rfl
  · simp only [List.mem_append, List.mem_flatten, List.mem_map, List.mem_singleton, not_or]
    refine ⟨?_, by decide⟩
    rintro ⟨_, ⟨l, hl, rfl⟩, hmem⟩
    rcases List.mem_append.mp hmem with hmem | hmem
    · exact (h l hl).1 hmem
    · exact absurd (List.mem_singleton.mp hmem) (by decide)

theorem splitLines_intercalate (hne : lines ≠ []) (h : ∀ l ∈ lines, '\r' ∉ l ∧ '\n' ∉ l) :
    splitLines (['\n'].intercalate lines) = lines := by
  have hfeeds : '\r' ∉ ['\n'].intercalate lines := by
    intro hmem
    rcases mem_intercalate hmem with heq | ⟨l, hl, hmem⟩
    · exact absurd heq (by decide)
    · exact (h l hl).1 hmem
  rw [splitLines_eq_splitOn hfeeds, List.splitOn_intercalate _ (fun l hl => (h l hl).2) hne]

/-- The fields of an event, read from its serialization. -/
theorem splitFields_terminated (h : ∀ l ∈ lines, l ≠ [] ∧ '\r' ∉ l ∧ '\n' ∉ l) :
    splitFields ((lines.map (· ++ ['\n'])).flatten ++ ['\n']) = lines := by
  unfold splitFields
  rw [splitLines_terminated fun l hl => (h l hl).2, if_neg]
  · have hempty : ([] : List Char).isEmpty = true := rfl
    rw [show lines ++ [[], []] = (lines ++ [[]]) ++ [[]] by simp,
      List.rdropWhile_concat_pos _ _ _ hempty, List.rdropWhile_concat_pos _ _ _ hempty,
      rdropWhile_isEmpty_eq_self fun l hl => (h l hl).1]
  · intro heq
    have := congrArg List.length heq
    simp at this

/-- The fields of an event, read from its frame. -/
theorem splitFields_intercalate (hne : lines ≠ [])
    (h : ∀ l ∈ lines, l ≠ [] ∧ '\r' ∉ l ∧ '\n' ∉ l) :
    splitFields (['\n'].intercalate lines) = lines := by
  unfold splitFields
  rw [splitLines_intercalate hne fun l hl => (h l hl).2]
  split_ifs with heq
  · exact heq.symm
  · exact rdropWhile_isEmpty_eq_self fun l hl => (h l hl).1

end Lines

/-! ## Reading fields -/

section Reading

variable {r : Reading} {value : List Char}

theorem takeWhile_field (fieldName : List Char) (h : ':' ∉ fieldName) (value : List Char) :
    (field fieldName value).takeWhile (· ≠ ':') = fieldName ∧
      ((field fieldName value).dropWhile (· ≠ ':')).drop 1 = value := by
  have hall : ∀ c ∈ fieldName, decide (c ≠ ':') = true := fun c hc =>
    decide_eq_true fun heq => h (heq ▸ hc)
  unfold field
  rw [List.takeWhile_append_of_pos hall, List.dropWhile_append_of_pos hall]
  simp

theorem add_event (r : Reading) (value : List Char) : r.add (field fieldEvent value) =
    { r with event := { r.event with event := some (stripBlank value) } } := by
  obtain ⟨hname, hvalue⟩ := takeWhile_field fieldEvent (by decide) value
  unfold Reading.add
  rw [hname, hvalue]
  rfl

theorem add_id (r : Reading) (value : List Char) : r.add (field fieldId value) =
    { r with event := { r.event with id := some (stripBlank value) } } := by
  obtain ⟨hname, hvalue⟩ := takeWhile_field fieldId (by decide) value
  unfold Reading.add
  rw [hname, hvalue]
  rfl

theorem add_data (r : Reading) (value : List Char) : r.add (field fieldData value) =
    { r with
      dataBuilder := (if r.dataAdded then r.dataBuilder ++ ['\n'] else r.dataBuilder) ++
        stripBlank value
      dataAdded := true } := by
  obtain ⟨hname, hvalue⟩ := takeWhile_field fieldData (by decide) value
  unfold Reading.add
  rw [hname, hvalue]
  rfl

theorem stripBlank_eq_self_iff : stripBlank value = value ↔ value.head? ≠ some ' ' := by
  unfold stripBlank
  split
  · simp
  · rename_i value hnot
    refine iff_of_true rfl fun hhead => ?_
    obtain ⟨rest, rfl⟩ := List.head?_eq_some_iff.mp hhead
    exact hnot rest rfl

/-- A negative number is its sign and its digits. -/
theorem toString_negSucc (n : Nat) :
    (toString (Int.negSucc n)).toList = '-' :: Nat.toDigits 10 (n + 1) := by
  simp [toString, Int.repr]

theorem mem_toString {n : Int} {c : Char} (hc : c ∈ (toString n).toList) :
    c = '-' ∨ c.isDigit = true := by
  cases n with
  | ofNat m =>
      have htext : (toString (Int.ofNat m)).toList = Nat.toDigits 10 m := Nat.toList_repr
      rw [htext] at hc
      exact Or.inr (Nat.isDigit_of_mem_toDigits (by decide) (by decide) hc)
  | negSucc m =>
      rw [toString_negSucc] at hc
      exact (List.mem_cons.mp hc).imp_right
        fun hc => Nat.isDigit_of_mem_toDigits (by decide) (by decide) hc

theorem parseLong_negSucc {n : Nat} (hn : n + 1 ≤ 2 ^ 63) :
    parseLong (toString (Int.negSucc n)).toList = some (Int.negSucc n) := by
  have hread := digits_of_isDigit (Nat.toDigits_ne_nil (b := 10) (n := n + 1)) fun c hc =>
    Nat.isDigit_of_mem_toDigits (by decide) (by decide) hc
  rw [Nat.ofDigitChars_ten_toDigits] at hread
  rw [toString_negSucc, parseLong, hread, Option.map_some, Option.bind_some, longValue, if_pos (by omega)]
  rfl

theorem parseLong_toInt (n : Int64) : parseLong (toString n.toInt).toList = some n.toInt := by
  have hlt := Int64.toInt_lt n
  have hle := Int64.le_toInt n
  cases hn : n.toInt with
  | ofNat m =>
      exact parseLong_toString (Int.natCast_nonneg m) (by rw [hn] at hlt; exact hlt)
  | negSucc m => exact parseLong_negSucc (by omega)

theorem stripBlank_toString (n : Int) : stripBlank (toString n).toList = (toString n).toList := by
  rw [stripBlank_eq_self_iff]
  intro hhead
  rcases mem_toString (List.mem_of_head? hhead) with heq | hdigit
  · exact absurd heq (by decide)
  · exact absurd hdigit (by decide)

theorem add_retry (r : Reading) (n : Int64) :
    r.add (field fieldRetry (toString n.toInt).toList) =
      { r with event := { r.event with retry := some n } } := by
  obtain ⟨hname, hvalue⟩ := takeWhile_field fieldRetry (by decide) (toString n.toInt).toList
  unfold Reading.add
  rw [hname, hvalue, stripBlank_toString]
  show (match parseLong (toString n.toInt).toList with
    | some retry => { r with event := { r.event with retry := some (Int64.ofInt retry) } }
    | none => r) = _
  rw [parseLong_toInt]
  simp only [Int64.ofInt_toInt]

end Reading

/-! ## Events -/

/-- The lines of the data without the blanks before them. -/
def stripData (data : List Char) : List Char :=
  ['\n'].intercalate ((splitLines data).map stripBlank)

/-- What is read from an event: its values without the blanks before them. -/
def strip (e : ServerSentEvent) : ServerSentEvent :=
  { e with
    event := e.event.map stripBlank
    data := e.data.map stripData
    id := e.id.map stripBlank }

/-- No carriage return, and line feeds in the data only. -/
structure WellFormed (e : ServerSentEvent) : Prop where
  event : ∀ v, e.event = some v → '\r' ∉ v ∧ '\n' ∉ v
  data : ∀ d, e.data = some d → '\r' ∉ d
  id : ∀ v, e.id = some v → '\r' ∉ v ∧ '\n' ∉ v

/-- No value and no line of the data begins with a blank. -/
structure Unindented (e : ServerSentEvent) : Prop where
  event : ∀ v, e.event = some v → v.head? ≠ some ' '
  data : ∀ d, e.data = some d → ∀ l ∈ splitLines d, l.head? ≠ some ' '
  id : ∀ v, e.id = some v → v.head? ≠ some ' '

section Events

variable {r : Reading} {e : ServerSentEvent}

theorem foldl_data (hr : r.dataAdded = true) (lines : List (List Char)) :
    (lines.map (field fieldData)).foldl Reading.add r =
      { r with
        dataBuilder := r.dataBuilder ++ (lines.map fun l => '\n' :: stripBlank l).flatten } := by
  induction lines generalizing r with
  | nil => simp
  | cons l lines ih =>
      rw [List.map_cons, List.foldl_cons, add_data, ih rfl, if_pos hr]
      simp [hr]

theorem foldl_data_first (hr : r.dataAdded = false) {lines : List (List Char)} (hne : lines ≠ []) :
    (lines.map (field fieldData)).foldl Reading.add r =
      { r with
        dataBuilder := r.dataBuilder ++ ['\n'].intercalate (lines.map stripBlank)
        dataAdded := true } := by
  cases lines with
  | nil => exact absurd rfl hne
  | cons l lines =>
      rw [List.map_cons, List.foldl_cons, add_data, foldl_data rfl, List.map_cons,
        intercalate_cons, if_neg (by simp [hr]), List.map_map, List.append_assoc]
      rfl

theorem splitLines_ne_nil (s : List Char) : splitLines s ≠ [] := by
  fun_induction splitLines s with
  | case1 => exact List.cons_ne_nil _ _
  | case2 => exact List.cons_ne_nil _ _
  | case3 => exact List.cons_ne_nil _ _
  | case4 c s _ _ ih => simpa using ih

theorem foldl_fields (e : ServerSentEvent) : ((fields e).foldl Reading.add {}).result = strip e := by
  obtain ⟨event, data, id, retry⟩ := e
  have hevent : (event.map (field fieldEvent)).toList.foldl Reading.add {} =
      { event := { event := event.map stripBlank } } := by
    cases event with
    | none => rfl
    | some v => exact add_event {} v
  have hdata : ((data.map fun d => (splitLines d).map (field fieldData)).getD []).foldl Reading.add
      { event := { event := event.map stripBlank } } =
      { event := { event := event.map stripBlank }, dataBuilder := (data.map stripData).getD [],
        dataAdded := data.isSome } := by
    cases data with
    | none => rfl
    | some d => exact foldl_data_first rfl (splitLines_ne_nil d)
  have hid : ∀ r : Reading, (id.map (field fieldId)).toList.foldl Reading.add r =
      { r with event := { r.event with id := (id.map stripBlank).or r.event.id } } := by
    intro r
    cases id with
    | none => rfl
    | some v => exact add_id r v
  have hretry : ∀ r : Reading,
      (retry.map fun n => field fieldRetry (toString n.toInt).toList).toList.foldl Reading.add r =
        { r with event := { r.event with retry := retry.or r.event.retry } } := by
    intro r
    cases retry with
    | none => rfl
    | some n => exact add_retry r n
  unfold fields
  rw [List.foldl_append, List.foldl_append, List.foldl_append, hevent, hdata, hid, hretry]
  cases data <;> simp [Reading.result, strip]

theorem data_lines {d l : List Char} (hd : '\r' ∉ d) (hl : l ∈ splitLines d) :
    '\r' ∉ l ∧ '\n' ∉ l := by
  rw [splitLines_eq_splitOn hd] at hl
  exact ⟨fun hmem => hd ((of_mem_splitOn hl).2 _ hmem), (of_mem_splitOn hl).1⟩

theorem of_mem_fields (h : WellFormed e) {l : List Char} (hl : l ∈ fields e) :
    l ≠ [] ∧ '\r' ∉ l ∧ '\n' ∉ l := by
  have hfield : ∀ {fieldName value : List Char}, '\r' ∉ fieldName ∧ '\n' ∉ fieldName →
      '\r' ∉ value ∧ '\n' ∉ value →
      field fieldName value ≠ [] ∧ '\r' ∉ field fieldName value ∧
        '\n' ∉ field fieldName value := by
    intro fieldName value hname hvalue
    unfold field
    simp only [List.mem_append, List.mem_cons, not_or]
    exact ⟨by simp, ⟨hname.1, by decide, hvalue.1⟩, hname.2, by decide, hvalue.2⟩
  obtain ⟨event, data, id, retry⟩ := e
  simp only [fields, List.mem_append, Option.mem_toList, Option.map_eq_some_iff] at hl
  rcases hl with ((⟨v, hv, rfl⟩ | hl) | ⟨v, hv, rfl⟩) | ⟨n, hn, rfl⟩
  · exact hfield (by decide) (h.event v hv)
  · cases data with
    | none => cases hl
    | some d =>
        obtain ⟨line, hline, rfl⟩ := List.mem_map.mp hl
        exact hfield (by decide) (data_lines (h.data d rfl) hline)
  · exact hfield (by decide) (h.id v hv)
  · refine hfield (by decide) ⟨fun hmem => ?_, fun hmem => ?_⟩
    · exact absurd (mem_toString hmem) (by decide)
    · exact absurd (mem_toString hmem) (by decide)

theorem stripData_eq_self_iff {d : List Char} (hd : '\r' ∉ d) :
    stripData d = d ↔ ∀ l ∈ splitLines d, l.head? ≠ some ' ' := by
  have hjoin : ['\n'].intercalate (splitLines d) = d := by
    rw [splitLines_eq_splitOn hd, List.intercalate_splitOn]
  have hsub : ∀ l : List Char, ∀ c ∈ stripBlank l, c ∈ l := by
    intro l c hc
    unfold stripBlank at hc
    split at hc
    · exact List.mem_cons_of_mem _ hc
    · exact hc
  constructor
  · intro h l hl
    -- the lines of what is read are the lines without their blanks
    have hstripped : splitLines (stripData d) = (splitLines d).map stripBlank := by
      refine splitLines_intercalate (by simpa using splitLines_ne_nil d) fun l' hl' => ?_
      obtain ⟨line, hline, rfl⟩ := List.mem_map.mp hl'
      have := data_lines hd hline
      exact ⟨fun hmem => this.1 (hsub line _ hmem), fun hmem => this.2 (hsub line _ hmem)⟩
    have hlines := hstripped.symm.trans (congrArg splitLines h)
    rw [← stripBlank_eq_self_iff]
    exact List.map_eq_map_iff.mp (hlines.trans (List.map_id _).symm) l hl
  · intro h
    unfold stripData
    rw [List.map_congr_left fun l hl => stripBlank_eq_self_iff.mpr (h l hl), List.map_id', hjoin]

theorem strip_eq_self_iff (h : WellFormed e) : strip e = e ↔ Unindented e := by
  obtain ⟨event, data, id, retry⟩ := e
  have hvalue : ∀ o : Option (List Char),
      o.map stripBlank = o ↔ ∀ v, o = some v → v.head? ≠ some ' ' := by
    intro o
    cases o with
    | none => simp
    | some v => simp [stripBlank_eq_self_iff]
  have hdata : data.map stripData = data ↔
      ∀ d, data = some d → ∀ l ∈ splitLines d, l.head? ≠ some ' ' := by
    cases data with
    | none => simp
    | some d => simpa using stripData_eq_self_iff (h.data d rfl)
  simp only [strip, ServerSentEvent.mk.injEq, hvalue, hdata, and_true]
  exact ⟨fun ⟨hevent, hdata, hid⟩ => ⟨hevent, hdata, hid⟩,
    fun h => ⟨h.event, h.data, h.id⟩⟩

theorem deserialize_serialize (h : WellFormed e) : deserialize (serialize e) = strip e := by
  unfold deserialize serialize
  rw [splitFields_terminated fun l hl => of_mem_fields h hl]
  exact foldl_fields e

/-- What a frame of the event is read as. -/
theorem deserialize_frame (h : WellFormed e) (hne : fields e ≠ []) :
    deserialize (['\n'].intercalate (fields e)) = strip e := by
  unfold deserialize
  rw [splitFields_intercalate hne fun l hl => of_mem_fields h hl]
  exact foldl_fields e

end Events

end Xenon.Http.ServerSentEventConverter
