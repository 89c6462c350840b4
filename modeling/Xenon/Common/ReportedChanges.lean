import Xenon.Common.StateUpdates

/-!
# Reported changes

When `updateCollections`, `updateMaps` and `mergeWithState` report no change. Collections are then
as they were. Of a map the answers of `get` are as they were, so what may have come or gone are keys
that are stored with `null`.
-/

namespace Xenon.Common.StateUpdates

open Foundation

variable {V : Type*} [DecidableEq V]

/-! ## Edits of a map -/

namespace JavaMap

/-- An entry to write, or `none` to remove the key. -/
abbrev Edit (V : Type*) := Option V × Option (Option V)

def write (m : JavaMap V) (e : Edit V) : JavaMap V :=
  match e.2 with
  | none => m.erase e.1
  | some value => m.insert e.1 value

/-- The edits in their order, which report each answer of `get` that they change. -/
def edit : List (Edit V) → Bool → JavaMap V → Bool × JavaMap V
  | [], changed, m => (changed, m)
  | e :: edits, changed, m => edit edits (changed || m.get e.1 ≠ e.2.join) (m.write e)

theorem lookup_write_self (m : JavaMap V) (e : Edit V) : (m.write e).lookup e.1 = e.2 := by
  obtain ⟨key, new⟩ := e
  cases new with
  | none => exact AList.lookup_erase key m
  | some value => exact AList.lookup_insert m

theorem lookup_write_of_ne (m : JavaMap V) {e : Edit V} {key : Option V} (h : key ≠ e.1) :
    (m.write e).lookup key = m.lookup key := by
  obtain ⟨key', new⟩ := e
  cases new with
  | none => exact AList.lookup_erase_ne h
  | some value => exact AList.lookup_insert_ne h

/-- An edit with nothing to report leaves every answer of `get`. -/
theorem get_write {m : JavaMap V} {e : Edit V} (h : m.get e.1 = e.2.join) (key : Option V) :
    (m.write e).get key = m.get key := by
  rcases eq_or_ne key e.1 with rfl | hne
  · rw [h, get, lookup_write_self]
  · rw [get, lookup_write_of_ne m hne, get]

section Edits

variable {edits : List (Edit V)} {changed : Bool} {m : JavaMap V} {key : Option V}

theorem edit_quiet_iff :
    (edit edits changed m).1 = false ↔ changed = false ∧ ∀ e ∈ edits, m.get e.1 = e.2.join := by
  induction edits generalizing changed m with
  | nil => simp [edit]
  | cons e edits ih =>
      rw [edit, ih, Bool.or_eq_false_iff, decide_eq_false_iff_not, not_not, List.forall_mem_cons,
        and_assoc]
      refine and_congr_right fun _ => and_congr_right fun he => ?_
      simp only [get_write he]

theorem lookup_edit_of_not_mem (h : ∀ e ∈ edits, e.1 ≠ key) :
    (edit edits changed m).2.lookup key = m.lookup key := by
  induction edits generalizing changed m with
  | nil => rfl
  | cons e edits ih =>
      obtain ⟨he, hedits⟩ := List.forall_mem_cons.mp h
      rw [edit, ih hedits, lookup_write_of_ne m he.symm]

/-- The last edit of a key decides on it, and so does any, if they are all alike. -/
theorem lookup_edit_of_mem {e : Edit V} (he : e ∈ edits)
    (hsame : ∀ e' ∈ edits, e'.1 = e.1 → e'.2 = e.2) :
    (edit edits changed m).2.lookup e.1 = e.2 := by
  induction edits generalizing changed m with
  | nil => cases he
  | cons e' edits ih =>
      obtain ⟨hsame', hedits⟩ := List.forall_mem_cons.mp hsame
      rw [edit]
      by_cases hlater : ∃ t ∈ edits, t.1 = e.1
      · obtain ⟨t, ht, hkey⟩ := hlater
        have hmem : e ∈ edits := by
          rwa [← Prod.ext hkey (hedits t ht hkey)]
        exact ih hmem hedits
      · push Not at hlater
        have heq : e = e' := (List.mem_cons.mp he).resolve_right fun hmem => hlater e hmem rfl
        rw [lookup_edit_of_not_mem hlater, heq, lookup_write_self]

end Edits

end JavaMap

/-! ## The loops as edits -/

theorem removeKeys_eq (keys : List (Option V)) (changed : Bool) (m : JavaMap V) :
    removeKeys keys changed m = JavaMap.edit (keys.map (·, none)) changed m := by
  induction keys generalizing changed m with
  | nil => rfl
  | cons key keys ih =>
      rw [removeKeys, ih, List.map_cons, JavaMap.edit]
      congr 1
      cases JavaMap.get m key <;> simp

theorem putEntries_eq (entries : List (Sigma fun _ : Option V => Option V)) (changed : Bool)
    (m : JavaMap V) :
    putEntries entries changed m =
      JavaMap.edit (entries.map fun e => (e.1, some e.2)) changed m := by
  induction entries generalizing changed m with
  | nil => rfl
  | cons entry entries ih =>
      rw [putEntries, ih, List.map_cons, JavaMap.edit]
      congr 1
      cases JavaMap.get m entry.1 <;> cases entry.2 <;> simp

theorem mergeEntries_eq (entries : List (Sigma fun _ : Option V => Option V)) (changed : Bool)
    (m : JavaMap V) :
    mergeEntries entries changed m =
      JavaMap.edit (entries.map fun e => (e.1, e.2.map some)) changed m := by
  induction entries generalizing changed m with
  | nil => rfl
  | cons entry entries ih =>
      obtain ⟨key, value⟩ := entry
      cases value with
      | none =>
          show mergeEntries entries (changed || (m.get key).isSome) (m.erase key) = _
          rw [ih, List.map_cons, JavaMap.edit]
          congr 1
          cases JavaMap.get m key <;> simp
      | some value =>
          show mergeEntries entries (changed || some value ≠ m.get key)
            (m.insert key (some value)) = _
          rw [ih, List.map_cons, JavaMap.edit]
          congr 1
          simp [eq_comm]

theorem removeKeys_quiet_iff {keys : List (Option V)} {m : JavaMap V} :
    (removeKeys keys false m).1 = false ↔ ∀ key ∈ keys, m.get key = none := by
  simp [removeKeys_eq, JavaMap.edit_quiet_iff]

theorem lookup_removeKeys (keys : List (Option V)) (m : JavaMap V) (key : Option V) :
    (removeKeys keys false m).2.lookup key = if key ∈ keys then none else m.lookup key := by
  rw [removeKeys_eq]
  split_ifs with hmem
  · exact JavaMap.lookup_edit_of_mem (e := (key, none)) (List.mem_map.mpr ⟨key, hmem, rfl⟩)
      (by simp)
  · refine JavaMap.lookup_edit_of_not_mem fun e he => ?_
    obtain ⟨key', hkey', rfl⟩ := List.mem_map.mp he
    rintro rfl
    exact hmem hkey'

omit [DecidableEq V] in
/-- The entries of a map have different keys. -/
theorem entry_eq {m : JavaMap V} {e e' : Sigma fun _ : Option V => Option V}
    (he : e ∈ m.entries) (he' : e' ∈ m.entries) (hkey : e'.1 = e.1) : e'.2 = e.2 := by
  obtain ⟨key, value⟩ := e
  obtain ⟨key', value'⟩ := e'
  obtain rfl : key' = key := hkey
  exact m.nodupKeys.eq_of_mk_mem he' he

theorem putEntries_quiet_iff {added m : JavaMap V} :
    (putEntries added.entries false m).1 = false ↔ ∀ e ∈ added.entries, m.get e.1 = e.2 := by
  rw [putEntries_eq, JavaMap.edit_quiet_iff, List.forall_mem_map]
  exact and_iff_right rfl

theorem mergeEntries_quiet_iff {patch m : JavaMap V} :
    (mergeEntries patch.entries false m).1 = false ↔ ∀ e ∈ patch.entries, m.get e.1 = e.2 := by
  rw [mergeEntries_eq, JavaMap.edit_quiet_iff, List.forall_mem_map]
  refine (and_iff_right rfl).trans (forall₂_congr fun e _ => ?_)
  cases e.2 <;> rfl

theorem lookup_putEntries_of_mem {added m : JavaMap V}
    {e : Sigma fun _ : Option V => Option V} (he : e ∈ added.entries) :
    (putEntries added.entries false m).2.lookup e.1 = some e.2 := by
  rw [putEntries_eq]
  refine JavaMap.lookup_edit_of_mem (e := (e.1, some e.2)) (List.mem_map.mpr ⟨e, he, rfl⟩) ?_
  intro t ht hkey
  obtain ⟨e', he', rfl⟩ := List.mem_map.mp ht
  exact congrArg some (entry_eq he he' hkey)

theorem lookup_putEntries_of_not_mem {added m : JavaMap V} {key : Option V} (h : key ∉ added) :
    (putEntries added.entries false m).2.lookup key = m.lookup key := by
  rw [putEntries_eq]
  refine JavaMap.lookup_edit_of_not_mem fun t ht => ?_
  obtain ⟨e, he, rfl⟩ := List.mem_map.mp ht
  rintro rfl
  exact h (AList.mem_keys.mpr (List.mem_map.mpr ⟨e, he, rfl⟩))

theorem lookup_mergeEntries_of_mem {patch m : JavaMap V}
    {e : Sigma fun _ : Option V => Option V} (he : e ∈ patch.entries) :
    (mergeEntries patch.entries false m).2.lookup e.1 = e.2.map some := by
  rw [mergeEntries_eq]
  refine JavaMap.lookup_edit_of_mem (e := (e.1, e.2.map some)) (List.mem_map.mpr ⟨e, he, rfl⟩) ?_
  intro t ht hkey
  obtain ⟨e', he', rfl⟩ := List.mem_map.mp ht
  exact congrArg (Option.map some) (entry_eq he he' hkey)

theorem lookup_mergeEntries_of_not_mem {patch m : JavaMap V} {key : Option V} (h : key ∉ patch) :
    (mergeEntries patch.entries false m).2.lookup key = m.lookup key := by
  rw [mergeEntries_eq]
  refine JavaMap.lookup_edit_of_not_mem fun t ht => ?_
  obtain ⟨e, he, rfl⟩ := List.mem_map.mp ht
  rintro rfl
  exact h (AList.mem_keys.mpr (List.mem_map.mpr ⟨e, he, rfl⟩))

/-! ## Collections -/

namespace Collection

variable {isSet changed : Bool} {items elements : List (Option V)}

theorem addItems_quiet_iff :
    (addItems isSet items changed elements).1 = false ↔
      changed = false ∧ ∀ item ∈ items, isSet = true ∧ item ∈ elements := by
  induction items generalizing changed elements with
  | nil => simp [addItems]
  | cons item items ih =>
      rw [addItems, List.forall_mem_cons]
      split_ifs with hmem
      · rw [ih]
        simp only [Bool.and_eq_true, decide_eq_true_eq] at hmem
        rw [and_iff_right (a := isSet = true ∧ item ∈ elements) hmem]
      · simp only [Bool.and_eq_true, decide_eq_true_eq] at hmem
        rw [ih]
        refine iff_of_false (fun h => nomatch h.1) fun h => hmem h.2.1

theorem addItems_of_quiet (h : (addItems isSet items changed elements).1 = false) :
    (addItems isSet items changed elements).2 = elements := by
  induction items generalizing changed elements with
  | nil => rfl
  | cons item items ih =>
      rw [addItems] at h ⊢
      split_ifs at h ⊢ with hmem
      · exact ih h
      · cases (addItems_quiet_iff.mp h).1

/-- The items are all in the collection, which is a set. -/
def HasAll (c items : Collection V) : Prop :=
  ∀ item ∈ items.elements, c.clazz ≠ .arrayList ∧ item ∈ c.elements

theorem addAll_quiet_iff {c items : Collection V} : (c.addAll items).1 = false ↔ c.HasAll items := by
  refine addItems_quiet_iff.trans ((and_iff_right rfl).trans ?_)
  simp [HasAll]

theorem addAll_of_quiet {c items : Collection V} (h : (c.addAll items).1 = false) :
    (c.addAll items).2 = c :=
  congrArg (fun elements => { c with elements }) (addItems_of_quiet h)

theorem removeAll_of_quiet {c items : Collection V} (h : (c.removeAll items).1 = false) :
    (c.removeAll items).2 = c := by
  have hkeep : c.elements.filter (· ∉ items.elements) = c.elements := by
    refine List.filter_eq_self.mpr fun item hitem => ?_
    simpa using List.any_eq_false.mp h item hitem
  exact congrArg (fun elements => { c with elements }) hkeep

end Collection

omit [DecidableEq V] in
theorem setting_quiet_iff {failure : Failure} {f : Field V} {v : Value V} {changed : Bool} :
    (setting failure f v changed).1 = .ok false ↔ f.type.accepts v = true ∧ changed = false := by
  unfold setting Field.set
  cases f.type.accepts v <;> simp

omit [DecidableEq V] in
theorem setting_of_accepts {failure : Failure} {f : Field V} {v : Value V} {changed : Bool}
    (h : f.type.accepts v = true) :
    (setting failure f v changed).2 = some { f with value := some v } := by
  simp [setting, Field.set, h]

/-- A collection that is asked for is new to the field, so a change is reported. -/
theorem setOrInstantiateCollectionField_not_quiet {f : Field V} {type : CollectionType}
    {input : Collection V} (hinput : input.elements ≠ []) :
    (setOrInstantiateCollectionField f type input).1 ≠ .ok false := by
  unfold setOrInstantiateCollectionField
  split_ifs with htype
  · rw [Ne, setting_quiet_iff]
    exact fun h => nomatch h.2
  · cases type.instantiate with
    | error failure => exact nofun
    | ok clazz =>
        show (setting _ f _ _).1 ≠ _
        rw [Ne, setting_quiet_iff, Collection.addAll_quiet_iff]
        rintro ⟨-, hall⟩
        obtain ⟨item, hitem⟩ := List.exists_mem_of_ne_nil _ hinput
        exact List.not_mem_nil (hall item hitem).2

/-- A collection for which no change is reported is as it was. -/
theorem processCollection_of_quiet {input : Option (Collection V)} {name : String}
    {operation : CollectionOperation} {field : Option (Field V)}
    (h : Quiet (processCollection input name operation) field) :
    (processCollection input name operation field).2 = field := by
  unfold Quiet at h
  unfold processCollection at h ⊢
  cases input with
  | none => rfl
  | some input =>
      dsimp only at h ⊢
      split_ifs at h ⊢ with hempty
      · rfl
      · cases field with
        | none => rfl
        | some f =>
            obtain ⟨type, value⟩ := f
            cases type with
            | collection type =>
                cases operation with
                | add =>
                    cases value with
                    | none =>
                        refine absurd h (setOrInstantiateCollectionField_not_quiet ?_)
                        rwa [List.isEmpty_iff] at hempty
                    | some v =>
                        cases v with
                        | collection c =>
                            show some (Field.mk _ (some (.collection (c.addAll input).2))) = _
                            rw [Collection.addAll_of_quiet (Except.ok.inj h)]
                        | _ => rfl
                | remove =>
                    cases value with
                    | none => rfl
                    | some v =>
                        cases v with
                        | collection c =>
                            show some (Field.mk _ (some (.collection (c.removeAll input).2))) = _
                            rw [Collection.removeAll_of_quiet (Except.ok.inj h)]
                        | _ => rfl
            | _ => rfl

/-! ## Unchanged states -/

/-- Two fields with the same value, or with maps that have the same keys with the same values. -/
inductive SameField : Option (Field V) → Option (Field V) → Prop
  | refl (field : Option (Field V)) : SameField field field
  | map (type : FieldType) {m m' : JavaMap V} (h : ∀ key, m'.lookup key = m.lookup key) :
      SameField (some ⟨type, some (.map m)⟩) (some ⟨type, some (.map m')⟩)

/-- The state is as it was. -/
def Unchanged (before after : Document V) : Prop :=
  after.clazz = before.clazz ∧ ∀ name, SameField (before.fields name) (after.fields name)

/-- If no change is reported, there is none. -/
def Truthful (before : Document V) (r : Except Failure Bool × Document V) : Prop :=
  r.1 = .ok false → Unchanged before r.2

/-- Whatever is reported, the other fields are as they were. -/
def Framed (touched : String → Prop) (before : Document V)
    (r : Except Failure Bool × Document V) : Prop :=
  ∀ name, ¬touched name → r.2.fields name = before.fields name

/-- A map is the same as another if it has the same keys with the same values, and only then. -/
theorem sameField_map_iff {type : FieldType} {m m' : JavaMap V} :
    SameField (some ⟨type, some (.map m)⟩) (some ⟨type, some (.map m')⟩) ↔
      ∀ key, m'.lookup key = m.lookup key := by
  constructor
  · intro h
    cases h with
    | refl => exact fun _ => rfl
    | map _ h => exact h
  · exact SameField.map type

/-! ## Requests by field -/

section Requests

variable {α : Type*} {map : Option (ByField (Option α))} {name : String}

/-- What a request has for a field, or `null`. -/
def askedFor (map : Option (ByField (Option α))) (name : String) : Option α :=
  ((entriesOf map).lookup name).join

variable {process : Option α → String → Step V}

omit [DecidableEq V] in
theorem stepsOf_names : (stepsOf process map).map Prod.fst = (entriesOf map).map Prod.fst := by
  simp [stepsOf]

omit [DecidableEq V] in
theorem stepsOf_nodup : ((stepsOf process map).map Prod.fst).Nodup := by
  rw [stepsOf_names]
  cases map with
  | none => exact List.nodup_nil
  | some map => exact map.nodup

omit [DecidableEq V] in
/-- The step for a field is for what the request has for it. -/
theorem stepAt_stepsOf (hnull : process none name = fun field => (.ok false, field)) :
    stepAt (stepsOf process map) name = process (askedFor map name) name := by
  unfold stepsOf askedFor
  induction entriesOf map with
  | nil => exact hnull.symm
  | cons e entries ih =>
      rw [List.map_cons]
      rcases eq_or_ne name e.1 with rfl | hne
      · rw [stepAt_cons_self (e.1, process e.2 e.1), List.lookup_cons_self]
        rfl
      · rw [stepAt_cons_of_ne hne, ih, List.lookup_cons, beq_false_of_ne hne]

end Requests

/-- The request has something for the field, be it `null` or empty. -/
def ServiceStateCollectionUpdateRequest.Names (request : ServiceStateCollectionUpdateRequest V)
    (name : String) : Prop :=
  name ∈ (entriesOf request.itemsToRemove).map Prod.fst ∨
    name ∈ (entriesOf request.itemsToAdd).map Prod.fst

def ServiceStateMapUpdateRequest.Names (request : ServiceStateMapUpdateRequest V)
    (name : String) : Prop :=
  name ∈ (entriesOf request.keysToRemove).map Prod.fst ∨
    name ∈ (entriesOf request.entriesToAdd).map Prod.fst

section Collections

variable {currentState : Document V} {request : ServiceStateCollectionUpdateRequest V}

theorem updateCollections_framed :
    Framed request.Names currentState (updateCollections currentState request) := by
  intro name hname
  rw [ServiceStateCollectionUpdateRequest.Names, not_or] at hname
  refine runBoth_of_not_mem ?_ ?_
  · rw [stepsOf_names]
    exact hname.1
  · rw [stepsOf_names]
    exact hname.2

theorem updateCollections_truthful :
    Truthful currentState (updateCollections currentState request) := by
  intro hquiet
  refine ⟨rfl, fun name => ?_⟩
  have hname := (runBoth_quiet_iff stepsOf_nodup stepsOf_nodup).mp hquiet name
  have hfield := runBoth_fields stepsOf_nodup stepsOf_nodup ⟨false, hquiet⟩ name
  rw [stepAt_stepsOf rfl, stepAt_stepsOf rfl] at hname hfield
  rw [processCollection_of_quiet hname.1] at hname hfield
  rw [processCollection_of_quiet hname.2] at hfield
  exact hfield ▸ SameField.refl _

end Collections

/-! ## Maps -/

section Maps

variable {keys : Option (List (Option V))} {added : Option (JavaMap V)} {name : String}
  {type : FieldType} {field : Option (Field V)} {m : JavaMap V}

theorem get_removeKeys {keys : List (Option V)} (h : ∀ key ∈ keys, m.get key = none)
    (key : Option V) : (removeKeys keys false m).2.get key = m.get key := by
  rw [JavaMap.get, lookup_removeKeys]
  split_ifs with hmem
  · exact (h key hmem).symm
  · rfl

theorem processMapKeyRemoval_of_empty (h : keys.getD [] = []) :
    processMapKeyRemoval keys name field = (.ok false, field) := by
  cases keys with
  | none => rfl
  | some keys =>
      obtain rfl : keys = [] := h
      rfl

theorem processMapKeyRemoval_map :
    processMapKeyRemoval keys name (some ⟨.map, some (.map m)⟩) =
      (.ok (removeKeys (keys.getD []) false m).1,
        some ⟨.map, some (.map (removeKeys (keys.getD []) false m).2)⟩) := by
  cases keys with
  | none => rfl
  | some keys =>
      cases keys with
      | nil => rfl
      | cons key keys => rfl

/-- A field that is absent, or has another value than a map. -/
theorem processMapKeyRemoval_not_quiet (hkeys : keys.getD [] ≠ [])
    (hfield : field = none ∨ ∃ v, field = some ⟨.map, some v⟩ ∧ ∀ m, v ≠ .map m) :
    (processMapKeyRemoval keys name field).1 ≠ .ok false := by
  cases keys with
  | none => exact absurd rfl hkeys
  | some keys =>
      cases keys with
      | nil => exact absurd rfl hkeys
      | cons key keys =>
          rcases hfield with rfl | ⟨v, rfl, hv⟩
          · exact nofun
          · cases v with
            | map m => exact absurd rfl (hv m)
            | _ => exact nofun

/-- A field that is not declared as a map, or is `null`. -/
theorem processMapKeyRemoval_other (h : type ≠ .map) {value : Option (Value V)} :
    processMapKeyRemoval keys name (some ⟨type, value⟩) = (.ok false, some ⟨type, value⟩) := by
  unfold processMapKeyRemoval
  split
  · rfl
  · rfl
  · exact if_pos h

theorem processMapKeyRemoval_null :
    processMapKeyRemoval keys name (some (⟨.map, none⟩ : Field V)) =
      (.ok false, some ⟨.map, none⟩) := by
  unfold processMapKeyRemoval
  split <;> rfl

theorem processMapEntryAddition_of_empty (h : (added.getD ∅).entries = []) :
    processMapEntryAddition added name field = (.ok false, field) := by
  cases added with
  | none => rfl
  | some added =>
      unfold processMapEntryAddition
      exact if_pos (List.isEmpty_iff.mpr h)

theorem processMapEntryAddition_map :
    processMapEntryAddition added name (some ⟨.map, some (.map m)⟩) =
      (.ok (putEntries (added.getD ∅).entries false m).1,
        some ⟨.map, some (.map (putEntries (added.getD ∅).entries false m).2)⟩) := by
  cases added with
  | none => rfl
  | some added =>
      unfold processMapEntryAddition
      rw [Option.getD_some]
      dsimp only
      split_ifs with hempty hmap
      · rw [List.isEmpty_iff.mp hempty]
        rfl
      · exact absurd rfl hmap
      · rfl

theorem processMapEntryAddition_not_quiet (hadded : (added.getD ∅).entries ≠ [])
    (hfield : field = none ∨ ∃ value, field = some ⟨.map, value⟩ ∧ ∀ m, value ≠ some (.map m)) :
    (processMapEntryAddition added name field).1 ≠ .ok false := by
  cases added with
  | none => exact absurd rfl hadded
  | some added =>
      unfold processMapEntryAddition
      dsimp only
      rw [if_neg fun hempty : added.entries.isEmpty = true => hadded (List.isEmpty_iff.mp hempty)]
      rcases hfield with rfl | ⟨value, rfl, hvalue⟩
      · exact nofun
      · cases value with
        | none => exact nofun
        | some v =>
            cases v with
            | map m => exact absurd rfl (hvalue m)
            | _ => exact nofun

theorem processMapEntryAddition_other (h : type ≠ .map) {value : Option (Value V)} :
    processMapEntryAddition added name (some ⟨type, value⟩) =
      (.ok false, some ⟨type, value⟩) := by
  unfold processMapEntryAddition
  split
  · rfl
  · split_ifs
    · rfl
    · exact if_pos h

/-- Nothing is asked for, or `get` gives the answers already that are asked for. -/
def MapAsAsked (keys : Option (List (Option V))) (added : Option (JavaMap V))
    (field : Option (Field V)) : Prop :=
  (keys.getD [] = [] ∧ (added.getD ∅).entries = []) ∨
    ∃ type value, field = some ⟨type, value⟩ ∧
      (type ≠ .map ∨ (value = none ∧ (added.getD ∅).entries = []) ∨
        ∃ m, value = some (.map m) ∧ (∀ key ∈ keys.getD [], m.get key = none) ∧
          ∀ e ∈ (added.getD ∅).entries, m.get e.1 = e.2)

/-- What is added with `null` is there, and what is removed is not stored with `null`, unless it is
added again. -/
def MapKeepsNulls (keys : Option (List (Option V))) (added : Option (JavaMap V))
    (field : Option (Field V)) : Prop :=
  ∀ m, field = some ⟨.map, some (.map m)⟩ →
    (∀ e ∈ (added.getD ∅).entries, e.2 = none → e.1 ∈ m) ∧
      ∀ key ∈ keys.getD [], m.lookup key = some none → key ∈ added.getD ∅

/-- Without a map, only a request for nothing is quiet. -/
theorem empty_of_quiet
    (hremove : Quiet (processMapKeyRemoval keys name) field)
    (hadd : Quiet (processMapEntryAddition added name) (processMapKeyRemoval keys name field).2)
    (hfield : field = none ∨ ∃ v, field = some ⟨.map, some v⟩ ∧ ∀ m, v ≠ .map m) :
    keys.getD [] = [] ∧ (added.getD ∅).entries = [] := by
  have hkeys : keys.getD [] = [] := by
    by_contra hkeys
    exact processMapKeyRemoval_not_quiet hkeys hfield hremove
  refine ⟨hkeys, ?_⟩
  rw [processMapKeyRemoval_of_empty hkeys] at hadd
  by_contra hadded
  refine processMapEntryAddition_not_quiet hadded ?_ hadd
  rcases hfield with hnone | ⟨v, hsome, hv⟩
  · exact .inl hnone
  · exact .inr ⟨some v, hsome, fun m hm => hv m (Option.some.inj hm)⟩

theorem mapSteps_quiet_iff :
    (Quiet (processMapKeyRemoval keys name) field ∧
        Quiet (processMapEntryAddition added name) (processMapKeyRemoval keys name field).2) ↔
      MapAsAsked keys added field := by
  by_cases hempty : keys.getD [] = [] ∧ (added.getD ∅).entries = []
  · unfold Quiet
    rw [processMapKeyRemoval_of_empty hempty.1, processMapEntryAddition_of_empty hempty.2]
    exact iff_of_true ⟨rfl, rfl⟩ (.inl hempty)
  rw [MapAsAsked, or_iff_right hempty]
  rcases field with _ | ⟨type, value⟩
  · exact iff_of_false (fun h => hempty (empty_of_quiet h.1 h.2 (.inl rfl))) nofun
  -- a field that is no map is left alone by both steps
  by_cases htype : type = .map
  case neg =>
    unfold Quiet
    rw [processMapKeyRemoval_other htype, processMapEntryAddition_other htype]
    exact iff_of_true ⟨rfl, rfl⟩ ⟨type, value, rfl, .inl htype⟩
  case pos =>
    subst htype
    cases value with
    | none =>
        constructor
        · -- no key is in a map that is null, but an added entry makes one
          rintro ⟨-, hadd⟩
          rw [processMapKeyRemoval_null] at hadd
          refine ⟨_, _, rfl, .inr (.inl ⟨rfl, ?_⟩)⟩
          by_contra hadded
          exact processMapEntryAddition_not_quiet hadded
            (.inr ⟨_, rfl, fun m => (Option.some_ne_none (Value.map m)).symm⟩) hadd
        · rintro ⟨_, _, hfield, htype | ⟨-, hadded⟩ | ⟨m, rfl, -⟩⟩
          · cases hfield
            exact absurd rfl htype
          · unfold Quiet
            rw [processMapKeyRemoval_null, processMapEntryAddition_of_empty hadded]
            exact ⟨rfl, rfl⟩
          · cases hfield
    | some v =>
        by_cases hv : ∃ m, v = .map m
        · obtain ⟨m, rfl⟩ := hv
          unfold Quiet
          rw [processMapKeyRemoval_map, processMapEntryAddition_map, Except.ok.injEq,
            Except.ok.injEq, removeKeys_quiet_iff, putEntries_quiet_iff]
          constructor
          · rintro ⟨hremove, hadd⟩
            refine ⟨_, _, rfl, .inr (.inr ⟨m, rfl, hremove, fun e he => ?_⟩)⟩
            rw [← get_removeKeys hremove]
            exact hadd e he
          · rintro ⟨_, _, hfield, htype | ⟨rfl, -⟩ | ⟨m', rfl, hremove, hadd⟩⟩
            · cases hfield
              exact absurd rfl htype
            · cases hfield
            · cases hfield
              exact ⟨hremove, fun e he => (get_removeKeys hremove e.1).trans (hadd e he)⟩
        · rw [not_exists] at hv
          refine iff_of_false (fun h => hempty (empty_of_quiet h.1 h.2 (.inr ⟨v, rfl, hv⟩))) ?_
          rintro ⟨_, _, hfield, htype | ⟨rfl, -⟩ | ⟨m, rfl, -⟩⟩
          · cases hfield
            exact htype rfl
          · cases hfield
          · cases hfield
            exact hv m rfl

/-- Of what is quiet, a map keeps its keys if it keeps those with `null`. -/
theorem lookup_mapSteps_iff {keys : List (Option V)} {added m : JavaMap V}
    (hremove : ∀ key ∈ keys, m.get key = none) (hadd : ∀ e ∈ added.entries, m.get e.1 = e.2) :
    (∀ key, (putEntries added.entries false (removeKeys keys false m).2).2.lookup key =
        m.lookup key) ↔
      (∀ e ∈ added.entries, e.2 = none → e.1 ∈ m) ∧
        ∀ key ∈ keys, m.lookup key = some none → key ∈ added := by
  constructor
  · intro h
    refine ⟨fun e he hnull => ?_, fun key hkey hnull => ?_⟩
    · rw [← AList.lookup_isSome, ← h e.1, lookup_putEntries_of_mem he]
      rfl
    · by_contra hadded
      have hlookup := h key
      rw [lookup_putEntries_of_not_mem hadded, lookup_removeKeys, if_pos hkey, hnull] at hlookup
      cases hlookup
  · rintro ⟨hnulls, hremoved⟩ key
    by_cases hadded : key ∈ added
    · obtain ⟨e, he, rfl⟩ := List.mem_map.mp (AList.mem_keys.mp hadded)
      rw [lookup_putEntries_of_mem he]
      have hget : (m.lookup e.1).join = e.2 := hadd e he
      cases hlookup : m.lookup e.1 with
      | none =>
          rw [hlookup] at hget
          have hmem := hnulls e he hget.symm
          rw [← AList.lookup_isSome, hlookup] at hmem
          cases hmem
      | some value =>
          rw [hlookup] at hget
          exact congrArg some hget.symm
    · rw [lookup_putEntries_of_not_mem hadded, lookup_removeKeys]
      split_ifs with hkey
      · have hget : (m.lookup key).join = none := hremove key hkey
        cases hlookup : m.lookup key with
        | none => rfl
        | some value =>
            rw [hlookup] at hget
            obtain rfl : value = none := hget
            exact absurd (hremoved key hkey hlookup) hadded
      · rfl

theorem mapSteps_same_iff (h : MapAsAsked keys added field) :
    SameField field (processMapEntryAddition added name
        (processMapKeyRemoval keys name field).2).2 ↔ MapKeepsNulls keys added field := by
  rcases h with ⟨hkeys, hadded⟩ | ⟨type, value, rfl, h⟩
  · rw [processMapKeyRemoval_of_empty hkeys, processMapEntryAddition_of_empty hadded]
    refine iff_of_true (.refl _) fun m _ => ?_
    rw [hkeys, hadded]
    exact ⟨nofun, nofun⟩
  by_cases htype : type = .map
  case neg =>
    rw [processMapKeyRemoval_other htype, processMapEntryAddition_other htype]
    refine iff_of_true (.refl _) fun m hm => ?_
    cases hm
    exact absurd rfl htype
  case pos =>
    subst htype
    rcases h with htype | ⟨rfl, hadded⟩ | ⟨m, rfl, hremove, hadd⟩
    · exact absurd rfl htype
    · rw [processMapKeyRemoval_null, processMapEntryAddition_of_empty hadded]
      refine iff_of_true (.refl _) fun m hm => ?_
      cases hm
    · rw [processMapKeyRemoval_map, processMapEntryAddition_map, sameField_map_iff,
        lookup_mapSteps_iff hremove hadd]
      constructor
      · rintro h m' hm
        cases hm
        exact h
      · exact fun h => h m rfl

variable {currentState : Document V} {request : ServiceStateMapUpdateRequest V}

theorem updateMaps_framed : Framed request.Names currentState (updateMaps currentState request) := by
  intro name hname
  rw [ServiceStateMapUpdateRequest.Names, not_or] at hname
  refine runBoth_of_not_mem ?_ ?_
  · rw [stepsOf_names]
    exact hname.1
  · rw [stepsOf_names]
    exact hname.2

/-- `get` answers for every field as the request asks. -/
def ServiceStateMapUpdateRequest.AsAsked (request : ServiceStateMapUpdateRequest V)
    (currentState : Document V) : Prop :=
  ∀ name, MapAsAsked (askedFor request.keysToRemove name) (askedFor request.entriesToAdd name)
    (currentState.fields name)

/-- No entry with `null` is new, and none goes. -/
def ServiceStateMapUpdateRequest.KeepsNulls (request : ServiceStateMapUpdateRequest V)
    (currentState : Document V) : Prop :=
  ∀ name, MapKeepsNulls (askedFor request.keysToRemove name) (askedFor request.entriesToAdd name)
    (currentState.fields name)

theorem updateMaps_quiet_iff :
    (updateMaps currentState request).1 = .ok false ↔ request.AsAsked currentState := by
  refine (runBoth_quiet_iff stepsOf_nodup stepsOf_nodup).trans (forall_congr' fun name => ?_)
  rw [stepAt_stepsOf rfl, stepAt_stepsOf rfl, mapSteps_quiet_iff]

theorem updateMaps_truthful_iff :
    Truthful currentState (updateMaps currentState request) ↔
      (request.AsAsked currentState → request.KeepsNulls currentState) := by
  unfold Truthful
  rw [updateMaps_quiet_iff]
  refine forall_congr' fun hasked => ?_
  refine (and_iff_right rfl).trans (forall_congr' fun name => ?_)
  have hquiet : (runBoth (stepsOf processMapKeyRemoval request.keysToRemove)
      (stepsOf processMapEntryAddition request.entriesToAdd) currentState.fields).1 = .ok false :=
    updateMaps_quiet_iff.mpr hasked
  have hfield := runBoth_fields stepsOf_nodup stepsOf_nodup ⟨false, hquiet⟩ name
  rw [stepAt_stepsOf rfl, stepAt_stepsOf rfl] at hfield
  rw [show (updateMaps currentState request).2.fields name = _ from hfield]
  exact mapSteps_same_iff (hasked name)

end Maps

/-! ## Merges -/

section Merges

variable {zero : V} {prop : PropertyDescription} {o : Option (Value V)}
  {field : Option (Field V)} {type : FieldType}

/-- The branch of `mergeWithState` that leaves the merge to `setOrUpdatePropertyValue`. -/
def UpdatesContainer (prop : PropertyDescription) (o : Value V) : Prop :=
  (prop.typeName = .collection ∧ !o.isArray) ∨ prop.typeName = .map

/-- The property is passed over. -/
def PassedOver (zero : V) (prop : PropertyDescription) (o : Value V) : Prop :=
  prop.accessor = fieldNameExpirationTimeMicros ∧ o.equals (.object zero)

/-- The collection or map has what it is asked to have, as far as its methods answer. -/
def HasPatch (type : FieldType) : Value V → Value V → Prop
  | .collection c, .collection input => type.accepts (.collection c) ∧ c.HasAll input
  | .map m, .map patchMap => type = .map ∧ ∀ e ∈ patchMap.entries, m.get e.1 = e.2
  | _, _ => False

/-- There is nothing to merge, or the field has it already. -/
def MergedAlready (zero : V) (prop : PropertyDescription) (o : Option (Value V))
    (field : Option (Field V)) : Prop :=
  prop.autoMergeIfNotNull = true → ∀ v, o = some v → ¬PassedOver zero prop v →
    ∃ type current, field = some ⟨type, some current⟩ ∧
      ((UpdatesContainer prop v ∧ HasPatch type current v) ∨
        (¬UpdatesContainer prop v ∧ v.equals current = true))

/-- What the patch has with `null` is not stored with `null`. -/
def MergeKeepsNulls (prop : PropertyDescription) (o : Option (Value V))
    (field : Option (Field V)) : Prop :=
  prop.autoMergeIfNotNull = true → ∀ patchMap m type, o = some (.map patchMap) →
    UpdatesContainer prop (.map patchMap) → field = some ⟨type, some (.map m)⟩ →
      ∀ e ∈ patchMap.entries, e.2 = none → m.lookup e.1 ≠ some none

/-- A collection keeps its class. -/
theorem accepts_addAll {c input : Collection V} :
    type.accepts (.collection (c.addAll input).2) = type.accepts (.collection c) := by
  cases type <;> rfl

theorem setOrUpdatePropertyValue_quiet_iff {v : Value V} :
    Quiet (setOrUpdatePropertyValue v) field ↔
      ∃ type current, field = some ⟨type, some current⟩ ∧ HasPatch type current v := by
  unfold Quiet
  rcases field with _ | ⟨type, _ | current⟩
  · exact iff_of_false nofun nofun
  · refine iff_of_false (fun h => ?_) fun ⟨_, _, hfield, _⟩ => by cases hfield
    exact absurd (setting_quiet_iff.mp h).2 nofun
  constructor
  · intro h
    refine ⟨type, current, rfl, ?_⟩
    cases current with
    | collection c =>
        cases v with
        | collection input =>
            obtain ⟨htype, hquiet⟩ := setting_quiet_iff.mp h
            exact ⟨accepts_addAll.symm.trans htype, Collection.addAll_quiet_iff.mp hquiet⟩
        | _ => cases h
    | map m =>
        cases v with
        | map patchMap =>
            obtain ⟨htype, hquiet⟩ := setting_quiet_iff.mp h
            refine ⟨?_, mergeEntries_quiet_iff.mp hquiet⟩
            cases type with
            | map => rfl
            | _ => cases htype
        | _ => cases h
    | _ => cases v <;> cases h
  · rintro ⟨_, _, hfield, hpatch⟩
    cases hfield
    cases current with
    | collection c =>
        cases v with
        | collection input =>
            exact setting_quiet_iff.mpr
              ⟨accepts_addAll.trans hpatch.1, Collection.addAll_quiet_iff.mpr hpatch.2⟩
        | _ => cases hpatch
    | map m =>
        cases v with
        | map patchMap =>
            obtain ⟨rfl, hentries⟩ := hpatch
            exact setting_quiet_iff.mpr ⟨rfl, mergeEntries_quiet_iff.mpr hentries⟩
        | _ => cases hpatch
    | _ => cases v <;> cases hpatch

/-- A field that the patch changes nothing of has the same keys after it, if it has none that the
patch has with `null`. -/
theorem setOrUpdatePropertyValue_same_iff {current v : Value V} (h : HasPatch type current v) :
    SameField (some ⟨type, some current⟩)
        (setOrUpdatePropertyValue v (some ⟨type, some current⟩)).2 ↔
      ∀ patchMap m, v = .map patchMap → current = .map m →
        ∀ e ∈ patchMap.entries, e.2 = none → m.lookup e.1 ≠ some none := by
  cases current with
  | collection c =>
      cases v with
      | collection input =>
          have hsame : (setOrUpdatePropertyValue (.collection input)
              (some ⟨type, some (.collection c)⟩)).2 = some ⟨type, some (.collection c)⟩ := by
            refine (setting_of_accepts (accepts_addAll.trans h.1)).trans ?_
            rw [Collection.addAll_of_quiet (Collection.addAll_quiet_iff.mpr h.2)]
          rw [hsame]
          refine iff_of_true (.refl _) fun patchMap m hv => ?_
          cases hv
      | _ => cases h
  | map m =>
      cases v with
      | map patchMap =>
          obtain ⟨rfl, hget⟩ := h
          have hset : (setOrUpdatePropertyValue (.map patchMap) (some ⟨.map, some (.map m)⟩)).2 =
              some ⟨.map, some (.map (mergeEntries patchMap.entries false m).2)⟩ :=
            setting_of_accepts rfl
          rw [hset, sameField_map_iff]
          constructor
          · intro hsame patchMap' m' hv hcurrent e he hnull hstored
            cases hv
            cases hcurrent
            have hlookup := hsame e.1
            rw [lookup_mergeEntries_of_mem he, hnull, hstored] at hlookup
            cases hlookup
          · intro hnulls key
            by_cases hkey : key ∈ patchMap
            · obtain ⟨e, he, rfl⟩ := List.mem_map.mp (AList.mem_keys.mp hkey)
              rw [lookup_mergeEntries_of_mem he]
              have hjoin : (m.lookup e.1).join = e.2 := hget e he
              have hstored := hnulls patchMap m rfl rfl e he
              -- the key is absent, stored with null, or stored with a value
              rcases hlookup : m.lookup e.1 with _ | _ | value <;> rw [hlookup] at hjoin hstored
              · rw [← hjoin]
                rfl
              · exact absurd rfl (hstored hjoin.symm)
              · rw [← hjoin]
                rfl
            · rw [lookup_mergeEntries_of_not_mem hkey]
      | _ => cases h
  | _ => cases v <;> cases h

/-- What is done for a property that is merged. -/
theorem mergeProperty_eq {v : Value V} (hauto : prop.autoMergeIfNotNull = true)
    (hnot : ¬PassedOver zero prop v) :
    (UpdatesContainer prop v →
        mergeProperty zero prop (some v) field = setOrUpdatePropertyValue v field) ∧
      (¬UpdatesContainer prop v → mergeProperty zero prop (some v) field =
        if ((field.bind Field.value).map v.equals).getD false then (.ok false, field)
        else
          match field with
          | none => (.error .runtime, none)
          | some f => setting .runtime f v true) := by
  unfold mergeProperty
  rw [hauto]
  constructor
  · intro hcontainer
    exact (if_neg hnot).trans (if_pos hcontainer)
  · intro hcontainer
    exact (if_neg hnot).trans (if_neg hcontainer)

theorem mergeProperty_of_passed
    (h : prop.autoMergeIfNotNull = false ∨ ∀ v, o = some v → PassedOver zero prop v) :
    mergeProperty zero prop o field = (.ok false, field) := by
  unfold mergeProperty
  rcases h with hauto | hpassed
  · rw [hauto]
    rfl
  · split_ifs
    · rfl
    · cases o with
      | none => rfl
      | some v => exact if_pos (hpassed v rfl)

theorem mergeProperty_quiet_iff :
    Quiet (mergeProperty zero prop o) field ↔ MergedAlready zero prop o field := by
  unfold Quiet MergedAlready
  by_cases hpassed : prop.autoMergeIfNotNull = false ∨ ∀ v, o = some v → PassedOver zero prop v
  · rw [mergeProperty_of_passed hpassed]
    refine iff_of_true rfl fun hauto v hv hnot => ?_
    rcases hpassed with hnever | hpassed
    · cases hauto.symm.trans hnever
    · exact absurd (hpassed v hv) hnot
  push Not at hpassed
  obtain ⟨hauto, v, rfl, hnot⟩ := hpassed
  have hauto : prop.autoMergeIfNotNull = true := by simpa using hauto
  have hone : (prop.autoMergeIfNotNull = true → ∀ v', some v = some v' → ¬PassedOver zero prop v' →
      ∃ type current, field = some ⟨type, some current⟩ ∧
        ((UpdatesContainer prop v' ∧ HasPatch type current v') ∨
          (¬UpdatesContainer prop v' ∧ v'.equals current = true))) ↔
      ∃ type current, field = some ⟨type, some current⟩ ∧
        ((UpdatesContainer prop v ∧ HasPatch type current v) ∨
          (¬UpdatesContainer prop v ∧ v.equals current = true)) := by
    refine ⟨fun h => h hauto v rfl hnot, ?_⟩
    rintro h - _ ⟨⟩ -
    exact h
  rw [hone]
  by_cases hcontainer : UpdatesContainer prop v
  · rw [(mergeProperty_eq hauto hnot).1 hcontainer]
    simp only [hcontainer, true_and, not_true_eq_false, false_and, or_false]
    exact setOrUpdatePropertyValue_quiet_iff
  · rw [(mergeProperty_eq hauto hnot).2 hcontainer]
    simp only [hcontainer, not_false_eq_true, true_and, false_and, false_or]
    rcases field with _ | ⟨type, _ | current⟩
    · exact iff_of_false nofun nofun
    · refine iff_of_false (fun h => ?_) fun ⟨_, _, hfield, _⟩ => by cases hfield
      exact absurd (setting_quiet_iff.mp h).2 nofun
    · show (if v.equals current then _ else _ : Except Failure Bool × Option (Field V)).1 = _ ↔ _
      split_ifs with hequals
      · exact iff_of_true rfl ⟨type, current, rfl, hequals⟩
      · refine iff_of_false (fun h => absurd (setting_quiet_iff.mp h).2 nofun) ?_
        rintro ⟨_, _, hfield, hequals'⟩
        cases hfield
        exact hequals hequals'

theorem mergeProperty_same_iff (h : MergedAlready zero prop o field) :
    SameField field (mergeProperty zero prop o field).2 ↔ MergeKeepsNulls prop o field := by
  by_cases hpassed : prop.autoMergeIfNotNull = false ∨ ∀ v, o = some v → PassedOver zero prop v
  · rw [mergeProperty_of_passed hpassed]
    refine iff_of_true (.refl _) fun hauto patchMap m type hv => ?_
    rcases hpassed with hnever | hpassed
    · cases hauto.symm.trans hnever
    · exact nomatch (hpassed _ hv).2
  push Not at hpassed
  obtain ⟨hauto, v, rfl, hnot⟩ := hpassed
  have hauto : prop.autoMergeIfNotNull = true := by simpa using hauto
  obtain ⟨type, current, rfl, ⟨hcontainer, hpatch⟩ | ⟨hcontainer, hequals⟩⟩ := h hauto v rfl hnot
  · rw [(mergeProperty_eq hauto hnot).1 hcontainer, setOrUpdatePropertyValue_same_iff hpatch]
    constructor
    · intro hnulls _ patchMap m type' hv _ hfield
      cases hv
      cases hfield
      exact hnulls patchMap m rfl rfl
    · rintro hnulls patchMap m rfl rfl
      exact hnulls hauto patchMap m type rfl hcontainer rfl
  · rw [(mergeProperty_eq hauto hnot).2 hcontainer]
    have hsome : (((some (⟨type, some current⟩ : Field V)).bind Field.value).map v.equals).getD
        false = true := hequals
    rw [if_pos hsome]
    refine iff_of_true (.refl _) fun _ patchMap m type' hv hmap => ?_
    cases hv
    exact absurd hmap hcontainer

variable {desc : ServiceDocumentDescription} {source patch : Document V}

/-- A property of the name is marked for the merge, and the patch has a value for it. -/
def Merges (desc : ServiceDocumentDescription) (patch : Document V) (name : String) : Prop :=
  ∃ prop ∈ desc.propertyDescriptions, prop.accessor = name ∧ prop.autoMergeIfNotNull = true ∧
    getPropertyValue patch name ≠ none

theorem mergeWithState_framed :
    Framed (Merges desc patch) source (mergeWithState zero desc source patch) := by
  intro name hname
  unfold mergeWithState
  split_ifs
  · rfl
  · refine runSteps_of_keeps fun s hs hs' => ?_
    obtain ⟨prop, hprop, rfl⟩ := List.mem_map.mp hs
    refine congrArg Prod.snd (mergeProperty_of_passed ?_)
    by_contra hpassed
    push Not at hpassed
    obtain ⟨hauto, v, hv, -⟩ := hpassed
    refine hname ⟨prop, hprop, hs', by simpa using hauto, ?_⟩
    rw [← hs']
    exact hv ▸ nofun

/-- The patch is of the class of the state, which has all of it already. -/
def PatchMerged (zero : V) (desc : ServiceDocumentDescription) (source patch : Document V) : Prop :=
  patch.clazz = source.clazz ∧ ∀ prop ∈ desc.propertyDescriptions,
    MergedAlready zero prop (getPropertyValue patch prop.accessor) (source.fields prop.accessor)

/-- No map of the state has `null` for a key that the patch has with `null`. -/
def PatchKeepsNulls (desc : ServiceDocumentDescription) (source patch : Document V) : Prop :=
  ∀ prop ∈ desc.propertyDescriptions,
    MergeKeepsNulls prop (getPropertyValue patch prop.accessor) (source.fields prop.accessor)

/-- The steps of the properties, each for a field of its own. -/
theorem mergeSteps_nodup :
    ((desc.propertyDescriptions.map fun prop => (prop.accessor,
      mergeProperty zero prop (getPropertyValue patch prop.accessor))).map Prod.fst).Nodup := by
  rw [List.map_map]
  exact desc.nodup

theorem mergeWithState_quiet_iff :
    (mergeWithState zero desc source patch).1 = .ok false ↔ PatchMerged zero desc source patch := by
  unfold mergeWithState PatchMerged
  split_ifs with hclazz
  · exact iff_of_false nofun fun h => hclazz h.1
  · rw [not_not] at hclazz
    rw [and_iff_right hclazz]
    refine (runSteps_quiet_iff mergeSteps_nodup).trans ((and_iff_right rfl).trans ?_)
    refine (forall_stepAt_iff (P := fun name step => Quiet step (source.fields name))
      mergeSteps_nodup fun _ => rfl).trans ?_
    rw [List.forall_mem_map]
    exact forall₂_congr fun prop _ => mergeProperty_quiet_iff

theorem mergeWithState_truthful_iff :
    Truthful source (mergeWithState zero desc source patch) ↔
      (PatchMerged zero desc source patch → PatchKeepsNulls desc source patch) := by
  unfold Truthful
  rw [mergeWithState_quiet_iff]
  refine forall_congr' fun hmerged => ?_
  have hok : ∃ c, (runSteps (desc.propertyDescriptions.map fun prop => (prop.accessor,
      mergeProperty zero prop (getPropertyValue patch prop.accessor))) false source.fields).1 =
      .ok c := by
    refine ⟨false, ?_⟩
    have hquiet := mergeWithState_quiet_iff.mpr hmerged
    unfold mergeWithState at hquiet
    rwa [if_neg (not_not.mpr hmerged.1)] at hquiet
  have hfields := runSteps_fields mergeSteps_nodup hok
  unfold mergeWithState
  rw [if_neg (not_not.mpr hmerged.1)]
  refine (and_iff_right rfl).trans ?_
  show (∀ name, SameField (source.fields name) ((runSteps _ false source.fields).2 name)) ↔ _
  simp only [hfields]
  refine (forall_stepAt_iff
    (P := fun name step => SameField (source.fields name) (step (source.fields name)).2)
    mergeSteps_nodup fun _ => .refl _).trans ?_
  rw [List.forall_mem_map]
  exact forall₂_congr fun prop hprop => mergeProperty_same_iff (hmerged.2 prop hprop)

end Merges

/-! ## Reported changes -/

/-- Fields that a request does not name or mark are as they were, and so are collections for which
no change is reported. For maps this holds if what the maps answer for some key is not as asked, or
no entry with `null` comes or goes. -/
theorem truthful_iff (zero : V) (currentState source patch : Document V)
    (collections : ServiceStateCollectionUpdateRequest V) (maps : ServiceStateMapUpdateRequest V)
    (desc : ServiceDocumentDescription) :
    (Framed collections.Names currentState (updateCollections currentState collections) ∧
        Truthful currentState (updateCollections currentState collections)) ∧
      (Framed maps.Names currentState (updateMaps currentState maps) ∧
        (Truthful currentState (updateMaps currentState maps) ↔
          (maps.AsAsked currentState → maps.KeepsNulls currentState))) ∧
      Framed (Merges desc patch) source (mergeWithState zero desc source patch) ∧
        (Truthful source (mergeWithState zero desc source patch) ↔
          (PatchMerged zero desc source patch → PatchKeepsNulls desc source patch)) :=
  ⟨⟨updateCollections_framed, updateCollections_truthful⟩,
    ⟨updateMaps_framed, updateMaps_truthful_iff⟩, mergeWithState_framed,
    mergeWithState_truthful_iff⟩

/-- The field of the state is `{"k": null}`, and its key is removed. -/
def nullStored : Document Nat where
  clazz := "ExampleServiceState"
  fields name := if name = "keyValues" then
    some ⟨.map, some (.map (AList.insert (some 1) none ∅))⟩ else none

def removeNullStored : ServiceStateMapUpdateRequest Nat where
  keysToRemove := some ⟨[("keyValues", some [some 1])], by decide⟩

theorem removal_unreported :
    (updateMaps nullStored removeNullStored).1 = .ok false ∧
      ¬Unchanged nullStored (updateMaps nullStored removeNullStored).2 := by
  refine ⟨by decide, fun h => ?_⟩
  have hfield := sameField_map_iff.mp (h.2 "keyValues") (some 1)
  revert hfield
  decide

end Xenon.Common.StateUpdates
