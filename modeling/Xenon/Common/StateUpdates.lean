import Mathlib.Data.List.AList
import Xenon.Foundation.Fields

/-!
# Updates of a state

`Utils.updateCollections`, `Utils.updateMaps` and `Utils.mergeWithState`, with the setters of
`ReflectionUtils`. Each of them tells whether it has changed the state. A map may have keys that are
stored with `null`, which its methods answer for absent keys too: these come and go unreported.
-/

namespace Xenon.Common.StateUpdates

open Foundation

variable {V : Type*} [DecidableEq V]

/-! ## Values -/

inductive CollectionClass where
  | arrayList
  | hashSet
  | treeSet
deriving DecidableEq

/-- A collection by its elements in the order of its iterator. Elements may be `null`. -/
structure Collection (V : Type*) where
  clazz : CollectionClass
  elements : List (Option V)
deriving DecidableEq

/-- A map by its entries in the order of its iterator. Keys and values may be `null`. -/
abbrev JavaMap (V : Type*) := AList fun _ : Option V => Option V

/-- A value that is not `null`. -/
inductive Value (V : Type*) where
  | object (v : V)
  | array (v : V)
  | collection (c : Collection V)
  | map (m : JavaMap V)

namespace Collection

/-- `addAll`: a set leaves elements that it has. -/
def addItems (isSet : Bool) : List (Option V) → Bool → List (Option V) → Bool × List (Option V)
  | [], changed, elements => (changed, elements)
  | item :: items, changed, elements =>
      if isSet && item ∈ elements then addItems isSet items changed elements
      else addItems isSet items true (elements ++ [item])

def addAll (c items : Collection V) : Bool × Collection V :=
  let r := addItems (c.clazz ≠ .arrayList) items.elements false c.elements
  (r.1, { c with elements := r.2 })

def removeAll (c items : Collection V) : Bool × Collection V :=
  (c.elements.any (· ∈ items.elements),
    { c with elements := c.elements.filter (· ∉ items.elements) })

/-- `equals`: of lists in their order, of sets in any. -/
def equals (c c' : Collection V) : Bool :=
  if c.clazz = .arrayList ∨ c'.clazz = .arrayList then c = c'
  else c.elements.all (· ∈ c'.elements) && c'.elements.all (· ∈ c.elements)

end Collection

namespace JavaMap

/-- `get`, of which `null` is also the answer for an absent key. -/
def get (m : JavaMap V) (key : Option V) : Option V := (m.lookup key).join

def equals (m m' : JavaMap V) : Bool :=
  (m.keys ++ m'.keys).all fun key => m.lookup key = m'.lookup key

end JavaMap

/-- `equals`. Arrays are compared by their identity, which is part of their value here. -/
def Value.equals : Value V → Value V → Bool
  | .object v, .object v' => v = v'
  | .array v, .array v' => v = v'
  | .collection c, .collection c' => c.equals c'
  | .map m, .map m' => JavaMap.equals m m'
  | _, _ => false

/-! ## Fields -/

/-- The declared type of a collection, of which the first four are interfaces. -/
inductive CollectionType where
  | collection
  | list
  | set
  | sortedSet
  | arrayList
  | hashSet
  | treeSet
deriving DecidableEq

inductive FieldType where
  | object
  | array
  | collection (type : CollectionType)
  | map
deriving DecidableEq

structure Field (V : Type*) where
  type : FieldType
  value : Option (Value V) := none

/-- An object, by its public fields. -/
structure Document (V : Type*) where
  clazz : String
  fields : String → Option (Field V)

inductive Failure where
  | noSuchField (name : String)
  | illegalArgument (message : String)
  | classCast
  /-- A `RuntimeException`, of whatever a setter throws. -/
  | runtime
deriving DecidableEq

namespace CollectionType

def isAssignableFrom : CollectionType → CollectionClass → Bool
  | .collection, _ => true
  | .list, .arrayList | .arrayList, .arrayList => true
  | .set, .hashSet | .set, .treeSet | .sortedSet, .treeSet => true
  | .hashSet, .hashSet | .treeSet, .treeSet => true
  | _, _ => false

/-- `instantiateDefaultCollection` of an interface, else an object of the class. -/
def instantiate : CollectionType → Except Failure CollectionClass
  | .list | .arrayList => .ok .arrayList
  | .set | .hashSet => .ok .hashSet
  | .sortedSet | .treeSet => .ok .treeSet
  | .collection =>
      .error (.illegalArgument "Unsupported collection interface: java.util.Collection")

end CollectionType

/-- Whether a field can be set to a value. -/
def FieldType.accepts : FieldType → Value V → Bool
  | .object, .object _ | .array, .array _ | .map, .map _ => true
  | .collection type, .collection c => type.isAssignableFrom c.clazz
  | _, _ => false

/-- `Field.set`. -/
def Field.set (f : Field V) (v : Value V) : Option (Field V) :=
  if f.type.accepts v then some { f with value := some v } else none

/-- What is done to a field of the state that is found by its name. -/
abbrev Step (V : Type*) := FieldStep (Option (Field V)) Failure

/-- The field is set, and a change is reported. -/
def setting (failure : Failure) (f : Field V) (v : Value V) (changed : Bool) :
    Except Failure Bool × Option (Field V) :=
  match f.set v with
  | none => (.error failure, some f)
  | some f' => (.ok changed, some f')

/-! ## `updateCollections` -/

inductive CollectionOperation where
  | add
  | remove
deriving DecidableEq

/-- `setOrInstantiateCollectionField`. -/
def setOrInstantiateCollectionField (f : Field V) (type : CollectionType)
    (inputCollection : Collection V) : Except Failure Bool × Option (Field V) :=
  if type.isAssignableFrom inputCollection.clazz then
    setting .runtime f (.collection inputCollection) true
  else
    match type.instantiate with
    | .error failure => (.error failure, some f)
    | .ok clazz =>
        let r := Collection.addAll { clazz, elements := [] } inputCollection
        setting .runtime f (.collection r.2) r.1

/-- `processCollection`. A collection is changed in place. -/
def processCollection (inputCollection : Option (Collection V)) (collectionName : String)
    (operation : CollectionOperation) : Step V := fun field =>
  match inputCollection with
  | none => (.ok false, field)
  | some input =>
      if input.elements.isEmpty then (.ok false, field)
      else
        match field with
        | none => (.error (.noSuchField collectionName), none)
        | some f =>
            match f.type with
            | .collection type =>
                match operation, f.value with
                | .add, none => setOrInstantiateCollectionField f type input
                | .add, some (.collection c) =>
                    let r := c.addAll input
                    (.ok r.1, some { f with value := some (.collection r.2) })
                | .remove, some (.collection c) =>
                    let r := c.removeAll input
                    (.ok r.1, some { f with value := some (.collection r.2) })
                | .remove, none => (.ok false, some f)
                | _, some _ => (.error .classCast, some f)
            | _ => (.ok false, some f)

/-- A map by field names, or `null`. -/
structure ByField (α : Type*) where
  entries : List (String × α) := []
  nodup : (entries.map Prod.fst).Nodup := by exact List.nodup_nil

structure ServiceStateCollectionUpdateRequest (V : Type*) where
  itemsToRemove : Option (ByField (Option (Collection V))) := none
  itemsToAdd : Option (ByField (Option (Collection V))) := none

/-- The entries of a map that may be `null`. -/
def entriesOf {α : Type*} (map : Option (ByField α)) : List (String × α) :=
  (map.map ByField.entries).getD []

/-- A loop over the entries of a request. -/
def stepsOf {α : Type*} (process : α → String → Step V) (map : Option (ByField α)) :
    List (String × Step V) :=
  (entriesOf map).map fun e => (e.1, process e.2 e.1)

/-- An update that works on the fields. -/
def Document.updated (d : Document V) (r : Except Failure Bool × (String → Option (Field V))) :
    Except Failure Bool × Document V :=
  (r.1, { d with fields := r.2 })

def updateCollections (currentState : Document V)
    (patchBody : ServiceStateCollectionUpdateRequest V) : Except Failure Bool × Document V :=
  currentState.updated (runBoth
    (stepsOf (processCollection · · .remove) patchBody.itemsToRemove)
    (stepsOf (processCollection · · .add) patchBody.itemsToAdd) currentState.fields)

/-! ## `updateMaps` -/

/-- The loop of `processMapKeyRemoval`. -/
def removeKeys : List (Option V) → Bool → JavaMap V → Bool × JavaMap V
  | [], hasChanged, m => (hasChanged, m)
  | key :: keys, hasChanged, m =>
      removeKeys keys (hasChanged || (JavaMap.get m key).isSome) (m.erase key)

/-- The loop of `processMapEntryAddition`. -/
def putEntries : List (Sigma fun _ : Option V => Option V) → Bool → JavaMap V → Bool × JavaMap V
  | [], hasChanged, m => (hasChanged, m)
  | entry :: entries, hasChanged, m =>
      let changed :=
        match JavaMap.get m entry.1 with
        | none => entry.2.isSome
        | some oldValue => some oldValue ≠ entry.2
      putEntries entries (hasChanged || changed) (m.insert entry.1 entry.2)

def processMapKeyRemoval (keysToRemove : Option (List (Option V))) (mapName : String) :
    Step V := fun field =>
  match keysToRemove with
  | none | some [] => (.ok false, field)
  | some keys =>
      match field with
      | none => (.error (.noSuchField mapName), none)
      | some f =>
          if f.type ≠ .map then (.ok false, some f)
          else
            match f.value with
            | none => (.ok false, some f)
            | some (.map m) =>
                let r := removeKeys keys false m
                (.ok r.1, some { f with value := some (.map r.2) })
            | some _ => (.error .classCast, some f)

def processMapEntryAddition (entriesToAdd : Option (JavaMap V)) (mapName : String) :
    Step V := fun field =>
  match entriesToAdd with
  | none => (.ok false, field)
  | some entries =>
      if entries.entries.isEmpty then (.ok false, field)
      else
        match field with
        | none => (.error (.noSuchField mapName), none)
        | some f =>
            if f.type ≠ .map then (.ok false, some f)
            else
              match f.value with
              | none => setting .runtime f (.map entries) true
              | some (.map m) =>
                  let r := putEntries entries.entries false m
                  (.ok r.1, some { f with value := some (.map r.2) })
              | some _ => (.error .classCast, some f)

structure ServiceStateMapUpdateRequest (V : Type*) where
  entriesToAdd : Option (ByField (Option (JavaMap V))) := none
  keysToRemove : Option (ByField (Option (List (Option V)))) := none

def updateMaps (currentState : Document V) (patchBody : ServiceStateMapUpdateRequest V) :
    Except Failure Bool × Document V :=
  currentState.updated (runBoth (stepsOf processMapKeyRemoval patchBody.keysToRemove)
    (stepsOf processMapEntryAddition patchBody.entriesToAdd) currentState.fields)

/-! ## `mergeWithState` -/

inductive TypeName where
  | collection
  | map
  | other
deriving DecidableEq

structure PropertyDescription where
  accessor : String
  typeName : TypeName
  /-- `usageOptions` contains `AUTO_MERGE_IF_NOT_NULL`. -/
  autoMergeIfNotNull : Bool := false

/-- `propertyDescriptions`, by the names of the fields. -/
structure ServiceDocumentDescription where
  propertyDescriptions : List PropertyDescription
  nodup : (propertyDescriptions.map PropertyDescription.accessor).Nodup

def fieldNameExpirationTimeMicros : String := "documentExpirationTimeMicros"

/-- The loop of `mergeMapField`. -/
def mergeEntries : List (Sigma fun _ : Option V => Option V) → Bool → JavaMap V → Bool × JavaMap V
  | [], hasChanged, m => (hasChanged, m)
  | entry :: entries, hasChanged, m =>
      match entry.2 with
      | none =>
          mergeEntries entries (hasChanged || (JavaMap.get m entry.1).isSome) (m.erase entry.1)
      | some value =>
          mergeEntries entries (hasChanged || some value ≠ JavaMap.get m entry.1)
            (m.insert entry.1 (some value))

/-- `setOrUpdatePropertyValue`, where every exception becomes a `RuntimeException`. -/
def setOrUpdatePropertyValue (value : Value V) : Step V
  | none => (.error .runtime, none)
  | some f =>
      match f.value, value with
      | none, value => setting .runtime f value true
      | some (.collection c), .collection input =>
          let r := c.addAll input
          setting .runtime f (.collection r.2) r.1
      | some (.map m), .map patchMap =>
          let r := mergeEntries patchMap.entries false m
          setting .runtime f (.map r.2) r.1
      | some _, _ => (.error .runtime, some f)

def Value.isArray : Value V → Bool
  | .array _ => true
  | _ => false

/-- One round of the loop of `mergeWithState`, with the value of the patch. `zero` is the `Long`. -/
def mergeProperty (zero : V) (prop : PropertyDescription) (o : Option (Value V)) : Step V :=
  fun field =>
    if !prop.autoMergeIfNotNull then (.ok false, field)
    else
      match o with
      | none => (.ok false, field)
      | some o =>
          if prop.accessor = fieldNameExpirationTimeMicros ∧ o.equals (.object zero) then
            (.ok false, field)
          else if (prop.typeName = .collection ∧ !o.isArray) ∨ prop.typeName = .map then
            setOrUpdatePropertyValue o field
          else if ((field.bind Field.value).map o.equals).getD false then (.ok false, field)
          else
            match field with
            | none => (.error .runtime, none)
            | some f => setting .runtime f o true

/-- `getPropertyValue`. -/
def getPropertyValue (d : Document V) (name : String) : Option (Value V) :=
  (d.fields name).bind Field.value

def mergeWithState (zero : V) (desc : ServiceDocumentDescription) (source patch : Document V) :
    Except Failure Bool × Document V :=
  if patch.clazz ≠ source.clazz then
    (.error (.illegalArgument "Source object and patch object types mismatch"), source)
  else
    source.updated (runSteps
      (desc.propertyDescriptions.map fun prop =>
        (prop.accessor, mergeProperty zero prop (getPropertyValue patch prop.accessor)))
      false source.fields)

end Xenon.Common.StateUpdates
