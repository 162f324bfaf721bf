import Mogo.KeyedList
import Mogo.Paging
import Mogo.Plan
import Mogo.Script

/-!
# PocketBase and the Source

The two services the migration talks to.

PocketBase keeps collections, each with a list of fields and a list of indexes, and the records
of each collection in the order of their creation; `getList` pages that order, a create appends
to it and an update edits in place. Ids are tokens of the server, here natural numbers handed
out by one counter. A payload key that is no field of the collection is dropped, and a `null`
empties its field: what an empty field holds is up to its type (`''`, `0`, `false` or `null`), so
it is a content of its own here.

The source returns ranges of a table, either in primary-key order or, for an unordered query, in
whatever order that query happens to see, and at most `maxRows` rows at a time.

Every call of a run has its own place in the program (`Call`), and an `Oracle` decides the fate
of each; so a single run can meet every pattern of answered, failed and fatal calls.

`World` adds a history to the state of PocketBase: the last payload the first pass wrote to each
record. No program reads it.

## Main results

* `PocketBase.addRecord`, `PocketBase.editRecord`, `PocketBase.addCollection`,
  `PocketBase.editCollection`: the operations, which keep names and ids unique.
* `Cell.ofValue_eq_value`: what is stored as a value was that value, and not `null`.
* `World.addRecord_records_self`, `World.editRecord_records_self` and their siblings: what a
  record call changes and what it leaves alone.
-/

namespace Mogo

/-! ### Records -/

/-- The token the server gives a record. -/
abbrev RecordId := ℕ

/-- The content of a field: nothing, a value, or a relation to a record. -/
inductive Cell where
  | empty
  | value (v : Value)
  | relation (id : RecordId)
  deriving Repr

/-- What a value in a payload makes of its field. PocketBase has no `null` in its fields; a `null`
empties the field. -/
def Cell.ofValue : Value → Cell
  | .null => .empty
  | v => .value v

/-- What a client reads in a field. The script reads text fields and relations back; an empty one
reads as `''`, a relation as the text of the id. -/
def Cell.toValue : Cell → Value
  | .empty => .string ""
  | .value v => v
  | .relation id => .string (toString id)

/-- The record a field points to, if it is a relation that is set. -/
def Cell.relation? : Cell → Option RecordId
  | .relation id => some id
  | _ => none

/-- A cell points to a record exactly if it holds the relation to this record. -/
theorem Cell.relation?_eq_some {c : Cell} {id : RecordId} :
    c.relation? = some id ↔ c = .relation id := by
  cases c <;> simp [Cell.relation?]

/-- A value that is not `null` is stored as it is. -/
theorem Cell.ofValue_of_ne {v : Value} (h : v ≠ .null) : Cell.ofValue v = .value v := by
  cases v with
  | null => exact absurd rfl h
  | bool _ | number _ | string _ | array _ | object _ => rfl

/-- What is stored as a value was that value, and was not `null`. -/
theorem Cell.ofValue_eq_value {v w : Value} (h : Cell.ofValue v = .value w) :
    v = w ∧ w ≠ .null := by
  cases v with
  | null => cases h
  | bool _ | number _ | string _ | array _ | object _ =>
      cases h
      exact ⟨rfl, Value.noConfusion⟩

/-- A plain value points to no record. -/
@[simp] theorem Cell.relation?_ofValue (v : Value) : (Cell.ofValue v).relation? = none := by
  cases v <;> rfl

/-- `x === null || x === undefined || x === ''`. -/
def Cell.isBlank : Cell → Bool
  | .empty => true
  | .value .null => true
  | .value (.string s) => s = ""
  | _ => false

/-- A record: its id and its fields. A field that was never written is empty. -/
structure Record where
  id : RecordId
  fields : String → Cell

/-- The key under which a record is found again: its normalised `old_id`. -/
def Record.key [LetterCase] (r : Record) : Option String :=
  normalizeOldId (some (r.fields "old_id").toValue)

/-- An empty record is found under no key. -/
theorem Record.key_empty [LetterCase] (id : RecordId) :
    (⟨id, fun _ => .empty⟩ : Record).key = none :=
  normalizeOldId_empty

/-- The body of a create or an update, the last assignment first. -/
abbrev Payload := List (String × Cell)

/-- `payload[key] = cell`, which replaces what the key had before. -/
def Payload.set (p : Payload) (key : String) (cell : Cell) : Payload := (key, cell) :: p

/-- `payload[key]`, `none` if the payload does not set the key. -/
def Payload.get? (p : Payload) (key : String) : Option Cell := p.lookup key

/-- Write a payload over a record. -/
def Record.write (r : Record) (p : Payload) : Record :=
  { r with fields := fun n => (p.get? n).getD (r.fields n) }

/-- A write to a record keeps its id. -/
@[simp] theorem Record.write_id (r : Record) (p : Payload) : (r.write p).id = r.id := rfl

/-- An empty payload sets no field. -/
@[simp] theorem Payload.get?_nil (key : String) : Payload.get? [] key = none := rfl

/-- A field that has been set has the value it was set to. -/
theorem Payload.get?_set_self (p : Payload) (key : String) (cell : Cell) :
    (p.set key cell).get? key = some cell := by
  rw [Payload.set, Payload.get?, List.lookup_cons_self]

/-- Setting one field leaves the others as they are. -/
theorem Payload.get?_set_of_ne (p : Payload) {key key' : String} (h : key' ≠ key) (cell : Cell) :
    (p.set key cell).get? key' = p.get? key' := by
  rw [Payload.set, Payload.get?, Payload.get?, List.lookup_cons, beq_eq_false_iff_ne.mpr h]

/-- A field is the one that has been set, or what it was before. -/
theorem Payload.get?_set (p : Payload) (key n : String) (cell : Cell) :
    (p.set key cell).get? n = if n = key then some cell else p.get? n := by
  split
  next h => rw [h, Payload.get?_set_self]
  next h => exact Payload.get?_set_of_ne p h cell

/-- A lookup in a filtered payload finds what the filter of keys lets through. -/
theorem Payload.get?_filter (accepts : String → Bool) (p : Payload) (n : String) :
    Payload.get? (p.filter fun x => accepts x.1) n = if accepts n then p.get? n else none := by
  induction p with
  | nil => simp [Payload.get?]
  | cons x p ih =>
      obtain ⟨k, c⟩ := x
      rw [Payload.get?] at ih ⊢
      rw [Payload.get?, List.filter_cons]
      by_cases hn : n = k
      · subst hn
        by_cases ha : accepts n = true
        · simp [ha]
        · rw [if_neg ha, ih, if_neg ha, if_neg ha]
      · have hbeq : (n == k) = false := beq_eq_false_iff_ne.mpr hn
        split
        · rw [List.lookup_cons, hbeq, List.lookup_cons, hbeq]
          exact ih
        · rw [ih, List.lookup_cons, hbeq]
          rfl

section Fold

variable {γ : Type} {step : Payload → γ → Option Payload} {names : γ → List String}
  (hstep : ∀ p c q n, step p c = some q → n ∉ names c → q.get? n = p.get? n)
include hstep

/-- Steps that set other keys leave a key alone. -/
theorem Payload.foldlM_of_notMem {l : List γ} {n : String} (h : n ∉ l.flatMap names)
    {p q : Payload} (hrun : l.foldlM step p = some q) : q.get? n = p.get? n := by
  induction l generalizing p with
  | nil =>
      cases hrun
      rfl
  | cons c l ih =>
      rw [List.flatMap_cons, List.mem_append, not_or] at h
      rw [List.foldlM_cons] at hrun
      obtain ⟨p', hp', hrest⟩ := Option.bind_eq_some_iff.mp hrun
      rw [ih h.2 hrest, hstep p c p' n hp' h.1]

/-- When no two steps set one key, a key holds what its step has made of it. -/
theorem Payload.foldlM_of_mem {l : List γ} (hnodup : (l.flatMap names).Nodup) {c : γ}
    (hc : c ∈ l) {n : String} (hn : n ∈ names c) {p q : Payload}
    (hrun : l.foldlM step p = some q) :
    ∃ p' q', step p' c = some q' ∧ p'.get? n = p.get? n ∧ q.get? n = q'.get? n := by
  obtain ⟨pre, post, rfl⟩ := List.append_of_mem hc
  rw [List.flatMap_append, List.flatMap_cons, List.nodup_append] at hnodup
  obtain ⟨-, hrest, hdisjoint⟩ := hnodup
  have hpre : n ∉ pre.flatMap names := fun hmem =>
    hdisjoint n hmem n (List.mem_append_left _ hn) rfl
  have hpost : n ∉ post.flatMap names := fun hmem =>
    (List.nodup_append.mp hrest).2.2 n hn n hmem rfl
  rw [List.foldlM_append] at hrun
  obtain ⟨p', hp', hrun⟩ := Option.bind_eq_some_iff.mp hrun
  rw [List.foldlM_cons] at hrun
  obtain ⟨q', hq', hrun⟩ := Option.bind_eq_some_iff.mp hrun
  exact ⟨p', q', hq', Payload.foldlM_of_notMem hstep hpre hp',
    Payload.foldlM_of_notMem hstep hpost hrun⟩

end Fold

section PureFold

variable {γ : Type} {step : Payload → γ → Payload} {names : γ → List String}
  (hstep : ∀ p c n, n ∉ names c → (step p c).get? n = p.get? n)
include hstep

/-- Steps that cannot fail and set other keys leave a key alone. -/
theorem Payload.foldl_of_notMem {l : List γ} {n : String} (h : n ∉ l.flatMap names)
    (p : Payload) : (l.foldl step p).get? n = p.get? n := by
  have hrun : l.foldlM (fun p c => some (step p c)) p = some (l.foldl step p) := List.foldlM_pure
  refine Payload.foldlM_of_notMem (fun p c q n hq hn => ?_) h hrun
  obtain rfl := Option.some.inj hq
  exact hstep p c n hn

/-- When no two of them set one key, a key holds what its step has made of it. -/
theorem Payload.foldl_of_mem {l : List γ} (hnodup : (l.flatMap names).Nodup) {c : γ}
    (hc : c ∈ l) {n : String} (hn : n ∈ names c) (p : Payload) :
    ∃ q : Payload, q.get? n = p.get? n ∧ (l.foldl step p).get? n = (step q c).get? n := by
  have hrun : l.foldlM (fun p c => some (step p c)) p = some (l.foldl step p) := List.foldlM_pure
  have hkeeps : ∀ p c q n, some (step p c) = some q → n ∉ names c → q.get? n = p.get? n := by
    intro p c q n hq hn
    obtain rfl := Option.some.inj hq
    exact hstep p c n hn
  obtain ⟨p', q', hq', hget, hfold⟩ := Payload.foldlM_of_mem hkeeps hnodup hc hn hrun
  obtain rfl := Option.some.inj hq'
  exact ⟨p', hget, hfold⟩

end PureFold

/-- A payload does not touch the fields it does not name. -/
theorem Record.write_fields_of_none {p : Payload} {n : String} (h : p.get? n = none)
    (r : Record) : (r.write p).fields n = r.fields n := by
  simp only [Record.write, h, Option.getD_none]

/-- A field that the payload names holds the payload's cell after the write. -/
theorem Record.write_fields_of_some {p : Payload} {n : String} {cell : Cell}
    (h : p.get? n = some cell) (r : Record) : (r.write p).fields n = cell := by
  simp only [Record.write, h, Option.getD_some]

/-! ### Collections -/

/-- A field of a collection; `collectionId` is set for relations. -/
structure Field where
  name : String
  type : PbType
  required : Bool
  collectionId : Option ℕ
  deriving DecidableEq, Repr

/-- A collection, without its records. -/
structure Collection where
  id : ℕ
  name : String
  fields : List Field
  indexes : List String
  deriving DecidableEq, Repr

/-- Under which key a server takes and returns the fields of a collection: `fields` in the
newer versions, `schema` in the older ones. -/
inductive SchemaKey where
  | fields
  | schema
  deriving DecidableEq, Repr

/-- What differs between PocketBase servers: the key of the field list, whether a collection may
be created without fields, and the form in which an index statement is stored. -/
structure PbServer where
  schemaKey : SchemaKey
  bareAllowed : Bool
  canonicalIndex : String → String

/-- A server of the older kind, which keeps index statements as they are sent. -/
def schemaServer : PbServer := ⟨.schema, false, id⟩

/-- The state of PocketBase. Names of collections and ids are unique, and the counter is ahead
of every id it has handed out. -/
structure PocketBase where
  server : PbServer
  collections : List Collection
  records : String → List Record
  nextId : ℕ
  names_nodup : (collections.map Collection.name).Nodup
  collectionIds_nodup : (collections.map Collection.id).Nodup
  collectionIds_lt : ∀ c ∈ collections, c.id < nextId
  ids_nodup : ∀ name, ((records name).map Record.id).Nodup
  ids_lt : ∀ name, ∀ r ∈ records name, r.id < nextId

namespace PocketBase

/-- The collection of a name, if there is one. -/
def collection? (pb : PocketBase) (name : String) : Option Collection :=
  pb.collections.find? fun c => c.name = name

/-- Whether a collection has a field. -/
def hasField (pb : PocketBase) (name field : String) : Bool :=
  (pb.collection? name).any fun c => c.fields.any fun f => f.name = field

/-- The part of a payload a collection stores. -/
def accepted (pb : PocketBase) (name : String) (p : Payload) : Payload :=
  p.filter fun x => pb.hasField name x.1

/-- The collection of a plan has every field the plan writes. -/
def Carries (pb : PocketBase) (plan : TablePlan) : Prop :=
  ∀ field ∈ plan.fieldNames, pb.hasField plan.pbCollection field = true

/-- The record a create makes of a payload. -/
def newRecord (pb : PocketBase) (name : String) (p : Payload) : Record :=
  (⟨pb.nextId, fun _ => .empty⟩ : Record).write (pb.accepted name p)

/-- One more record in a collection, with an id of its own. -/
def addRecord (pb : PocketBase) (name : String) (p : Payload) : PocketBase :=
  { pb with
    records := Function.update pb.records name (pb.records name ++ [pb.newRecord name p])
    nextId := pb.nextId + 1
    collectionIds_lt := fun c hc => Nat.lt_succ_of_lt (pb.collectionIds_lt c hc)
    ids_nodup := by
      refine (Function.forall_update_iff pb.records fun _ l => (l.map Record.id).Nodup).mpr
        ⟨?_, fun n _ => pb.ids_nodup n⟩
      rw [List.map_append, List.nodup_append]
      refine ⟨pb.ids_nodup name, List.nodup_singleton _, fun i hi j hj => ?_⟩
      obtain ⟨r, hr, rfl⟩ := List.mem_map.mp hi
      obtain rfl := List.mem_singleton.mp hj
      exact (pb.ids_lt name r hr).ne
    ids_lt := by
      refine (Function.forall_update_iff pb.records fun _ l => ∀ r ∈ l, r.id < pb.nextId + 1).mpr
        ⟨fun r hr => ?_, fun n _ r hr => Nat.lt_succ_of_lt (pb.ids_lt n r hr)⟩
      rcases List.mem_append.mp hr with hr | hr
      · exact Nat.lt_succ_of_lt (pb.ids_lt name r hr)
      · obtain rfl := List.mem_singleton.mp hr
        exact Nat.lt_succ_self pb.nextId }

/-- One record of a collection overwritten with a payload. -/
def editRecord (pb : PocketBase) (name : String) (id : RecordId) (p : Payload) : PocketBase :=
  { pb with
    records := Function.update pb.records name
      (modifyAt Record.id id (fun r => r.write (pb.accepted name p)) (pb.records name))
    ids_nodup := by
      refine (Function.forall_update_iff pb.records fun _ l => (l.map Record.id).Nodup).mpr
        ⟨?_, fun n _ => pb.ids_nodup n⟩
      rw [map_modifyAt fun r _ _ => Record.write_id r _]
      exact pb.ids_nodup name
    ids_lt := by
      refine (Function.forall_update_iff pb.records fun _ l => ∀ r ∈ l, r.id < pb.nextId).mpr
        ⟨fun r hr => ?_, fun n _ r hr => pb.ids_lt n r hr⟩
      rcases mem_modifyAt.mp hr with ⟨hr, -⟩ | ⟨r₀, hr₀, -, rfl⟩
      · exact pb.ids_lt name r hr
      · exact pb.ids_lt name r₀ hr₀ }

/-- One more collection, under a name that is not taken. -/
def addCollection (pb : PocketBase) (name : String) (fields : List Field)
    (h : ∀ c ∈ pb.collections, c.name ≠ name) : PocketBase :=
  { pb with
    collections := pb.collections ++ [⟨pb.nextId, name, fields, []⟩]
    nextId := pb.nextId + 1
    names_nodup := by
      rw [List.map_append, List.nodup_append]
      refine ⟨pb.names_nodup, List.nodup_singleton _, fun n hn n' hn' => ?_⟩
      obtain ⟨c, hc, rfl⟩ := List.mem_map.mp hn
      obtain rfl := List.mem_singleton.mp hn'
      exact h c hc
    collectionIds_nodup := by
      rw [List.map_append, List.nodup_append]
      refine ⟨pb.collectionIds_nodup, List.nodup_singleton _, fun i hi j hj => ?_⟩
      obtain ⟨c, hc, rfl⟩ := List.mem_map.mp hi
      obtain rfl := List.mem_singleton.mp hj
      exact (pb.collectionIds_lt c hc).ne
    collectionIds_lt := by
      intro c hc
      rcases List.mem_append.mp hc with hc | hc
      · exact Nat.lt_succ_of_lt (pb.collectionIds_lt c hc)
      · obtain rfl := List.mem_singleton.mp hc
        exact Nat.lt_succ_self pb.nextId
    ids_lt := fun n r hr => Nat.lt_succ_of_lt (pb.ids_lt n r hr) }

/-- The collection of an id with another list of fields and another list of indexes. -/
def editCollection (pb : PocketBase) (id : ℕ) (fields : List Field → List Field)
    (indexes : List String → List String) : PocketBase :=
  { pb with
    collections := modifyAt Collection.id id
      (fun c => { c with fields := fields c.fields, indexes := indexes c.indexes }) pb.collections
    names_nodup := by
      rw [map_modifyAt]
      · exact pb.names_nodup
      · exact fun c _ _ => rfl
    collectionIds_nodup := by
      rw [map_modifyAt]
      · exact pb.collectionIds_nodup
      · exact fun c _ _ => rfl
    collectionIds_lt := by
      intro c hc
      rcases mem_modifyAt.mp hc with ⟨hc, -⟩ | ⟨c₀, hc₀, -, rfl⟩
      · exact pb.collectionIds_lt c hc
      · exact pb.collectionIds_lt c₀ hc₀ }

/-- Nothing is stored: the server has no collection and no record. -/
structure Empty (pb : PocketBase) : Prop where
  collections : pb.collections = []
  records : ∀ name, pb.records name = []

/-- Of a payload those values are stored whose fields the collection has. -/
theorem accepted_get? (pb : PocketBase) (name : String) (p : Payload) (n : String) :
    (pb.accepted name p).get? n = if pb.hasField name n then p.get? n else none :=
  Payload.get?_filter (pb.hasField name) p n

/-- A collection of the list is found under its name. -/
theorem collection?_of_mem {pb : PocketBase} {c : Collection} (h : c ∈ pb.collections) :
    pb.collection? c.name = some c := by
  rw [collection?]
  rcases hf : pb.collections.find? (fun c' => c'.name = c.name) with - | c'
  · exact absurd (List.find?_eq_none.mp hf c h) (by simp)
  · have hn : c'.name = c.name := by simpa using List.find?_some hf
    rw [hf, List.inj_on_of_nodup_map pb.names_nodup (List.mem_of_find?_eq_some hf) h hn]

/-- A collection that is found is one of the list, and has the name asked for. -/
theorem mem_of_collection? {pb : PocketBase} {name : String} {c : Collection}
    (h : pb.collection? name = some c) : c ∈ pb.collections ∧ c.name = name :=
  ⟨List.mem_of_find?_eq_some h, by simpa using List.find?_some h⟩

/-- A collection of the list has the fields that it lists. -/
theorem hasField_of_mem {pb : PocketBase} {c : Collection} (h : c ∈ pb.collections)
    (field : String) : pb.hasField c.name field = c.fields.any fun f => f.name = field := by
  rw [hasField, collection?_of_mem h, Option.any_some]

/-- The fields depend on the collections only. -/
theorem hasField_of_collections {pb pb' : PocketBase} (h : pb'.collections = pb.collections)
    (name : String) : pb'.hasField name = pb.hasField name := by
  funext field
  rw [hasField, hasField, collection?, collection?, h]

/-- Only a collection that exists has fields. -/
theorem collection?_isSome_of_hasField {pb : PocketBase} {name field : String}
    (h : pb.hasField name field = true) : (pb.collection? name).isSome = true := by
  rw [hasField] at h
  rcases hc : pb.collection? name with - | c
  · rw [hc] at h
    exact absurd h (by simp)
  · rfl

/-- The collection of a plan it carries exists. -/
theorem Carries.isSome {pb : PocketBase} {plan : TablePlan} (h : pb.Carries plan) :
    (pb.collection? plan.pbCollection).isSome = true :=
  collection?_isSome_of_hasField (h "old_id" List.mem_cons_self)

end PocketBase

/-- After a write a field holds the payload's cell if the collection has the field and the payload
sets it, else what it held before. -/
theorem write_accepted_fields (pb : PocketBase) (name : String) (p : Payload) (r : Record)
    (n : String) : (r.write (pb.accepted name p)).fields n =
      if pb.hasField name n then (p.get? n).getD (r.fields n) else r.fields n := by
  simp only [Record.write, PocketBase.accepted_get?]
  split <;> rfl

/-- A PocketBase that has just been installed. -/
def PocketBase.installed (server : PbServer) : PocketBase where
  server := server
  collections := []
  records := fun _ => []
  nextId := 0
  names_nodup := List.nodup_nil
  collectionIds_nodup := List.nodup_nil
  collectionIds_lt := fun _ h => absurd h List.not_mem_nil
  ids_nodup := fun _ => List.nodup_nil
  ids_lt := fun _ _ h => absurd h List.not_mem_nil

/-- A server that has just been installed has no collections. -/
theorem PocketBase.installed_empty (server : PbServer) : (installed server).Empty :=
  ⟨rfl, fun _ => rfl⟩

/-- PocketBase, and the last payload the first pass wrote to each record. -/
structure World where
  pb : PocketBase
  lastPayload : String → RecordId → Option Payload

/-- The world before the first migration. -/
def World.initial (server : PbServer) : World := ⟨.installed server, fun _ _ => none⟩

/-! ### Calls -/

/-- The three ways `createCollection` tries to create a collection. -/
inductive CreateMode where
  | fields
  | schema
  | bare
  deriving DecidableEq, Repr

/-- The calls of one migration run, by their place in the program. `table` is the source table
being migrated, and `label` says for which purpose a map of old ids is built. -/
inductive Call where
  | listCollections
  | listCollectionsPage (page : ℕ)
  | createCollection (mode : CreateMode) (name : String)
  | updateFields (name : String)
  | addField (name field : String)
  | updateIndexes (name : String)
  | getCollection (name : String)
  | fetchOrdered (table : String) (start : ℕ)
  | fetchUnordered (table : String) (start : ℕ)
  | mapPage (table label : String) (page : ℕ)
  | writeRow (table : String) (index : ℕ)
  | listRecords (table : String) (page : ℕ)
  | patchRecord (table : String) (id : RecordId)
  deriving DecidableEq, Repr

/-- The fate of every call of a run. -/
abbrev Oracle := Call → Fate

/-- Every call is answered, as in a run without failures. -/
def allOk : Oracle := fun _ => .ok

/-- The calls in `fails` fail, the others are answered; the process survives. -/
def failing (fails : Call → Bool) : Oracle := fun c => if fails c then .fail else .ok

/-- The run is not interrupted: calls may fail, but none ends the process. -/
def Oracle.Uninterrupted (o : Oracle) : Prop := ∀ c, o c ≠ .crash

/-- Where every call is answered nothing interrupts the script. -/
theorem allOk_uninterrupted : allOk.Uninterrupted := fun _ h => by cases h

/-- Calls that fail are caught, so they do not interrupt the script. -/
theorem failing_uninterrupted (fails : Call → Bool) : (failing fails).Uninterrupted := by
  intro c h
  rw [failing] at h
  split at h <;> cases h

/-- `BATCH_SIZE` and the number of records PocketBase puts on a page. The script checks the
first; the server replaces a page size it does not accept by a positive one of its own. -/
structure Config where
  batchSize : ℕ
  pageSize : ℕ
  batchSize_pos : 0 < batchSize
  pageSize_pos : 0 < pageSize

/-- The default of `BATCH_SIZE` is positive. -/
theorem defaultBatchSize_pos : 0 < 1000 := by omega

/-! ### The source -/

/-- A row of a source table, as the JSON object of a response. -/
abbrev Row := List (String × Value)

/-- `row[column]`; `none` is `undefined`. -/
def Row.get (row : Row) (column : String) : Option Value := row.lookup column

/-- A source table: its rows in primary-key order, the order in which an unordered query for the
range from `i` sees them, and the largest number of rows of a response. -/
structure SourceTable where
  rows : List Row
  unordered : ℕ → List Row
  unordered_perm : ∀ i, (unordered i).Perm rows
  maxRows : ℕ
  maxRows_pos : 0 < maxRows

/-- A range query over an order of the rows, both ends included. -/
def SourceTable.range (src : SourceTable) (order : List Row) (start stop : ℕ) : List Row :=
  (order.drop start).take (min (stop + 1 - start) src.maxRows)

/-- A source table that sees its rows in one order and answers with up to 1000 of them. -/
def SourceTable.ofRows (rows : List Row) : SourceTable where
  rows := rows
  unordered := fun _ => rows
  unordered_perm := fun _ => List.Perm.refl rows
  maxRows := 1000
  maxRows_pos := by decide

/-- The source tables by name, as the pages of the first pass read them. -/
abbrev Source := String → SourceTable

/-! ### The record calls of PocketBase -/

/-- The answer of `getList`: one page of the items and the number of pages. -/
structure ListResult (α : Type) where
  items : List α
  totalPages : ℕ

namespace World

/-- The records of a collection, in the order the server lists them. -/
def records (w : World) (name : String) : List Record := w.pb.records name

/-- `getList`: a page of the records of a collection, `none` if the collection is missing. -/
def getList (name : String) (size p : ℕ) (w : World) : Option (ListResult Record × World) :=
  if (w.pb.collection? name).isSome then
    some (⟨page size p (w.records name), totalPages size (w.records name).length⟩, w)
  else none

/-- The world with one more record. -/
def addRecord (name : String) (p : Payload) (w : World) : World :=
  { w with pb := w.pb.addRecord name p }

/-- The world with one record overwritten. -/
def editRecord (name : String) (id : RecordId) (p : Payload) (w : World) : World :=
  { w with pb := w.pb.editRecord name id p }

/-- Remember a payload of the first pass. -/
def noteWrite (name : String) (id : RecordId) (p : Payload) (w : World) : World :=
  let noted := Function.update (w.lastPayload name) id (some p)
  { w with lastPayload := Function.update w.lastPayload name noted }

/-- `create`, answered with the id of the new record. -/
def create (name : String) (p : Payload) (w : World) : Option (RecordId × World) :=
  if (w.pb.collection? name).isSome then some (w.pb.nextId, w.addRecord name p) else none

/-- `update`; an unknown id is rejected. -/
def update (name : String) (id : RecordId) (p : Payload) (w : World) : Option (Unit × World) :=
  if (w.pb.collection? name).isSome ∧ ∃ r ∈ w.records name, r.id = id then
    some ((), w.editRecord name id p)
  else none

/-! ### What the calls leave alone -/

/-- Noting a payload in the log of writes changes no record. -/
@[simp] theorem noteWrite_records (name : String) (id : RecordId) (p : Payload) (w : World)
    (n : String) : (w.noteWrite name id p).records n = w.records n := rfl

/-- The payload that was noted last is the one that is remembered. -/
theorem noteWrite_lastPayload_self (name : String) (id : RecordId) (p : Payload) (w : World) :
    (w.noteWrite name id p).lastPayload name id = some p := by
  simp only [noteWrite, Function.update_self]

/-- Noting a payload in one collection changes nothing about the others. -/
theorem noteWrite_lastPayload_of_ne {name n : String} (h : n ≠ name) (id : RecordId) (p : Payload)
    (w : World) : (w.noteWrite name id p).lastPayload n = w.lastPayload n := by
  simp only [noteWrite, Function.update_of_ne h]

/-- Noting a payload of one record changes nothing about the others. -/
theorem noteWrite_lastPayload_of_id_ne {id i : RecordId} (h : i ≠ id) (name : String)
    (p : Payload) (w : World) :
    (w.noteWrite name id p).lastPayload name i = w.lastPayload name i := by
  simp only [noteWrite, Function.update_self, Function.update_of_ne h]

/-- A new record is the last one of its collection. -/
theorem addRecord_records_self (name : String) (p : Payload) (w : World) :
    (w.addRecord name p).records name = w.records name ++ [w.pb.newRecord name p] :=
  Function.update_self ..

/-- A new record is in no other collection. -/
theorem addRecord_records_of_ne {name n : String} (h : n ≠ name) (p : Payload) (w : World) :
    (w.addRecord name p).records n = w.records n :=
  Function.update_of_ne h ..

/-- An update writes what the server accepts to the record with the id. -/
theorem editRecord_records_self (name : String) (id : RecordId) (p : Payload) (w : World) :
    (w.editRecord name id p).records name =
      modifyAt Record.id id (fun r => r.write (w.pb.accepted name p)) (w.records name) :=
  Function.update_self ..

/-- An update leaves the other collections as they are. -/
theorem editRecord_records_of_ne {name n : String} (h : n ≠ name) (id : RecordId) (p : Payload)
    (w : World) : (w.editRecord name id p).records n = w.records n :=
  Function.update_of_ne h ..

/-- A read changes nothing, and a page that is returned is the page asked for. -/
theorem call_getList_spec (fate : Fate) (name : String) (size p : ℕ) (w₀ : World) :
    Script.Triple (fun w => w = w₀) (Script.call fate (getList name size p))
      (fun r w => w = w₀ ∧ ∀ list, r = some list →
        list = ⟨page size p (w₀.records name), totalPages size (w₀.records name).length⟩)
      (fun w => w = w₀) := by
  refine Script.Triple.call ?_ (fun w hw => ⟨hw, fun _ h => absurd h (by simp)⟩) fun w hw => hw
  rintro w list w' rfl h
  rw [getList] at h
  split at h
  · obtain ⟨rfl, rfl⟩ := Prod.mk.inj (Option.some.inj h)
    exact ⟨rfl, fun list h => (Option.some.inj h).symm⟩
  · exact absurd h (by simp)

end World

end Mogo
