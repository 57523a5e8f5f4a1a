import FlatGraph.Config
import FlatGraph.Convert.Read
import FlatGraph.Convert.Write
import FlatGraph.Query
import FlatGraph.Store.Change

/-!
# The repository

A repository keeps entities in a store. For a keyspace `ks` the store holds

* at `ks:<id>` the hash of the entries of the entity with this id,
* at `ks` the set of the ids of all entities,
* at `ks.<property>:<value>` the set of the ids of the entities with this value of an indexed
  property.

To delete an entity it takes its id alone: the id is taken out of every index set of the keyspace,
so that neither the record nor the index definitions have to be known. References are resolved in
the same store, one level deep: the references of an entity that was referred to are left unset.

An operation that is refused halfway keeps what it has changed, so that operations that change the
repository yield it beside their result.
-/

namespace FlatGraph

/-- Entities of registered types in a store. -/
structure Repository where
  registry : Registry
  indexes : Indexes := {}
  store : Store := {}
  /-- Whether entities without an id get one. -/
  generatesIds : Bool := true
  /-- The ids for entities without one. -/
  freshId : Nat → String
  /-- How many of these ids were given out. -/
  given : Nat := 0

namespace Repository

/-- An empty repository with the settings of a configuration. -/
def ofConfig (r : Registry) (c : Config) (freshId : Nat → String) : Repository :=
  { registry := r, indexes := c.definitions, generatesIds := c.generateIds, freshId }

/-- The result of an operation of the store as one of the repository. -/
def stored {α : Type} (x : Except StoreError α) : Except Error α := x.mapError .store

/-! ## Keys -/

/-- The key of the set of the ids of a keyspace. -/
def membersKey (keyspace : String) : Bytes := Utf8.encode keyspace

/-- The key of the hash of an entity. -/
def entityKey (keyspace id : String) : Bytes := Utf8.encode (Path.entityKey keyspace id)

/-- The key of the set of the ids with an index fragment. -/
def indexKey (keyspace fragment : String) : Bytes := Utf8.encode (Path.indexKey keyspace fragment)

/-- The keys of all index sets of a keyspace. -/
def indexKeys (s : Store) (keyspace : String) : Except Error (List Bytes) :=
  stored (s.keysFrom (Utf8.encode (Path.indexStart keyspace)))

/-! ## Loading -/

/-- The entries of a stored entity; a hash without fields holds none. -/
def entries? (s : Store) (id keyspace : String) : Except Error (Option Entries) := do
  let fields ← stored (s.fields (entityKey keyspace id))
  if fields.isEmpty then pure none else pure (some (← Record.ofRaw fields).entries)

/-- Loads the entities that others refer to. -/
def resolver (r : Registry) (s : Store) : Resolver := fun reference => do
  match ← entries? s reference.id reference.keyspace with
  | some es => (r.read .nothing reference.type es).outcome
  | none => pure none

/-- Reads an entity, with the entities it refers to out of the store. -/
def load (r : Registry) (s : Store) (type : String) (es : Entries) :
    Except Error (Option Object) :=
  (r.read (resolver r s) type es).outcome

/-- The entity with an id. -/
def get (repo : Repository) (id keyspace type : String) : Except Error (Option Object) := do
  match ← entries? repo.store id keyspace with
  | some es => load repo.registry repo.store type es
  | none => pure none

/-- Whether there is an entity with an id. -/
def contains (repo : Repository) (id keyspace : String) : Except Error Bool :=
  stored (repo.store.isMember (membersKey keyspace) (Utf8.encode id))

/-- The number of the entities of a keyspace. -/
def count (repo : Repository) (keyspace : String) : Except Error Nat :=
  stored (repo.store.card (membersKey keyspace))

/-- The entities with the given ids; those that are not there are left out. -/
def getEach (repo : Repository) (keyspace type : String) (ids : List Bytes) :
    Except Error (List Object) := do
  pure ((← ids.mapM fun id => repo.get (Utf8.lossy id) keyspace type).filterMap id)

/-- All entities of a keyspace, in ascending order of their ids. -/
def getAllOf (repo : Repository) (keyspace type : String) : Except Error (List Object) := do
  repo.getEach keyspace type (← stored (repo.store.members (membersKey keyspace)))

/-! ## Queries -/

/-- The ids of the entities with an index fragment. -/
def having (repo : Repository) (keyspace fragment : String) : Except Error (List Bytes) :=
  stored (repo.store.members (indexKey keyspace fragment))

/-- The members that all sets have in common; no sets have none. -/
def common : List (List Bytes) → List Bytes
  | [] => []
  | ids :: others => ids.filter fun id => others.all (·.contains id)

/-- The ids that a query with criteria selects, in ascending order. -/
def select (repo : Repository) (keyspace : String) (q : Query) : Except Error (List Bytes) := do
  let (allOf, anyOf) ← q.fragments
  let ids := common (← allOf.mapM (repo.having keyspace))
  let others ← anyOf.mapM (repo.having keyspace)
  pure (others.flatten.foldl (fun ids id => Sorted.insert id ids) ids)

/-- The entities that a query asks for, in ascending order of their ids; all of the keyspace, if
it has no criteria. -/
def find (repo : Repository) (keyspace type : String) (q : Query) :
    Except Error (List Object) := do
  if q.isEmpty then repo.getAllOf keyspace type
  else repo.getEach keyspace type (← repo.select keyspace q)

/-! ## Storing -/

/-- Makes changes in the store. -/
def changeAll (repo : Repository) (cs : List Change) : Except Error Unit × Repository :=
  let (result, store) := repo.store.changeAll cs
  (stored result, { repo with store })

/-- The changes that take an id out of the given index sets. -/
def unindex (keys : List Bytes) (id : String) : List Change :=
  keys.map (.removeMember · (Utf8.encode id))

/-- A record with the keyspace and the id under which it is stored. -/
structure Entity where
  keyspace : String
  id : String
  record : Record

/-- The changes that store an entity in place of the one with the same id, if there is one. -/
def replacement (s : Store) (e : Entity) : Except Error (List Change) := do
  let key := entityKey e.keyspace e.id
  let old ← if ← stored (s.isMember (membersKey e.keyspace) (Utf8.encode e.id)) then do
      pure (unindex (← indexKeys s e.keyspace) e.id ++ [.delete key])
    else pure []
  pure (old ++
    [.putFields key e.record.entries.toRaw,
      .addMember (membersKey e.keyspace) (Utf8.encode e.id)] ++
    e.record.indexKeys.map fun k => .addMember (Utf8.encode k) (Utf8.encode e.id))

/-- Stores an entity. -/
def save (repo : Repository) (e : Entity) : Except Error Unit × Repository :=
  match replacement repo.store e with
  | .error e => (.error e, repo)
  | .ok changes => repo.changeAll changes

/-- Writes an object; yields its record, and the repository with the indexes after the write. -/
def write (repo : Repository) (o : Object) : Except Error Record × Repository :=
  let (record, indexes) := repo.registry.write repo.indexes o
  (record, { repo with indexes })

/-- The property that a generated id is given to: the one that holds the id, if it is a text. -/
def generatedProperty? (repo : Repository) (type : String) : Except Error (Option Property) := do
  let t ← repo.registry.get type
  pure (if repo.generatesIds then t.idProperty?.filter (·.shape.type = .scalar .text) else none)

/-- Gives an object the next generated id. -/
def identify (repo : Repository) (o : Object) : Except Error (Object × Repository) := do
  match ← repo.generatedProperty? o.type with
  | some p =>
    pure (o.set p.name (.text (repo.freshId repo.given)), { repo with given := repo.given + 1 })
  | none => throw (.missingId o.type)

/-- The record of an object as an entity, if keyspace and id are known. -/
def entityOf (o : Object) (record : Record) : Except Error Entity :=
  match record.keyspace, record.id with
  | some keyspace, some id => .ok ⟨keyspace, id, record⟩
  | _, _ => .error (.missingId o.type)

/-- What comes of an object that is to be stored: the entity, and the object itself, which may have
got an id. -/
structure Prepared where
  entity : Except Error Entity
  object : Object
  repository : Repository

/-- Prepares an object to be stored. An object without an id gets one, if ids are generated. -/
def prepare (repo : Repository) (o : Object) : Prepared :=
  match repo.write o with
  | (.error e, repo) => ⟨.error e, o, repo⟩
  | (.ok record, repo) =>
    if record.id.isSome then ⟨entityOf o record, o, repo⟩
    else match repo.identify o with
      | .error e => ⟨.error e, o, repo⟩
      | .ok (o, repo) =>
        let (record, repo) := repo.write o
        ⟨record >>= entityOf o, o, repo⟩

/-- What comes of storing an object: its id, and the object itself, which may have got one. -/
structure Stored where
  id : Except Error String
  object : Object
  repository : Repository

/-- Stores an object in place of the one with the same id. -/
def put (repo : Repository) (o : Object) : Stored :=
  let p := repo.prepare o
  match p.entity with
  | .error e => ⟨.error e, p.object, p.repository⟩
  | .ok e =>
    let (result, repo) := p.repository.save e
    ⟨result.map fun _ => e.id, p.object, repo⟩

/-! ## Deleting -/

/-- The changes that delete an entity. -/
def removal (s : Store) (id keyspace : String) : Except Error (List Change) := do
  pure (unindex (← indexKeys s keyspace) id ++
    [.delete (entityKey keyspace id), .removeMember (membersKey keyspace) (Utf8.encode id)])

/-- Deletes an entity, and yields it as it reads then. One that no longer reads is deleted all the
same, and there is none to yield. Where the read goes on without end (`Error.endless`), the entity
is deleted, but what is yielded here stands for nothing. -/
def delete (repo : Repository) (id keyspace type : String) :
    Except Error (Option Object) × Repository :=
  match (do
    let es ← entries? repo.store id keyspace
    let there ← if es.isSome then pure true else repo.contains id keyspace
    if there then pure (some (es, ← removal repo.store id keyspace)) else pure none) with
  | .error e => (.error e, repo)
  | .ok none => (.ok none, repo)
  | .ok (some (es, changes)) =>
    match repo.changeAll changes with
    | (.error e, repo) => (.error e, repo)
    | (.ok (), repo) =>
      let read := es.bind fun es => (load repo.registry repo.store type es).toOption.join
      (.ok read, repo)

/-- The changes that delete all entities of a keyspace. -/
def removalOfAll (s : Store) (keyspace : String) : Except Error (List Change) := do
  let ids ← stored (s.members (membersKey keyspace))
  let keys ← indexKeys s keyspace
  pure (ids.map (fun id => .delete (entityKey keyspace (Utf8.lossy id))) ++
    [.delete (membersKey keyspace)] ++ keys.map .delete)

/-- Deletes all entities of a keyspace. -/
def deleteAllOf (repo : Repository) (keyspace : String) : Except Error Unit × Repository :=
  match removalOfAll repo.store keyspace with
  | .error e => (.error e, repo)
  | .ok changes => repo.changeAll changes

end Repository

end FlatGraph
