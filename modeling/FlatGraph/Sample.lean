import FlatGraph.Model.Schema

/-!
# A sample domain

A small cast of characters: persons in the keyspace `persons`, among them the subtype `TaVeren`,
with their addresses and measurements inside them, and the locations they refer to. Together the
types use every scalar type and every shape of property.
-/

namespace FlatGraph.Sample

/-! ## Types -/

/-- The declaration of a person. -/
def person : Schema.Entity where
  name := "Person"
  keyspace := some "persons"
  properties := [
    { name := "id", type := "text", id := true },
    { name := "firstname", type := "text", indexed := true },
    { name := "lastname", type := "text" },
    { name := "gender", type := "Gender" },
    { name := "age", type := "int32" },
    { name := "alive", type := "bool" },
    { name := "birthdate", type := "date" },
    { name := "nicknames", type := "text", shape := .list },
    { name := "coworkers", type := "Person", shape := .list },
    { name := "address", type := "Address" },
    { name := "measurements", type := "Measurements" },
    { name := "physicalAttributes", type := "text", shape := .map },
    { name := "relatives", type := "Person", shape := .map },
    { name := "location", type := "Location", reference := true },
    { name := "visited", type := "Location", shape := .list, reference := true }]

/-- The declaration of measurements, which hold all kinds of numbers. -/
def measured : Schema.Entity where
  name := "Measurements"
  properties := [
    { name := "height", type := "int16" },
    { name := "shoeSize", type := "int8" },
    { name := "heartbeats", type := "int64" },
    { name := "weight", type := "float32" },
    { name := "bodyFat", type := "float64" },
    { name := "signature", type := "bytes" },
    { name := "splits", type := "float32", shape := .list },
    { name := "laps", type := "float32", shape := .map, key := some "int16" }]

/-- The schema of the domain. -/
def schema : Schema where
  enums := [⟨"Gender", ["MALE", "FEMALE"]⟩]
  entities := [
    person,
    { name := "TaVeren", parent := some "Person",
      properties := [{ name := "feature", type := "text" }] },
    { name := "Address",
      properties := [{ name := "city", type := "text" }, { name := "country", type := "text" }] },
    { name := "AddressWithPostcode", parent := some "Address",
      properties := [{ name := "postcode", type := "text" }] },
    measured,
    { name := "Location", keyspace := some "locations",
      properties := [
        { name := "id", type := "text", id := true },
        { name := "name", type := "text" }] }]

/-- The registry of the domain. -/
def registry : Except Error Registry := Registry.ofSchema schema

/-! ## Objects -/

/-- An object with texts in its fields. -/
def texts (type : String) (fields : List (String × String)) : Object :=
  ⟨type, fields.map fun f => (f.1, .text f.2)⟩

/-- A person with an id and a first name. -/
def personNamed (id firstname : String) : Object :=
  texts "Person" [("id", id), ("firstname", firstname)]

/-- The first person. -/
def rand : Object := (personNamed "1" "rand").set "lastname" (.text "al'thor")

/-- The second person, of the subtype. -/
def mat : Object :=
  texts "TaVeren" [("id", "2"), ("firstname", "mat"), ("lastname", "cauthon"),
    ("feature", "foxhead medallion")]

/-- The third person. -/
def egwene : Object :=
  ((personNamed "3" "egwene").set "lastname" (.text "al'vere")).set "gender" (.enum "FEMALE")

/-- An address. -/
def address (city country : String) : Object :=
  texts "Address" [("city", city), ("country", country)]

/-- An address with a postcode. -/
def addressWithPostcode (city country postcode : String) : Object :=
  texts "AddressWithPostcode" [("city", city), ("country", country), ("postcode", postcode)]

/-- A location. -/
def location (id name : String) : Object := texts "Location" [("id", id), ("name", name)]

/-- The value of a fraction. -/
def fraction (num den : Nat) : Value := .float (.ofRatio false num den)

/-- Measurements with a value for each property. -/
def measurements : Object where
  type := "Measurements"
  fields := [
    ("height", .integer 183),
    ("shoeSize", .integer 45),
    ("heartbeats", .integer 3000000000),
    ("weight", fraction 169 2),
    ("bodyFat", fraction 1 8),
    ("signature", .bytes [0, 159, 146, 150]),
    ("splits", .list [fraction 245 4, fraction 119 2]),
    ("laps", .map [(.integer 1, fraction 245 4), (.integer (-2), fraction 1 2)])]

/-- Half past ten on 25 November 1978. -/
def birthdate : Calendar.Instant :=
  ⟨280837800, 0, by decide, by decide, by decide, by decide⟩

/-- The first person with a birthdate, nicknames and attributes. -/
def randWith (a b c : String) : Object :=
  ((rand.set "birthdate" (.date birthdate)).set "nicknames" (.list [.text a, .text b])).set
    "physicalAttributes" (.map [(.text a, .text b), (.text b, .text c)])

end FlatGraph.Sample
