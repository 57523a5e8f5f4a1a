/-!
# Byte strings

Everything a store holds (keys, fields, members of sets) is a byte string. Byte strings are
ordered lexicographically, a proper beginning coming before its extensions.
-/

namespace FlatGraph

/-- A byte string. -/
abbrev Bytes := List UInt8

end FlatGraph
