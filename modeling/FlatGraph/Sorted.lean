/-!
# Sorted lists

Sets and maps with an order of their own are kept as ascending lists.
-/

namespace FlatGraph.Sorted

variable {α β : Type} [DecidableEq α] [LT α] [DecidableLT α]

/-- Puts a member into a set. -/
def insert (a : α) : List α → List α
  | [] => [a]
  | b :: bs => if a = b then b :: bs else if a < b then a :: b :: bs else b :: insert a bs

/-- The set of the members of a list. -/
def ofList (as : List α) : List α := as.foldl (fun bs a => insert a bs) []

/-- Puts a value at a key; the value that was there gives way. -/
def put (key : α) (value : β) : List (α × β) → List (α × β)
  | [] => [(key, value)]
  | e :: es =>
    if key = e.1 then (key, value) :: es
    else if key < e.1 then (key, value) :: e :: es
    else e :: put key value es

/-- The map of the entries of a list, of which the last one of each key counts. -/
def ofEntries (es : List (α × β)) : List (α × β) := es.foldl (fun m e => put e.1 e.2 m) []

/-- Takes a key out of a map. -/
def erase (key : α) (es : List (α × β)) : List (α × β) := es.eraseP (·.1 = key)

end FlatGraph.Sorted
