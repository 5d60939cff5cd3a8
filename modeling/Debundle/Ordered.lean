/-!
# Tables in order of insertion

A table is a list of pairs with distinct keys. A key that is put again keeps its place.
-/
namespace Debundle.Ordered

variable {α β : Type} [DecidableEq α]

def get? (key : α) : List (α × β) → Option β
  | [] => none
  | (k, v) :: rest => if k = key then some v else get? key rest

def put (key : α) (value : β) : List (α × β) → List (α × β)
  | [] => [(key, value)]
  | (k, v) :: rest => if k = key then (k, value) :: rest else (k, v) :: put key value rest

/-- The table that a list of pairs gives if they are put one by one. -/
def ofList (pairs : List (α × β)) : List (α × β) :=
  pairs.foldl (fun table pair => put pair.1 pair.2 table) []

theorem get?_put (key other : α) (value : β) (table : List (α × β)) :
    get? other (put key value table) = if key = other then some value else get? other table := by
  induction table with
  | nil => simp [put, get?]
  | cons pair rest ih => grind [put, get?]

end Debundle.Ordered
