/-!
# Lists by key

Lists thinned out to the first item for each key, and lists in which an item is changed where it
stands or added at the end.
-/

namespace TableGraph

section

variable {α β : Type} [DecidableEq β]

/-- The first item for each key that has not been seen. -/
def distinctFrom (key : α → β) (seen : List β) : List α → List α
  | [] => []
  | x :: xs =>
    if key x ∈ seen then distinctFrom key seen xs
    else x :: distinctFrom key (key x :: seen) xs

/-- The first item for each key. -/
def distinctBy (key : α → β) (xs : List α) : List α := distinctFrom key [] xs

end

section

variable {α : Type}

/-- Changes the first item with the property, or adds a new one, changed, at the end. -/
def upsert (found : α → Bool) (new : α) (change : α → α) : List α → List α
  | [] => [change new]
  | x :: xs => if found x then change x :: xs else x :: upsert found new change xs

/-- Changes the first item with the property, if there is one. -/
def updateFirst (found : α → Bool) (change : α → α) : List α → List α
  | [] => []
  | x :: xs => if found x then change x :: xs else x :: updateFirst found change xs

end

end TableGraph
