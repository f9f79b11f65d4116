/-! Lists of keys with values in which no key comes twice. -/

namespace GraphQL.Assoc

variable {α : Type}

/-- Puts a value where its key comes in a list sorted by keys. A key that is there
already takes the new value. -/
def insertSorted (key : String) (value : α) : List (String × α) → List (String × α)
  | [] => [(key, value)]
  | (other, old) :: rest =>
      if key = other then (key, value) :: rest
      else if key < other then (key, value) :: (other, old) :: rest
      else (other, old) :: insertSorted key value rest

/-- Puts a value at the end. A key that is there already keeps its place and takes
the new value. -/
def insertLast (key : String) (value : α) : List (String × α) → List (String × α)
  | [] => [(key, value)]
  | (other, old) :: rest =>
      if key = other then (key, value) :: rest
        else (other, old) :: insertLast key value rest

def find? (key : String) (entries : List (String × α)) : Option α :=
  (entries.find? (·.1 == key)).map (·.2)

end GraphQL.Assoc
