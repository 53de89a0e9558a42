/-! Key and value pairs in the order in which the keys came, one value for each key. -/
namespace Cutout.Keyed

def get? {α : Type} (fields : List (String × α)) (key : String) : Option α :=
  (fields.find? fun f => f.1 == key).map (·.2)

def has {α : Type} (fields : List (String × α)) (key : String) : Bool :=
  fields.any fun f => f.1 == key

def put {α : Type} (key : String) (value : α) : List (String × α) → List (String × α)
  | [] => [(key, value)]
  | (k, v) :: rest => if k = key then (k, value) :: rest else (k, v) :: put key value rest

section Get
variable {α : Type}

theorem getNone {fields : List (String × α)} {key : String} :
    get? fields key = none ↔ ∀ f ∈ fields, f.1 ≠ key := by
  simp [get?]

theorem getAppend (first second : List (String × α)) (key : String) :
    get? (first ++ second) key = (get? first key).or (get? second key) := by
  rw [get?, List.find?_append, Option.map_or]
  rfl

theorem getCons (k : String) (value : α) (rest : List (String × α)) (key : String) :
    get? ((k, value) :: rest) key = if k = key then some value else get? rest key := by
  by_cases same : k = key <;> simp [get?, same]

end Get

end Cutout.Keyed
