/-!
# Ordered maps

Maps as lists of pairs in the order of insertion. Inserting under a key that is there keeps its place.
-/

namespace ItemMapper.Entries

variable {α β : Type}

def get? (key : String) : List (String × α) → Option α
  | [] => none
  | (k, v) :: rest => if k = key then some v else get? key rest

def has (key : String) (entries : List (String × α)) : Bool := (get? key entries).isSome

def insert (key : String) (value : α) : List (String × α) → List (String × α)
  | [] => [(key, value)]
  | (k, v) :: rest => if k = key then (key, value) :: rest else (k, v) :: insert key value rest

def erase (key : String) : List (String × α) → List (String × α)
  | [] => []
  | (k, v) :: rest => if k = key then rest else (k, v) :: erase key rest

def keys (entries : List (String × α)) : List String := entries.map Prod.fst

def ofList (pairs : List (String × α)) : List (String × α) :=
  pairs.foldl (fun entries (k, v) => insert k v entries) []

def mapValues (f : α → β) (entries : List (String × α)) : List (String × β) := entries.map fun (k, v) => (k, f v)

theorem get?_insert (key other : String) (value : α) (entries : List (String × α)) :
    get? other (insert key value entries) = if key = other then some value else get? other entries := by
  induction entries with
  | nil => simp [insert, get?]
  | cons e rest ih =>
    by_cases h : e.1 = key <;> by_cases h' : key = other <;> simp_all [insert, get?]

theorem keys_insert_of_has (key : String) (value : α) (entries : List (String × α)) (h : has key entries = true) :
    keys (insert key value entries) = keys entries := by
  induction entries with
  | nil => simp [has, get?] at h
  | cons e rest ih =>
    by_cases he : e.1 = key <;> simp_all [insert, keys, has, get?]

end ItemMapper.Entries
