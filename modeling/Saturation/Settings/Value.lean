/-!
Values of settings documents. A group maps names to values in the order of the names, each name
once; arrays and lists are both sequences.
-/

set_option autoImplicit false

namespace Saturation.Settings

inductive Value where
  | null
  | bool (b : Bool)
  | int (n : Int)
  | float (x : Float)
  | str (s : String)
  | arr (items : List Value)
  | obj (fields : List (String × Value))

/-- The fields of a group, in ascending order of their names. -/
abbrev Group := List (String × Value)

instance : Inhabited Value := ⟨.null⟩

namespace Group

/-- Sets a field; a value it had before is lost. -/
def insert (key : String) (value : Value) : Group → Group
  | [] => [(key, value)]
  | (k, v) :: rest =>
    if key < k then (key, value) :: (k, v) :: rest
    else if key = k then (key, value) :: rest
    else (k, v) :: insert key value rest

def get? (key : String) : Group → Option Value
  | [] => none
  | (k, v) :: rest => if key = k then some v else get? key rest

def erase (key : String) : Group → Group
  | [] => []
  | (k, v) :: rest => if key = k then rest else (k, v) :: erase key rest

/-- The last of several fields of one name counts. -/
def ofList (fields : List (String × Value)) : Group :=
  fields.foldl (fun g f => insert f.1 f.2 g) []

@[simp] theorem get?_insert (key name : String) (value : Value) (g : Group) :
    get? name (insert key value g) = if name = key then some value else get? name g := by
  induction g with
  | nil => simp [insert, get?]
  | cons f g ih =>
    obtain ⟨k, v⟩ := f
    simp only [insert]
    split
    · simp [get?]
    · split
      · rename_i _ h
        subst h
        simp only [get?]
        split <;> simp_all
      · rename_i h
        simp only [get?, ih]
        by_cases hk : name = k
        · simp [hk, Ne.symm h]
        · simp [hk]

end Group

namespace Value

mutual

/-- What JSON holds of a value: the fields of a group in order, the last of several of one name, and
no number that is not finite. -/
def held : Value → Value
  | float x => if x.isFinite then float x else null
  | arr items => arr (heldItems items)
  | obj fields => obj (Group.ofList (heldFields fields))
  | v => v

def heldItems : List Value → List Value
  | [] => []
  | v :: vs => held v :: heldItems vs

def heldFields : List (String × Value) → List (String × Value)
  | [] => []
  | (name, v) :: rest => (name, held v) :: heldFields rest

end

mutual

/-- Equality of documents. Floats are compared as numbers, and no float equals an integer. -/
def same : Value → Value → Bool
  | null, null => true
  | bool a, bool b => a == b
  | int a, int b => a == b
  | float a, float b => a == b
  | str a, str b => a == b
  | arr a, arr b => sameItems a b
  | obj a, obj b => sameFields a b
  | _, _ => false

def sameItems : List Value → List Value → Bool
  | [], [] => true
  | a :: as, b :: bs => same a b && sameItems as bs
  | _, _ => false

def sameFields : List (String × Value) → List (String × Value) → Bool
  | [], [] => true
  | (k, a) :: as, (l, b) :: bs => k == l && same a b && sameFields as bs
  | _, _ => false

end

end Value

end Saturation.Settings
