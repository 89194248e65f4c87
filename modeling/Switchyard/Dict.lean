/-
  Switchyard.Dict — finite maps keyed by text, held as the list of their entries in
  key order.

  Keys are compared by code point, which is also the order of their UTF-8 bytes, so
  every listing of a map is in one fixed order. `insert` keeps the order and replaces
  the entry of an equal key; `merge` overwrites the left map with the right one.

  A look-up after an update is told by `get?_insert_self`, `get?_insert_of_ne`,
  `get?_erase_self` and `get?_erase_of_ne`; none of them needs the entries to be in
  order, so they hold of maps read from anywhere.
-/

namespace Switchyard

/-- A finite map from text, as its entries in key order. -/
structure Dict (α : Type u) where
  entries : List (String × α)
  deriving Repr

namespace Dict

variable {α : Type u} {β : Type v}

def empty : Dict α := ⟨[]⟩

instance : Inhabited (Dict α) := ⟨empty⟩

instance : EmptyCollection (Dict α) := ⟨empty⟩

/-- Put an entry before the first greater key, in place of an equal one. -/
def insertEntry (k : String) (v : α) : List (String × α) → List (String × α)
  | [] => [(k, v)]
  | (key, w) :: rest =>
    if k = key then (k, v) :: rest
    else if k < key then (k, v) :: (key, w) :: rest
    else (key, w) :: insertEntry k v rest

def insert (d : Dict α) (k : String) (v : α) : Dict α := ⟨insertEntry k v d.entries⟩

def findEntry (k : String) : List (String × α) → Option α
  | [] => none
  | (key, v) :: rest => if k = key then some v else findEntry k rest

def get? (d : Dict α) (k : String) : Option α := findEntry k d.entries

def contains (d : Dict α) (k : String) : Bool := (d.get? k).isSome

def erase (d : Dict α) (k : String) : Dict α := ⟨d.entries.filter fun e => e.1 ≠ k⟩

def modify (d : Dict α) (k : String) (f : α → α) : Dict α :=
  match d.get? k with
  | some v => d.insert k (f v)
  | none => d

/-- Every entry of `other` written over `d`. -/
def merge (d other : Dict α) : Dict α :=
  other.entries.foldl (fun acc e => acc.insert e.1 e.2) d

/-- A map from entries in any order; of two entries with one key the later stays. -/
def ofList (entries : List (String × α)) : Dict α :=
  entries.foldl (fun acc e => acc.insert e.1 e.2) empty

def keys (d : Dict α) : List String := d.entries.map (·.1)

def values (d : Dict α) : List α := d.entries.map (·.2)

def size (d : Dict α) : Nat := d.entries.length

def isEmpty (d : Dict α) : Bool := d.entries.isEmpty

def map (f : α → β) (d : Dict α) : Dict β := ⟨d.entries.map fun e => (e.1, f e.2)⟩

/-! ## What a look-up sees after an update -/

theorem findEntry_insertEntry_self (k : String) (v : α) (es : List (String × α)) :
    findEntry k (insertEntry k v es) = some v := by
  induction es with
  | nil => simp [insertEntry, findEntry]
  | cons e rest ih =>
    obtain ⟨key, w⟩ := e
    simp only [insertEntry]
    split
    · simp [findEntry]
    · next hk =>
      split
      · simp [findEntry]
      · simp [findEntry, hk, ih]

theorem findEntry_insertEntry_of_ne {k j : String} (h : j ≠ k) (v : α) (es : List (String × α)) :
    findEntry j (insertEntry k v es) = findEntry j es := by
  induction es with
  | nil => simp [insertEntry, findEntry, h]
  | cons e rest ih =>
    obtain ⟨key, w⟩ := e
    simp only [insertEntry]
    split
    · next hk => subst hk; simp [findEntry, h]
    · split
      · simp [findEntry, h]
      · by_cases hj : j = key <;> simp [findEntry, hj, ih]

@[simp] theorem get?_insert_self (d : Dict α) (k : String) (v : α) : (d.insert k v).get? k = some v :=
  findEntry_insertEntry_self k v d.entries

theorem get?_insert_of_ne (d : Dict α) {k j : String} (h : j ≠ k) (v : α) : (d.insert k v).get? j = d.get? j :=
  findEntry_insertEntry_of_ne h v d.entries

@[simp] theorem get?_erase_self (d : Dict α) (k : String) : (d.erase k).get? k = none := by
  obtain ⟨es⟩ := d
  induction es with
  | nil => rfl
  | cons e rest ih =>
    obtain ⟨key, w⟩ := e
    simp only [erase, get?] at ih ⊢
    by_cases hk : key = k
    · simpa [List.filter, hk] using ih
    · have : k ≠ key := fun h => hk h.symm
      simpa [List.filter, hk, findEntry, this] using ih

theorem get?_erase_of_ne (d : Dict α) {k j : String} (h : j ≠ k) : (d.erase k).get? j = d.get? j := by
  obtain ⟨es⟩ := d
  induction es with
  | nil => rfl
  | cons e rest ih =>
    obtain ⟨key, w⟩ := e
    simp only [erase, get?] at ih ⊢
    by_cases hk : key = k
    · have hj : j ≠ key := fun e => h (e.trans hk)
      simpa [List.filter, hk, findEntry, h] using ih
    · by_cases hj : j = key <;> simp_all [List.filter, findEntry]

end Dict

end Switchyard
