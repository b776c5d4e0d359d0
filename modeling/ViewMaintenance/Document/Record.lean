import ViewMaintenance.Document.Codec

namespace ViewMaintenance

/-- One part of a record `σ`. -/
structure Part (σ β : Type) where
  /-- The name of the field that holds the part. -/
  name : String
  get : σ → β
  form : Codec β
  /-- What the part is if it is not given. Without a default it is read as if `null` were given. -/
  default? : Option β

namespace Part

variable {σ β : Type}

/-- The field of a record that holds the part. -/
def field (p : Part σ β) (s : σ) : String × Document := (p.name, p.form.encode (p.get s))

/-- Reads the part into its slot. What is read already is not given a second time. -/
def fill (p : Part σ β) (d : Document) : Option β → Except DecodeError (Option β)
  | some _ => .error (.repeatedField p.name)
  | none => (p.form.decode d).map some

/-- The part itself, once no further field follows. -/
def close (p : Part σ β) (slot : Option β) : Except DecodeError β :=
  match slot, p.default? with
  | some b, _ => .ok b
  | none, some b => .ok b
  | none, none => (p.form.decode .null).mapError fun _ => .missingField p.name

end Part

/-- How a record is written and read: the parts of an `σ` in their order, and what is made of them
    once they are read. A record is written as an object with a field for each part. It is read from
    such an object, with its fields in any order and others between them, or from the list of its
    parts. -/
inductive Record (σ : Type) : Type → Type 1
  /-- No part is needed. -/
  | make {α : Type} (a : α) : Record σ α
  /-- One more part is needed, after all others. -/
  | part {α β : Type} (front : Record σ (β → α)) (last : Part σ β) : Record σ α

namespace Record

variable {σ : Type}

/-- Adds a part that has to be given. One that may be absent is an option, and absent if it is not
    given. -/
def field {α β : Type} [form : Codec β] (r : Record σ (β → α)) (name : String) (get : σ → β) :
    Record σ α :=
  r.part ⟨name, get, form, none⟩

/-- Adds a part that is as in a default record if it is not given. -/
def fieldD {α β : Type} [form : Codec β] (r : Record σ (β → α)) (name : String) (get : σ → β)
    (default : σ) : Record σ α :=
  r.part ⟨name, get, form, some (get default)⟩

/-- The names of the parts. -/
def names : {α : Type} → Record σ α → List String
  | _, make _ => []
  | _, part front last => front.names ++ [last.name]

/-- The fields that hold the parts. -/
def fields (s : σ) : {α : Type} → Record σ α → List (String × Document)
  | _, make _ => []
  | _, part front last => front.fields s ++ [last.field s]

/-- Writes a record. -/
def write {α : Type} (r : Record σ α) (s : σ) : Document := .object (r.fields s)

/-- A slot for each part, empty as long as the part has not been read. -/
@[reducible]
def Slots : {α : Type} → Record σ α → Type
  | _, make _ => Unit
  | _, part (β := β) front _ => front.Slots × Option β

/-- No part has been read. -/
def blank : {α : Type} → (r : Record σ α) → r.Slots
  | _, make _ => ()
  | _, part front _ => (front.blank, none)

/-- Reads a field into the slot of its name. A field without a slot is passed over. -/
def fill (name : String) (d : Document) :
    {α : Type} → (r : Record σ α) → r.Slots → Except DecodeError r.Slots
  | _, make _, slots => .ok slots
  | _, part front last, slots =>
    if name = last.name then (last.fill d slots.2).map (slots.1, ·)
    else (front.fill name d slots.1).map (·, slots.2)

/-- Puts the record together, once no further field follows. -/
def close : {α : Type} → (r : Record σ α) → r.Slots → Except DecodeError α
  | _, make a, _ => .ok a
  | _, part front last, slots => do
    let f ← front.close slots.1
    return f (← last.close slots.2)

/-- Reads fields one after another. -/
def fillAll {α : Type} (r : Record σ α) (slots : r.Slots) (fields : List (String × Document)) :
    Except DecodeError r.Slots :=
  fields.foldlM (fun slots f => r.fill f.1 f.2 slots) slots

/-- Reads a record from the fields of an object. -/
def readFields {α : Type} (r : Record σ α) (fields : List (String × Document)) :
    Except DecodeError α := do
  r.close (← r.fillAll r.blank fields)

/-- Reads the parts from the items of a list, and gives the items that are left. Only a part with a
    default may be left out at the end, and then every part after it. -/
def takeItems (whole : String) :
    {α : Type} → (r : Record σ α) → List Document → Except DecodeError (α × List Document)
  | _, make a, items => .ok (a, items)
  | _, part front last, items => do
    match ← front.takeItems whole items, last.default? with
    | (f, d :: items), _ => return (f (← last.form.decode d), items)
    | (f, []), some b => return (f b, [])
    | (_, []), none => throw (.wrongLength front.names.length whole)

/-- What is expected of a list that holds a record. -/
def counted (label : String) : Nat → String
  | 1 => s!"{label} with 1 element"
  | n => s!"{label} with {n} elements"

/-- Reads a record from the items of a list. -/
def readItems {α : Type} (r : Record σ α) (label : String) (items : List Document) :
    Except DecodeError α := do
  match ← r.takeItems (counted label r.names.length) items with
  | (a, []) => return a
  | (_, _ :: _) => throw (.wrongLength items.length "fewer elements in array")

/-- Reads a record. -/
def decode {α : Type} (r : Record σ α) (label : String) : Document → Except DecodeError α
  | .object fields => r.readFields fields
  | .list items => r.readItems label items
  | d => .error (.wrongForm d label)

/-- Reads the parts that belong to a kind. -/
def decodeKind {α : Type} (r : Record σ α) (label : String) : Option Document → Except DecodeError α
  | some (.object fields) => r.readFields fields
  | some (.list items) => r.readItems label items
  | some d => .error (.wrongForm d "struct variant")
  | none => .error .withoutFields

/-- The form of a type of records. -/
@[reducible]
def codec (r : Record σ σ) (label : String) : Codec σ := ⟨r.write, r.decode label⟩

end Record

/-- The kind of a value and what belongs to it. A value of one of several kinds is an object with a
    single field, which is named for the kind; a kind to which nothing belongs can be written as a
    text. -/
def Document.kind : Document → Except DecodeError (String × Option Document)
  | .text name => .ok (name, none)
  | .object [(name, d)] => .ok (name, some d)
  | .object _ => .error .notOneKind
  | d => .error (.wrongForm d "string or map")

/-- Reads a kind to which nothing belongs. -/
def decodeBareKind {α : Type} (value : α) : Option Document → Except DecodeError α
  | none | some .null => .ok value
  | some d => .error (.wrongForm d "unit")

end ViewMaintenance
