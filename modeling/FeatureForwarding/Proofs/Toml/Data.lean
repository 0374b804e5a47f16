import FeatureForwarding.Proofs.Toml.Entries

/-! The data of a document, apart from how it is laid out: a table is its members in order, however it
came about and wherever it is written, and an array of tables is a list. Where the order of keys does
not matter either, a table is known by what stands under each name. -/

namespace FeatureForwarding.Toml

inductive Datum where
  | text (content : String)
  | boolean (value : Bool)
  | integer (spelling : String)
  | float (spelling : String)
  | dateTime (spelling : String)
  | list (elements : List Datum)
  | table (members : List (String × Datum))

def Scalar.data : Scalar → Datum
  | .text content _ => .text content
  | .boolean value => .boolean value
  | .integer spelling => .integer spelling
  | .float spelling => .float spelling
  | .dateTime spelling => .dateTime spelling

namespace Value

mutual

def data : Value → Datum
  | .scalar _ content => content.data
  | .array _ elements _ _ => .list (dataAll elements)
  | .inline _ _ _ entries => .table (dataIn entries)
  termination_by structural v => v

def dataAll : List Value → List Datum
  | [] => []
  | v :: vs => data v :: dataAll vs
  termination_by structural vs => vs

def dataIn : List (Key × Value) → List (String × Datum)
  | [] => []
  | (key, v) :: rest => (key.name, data v) :: dataIn rest
  termination_by structural entries => entries

end

end Value

mutual

def Item.data : Item → Datum
  | .value v => v.data
  | .table t => .table (Table.data t)
  | .tables ts => .list (Table.dataAll ts)
  termination_by structural item => item

/-- The members of the table. -/
def Table.data : Table → List (String × Datum)
  | ⟨_, _, _, entries⟩ => Item.dataIn entries
  termination_by structural t => t

def Table.dataAll : List Table → List Datum
  | [] => []
  | t :: ts => .table (Table.data t) :: Table.dataAll ts
  termination_by structural ts => ts

def Item.dataIn : List (Key × Item) → List (String × Datum)
  | [] => []
  | (key, item) :: rest => (key.name, Item.data item) :: Item.dataIn rest
  termination_by structural entries => entries

end

theorem Value.dataAll_eq_map (vs : List Value) : dataAll vs = vs.map data := by
  induction vs with
  | nil => rfl
  | cons v vs ih => rw [dataAll, ih, List.map_cons]

theorem Value.dataIn_eq_map (entries : List (Key × Value)) :
    dataIn entries = entries.map fun (key, v) => (key.name, v.data) := by
  induction entries with
  | nil => rfl
  | cons entry entries ih => rw [dataIn, ih, List.map_cons]

theorem Table.dataAll_eq_map (ts : List Table) : dataAll ts = ts.map fun t => .table t.data := by
  induction ts with
  | nil => rfl
  | cons t ts ih => rw [dataAll, ih, List.map_cons]

theorem Item.dataIn_eq_map (entries : List (Key × Item)) :
    dataIn entries = entries.map fun (key, item) => (key.name, item.data) := by
  induction entries with
  | nil => rfl
  | cons entry entries ih => rw [dataIn, ih, List.map_cons]

theorem Table.data_withEntries (t : Table) (entries : List (Key × Item)) :
    (t.withEntries entries).data = Item.dataIn entries := by
  rw [withEntries, Table.data]

theorem Table.data_eq (t : Table) : t.data = Item.dataIn t.entries := by
  cases t
  rw [Table.data]

@[simp] theorem Value.data_withDecor (d : Decor) (v : Value) : (v.withDecor d).data = v.data := by
  cases v <;> simp [withDecor, data]

/-! ### Look-ups -/

section

variable {α : Type}

theorem lookup_map_find? (g : α → Datum) (name : String) (entries : List (Key × α)) :
    (entries.map fun (key, content) => (key.name, g content)).lookup name =
      (find? name entries).map g := by
  induction entries with
  | nil => rfl
  | cons entry entries ih =>
    obtain ⟨key, content⟩ := entry
    rw [List.map_cons, List.lookup_cons, find?, ih]
    by_cases h : key.name = name
    · simp [h]
    · rw [if_neg h, beq_false_of_ne (Ne.symm h)]

end

theorem Value.lookup_dataIn (name : String) (entries : List (Key × Value)) :
    (dataIn entries).lookup name = (find? name entries).map data := by
  rw [dataIn_eq_map, lookup_map_find?]

theorem Item.lookup_dataIn (name : String) (entries : List (Key × Item)) :
    (dataIn entries).lookup name = (find? name entries).map data := by
  rw [dataIn_eq_map, lookup_map_find?]

/-! ### The order of keys -/

/-- Data whose tables have no order. -/
inductive Content where
  | text (content : String)
  | boolean (value : Bool)
  | integer (spelling : String)
  | float (spelling : String)
  | dateTime (spelling : String)
  | list (elements : List Content)
  | table (members : String → Option Content)

namespace Content

def text? : Content → Option String
  | .text content => some content
  | _ => none

def boolean? : Content → Option Bool
  | .boolean value => some value
  | _ => none

def members? : Content → Option (String → Option Content)
  | .table members => some members
  | _ => none

end Content

namespace Datum

mutual

def content : Datum → Content
  | .text content => .text content
  | .boolean value => .boolean value
  | .integer spelling => .integer spelling
  | .float spelling => .float spelling
  | .dateTime spelling => .dateTime spelling
  | .list elements => .list (contentAll elements)
  | .table members => .table (contentIn members)
  termination_by structural d => d

def contentAll : List Datum → List Content
  | [] => []
  | d :: ds => content d :: contentAll ds
  termination_by structural ds => ds

/-- What stands under a name; the first member of the name counts. -/
def contentIn : List (String × Datum) → String → Option Content
  | [], _ => none
  | (other, d) :: rest, name => if name = other then some (content d) else contentIn rest name
  termination_by structural members => members

end

theorem contentIn_eq_lookup (members : List (String × Datum)) (name : String) :
    contentIn members name = (members.lookup name).map content := by
  induction members with
  | nil => rfl
  | cons member rest ih =>
    obtain ⟨other, d⟩ := member
    rw [contentIn, List.lookup_cons, ih]
    by_cases h : name = other
    · simp [h]
    · rw [if_neg h, beq_false_of_ne h]

theorem contentAll_eq_map (ds : List Datum) : contentAll ds = ds.map content := by
  induction ds with
  | nil => rfl
  | cons d ds ih => rw [contentAll, ih, List.map_cons]

def text? : Datum → Option String
  | .text content => some content
  | _ => none

def members? : Datum → Option (List (String × Datum))
  | .table members => some members
  | _ => none

/-- The texts in a list. -/
def texts : Datum → List String
  | .list elements => elements.filterMap text?
  | _ => []

/-- What is in the table under a name. -/
def inside (name : String) (members : List (String × Datum)) : List (String × Datum) :=
  ((members.lookup name).bind members?).getD []

theorem text?_content (d : Datum) : d.content.text? = d.text? := by
  cases d <;> simp [content, Content.text?, text?]

theorem members?_content (d : Datum) : d.content.members? = d.members?.map contentIn := by
  cases d <;> simp [content, Content.members?, members?]

end Datum

def Value.content (v : Value) : Content := v.data.content

def Item.content (item : Item) : Content := item.data.content

namespace Item

theorem text?_eq_data (item : Item) : item.text? = item.data.text? := by
  rcases item with (⟨_, content⟩ | _ | _) | _ | _
  · cases content <;> simp [text?, Value.text?, data, Value.data, Scalar.data, Datum.text?]
  all_goals simp [text?, Value.text?, data, Value.data, Datum.text?]

theorem text?_eq_content (item : Item) : item.text? = item.content.text? := by
  rw [content, Datum.text?_content, text?_eq_data]

theorem boolean?_eq_content (item : Item) : item.boolean? = item.content.boolean? := by
  rcases item with (⟨_, content⟩ | _ | _) | _ | _
  · cases content <;> simp [boolean?, content, data, Value.data, Scalar.data, Datum.content,
      Content.boolean?]
  all_goals simp [boolean?, content, data, Value.data, Datum.content, Content.boolean?]

/-- The members of a table in either form. -/
theorem dataIn_tableLike? (item : Item) : item.tableLike?.map dataIn = item.data.members? := by
  rcases item with (⟨_, content⟩ | _ | ⟨_, _, _, entries⟩) | ⟨_, _, _, entries⟩ | _
  · cases content <;> rfl
  · rfl
  · simp [tableLike?, data, Value.data, dataIn_eq_map, Value.dataIn_eq_map, Datum.members?]
  · simp [tableLike?, data, Table.data, Datum.members?]
  · rfl

theorem members?_content (item : Item) : item.content.members? =
    item.tableLike?.map fun fields name => (find? name fields).map content := by
  have hlookup (fields : List (Key × Item)) :
      Datum.contentIn (dataIn fields) = fun name => (find? name fields).map content := by
    funext name
    rw [Datum.contentIn_eq_lookup, lookup_dataIn, Option.map_map]
    rfl
  rw [content, Datum.members?_content, ← dataIn_tableLike?, Option.map_map]
  simp only [Function.comp_def, hlookup]

theorem dataIn_inside (name : String) (entries : List (Key × Item)) :
    dataIn (((find? name entries).bind tableLike?).getD []) = Datum.inside name (dataIn entries) := by
  rw [Datum.inside, lookup_dataIn]
  cases find? name entries with
  | none => rfl
  | some item =>
    rw [Option.bind_some, Option.map_some, Option.bind_some, ← dataIn_tableLike?]
    cases item.tableLike? <;> rfl

end Item

end FeatureForwarding.Toml
