import Skippr.L8Stream.StreamState

/-!
# The text of a key (src/processor/mod.rs)

`encode_key` joins the texts of the key fields, untagged and unescaped. Values
of different kinds may have one text, and a string may hold the separator.
-/
namespace Skippr.L8.KeyText

open L8.Stream (unitSeparator)

/-- `serde_json::Value`; the others are numbers, arrays and objects. -/
inductive Value (O : Type)
  | null
  | bool (b : Bool)
  | string (s : Text)
  | other (o : O)
deriving DecidableEq

abbrev Row (O : Type) := List (Text × Value O)

section Key
variable {O : Type} (toString : O → Text) (same : O → O → Prop)

/-- mirrors processor/mod.rs:598-606 -/
def jsonKeyPart : Value O → Text
  | .string s => s
  | .bool true => ['t', 'r', 'u', 'e']
  | .bool false => ['f', 'a', 'l', 's', 'e']
  | .null => []
  | .other o => toString o

def column (row : Row O) (field : Text) : Value O := (row.lookup field).getD .null

/-- mirrors processor/mod.rs:590-596 -/
def encodeKey (fields : List Text) (row : Row O) : Text :=
  [unitSeparator].intercalate (fields.map fun field => jsonKeyPart toString (column row field))

/-- `==` of two values; `same` is that of numbers, arrays and objects. -/
def Same : Value O → Value O → Prop
  | .null, .null => True
  | .bool b, .bool b' => b = b'
  | .string s, .string s' => s = s'
  | .other o, .other o' => same o o'
  | _, _ => False

def Agree (fields : List Text) (row row' : Row O) : Prop :=
  ∀ field ∈ fields, Same same (column row field) (column row' field)

/-- The texts of two values hold no separator, and are equal exactly if the values are. -/
def Told (v v' : Value O) : Prop :=
  unitSeparator ∉ jsonKeyPart toString v ∧ unitSeparator ∉ jsonKeyPart toString v' ∧
    (jsonKeyPart toString v = jsonKeyPart toString v' ↔ Same same v v')

variable {toString same} {fields : List Text} {row row' : Row O}

theorem encodeKey_eq_iff_parts
    (h : ∀ field ∈ fields, unitSeparator ∉ jsonKeyPart toString (column row field))
    (h' : ∀ field ∈ fields, unitSeparator ∉ jsonKeyPart toString (column row' field)) :
    encodeKey toString fields row = encodeKey toString fields row' ↔
      ∀ field ∈ fields, jsonKeyPart toString (column row field) =
        jsonKeyPart toString (column row' field) := by
  unfold encodeKey
  rw [← List.map_inj_left]
  refine ⟨fun hkey => ?_, congrArg _⟩
  by_cases hnil : fields = []
  · simp [hnil]
  · have hsplit := congrArg (List.splitOn unitSeparator) hkey
    rwa [List.splitOn_intercalate _ (List.forall_mem_map.2 h) (by simpa),
      List.splitOn_intercalate _ (List.forall_mem_map.2 h') (by simpa)] at hsplit

theorem encodeKey_empty_text (field : Text) (fields : List Text) :
    encodeKey toString (field :: fields) [] =
      encodeKey toString (field :: fields) [(field, .string [])] := by
  unfold encodeKey
  congr 2
  funext f
  simp only [column, List.lookup]
  split <;> rfl

/-- **Keys and values.** For no list of key fields do equal keys mean equal values of
all rows; they do of any two rows whose texts tell their values apart. -/
theorem encodeKey_eq_iff (toString : O → Text) (same : O → O → Prop) (fields : List Text)
    (hne : fields ≠ []) :
    (∃ row row', ¬ (encodeKey toString fields row = encodeKey toString fields row' ↔
        Agree same fields row row')) ∧
      ∀ row row', (∀ field ∈ fields, Told toString same (column row field) (column row' field)) →
        (encodeKey toString fields row = encodeKey toString fields row' ↔
          Agree same fields row row') := by
  constructor
  · obtain ⟨field, fields, rfl⟩ := List.exists_cons_of_ne_nil hne
    refine ⟨[], [(field, .string [])], fun hiff => ?_⟩
    have hagree := hiff.1 (encodeKey_empty_text field fields) field List.mem_cons_self
    simp [column, Same] at hagree
  · intro row row' h
    rw [encodeKey_eq_iff_parts (fun f hf => (h f hf).1) fun f hf => (h f hf).2.1]
    exact forall₂_congr fun f hf => (h f hf).2.2

/-- A null and a text that is not empty. -/
theorem encodeKey_eq_iff_null : encodeKey showNat [['a']] [] ≠
    encodeKey showNat [['a']] [(['a'], .string ['x'])] := by
  have hiff := (encodeKey_eq_iff showNat (· = ·) [['a']] (by simp)).2 []
    [(['a'], .string ['x'])] (by simp [Told, column, jsonKeyPart, Same, unitSeparator])
  rw [Ne, hiff]
  simp [Agree, column, Same]

end Key

def ofValue : Stream.Value → Value Int
  | .null => .null
  | .bool b => .bool b
  | .number n => .other n
  | .string s => .string s

theorem encodeKey_ofValue (fields : List Text) (row : Stream.Row) :
    Stream.encodeKey fields row =
      encodeKey showInt fields (row.map fun c => (c.1, ofValue c.2)) := by
  have hcolumn (name : Text) : column (row.map fun c => (c.1, ofValue c.2)) name =
      ofValue (Stream.column row name) := by
    induction row with
    | nil => rfl
    | cons c row ih =>
      obtain ⟨key, value⟩ := c
      simp only [column, Stream.column, List.map_cons, List.lookup_cons] at ih ⊢
      split
      · rfl
      · exact ih
  unfold Stream.encodeKey encodeKey
  congr 2
  funext name
  rw [hcolumn]
  cases Stream.column row name with
  | bool b => cases b <;> rfl
  | _ => rfl

/-- Two rows with different strings in both fields have one key. -/
theorem separator_in_text :
    let row (a b : Text) : Row Nat := [(['a'], .string a), (['b'], .string b)]
    let left := row ['x', unitSeparator, 'y'] ['z']
    let right := row ['x'] ['y', unitSeparator, 'z']
    encodeKey showNat [['a'], ['b']] left = encodeKey showNat [['a'], ['b']] right ∧
      ¬ Agree (· = ·) [['a'], ['b']] left right := by
  refine ⟨by decide +kernel, fun hagree => ?_⟩
  have hstring := hagree ['a'] List.mem_cons_self
  simp [column, Same] at hstring

end Skippr.L8.KeyText
