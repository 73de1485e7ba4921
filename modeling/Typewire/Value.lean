import Typewire.Binary64
import Typewire.Members
import Typewire.TypeTerm

/-! # Host values

The values that codecs decode into and encode from. An instance of a record keeps its fields in the
order of their names and never keeps a null, so that a field set to null is the same as one not set.
-/

namespace Typewire

inductive Container where
  | list
  | array
  deriving DecidableEq, Repr

/-- A foreign object is known by its identity alone; its payload is for custom codecs. -/
inductive Value where
  | null
  | bool (b : Bool)
  | int (i : Int32)
  | long (i : Int64)
  | double (x : Binary64)
  | string (s : String)
  | sequence (container : Container) (items : List Value)
  | map (entries : List (Value × Value))
  | enum (type : TypeName) (member : String)
  | object (type : TypeName) (fields : List (String × Value))
  | foreign (identity payload : Nat)
  deriving Inhabited

namespace Container

def name : Container → String
  | list => "list"
  | array => "array"

end Container

namespace Fields

/-- The value of a field, null if it is not set. -/
def get (name : String) (fields : Members Value) : Value := (Members.get? name fields).getD .null

/-- Set a field, or unset it by null. -/
def set (name : String) (value : Value) (fields : Members Value) : Members Value :=
  match value with
  | .null => Members.erase name fields
  | value => Members.insert name value fields

def setAll (entries : List (String × Value)) (fields : Members Value) : Members Value :=
  entries.foldl (fun fields entry => set entry.1 entry.2 fields) fields

def ofList (entries : List (String × Value)) : Members Value := setAll entries []

/-- In the order of names, and without nulls. -/
structure Proper (fields : Members Value) : Prop where
  sorted : Members.Sorted fields
  ne_null : ∀ entry ∈ fields, entry.2 ≠ .null

theorem proper_nil : Proper [] := ⟨Members.sorted_nil, fun _ h => by cases h⟩

theorem set_of_ne_null (name : String) {v : Value} (h : v ≠ .null) (fields : Members Value) :
    set name v fields = Members.insert name v fields := by
  unfold set
  split
  · exact absurd rfl h
  · rfl

theorem Proper.set {fields : Members Value} (h : Proper fields) (name : String) (v : Value) :
    Proper (set name v fields) := by
  by_cases hv : v = .null
  · subst hv
    exact ⟨h.sorted.erase name, fun e he => h.ne_null e (List.mem_filter.1 he).1⟩
  · rw [set_of_ne_null name hv]
    refine ⟨h.sorted.insert name v, fun e he => ?_⟩
    rcases Members.mem_insert he with rfl | he
    · exact hv
    · exact h.ne_null e he

theorem get_set (name n : String) (v : Value) (fields : Members Value) :
    get name (set n v fields) = if name = n then v else get name fields := by
  by_cases hv : v = .null
  · subst hv
    rw [get, set, Members.get?_erase]
    split <;> rfl
  · rw [get, set_of_ne_null n hv, Members.get?_insert]
    split <;> rfl

theorem Proper.get?_eq_some_iff {fields : Members Value} (h : Proper fields) {name : String}
    {v : Value} : Members.get? name fields = some v ↔ v ≠ .null ∧ get name fields = v := by
  rw [get]
  cases hg : Members.get? name fields with
  | none => simp [eq_comm]
  | some w =>
    have hw : w ≠ .null := h.ne_null _ (Members.mem_of_get? hg)
    constructor
    · rintro ⟨⟩
      exact ⟨hw, rfl⟩
    · rintro ⟨-, rfl⟩
      rfl

theorem Proper.mem_iff {fields : Members Value} (h : Proper fields) {name : String} {v : Value} :
    (name, v) ∈ fields ↔ v ≠ .null ∧ get name fields = v := by
  rw [← h.get?_eq_some_iff, h.sorted.get?_eq_some_iff]

theorem Proper.ext {fields fields' : Members Value} (h : Proper fields) (h' : Proper fields')
    (heq : ∀ name, get name fields = get name fields') : fields = fields' := by
  refine h.sorted.ext h'.sorted fun name => Option.ext fun v => ?_
  rw [h.get?_eq_some_iff, h'.get?_eq_some_iff, heq]

theorem Proper.setAll {fields : Members Value} (h : Proper fields)
    (entries : List (String × Value)) : Proper (setAll entries fields) := by
  induction entries generalizing fields with
  | nil => exact h
  | cons e es ih => exact ih (h.set e.1 e.2)

theorem proper_ofList (entries : List (String × Value)) : Proper (ofList entries) :=
  proper_nil.setAll entries

theorem get_setAll {entries : List (String × Value)} {value : String → Value}
    (h : ∀ entry ∈ entries, entry.2 = value entry.1) (name : String) (fields : Members Value) :
    get name (setAll entries fields) =
      if name ∈ Members.names entries then value name else get name fields := by
  induction entries generalizing fields with
  | nil => rfl
  | cons e es ih =>
    rw [setAll, List.foldl_cons, ← setAll, ih fun entry he => h entry (List.mem_cons_of_mem _ he),
      get_set, h e List.mem_cons_self]
    have hmem : name ∈ Members.names (e :: es) ↔ name = e.1 ∨ name ∈ Members.names es :=
      List.mem_cons
    by_cases he : name = e.1
    · rw [if_pos (hmem.2 (.inl he)), if_pos he, he, ite_self]
    · simp only [hmem, he, false_or, if_false]

end Fields

namespace Value

def isNull : Value → Bool
  | null => true
  | _ => false

def asBool? : Value → Option Bool
  | bool b => some b
  | _ => none

def asInt? : Value → Option Int32
  | int i => some i
  | _ => none

/-- A whole number of either width. -/
def asLong? : Value → Option Int64
  | int i => some i.toInt64
  | long i => some i
  | _ => none

def asDouble? : Value → Option Binary64
  | double x => some x
  | _ => none

def asString? : Value → Option String
  | string s => some s
  | _ => none

def items? : Value → Option (List Value)
  | sequence _ items => some items
  | _ => none

def isObject : Value → Bool
  | object _ _ => true
  | _ => false

def enumMember? : Value → Option String
  | enum _ member => some member
  | _ => none

def mapGet? (key : String) : Value → Option Value
  | map entries => (entries.find? fun entry => entry.1.asString? = some key).map Prod.snd
  | _ => none

/-- The concrete type of an instance or an enum member. -/
def runtimeType? : Value → Option TypeName
  | enum type _ => some type
  | object type _ => some type
  | _ => none

def kindName : Value → String
  | null => "null"
  | bool _ => "bool"
  | int _ => "int"
  | long _ => "long"
  | double _ => "double"
  | string _ => "string"
  | sequence container _ => container.name
  | map _ => "map"
  | enum _ _ => "enum"
  | object _ _ => "object"
  | foreign _ _ => "opaque"

/-- The kind, and the concrete type if there is one. -/
def describe (v : Value) : String :=
  match v.runtimeType? with
  | some type => v.kindName ++ " " ++ type
  | none => v.kindName

theorem isNull_iff {v : Value} : v.isNull = true ↔ v = null := by
  cases v <;> simp [isNull]

mutual

def depth : Value → Nat
  | sequence _ items => depthItems items + 1
  | map entries => depthEntries entries + 1
  | object _ fields => depthFields fields + 1
  | _ => 0

def depthItems : List Value → Nat
  | [] => 0
  | v :: vs => max (depth v) (depthItems vs)

def depthEntries : List (Value × Value) → Nat
  | [] => 0
  | (k, v) :: entries => max (max (depth k) (depth v)) (depthEntries entries)

def depthFields : List (String × Value) → Nat
  | [] => 0
  | (_, v) :: fields => max (depth v) (depthFields fields)

end

theorem depth_le_of_mem_items {v : Value} {items : List Value} (h : v ∈ items) :
    v.depth ≤ depthItems items := by
  induction items with
  | nil => cases h
  | cons w items ih =>
    rw [depthItems]
    rcases List.mem_cons.1 h with rfl | h
    · exact Nat.le_max_left _ _
    · exact Nat.le_trans (ih h) (Nat.le_max_right _ _)

theorem depth_le_of_mem_entries {entry : Value × Value} {entries : List (Value × Value)}
    (h : entry ∈ entries) :
    entry.1.depth ≤ depthEntries entries ∧ entry.2.depth ≤ depthEntries entries := by
  induction entries with
  | nil => cases h
  | cons e entries ih =>
    obtain ⟨k, v⟩ := e
    rw [depthEntries]
    rcases List.mem_cons.1 h with rfl | h
    · constructor <;> simp only <;> omega
    · obtain ⟨hk, hv⟩ := ih h
      constructor <;> omega

theorem depth_le_of_mem_fields {entry : String × Value} {fields : List (String × Value)}
    (h : entry ∈ fields) : entry.2.depth ≤ depthFields fields := by
  induction fields with
  | nil => cases h
  | cons e fields ih =>
    obtain ⟨name, v⟩ := e
    rw [depthFields]
    rcases List.mem_cons.1 h with rfl | h
    · exact Nat.le_max_left _ _
    · exact Nat.le_trans (ih h) (Nat.le_max_right _ _)

mutual

/-- Equality as the host sees it: doubles by number, foreign objects by identity. -/
def agrees : Value → Value → Bool
  | null, null => true
  | bool a, bool b => a == b
  | int a, int b => a == b
  | long a, long b => a == b
  | double a, double b => a.agrees b
  | string a, string b => a == b
  | sequence c as, sequence d bs => c == d && agreesItems as bs
  | map as, map bs => agreesEntries as bs
  | enum t m, enum u n => t == u && m == n
  | object t as, object u bs => t == u && agreesFields as bs
  | foreign a _, foreign b _ => a == b
  | _, _ => false

def agreesItems : List Value → List Value → Bool
  | [], [] => true
  | a :: as, b :: bs => agrees a b && agreesItems as bs
  | _, _ => false

def agreesEntries : List (Value × Value) → List (Value × Value) → Bool
  | [], [] => true
  | (k, v) :: as, (l, w) :: bs => agrees k l && agrees v w && agreesEntries as bs
  | _, _ => false

def agreesFields : List (String × Value) → List (String × Value) → Bool
  | [], [] => true
  | (m, v) :: as, (n, w) :: bs => m == n && agrees v w && agreesFields as bs
  | _, _ => false

end

end Value

end Typewire
