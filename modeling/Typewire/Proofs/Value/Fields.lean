import Mathlib.Data.List.Induction
import Mathlib.Data.Set.Card
import Typewire.Layout

/-! # Instances and their histories

An instance starts without fields, and fields are set on it one after the other. It keeps, in the
order of the names, what was set last under each name, unless that is null. So the order of the sets
counts for one name only.
-/

namespace Typewire

namespace Fields

variable {name : String} {v : Value} {history history' : List (String × Value)}

/-- The value that was set last under a name, null if there is none. -/
def last (name : String) (history : List (String × Value)) : Value :=
  (Members.get? name history.reverse).getD .null

theorem last_append_singleton (name n : String) (v : Value) (history : List (String × Value)) :
    last name (history ++ [(n, v)]) = if name = n then v else last name history := by
  rw [last, List.reverse_append, List.reverse_singleton, List.singleton_append, Members.get?_cons]
  split <;> rfl

theorem ofList_append_singleton (n : String) (v : Value) (history : List (String × Value)) :
    ofList (history ++ [(n, v)]) = set n v (ofList history) :=
  List.foldl_append

theorem get_ofList (name : String) (history : List (String × Value)) :
    get name (ofList history) = last name history := by
  -- The next set stands at the end of the history.
  induction history using List.reverseRecOn with
  | nil => rfl
  | append_singleton history entry ih =>
    rw [ofList_append_singleton, get_set, ih, last_append_singleton]

theorem mem_ofList_iff : (name, v) ∈ ofList history ↔ v ≠ .null ∧ last name history = v := by
  rw [(proper_ofList history).mem_iff, get_ofList]

theorem mem_names_ofList_iff :
    name ∈ Members.names (ofList history) ↔ last name history ≠ .null := by
  constructor
  · intro h
    obtain ⟨⟨n, v⟩, hentry, rfl⟩ := List.mem_map.1 h
    obtain ⟨hv, hlast⟩ := mem_ofList_iff.1 hentry
    rwa [hlast]
  · intro h
    exact List.mem_map_of_mem (f := Prod.fst) (mem_ofList_iff.2 ⟨h, rfl⟩)

theorem encard_set_names (history : List (String × Value)) :
    {name | last name history ≠ .null}.encard = (ofList history).length := by
  have hnodup : (Members.names (ofList history)).Nodup := (proper_ofList history).sorted.nodup
  have hset : {name | last name history ≠ .null} = ↑(Members.names (ofList history)).toFinset := by
    ext name
    simp [← mem_names_ofList_iff]
  rw [hset, Set.encard_coe_eq_coe_finsetCard, List.toFinset_card_of_nodup hnodup, Members.names,
    List.length_map]

theorem ofList_eq_iff :
    ofList history = ofList history' ↔ ∀ name, last name history = last name history' := by
  constructor
  · intro h name
    rw [← get_ofList, h, get_ofList]
  · intro h
    apply (proper_ofList history).ext (proper_ofList history')
    intro name
    rw [get_ofList, get_ofList, h]

end Fields

namespace Accessor

/-- Set fields one after the other through their accessors. -/
def setEach (history : List (String × Value)) (target : Value) : Except String Value :=
  history.foldlM (fun target entry => (field entry.1).set target entry.2) target

theorem setEach_object (type : TypeName) (history : List (String × Value))
    (fields : Members Value) :
    setEach history (.object type fields) = .ok (.object type (Fields.setAll history fields)) := by
  induction history generalizing fields with
  | nil => rfl
  | cons entry history ih => exact ih (Fields.set entry.1 entry.2 fields)

end Accessor

namespace Value

/-- After any sets on a new instance, directly or through accessors, its fields answer with what was
set last under their names; none of them is null, and they stand in the order of the names, one for
each name under which something but null was set last. Hence two histories give the same instance
exactly if they set the same last values. -/
theorem object_determined (type : TypeName) (history : List (String × Value)) :
    (∀ name, Fields.get name (Fields.ofList history) = Fields.last name history) ∧
      (∀ entry ∈ Fields.ofList history, entry.2 ≠ .null) ∧
      (Members.names (Fields.ofList history)).Pairwise (· < ·) ∧
      (∀ name, name ∈ Members.names (Fields.ofList history) ↔ Fields.last name history ≠ .null) ∧
      {name | Fields.last name history ≠ .null}.encard = (Fields.ofList history).length ∧
      Accessor.setEach history (object type []) = .ok (object type (Fields.ofList history)) ∧
      (∀ name, (Accessor.field name).get (object type (Fields.ofList history)) =
        .ok (Fields.last name history)) ∧
      ∀ history', object type (Fields.ofList history) = object type (Fields.ofList history') ↔
        ∀ name, Fields.last name history = Fields.last name history' := by
  have hproper : Fields.Proper (Fields.ofList history) := Fields.proper_ofList history
  refine ⟨fun name => Fields.get_ofList name history, hproper.ne_null, hproper.sorted,
    fun name => Fields.mem_names_ofList_iff, Fields.encard_set_names history,
    Accessor.setEach_object type history [], fun name => ?_, fun history' => ?_⟩
  · exact congrArg Except.ok (Fields.get_ofList name history)
  · rw [object.injEq, ← Fields.ofList_eq_iff]
    simp

/-- Sets of four names, among them a name that is unset and set again, one that is unset at last and
one that is only ever unset. -/
def interleaved : List (String × Value) :=
  [("b", int 1), ("a", string "x"), ("b", null), ("c", null), ("a", bool true), ("d", int 2),
    ("b", long 3), ("d", null)]

theorem object_determined_interleaved :
    Fields.ofList interleaved = [("a", bool true), ("b", long 3)] ∧
      (∀ entry ∈ Fields.ofList interleaved, entry.2 ≠ .null) ∧
      {name | Fields.last name interleaved ≠ .null}.encard = 2 ∧
      (∀ name, Fields.last name interleaved =
        Fields.last name [("b", long 3), ("d", null), ("a", bool true)]) ∧
      object "T" (Fields.ofList interleaved) =
        object "T" (Fields.ofList [("b", long 3), ("d", null), ("a", bool true)]) := by
  obtain ⟨-, hnull, -, -, hcount, -, -, hsame⟩ := object_determined "T" interleaved
  have hfields : Fields.ofList interleaved = [("a", bool true), ("b", long 3)] := rfl
  have hlast : ∀ name, Fields.last name interleaved =
      Fields.last name [("b", long 3), ("d", null), ("a", bool true)] := by
    intro name
    simp only [Fields.last, interleaved, List.reverse_cons, List.reverse_nil, List.nil_append,
      List.cons_append, Members.get?_cons, Members.get?_nil]
    grind
  refine ⟨hfields, hnull, ?_, hlast, (hsame _).2 hlast⟩
  rw [hcount, hfields]
  rfl

end Value

end Typewire
