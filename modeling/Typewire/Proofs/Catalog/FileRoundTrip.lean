import Mathlib.Data.List.Nodup
import Typewire.Catalog.Load
import Typewire.Proofs.Document.Record
import Typewire.Proofs.Except
import Typewire.Proofs.Json.RoundTrip

/-! # Catalogue files from their documents

A file is read back from the document that it writes, in memory and as a text, in whichever order
the members of its records stand there: the members of a record have names of their own, lists keep
their order, and a list that is left out is empty.
-/

namespace Typewire

namespace Json

variable {k : Nat} {j : Json}

/-- There are only texts and flags in the document, in no more than `k` lists and tables inside one
another. -/
inductive Textual : Nat → Json → Prop
  | str {k : Nat} (s : String) : Textual k (str s)
  | bool {k : Nat} (b : Bool) : Textual k (bool b)
  | arr {k : Nat} {items : List Json} : (∀ j ∈ items, Textual k j) → Textual (k + 1) (arr items)
  | obj {k : Nat} {members : List (String × Json)} : (∀ entry ∈ members, Textual k entry.2) →
      Textual (k + 1) (obj members)

theorem Textual.arr_map {α : Type} {write : α → Json} (h : ∀ a, Textual k (write a))
    (as : List α) : Textual (k + 1) (.arr (as.map write)) := by
  refine .arr fun j hj => ?_
  obtain ⟨a, -, rfl⟩ := List.mem_map.1 hj
  exact h a

theorem Textual.whole (h : Textual k j) : j.Whole := by
  induction h with
  | str s => exact .str s
  | bool b => exact .bool b
  | arr _ ih => exact .arr ih
  | obj _ ih => exact .obj ih

theorem Textual.depth_le (h : Textual k j) : j.depth ≤ k := by
  induction h with
  | str | bool => exact Nat.zero_le _
  | arr _ ih => exact Nat.succ_le_succ (depthItems_le ih)
  | obj _ ih => exact Nat.succ_le_succ (depthMembers_le ih)

theorem inOrder_str (s : String) : (Json.str s).inOrder = .str s := rfl

theorem inOrder_arr_map {α : Type} {write write' : α → Json} (h : ∀ a, (write a).inOrder = write' a)
    (as : List α) : (Json.arr (as.map write)).inOrder = .arr (as.map write') := by
  rw [inOrder, inOrderItems_eq_map, List.map_map]
  exact congrArg arr (List.map_congr_left fun a _ => h a)

end Json

/-- An order in which the members of records are written. -/
structure MemberOrder where
  arrange : List (String × Json) → Members Json
  perm : ∀ {ms : List (String × Json)}, (Members.names ms).Nodup → (arrange ms).Perm ms

namespace MemberOrder

def byName : MemberOrder where
  arrange := Members.ofList
  perm {ms} h := by
    have hnodup : (Members.ofList ms).Nodup :=
      List.Nodup.of_map Prod.fst (Members.sorted_ofList ms).nodup
    exact (List.perm_ext_iff_of_nodup hnodup (List.Nodup.of_map Prod.fst h)).2 fun _ =>
      Members.mem_ofList_iff h

/-- As they are declared, which is how a text lists them. -/
def asDeclared : MemberOrder where
  arrange ms := ms
  perm _ := .rfl

variable (o : MemberOrder) {ms : List (String × Json)} {known : List String}
  (hnames : (Members.names ms).Sublist known) (hknown : known.Nodup)

include hnames hknown

theorem nodup_arrange : (Members.names (o.arrange ms)).Nodup :=
  ((o.perm (hknown.sublist hnames)).map Prod.fst).nodup_iff.2 (hknown.sublist hnames)

theorem mem_arrange {entry : String × Json} : entry ∈ o.arrange ms ↔ entry ∈ ms :=
  (o.perm (hknown.sublist hnames)).mem_iff

theorem get?_arrange (name : String) :
    Members.get? name (o.arrange ms) = Members.get? name ms := by
  refine Option.ext fun j => ?_
  rw [Members.get?_eq_some_iff (o.nodup_arrange hnames hknown),
    Members.get?_eq_some_iff (hknown.sublist hnames), o.mem_arrange hnames hknown]

/-- The reader of a record finds its members, whatever their order. -/
theorem exists_members (rule : Document.RecordRule) :
    ∃ members, (Document.ofJson (.obj (o.arrange ms))).members? rule known = some members ∧
      ∀ name, List.lookup name members = (Members.get? name ms).map Document.ofJson := by
  have hsubset : ∀ name ∈ Members.names (o.arrange ms), name ∈ known := fun name hname =>
    hnames.subset (((o.perm (hknown.sublist hnames)).map Prod.fst).mem_iff.1 hname)
  refine ⟨_, Document.members?_ofJson hsubset (o.nodup_arrange hnames hknown), fun name => ?_⟩
  rw [← o.get?_arrange hnames hknown]
  exact Members.get?_map Document.ofJson name _

theorem textual_arrange {k : Nat} (h : ∀ entry ∈ ms, entry.2.Textual k) :
    (Json.obj (o.arrange ms)).Textual (k + 1) :=
  .obj fun entry hentry => h entry ((o.mem_arrange hnames hknown).1 hentry)

theorem inOrder_arrange : (Json.obj (o.arrange ms)).inOrder =
    .obj (Members.ofList (ms.map fun m => (m.1, m.2.inOrder))) := by
  have hsame : ∀ ms : Members Json,
      Members.names (ms.map fun m => (m.1, m.2.inOrder)) = Members.names ms := fun ms => by
    simp [Members.names]
  have hnodup := o.nodup_arrange hnames hknown
  have hnodup' := hknown.sublist hnames
  rw [← hsame] at hnodup hnodup'
  rw [Json.inOrder, Json.inOrderMembers_eq_map]
  congr 1
  apply (Members.sorted_ofList _).ext (Members.sorted_ofList _)
  intro name
  rw [Members.get?_ofList hnodup, Members.get?_ofList hnodup', Members.get?_map, Members.get?_map,
    o.get?_arrange hnames hknown]

end MemberOrder

namespace CatalogFile

open Members (get? get?_cons get?_nil)

variable (o : MemberOrder) (n : Dialect)

def PropertyEntry.fields (p : PropertyEntry) : List (String × Json) :=
  [("name", .str p.name), ("type", .str p.type), ("binding", .str p.binding.text),
    ("mandatory", .bool p.mandatory), ("write_only", .bool p.writeOnly)]

def PropertyEntry.toJsonIn (p : PropertyEntry) : Json := .obj (o.arrange p.fields)

def RecordEntry.fields (r : RecordEntry) : List (String × Json) :=
  [("name", .str r.name)] ++ listMember "params" r.params ++ listMember "extends" r.supertypes ++
    [("properties", .arr (r.properties.map (PropertyEntry.toJsonIn o)))]

def RecordEntry.toJsonIn (r : RecordEntry) : Json := .obj (o.arrange (r.fields o))

def MemberEntry.fields (ident label : String) : List (String × Json) :=
  [("name", .str ident), ("label", .str label)]

def MemberEntry.toJsonIn : MemberEntry → Json
  | plain ident => .str ident
  | labelled ident label => .obj (o.arrange (fields ident label))

def EnumEntry.fields (e : EnumEntry) : List (String × Json) :=
  [("name", .str e.name), ("members", .arr (e.members.map (MemberEntry.toJsonIn o)))]

def EnumEntry.toJsonIn (e : EnumEntry) : Json := .obj (o.arrange (e.fields o))

def VariantEntry.fields (v : VariantEntry) : List (String × Json) :=
  [("key", .str v.key), ("type", .str v.type)]

def VariantEntry.toJsonIn (v : VariantEntry) : Json := .obj (o.arrange v.fields)

def UnionEntry.fields (u : UnionEntry) : List (String × Json) :=
  [("name", .str u.name)] ++ listMember "params" u.params ++
    [("variants", .arr (u.variants.map (VariantEntry.toJsonIn o)))]

def UnionEntry.toJsonIn (u : UnionEntry) : Json := .obj (o.arrange (u.fields o))

def fields (f : CatalogFile) : List (String × Json) :=
  [("records", .arr (f.records.map (RecordEntry.toJsonIn o))),
    ("enums", .arr (f.enums.map (EnumEntry.toJsonIn o))),
    ("unions", .arr (f.unions.map (UnionEntry.toJsonIn o)))]

def toJsonIn (f : CatalogFile) : Json := .obj (o.arrange (f.fields o))

theorem toJsonIn_byName (f : CatalogFile) : f.toJsonIn .byName = f.toJson := rfl

theorem names_listMember (name : String) (texts : List String) :
    (Members.names (listMember name texts)).Sublist [name] := by
  cases texts with
  | nil => exact List.nil_sublist _
  | cons => exact List.Sublist.refl _

theorem PropertyEntry.names_fields (p : PropertyEntry) : (Members.names p.fields).Sublist
    ["name", "type", "binding", "mandatory", "write_only"] :=
  List.Sublist.refl _

theorem RecordEntry.names_fields (r : RecordEntry) :
    (Members.names (r.fields o)).Sublist ["name", "params", "extends", "properties"] := by
  simp only [fields, Members.names, List.map_append]
  exact (((List.Sublist.refl ["name"]).append (names_listMember "params" r.params)).append
    (names_listMember "extends" r.supertypes)).append (List.Sublist.refl ["properties"])

theorem MemberEntry.names_fields (ident label : String) :
    (Members.names (fields ident label)).Sublist ["name", "label"] :=
  List.Sublist.refl _

theorem EnumEntry.names_fields (e : EnumEntry) :
    (Members.names (e.fields o)).Sublist ["name", "members"] :=
  List.Sublist.refl _

theorem VariantEntry.names_fields (v : VariantEntry) :
    (Members.names v.fields).Sublist ["key", "type"] :=
  List.Sublist.refl _

theorem UnionEntry.names_fields (u : UnionEntry) :
    (Members.names (u.fields o)).Sublist ["name", "params", "variants"] := by
  simp only [fields, Members.names, List.map_append]
  exact ((List.Sublist.refl ["name"]).append (names_listMember "params" u.params)).append
    (List.Sublist.refl ["variants"])

theorem names_fields (f : CatalogFile) :
    (Members.names (f.fields o)).Sublist ["records", "enums", "unions"] :=
  List.Sublist.refl _

theorem text?_str (s : String) : (Document.ofJson (.str s)).text? = some s := rfl

theorem bool?_bool (b : Bool) : (Document.ofJson (.bool b)).bool? = some b := rfl

theorem BindingWord.ofDocument?_text (b : BindingWord) :
    BindingWord.ofDocument? n (.ofJson (.str b.text)) = some b := by
  cases b <;> rfl

theorem listOf?_map {α : Type} {read : Document → Option α} {write : α → Json}
    (h : ∀ a, read (.ofJson (write a)) = some a) (as : List α) :
    listOf? read (.ofJson (.arr (as.map write))) = some as := by
  rw [Document.ofJson, Document.ofJsonItems_eq_map, List.map_map]
  exact Document.mapM_map fun a _ => h a

theorem listMember?_some {α : Type} (read : Document → Option α) (d : Document) :
    listMember? read (some d) = listOf? read d := rfl

theorem listMember?_strings (texts : List String) :
    listMember? Document.text?
      ((if texts = [] then none else some (strings texts)).map Document.ofJson) = some texts :=
  Document.withDefault?_write fun _ => listOf?_map text?_str texts

theorem get?_listMember_append (name n : String) (texts : List String) (ms : Members Json) :
    get? name (listMember n texts ++ ms) =
      if name = n ∧ texts ≠ [] then some (strings texts) else get? name ms := by
  cases texts <;> simp [listMember, get?_cons]

theorem PropertyEntry.ofDocument?_toJsonIn (p : PropertyEntry) :
    PropertyEntry.ofDocument? n (.ofJson (p.toJsonIn o)) = some p := by
  obtain ⟨members, hmembers, hlookup⟩ := o.exists_members p.names_fields (by decide) n.rule
  simp only [PropertyEntry.ofDocument?, toJsonIn, hmembers, hlookup, Option.bind_eq_bind,
    Option.bind_some]
  simp [fields, get?_cons, text?_str, bool?_bool, Document.withDefault?,
    BindingWord.ofDocument?_text]

theorem RecordEntry.ofDocument?_toJsonIn (r : RecordEntry) :
    RecordEntry.ofDocument? n (.ofJson (r.toJsonIn o)) = some r := by
  obtain ⟨members, hmembers, hlookup⟩ := o.exists_members (r.names_fields o) (by decide) n.rule
  simp only [RecordEntry.ofDocument?, toJsonIn, hmembers, hlookup, Option.bind_eq_bind,
    Option.bind_some]
  simp [fields, get?_cons, get?_nil, get?_listMember_append, text?_str, listMember?_strings,
    listMember?_some, listOf?_map (PropertyEntry.ofDocument?_toJsonIn o n)]

/-- A text is a plain member and a table a labelled one, whatever they say. -/
theorem MemberEntry.ofDocument?_toJsonIn (m : MemberEntry) :
    MemberEntry.ofDocument? (.ofJson (m.toJsonIn o)) = some m := by
  cases m with
  | plain ident => rfl
  | labelled ident label =>
    obtain ⟨members, hmembers, hlookup⟩ :=
      o.exists_members (names_fields ident label) (by decide) { otherNames := true }
    rw [Document.ofJson] at hmembers
    simp only [toJsonIn, Document.ofJson, MemberEntry.ofDocument?, hmembers, hlookup,
      Option.bind_eq_bind, Option.bind_some]
    simp [fields, get?_cons, text?_str]

theorem EnumEntry.ofDocument?_toJsonIn (e : EnumEntry) :
    EnumEntry.ofDocument? n (.ofJson (e.toJsonIn o)) = some e := by
  obtain ⟨members, hmembers, hlookup⟩ := o.exists_members (e.names_fields o) (by decide) n.rule
  simp only [EnumEntry.ofDocument?, toJsonIn, hmembers, hlookup, Option.bind_eq_bind,
    Option.bind_some]
  simp [fields, get?_cons, text?_str, listOf?_map (MemberEntry.ofDocument?_toJsonIn o)]

theorem VariantEntry.ofDocument?_toJsonIn (v : VariantEntry) :
    VariantEntry.ofDocument? n (.ofJson (v.toJsonIn o)) = some v := by
  obtain ⟨members, hmembers, hlookup⟩ := o.exists_members v.names_fields (by decide) n.rule
  simp only [VariantEntry.ofDocument?, toJsonIn, hmembers, hlookup, Option.bind_eq_bind,
    Option.bind_some]
  simp [fields, get?_cons, text?_str]

theorem UnionEntry.ofDocument?_toJsonIn (u : UnionEntry) :
    UnionEntry.ofDocument? n (.ofJson (u.toJsonIn o)) = some u := by
  obtain ⟨members, hmembers, hlookup⟩ := o.exists_members (u.names_fields o) (by decide) n.rule
  simp only [UnionEntry.ofDocument?, toJsonIn, hmembers, hlookup, Option.bind_eq_bind,
    Option.bind_some]
  simp [fields, get?_cons, get?_nil, get?_listMember_append, text?_str, listMember?_strings,
    listOf?_map (VariantEntry.ofDocument?_toJsonIn o n)]

theorem ofDocument?_toJsonIn (f : CatalogFile) :
    ofDocument? n (.ofJson (f.toJsonIn o)) = some f := by
  obtain ⟨members, hmembers, hlookup⟩ := o.exists_members (f.names_fields o) (by decide) n.rule
  simp only [ofDocument?, toJsonIn, hmembers, hlookup, Option.bind_eq_bind, Option.bind_some]
  simp [fields, get?_cons, listMember?_some, listOf?_map (RecordEntry.ofDocument?_toJsonIn o n),
    listOf?_map (EnumEntry.ofDocument?_toJsonIn o n),
    listOf?_map (UnionEntry.ofDocument?_toJsonIn o n)]

theorem textual_listMember {k : Nat} (name : String) (texts : List String) :
    ∀ entry ∈ listMember name texts, entry.2.Textual (k + 1) := by
  have hstrings : (strings texts).Textual (k + 1) := .arr_map .str texts
  cases texts with
  | nil => nofun
  | cons => simpa [listMember] using hstrings

theorem PropertyEntry.textual_toJsonIn (p : PropertyEntry) : (p.toJsonIn o).Textual 1 := by
  apply o.textual_arrange p.names_fields (by decide)
  simp [fields, Json.Textual.str, Json.Textual.bool]

theorem RecordEntry.textual_toJsonIn (r : RecordEntry) : (r.toJsonIn o).Textual 3 := by
  apply o.textual_arrange (r.names_fields o) (by decide)
  simp only [fields, List.forall_mem_append, List.forall_mem_singleton]
  exact ⟨⟨⟨.str _, textual_listMember _ _⟩, textual_listMember _ _⟩,
    .arr_map (PropertyEntry.textual_toJsonIn o) _⟩

theorem MemberEntry.textual_toJsonIn (m : MemberEntry) : (m.toJsonIn o).Textual 1 := by
  cases m with
  | plain ident => exact .str ident
  | labelled ident label =>
    apply o.textual_arrange (names_fields ident label) (by decide)
    simp [fields, Json.Textual.str]

theorem EnumEntry.textual_toJsonIn (e : EnumEntry) : (e.toJsonIn o).Textual 3 := by
  apply o.textual_arrange (e.names_fields o) (by decide)
  simp only [fields, List.forall_mem_cons]
  exact ⟨.str _, .arr_map (MemberEntry.textual_toJsonIn o) _, nofun⟩

theorem VariantEntry.textual_toJsonIn (v : VariantEntry) : (v.toJsonIn o).Textual 1 := by
  apply o.textual_arrange v.names_fields (by decide)
  simp [fields, Json.Textual.str]

theorem UnionEntry.textual_toJsonIn (u : UnionEntry) : (u.toJsonIn o).Textual 3 := by
  apply o.textual_arrange (u.names_fields o) (by decide)
  simp only [fields, List.forall_mem_append, List.forall_mem_singleton]
  exact ⟨⟨.str _, textual_listMember _ _⟩, .arr_map (VariantEntry.textual_toJsonIn o) _⟩

theorem textual_toJsonIn (f : CatalogFile) : (f.toJsonIn o).Textual 5 := by
  apply o.textual_arrange (f.names_fields o) (by decide)
  simp only [fields, List.forall_mem_cons]
  exact ⟨.arr_map (RecordEntry.textual_toJsonIn o) _, .arr_map (EnumEntry.textual_toJsonIn o) _,
    .arr_map (UnionEntry.textual_toJsonIn o) _, nofun⟩

theorem map_listMember (name : String) (texts : List String) :
    (listMember name texts).map (fun m => (m.1, m.2.inOrder)) = listMember name texts := by
  have hstrings : (strings texts).inOrder = strings texts :=
    Json.inOrder_arr_map Json.inOrder_str texts
  cases texts with
  | nil => rfl
  | cons => simpa [listMember] using hstrings

theorem PropertyEntry.inOrder_toJsonIn (p : PropertyEntry) : (p.toJsonIn o).inOrder = p.toJson := by
  rw [toJsonIn, o.inOrder_arrange p.names_fields (by decide)]
  rfl

theorem RecordEntry.inOrder_toJsonIn (r : RecordEntry) : (r.toJsonIn o).inOrder = r.toJson := by
  rw [toJsonIn, o.inOrder_arrange (r.names_fields o) (by decide), toJson, fields]
  simp [map_listMember, Json.inOrder_str, Json.inOrder_arr_map (PropertyEntry.inOrder_toJsonIn o)]

theorem MemberEntry.inOrder_toJsonIn (m : MemberEntry) : (m.toJsonIn o).inOrder = m.toJson := by
  cases m with
  | plain ident => rfl
  | labelled ident label =>
    rw [toJsonIn, o.inOrder_arrange (names_fields ident label) (by decide)]
    rfl

theorem EnumEntry.inOrder_toJsonIn (e : EnumEntry) : (e.toJsonIn o).inOrder = e.toJson := by
  rw [toJsonIn, o.inOrder_arrange (e.names_fields o) (by decide), toJson, fields]
  simp [Json.inOrder_str, Json.inOrder_arr_map (MemberEntry.inOrder_toJsonIn o)]

theorem VariantEntry.inOrder_toJsonIn (v : VariantEntry) : (v.toJsonIn o).inOrder = v.toJson := by
  rw [toJsonIn, o.inOrder_arrange v.names_fields (by decide)]
  rfl

theorem UnionEntry.inOrder_toJsonIn (u : UnionEntry) : (u.toJsonIn o).inOrder = u.toJson := by
  rw [toJsonIn, o.inOrder_arrange (u.names_fields o) (by decide), toJson, fields]
  simp [map_listMember, Json.inOrder_str, Json.inOrder_arr_map (VariantEntry.inOrder_toJsonIn o)]

theorem inOrder_toJsonIn (f : CatalogFile) : (f.toJsonIn o).inOrder = f.toJson := by
  rw [toJsonIn, o.inOrder_arrange (f.names_fields o) (by decide), toJson, fields]
  simp [Json.inOrder_arr_map (RecordEntry.inOrder_toJsonIn o),
    Json.inOrder_arr_map (EnumEntry.inOrder_toJsonIn o),
    Json.inOrder_arr_map (UnionEntry.inOrder_toJsonIn o)]

/-- The texts of a file: compact or pretty, with the members of its records in any order. -/
def IsText (f : CatalogFile) (text : String) : Prop :=
  ∃ o, text = (f.toJsonIn o).render ∨ text = (f.toJsonIn o).pretty

section Texts

variable {f : CatalogFile} {text : String}

theorem IsText.exists_readDocument? (h : f.IsText text) :
    ∃ o, Json.readDocument? text = some (.ofJson (f.toJsonIn o)) := by
  obtain ⟨o, h⟩ := h
  have hw : (f.toJsonIn o).Whole := (f.textual_toJsonIn o).whole
  rcases h with rfl | rfl
  · exact ⟨o, Json.readDocument?_render hw⟩
  · exact ⟨o, Json.readDocument?_pretty hw⟩

theorem toJson?_toJsonIn (f : CatalogFile) :
    (Document.ofJson (f.toJsonIn o)).toJson? Json.maxDepth = some f.toJson := by
  have hdepth : (f.toJsonIn o).depth ≤ Json.maxDepth :=
    Nat.le_trans (f.textual_toJsonIn o).depth_le (by decide)
  rw [Json.toJson?_ofJson, if_pos hdepth, inOrder_toJsonIn]

theorem IsText.read? (h : f.IsText text) : Json.read? text = some f.toJson := by
  obtain ⟨o, hread⟩ := h.exists_readDocument?
  rw [Json.read?, hread]
  exact f.toJson?_toJsonIn o

theorem IsText.ofJsonText? (h : f.IsText text) : ofJsonText? text = some f := by
  obtain ⟨o, hread⟩ := h.exists_readDocument?
  simp [CatalogFile.ofJsonText?, hread, toJson?_toJsonIn, ofDocument?_toJsonIn]

theorem IsText.load (h : f.IsText text) {path : String}
    (hpath : fileExtension? path = some "json") : load path (some text) = .ok f := by
  simp [CatalogFile.load, hpath, ofJsonText, h.ofJsonText?]

end Texts

/-- Every file is read back from its document in memory and from each of its texts, which are texts
of that document. So what is written can be registered in place of the file, into any catalogue, and
loading it gives what the file gives. -/
theorem file_of_written (f : CatalogFile) :
    ofDocument? .json (.ofJson f.toJson) = some f ∧
      ∀ text, f.IsText text →
        Json.read? text = some f.toJson ∧ ofJsonText? text = some f ∧
          (∀ c, (ofJsonText? text).map (fun g => g.registerInto c) = some (f.registerInto c)) ∧
          ∀ path, fileExtension? path = some "json" →
            load path (some text) = .ok f ∧
              Catalog.load path (some text) = (f.registerInto Catalog.initial).1.map fun _ =>
                (f.registerInto Catalog.initial).2 := by
  constructor
  · rw [← toJsonIn_byName]
    exact ofDocument?_toJsonIn .byName .json f
  · intro text h
    refine ⟨h.read?, h.ofJsonText?, fun c => ?_, fun path hpath => ⟨h.load hpath, ?_⟩⟩
    · rw [h.ofJsonText?, Option.map_some]
    · rw [Catalog.load, h.load hpath, Except.ok_bind]
      rcases f.registerInto Catalog.initial with ⟨_ | _, c⟩ <;> rfl

/-- All bindings and flags, lists that are empty and lists that are not, and enum members with no
label, with another one and with their own name for a label. One property is refused when the file
is registered, not when it is read. -/
def everyForm : CatalogFile where
  records := [{
      name := "R", params := ["U", "T"], supertypes := ["Z", "A"],
      properties := [
        { name := "x", type := "T" },
        { name := "y", type := "List<U>", binding := .property, mandatory := true,
          writeOnly := true },
        { name := "x", type := "int", binding := .readOnly, writeOnly := true }] },
    { name := "" }]
  enums := [
    { name := "E", members := [.plain "B", .labelled "A" "A", .plain "A", .labelled "C" "c"] },
    { name := "E", members := [] }]
  unions := [
    { name := "V", params := ["T"], variants := [{ key := "k", type := "T" }] },
    { name := "W", variants := [] }]

theorem file_of_written_everyForm :
    everyForm.IsText (everyForm.toJsonIn .asDeclared).pretty ∧
      ofJsonText? (everyForm.toJsonIn .asDeclared).pretty = some everyForm ∧
      fileExtension? "a.json" = some "json" ∧
      load "a.json" (some (everyForm.toJsonIn .asDeclared).pretty) = .ok everyForm := by
  have htext : everyForm.IsText (everyForm.toJsonIn .asDeclared).pretty := ⟨_, .inr rfl⟩
  have hpath : fileExtension? "a.json" = some "json" := by decide
  obtain ⟨-, hread, -, hload⟩ := (file_of_written everyForm).2 _ htext
  exact ⟨htext, hread, hpath, (hload "a.json" hpath).1⟩

end CatalogFile

end Typewire
