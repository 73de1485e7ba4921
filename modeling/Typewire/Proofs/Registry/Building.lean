import Typewire.Proofs.Catalog.Declaration
import Typewire.Proofs.Catalog.Record
import Typewire.Proofs.Codec.Termination
import Typewire.Proofs.Registry.Construction

/-! # Declared records

A record that is declared without a constructor of its own is built field by field. What a property
is set to is a field of the name of the property, whichever way it is set.
-/

namespace Typewire

namespace RecordDeclaration

/-- Without a constructor of its own, a record is valid just when its properties have names of
their own and each of them can be read or be written, and what a file declares is invalid only for a
repeated name. The codec of such a record decodes an object to an instance of its type. For each
property that is set the field of its name is what the codec of its type decodes the member to, if
the member is there and counts, and there are no other fields. -/
theorem builds_fields :
    (∀ (f : CatalogFile) (c : Catalog) type d layout,
      (f.registerInto c).2.definition? type = some d → c.definition? type ≠ some d →
      d.layout = .record layout →
        layout.check = .ok () ∨ ∃ name, layout.check = .error (.duplicateProperty name) ∧
          List.Duplicate name (layout.properties.map Property.name)) ∧
    ∀ (r : RecordDeclaration) d, r.define = .ok d → r.constructor? = none →
      d.name = r.name ∧ ∃ layout, d.layout = .record layout ∧
        List.Forall₂ (PropertyDeclaration.Gives r.params) r.properties layout.properties ∧
        (layout.check = .ok () ↔
          (r.properties.map PropertyDeclaration.name).Nodup ∧
            ∀ p ∈ r.properties, p.writeOnly = true → p.binding.isWritable = true) ∧
        ∀ (resolve : Lookup) (reg reg' : Registry) (settings : Settings) (term : TypeTerm)
          (codec : Codec),
          (Deriving.ofLayout settings term (.record layout)).run.run resolve reg =
            (.ok (.ok codec), reg') →
          ∃ fs, codec = .record term layout.constructor fs settings.denyUnknownFields ∧
            List.Forall₂ (fun p f => f.property = p ∧
              ∃ part, p.type.instantiate term.args = .ok part ∧
                Deriving.Answers resolve part f.codec) layout.properties fs ∧
            ∀ (store : Store) ref members v, store.codec? ref = some codec →
              (store.decode ref (.obj members) = .ok v ↔ ∃ fields, v = .object r.name fields ∧
                Codec.Populates store.decode fs settings.denyUnknownFields members fields) := by
  refine ⟨fun f c type d layout hd hnew hl => ?_, fun r d h hc => ?_⟩
  · exact (f.check_registerInto_cases c type d hd).resolve_left hnew layout hl
  obtain ⟨hname, layout, hl⟩ := exists_layout_define h
  refine ⟨hname, layout, hl, forall₂_define h hl, check_define_iff h hl hc,
    fun resolve reg reg' settings term codec hrun => ?_⟩
  obtain ⟨hcheck, fs, hfs, rfl, hparts⟩ := Deriving.exists_answers_of_run hrun
  refine ⟨fs, rfl, ?_, fun store ref members v hcodec => ?_⟩
  · rw [← hfs, List.forall₂_map_left_iff, List.forall₂_same]
    exact fun f hf => ⟨rfl, hparts f hf⟩
  · rw [Store.decode_eq hcodec, Codec.decodeWith]
    exact (assembled_define h hl hc).decodeRecord_eq_ok_iff
      (RecordLayout.check_iff.1 hcheck).names hfs

/-- Cards have a title and a number, which are set by the constructor, and a note, which is not. The
serial is only read. -/
def card : RecordDeclaration where
  name := "Card"
  params := ["T"]
  properties := [
    { name := "note", type := "T", binding := .setter },
    { name := "title", type := "T" },
    { name := "serial", type := "T", binding := .readOnly },
    { name := "number", type := "T" }]

def cardLayout : RecordLayout where
  constructor := .record "Card" ["title", "number"]
  properties := [
    { name := "note", type := .param 0, binding := .setter, accessor := .field "note" },
    { name := "title", type := .param 0, binding := .slot 0, accessor := .field "title" },
    { name := "serial", type := .param 0, binding := .readOnly, accessor := .readOnly "serial" },
    { name := "number", type := .param 0, binding := .slot 1, accessor := .field "number" }]

theorem define_card : card.define =
    .ok { name := "Card", params := ["T"], layout := .record cardLayout } := by
  have hread : Catalog.readType "Card" ["T"] "T" = .ok (.param 0) :=
    Catalog.readType_eq_ok_iff.2 (by rfl)
  simp only [define, card, properties?, hread, Except.ok_bind]
  rfl

def cardFields : List FieldCodec :=
  cardLayout.properties.map fun p => ⟨p, ⟨⟨"string", []⟩, 1⟩⟩

def cardStore : Store where
  isInstance _ _ := false
  slots := #[some (.record ⟨"Card", [⟨"string", []⟩]⟩ cardLayout.constructor cardFields false),
    some (.atomic .string)]

def twins : CatalogFile :=
  { records := [
      { name := "Twins"
        properties := [{ name := "twin", type := "int" }, { name := "twin", type := "int" }] }] }

theorem exists_layout_twins : ∃ d layout,
    (twins.registerInto .initial).2.definition? "Twins" = some d ∧ d.layout = .record layout ∧
      layout.check ≠ .ok () := by
  have hcheck : (match ((twins.registerInto .initial).2.definition? "Twins").map
      TypeDefinition.layout with
    | some (.record layout) => layout.check.isOk
    | _ => true) = false := by decide +kernel
  cases hd : (twins.registerInto .initial).2.definition? "Twins" with
  | none => simp [hd] at hcheck
  | some d =>
    rw [hd, Option.map_some] at hcheck
    cases hl : d.layout with
    | record layout =>
      simp only [hl] at hcheck
      obtain ⟨error, herror⟩ := Except.exists_of_not_isOk hcheck
      exact ⟨d, layout, rfl, hl, herror ▸ nofun⟩
    | _ => simp [hl] at hcheck

/-- The check refuses twins, as it can, for their name alone. What is decoded of a card is under the
names of the properties, whichever way they are set, and a property that is only read is not set. -/
theorem builds_fields_card :
    (∃ d layout name, (twins.registerInto .initial).2.definition? "Twins" = some d ∧
      d.layout = .record layout ∧ layout.check = .error (.duplicateProperty name) ∧
      List.Duplicate name (layout.properties.map Property.name)) ∧
    cardLayout.check = .ok () ∧
    ∃ fields, cardStore.decode ⟨⟨"Card", [⟨"string", []⟩]⟩, 0⟩
        (.obj [("note", .str "n"), ("number", .str "1"), ("serial", .str "s")]) =
          .ok (.object "Card" fields) ∧
      Fields.get "note" fields = .string "n" ∧ Fields.get "title" fields = .null ∧
      Fields.get "number" fields = .string "1" ∧ Fields.get "serial" fields = .null := by
  let members : Members Json := [("note", .str "n"), ("number", .str "1"), ("serial", .str "s")]
  let resolve : Lookup := fun term reg => (.ok (.ok ⟨term, 1⟩), reg)
  let reg : Registry := { host := { layout := fun _ => none } }
  have htwins : ∃ d layout name, (twins.registerInto .initial).2.definition? "Twins" = some d ∧
      d.layout = .record layout ∧ layout.check = .error (.duplicateProperty name) ∧
      List.Duplicate name (layout.properties.map Property.name) := by
    obtain ⟨d, layout, hd, hl, hne⟩ := exists_layout_twins
    have hnew : Catalog.initial.definition? "Twins" = none :=
      Option.isNone_iff_eq_none.1 (by decide +kernel)
    obtain ⟨name, hfault⟩ := (builds_fields.1 twins .initial "Twins" d layout hd
      (by rw [hnew]; exact nofun) hl).resolve_left hne
    exact ⟨d, layout, name, hd, hl, hfault⟩
  obtain ⟨-, layout, hl, -, hcheck, hruns⟩ := builds_fields.2 card _ define_card rfl
  cases hl
  obtain ⟨fs, hcodec, -, hdecode⟩ := hruns resolve reg reg {} ⟨"Card", [⟨"string", []⟩]⟩
    (.record ⟨"Card", [⟨"string", []⟩]⟩ cardLayout.constructor cardFields false) rfl
  injection hcodec with _ _ hfs _
  subst hfs
  obtain ⟨v, hv⟩ : ∃ v, cardStore.decode ⟨⟨"Card", [⟨"string", []⟩]⟩, 0⟩ (.obj members) = .ok v :=
    ⟨_, rfl⟩
  obtain ⟨fields, rfl, hpop⟩ := (hdecode cardStore _ members v rfl).1 hv
  -- A field that is set is the note or the number, as no other member is read.
  have honly : ∀ name, name ≠ "note" → name ≠ "number" → Fields.get name fields = .null := by
    intro name hnote hnumber
    by_contra hne
    obtain ⟨f, hf, rfl, hd, j, hj, -⟩ := hpop.member name hne
    simp only [cardFields, cardLayout, List.map_cons, List.map_nil, List.mem_cons, List.not_mem_nil,
      or_false] at hf
    rcases hf with rfl | rfl | rfl | rfl
    · exact hnote rfl
    · cases hj
    · cases hd
    · exact hnumber rfl
  have hread : ∀ f ∈ cardFields, f.property.deserializable = true → ∀ text,
      Members.get? f.property.name members = some (.str text) →
        Fields.get f.property.name fields = .string text := by
    intro f hf hd text hj
    have hdecoded := hpop.present f hf hd _ hj rfl
    obtain ⟨p, -, rfl⟩ := List.mem_map.1 hf
    exact (Except.ok.inj hdecoded).symm
  exact ⟨htwins, hcheck.2 (by decide), fields, hv, hread _ (.head _) rfl "n" rfl,
    honly "title" (by decide) (by decide),
    hread _ (.tail _ (.tail _ (.tail _ (.head _)))) rfl "1" rfl,
    honly "serial" (by decide) (by decide)⟩

end RecordDeclaration

end Typewire
