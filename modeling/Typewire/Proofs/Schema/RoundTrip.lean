import Typewire.Proofs.Document.Record
import Typewire.Schema.Document

/-! # Fragments from their documents

Each member of a fragment is either left out of its document or written there, and the reader takes
a member that it does not find for the value that is left out. A fragment whose property maps are in
the order of their names is therefore read from its own document, and the fragments that the reader
gives are of this kind.
-/

namespace Typewire

namespace Schema

theorem ofName?_name (t : SchemaType) : SchemaType.ofName? t.name = some t := by
  cases t <;> rfl

/-- The members without fragments, with those that are left out. -/
def plainFields (s : Schema) : List (String × Option Json) :=
  [("$ref", s.reference?.map .str),
    ("type", s.type?.map fun t => .str t.name),
    ("format", s.format?.map .str),
    ("required", if s.required = [] then none else some (strings s.required)),
    ("enum", s.labels?.map strings),
    ("readOnly", if s.readOnly = false then none else some (.bool s.readOnly)),
    ("writeOnly", if s.writeOnly = false then none else some (.bool s.writeOnly))]

def fields (s : Schema) : List (String × Option Json) :=
  s.plainFields ++ [
    ("properties", s.properties?.map fun ps => .obj (ps.map fun p => (p.1, p.2.toJson))),
    ("items", s.items?.map toJson),
    ("additionalProperties", s.additional?.map toJson)]

def present (fields : List (String × Option Json)) : Members Json :=
  fields.filterMap fun field => field.2.map (field.1, ·)

theorem present_nil : present [] = [] := rfl

theorem present_cons (name : String) (j? : Option Json) (fields : List (String × Option Json)) :
    present ((name, j?) :: fields) = (j?.map (name, ·)).toList ++ present fields := by
  cases j? <;> rfl

theorem present_append (fields fields' : List (String × Option Json)) :
    present (fields ++ fields') = present fields ++ present fields' :=
  List.filterMap_append

theorem propertyMembers_eq_map (ps : List (String × Schema)) :
    propertyMembers ps = ps.map fun p => (p.1, p.2.toJson) := by
  induction ps with
  | nil => rfl
  | cons p ps ih =>
    obtain ⟨name, s⟩ := p
    rw [propertyMembers, ih, List.map_cons]

theorem memberOf_eq (name : String) (s? : Option Schema) :
    memberOf name s? = ((s?.map toJson).map (name, ·)).toList := by
  cases s? <;> rfl

theorem propertiesMember_eq (ps? : Option (List (String × Schema))) :
    propertiesMember ps? =
      ((ps?.map fun ps => Json.obj (ps.map fun p => (p.1, p.2.toJson))).map
        ("properties", ·)).toList := by
  cases ps? with
  | none => rfl
  | some ps => rw [propertiesMember, propertyMembers_eq_map]; rfl

theorem plainMembers_eq (s : Schema) : plainMembers s = present s.plainFields := by
  have hrequired : (if s.required.isEmpty then [] else [("required", strings s.required)]) =
      ((if s.required = [] then none else some (strings s.required)).map
        ("required", ·)).toList := by
    cases s.required <;> rfl
  have hflag : ∀ (name : String) (b : Bool), (if b then [(name, Json.bool true)] else []) =
      ((if b = false then none else some (Json.bool b)).map (name, ·)).toList := by
    intro name b
    cases b <;> rfl
  simp only [plainMembers, plainFields, present_cons, present_nil, hrequired, hflag, Option.map_map,
    List.append_assoc, List.append_nil]
  rfl

theorem toJson_eq (s : Schema) : s.toJson = .obj (Members.ofList (present s.fields)) := by
  obtain ⟨reference?, type?, format?, properties?, required, items?, additional?, labels?, readOnly,
    writeOnly⟩ := s
  rw [toJson, plainMembers_eq, propertiesMember_eq, memberOf_eq, memberOf_eq, fields,
    present_append]
  simp only [present_cons, present_nil, List.append_assoc, List.append_nil]
  rfl

theorem names_present (fields : List (String × Option Json)) :
    (Members.names (present fields)).Sublist (fields.map Prod.fst) := by
  induction fields with
  | nil => exact .slnil
  | cons field fields ih =>
    obtain ⟨name, j?⟩ := field
    rw [present_cons]
    cases j? with
    | none => exact ih.cons name
    | some j => exact ih.cons_cons name

theorem get?_present {fields : List (String × Option Json)} (h : (fields.map Prod.fst).Nodup)
    (name : String) :
    Members.get? name (present fields) = (List.lookup name fields).join := by
  induction fields with
  | nil => rfl
  | cons field fields ih =>
    obtain ⟨n, j?⟩ := field
    obtain ⟨hn, hrest⟩ := List.nodup_cons.1 h
    rw [present_cons, List.lookup_cons]
    by_cases he : name = n
    · subst he
      have hnone : Members.get? name (present fields) = none :=
        Members.get?_eq_none_iff.2 fun hm => hn ((names_present fields).subset hm)
      cases j? with
      | none => simpa using hnone
      | some j => simp [Members.get?_cons]
    · cases j? <;> simp [Members.get?_cons, he, beq_false_of_ne he, ih hrest]

theorem perm_memberNames (s : Schema) : (s.fields.map Prod.fst).Perm memberNames := by
  change ["$ref", "type", "format", "required", "enum", "readOnly", "writeOnly", "properties",
    "items", "additionalProperties"].Perm memberNames
  decide

theorem nodup_fields (s : Schema) : (s.fields.map Prod.fst).Nodup :=
  s.perm_memberNames.nodup_iff.2 (by decide)

theorem nodup_present (s : Schema) : (Members.names (present s.fields)).Nodup :=
  s.nodup_fields.sublist (names_present s.fields)

theorem mem_memberNames {s : Schema} {name : String}
    (h : name ∈ Members.names (Members.ofList (present s.fields))) : name ∈ memberNames := by
  obtain ⟨entry, hentry, rfl⟩ := List.mem_map.1 h
  apply s.perm_memberNames.subset
  apply (names_present s.fields).subset
  exact List.mem_map_of_mem (Members.mem_ofList hentry)

theorem exists_members (s : Schema) :
    ∃ members, (Document.ofJson s.toJson).members? { otherNames := true } memberNames =
        some members ∧
      ∀ name j?, (name, j?) ∈ s.fields → List.lookup name members = j?.map Document.ofJson := by
  rw [toJson_eq]
  refine ⟨_, Document.members?_ofJson (fun name => mem_memberNames)
    (Members.sorted_ofList _).nodup, fun name j? hj => ?_⟩
  have hlookup : List.lookup name s.fields = some j? :=
    (Members.get?_eq_some_iff s.nodup_fields).2 hj
  have hget : Members.get? name (Members.ofList (present s.fields)) = j? := by
    rw [Members.get?_ofList s.nodup_present, get?_present s.nodup_fields, hlookup]
    rfl
  rw [← hget]
  exact Members.get?_map Document.ofJson name _

theorem depth_lt_of_mem_fields {s : Schema} {name : String} {j : Json}
    (h : (name, some j) ∈ s.fields) : j.depth < s.toJson.depth := by
  have hmem : (name, j) ∈ present s.fields := List.mem_filterMap.2 ⟨_, h, rfl⟩
  rw [toJson_eq, Json.depth]
  exact Nat.lt_succ_of_le
    (Json.depth_le_of_mem_members ((Members.mem_ofList_iff s.nodup_present).2 hmem))

/-- The property maps are in the order of their names, at every depth. -/
inductive Ordered : Schema → Prop
  | mk (s : Schema)
      (sorted : ∀ ps, s.properties? = some ps → Members.Sorted ps)
      (properties : ∀ ps, s.properties? = some ps → ∀ p ∈ ps, Ordered p.2)
      (items : ∀ t, s.items? = some t → Ordered t)
      (additional : ∀ t, s.additional? = some t → Ordered t) : Ordered s

def readProperties? (room : Nat) (d : Document) : Option (Members Schema) :=
  match room with
  | 0 => none
  | room + 1 => readTable? (ofDocument? room) d

/-- What a fragment has under each name is what the reader makes of the members. -/
structure Reads (room : Nat) (members : List (String × Document)) (s : Schema) : Prop where
  reference : Document.optional? Document.text? (List.lookup "$ref" members) = some s.reference?
  type : Document.optional? (readType? room) (List.lookup "type" members) = some s.type?
  format : Document.optional? Document.text? (List.lookup "format" members) = some s.format?
  properties : Document.optional? (readProperties? room) (List.lookup "properties" members) =
    some s.properties?
  required : Document.withDefault? [] (readTexts? room) (List.lookup "required" members) =
    some s.required
  items : Document.optional? (ofDocument? room) (List.lookup "items" members) = some s.items?
  additional : Document.optional? (ofDocument? room) (List.lookup "additionalProperties" members) =
    some s.additional?
  labels : Document.optional? (readTexts? room) (List.lookup "enum" members) = some s.labels?
  readOnly : Document.withDefault? false Document.bool? (List.lookup "readOnly" members) =
    some s.readOnly
  writeOnly : Document.withDefault? false Document.bool? (List.lookup "writeOnly" members) =
    some s.writeOnly

theorem ofDocument?_succ_iff {room : Nat} {d : Document} {s : Schema} :
    ofDocument? (room + 1) d = some s ↔
      ∃ members, d.members? { otherNames := true } memberNames = some members ∧
        Reads room members s := by
  simp only [ofDocument?, Option.bind_eq_bind, Option.bind_eq_some_iff, Option.pure_def,
    Option.some.injEq]
  constructor
  · rintro ⟨members, hm, r, hr, t, ht, f, hf, p, hp, q, hq, i, hi, a, ha, l, hl, ro, hro, wo, hwo,
      rfl⟩
    exact ⟨members, hm, hr, ht, hf, hp, hq, hi, ha, hl, hro, hwo⟩
  · rintro ⟨members, hm, h⟩
    cases s
    exact ⟨members, hm, _, h.reference, _, h.type, _, h.format, _, h.properties, _, h.required, _,
      h.items, _, h.additional, _, h.labels, _, h.readOnly, _, h.writeOnly, rfl⟩

theorem readTexts?_strings {room : Nat} {texts : List String} (h : (strings texts).depth ≤ room) :
    readTexts? room (.ofJson (strings texts)) = some texts := by
  have hroom : room ≠ 0 := by
    rw [strings, Json.depth] at h
    omega
  rw [readTexts?, if_neg hroom, strings, Document.ofJson, Document.ofJsonItems_eq_map, List.map_map]
  exact Document.mapM_map fun text _ => rfl

/-- The fragment is read from its document, if it is allowed to stand as deep as it does. -/
def ReadsBack (s : Schema) : Prop :=
  ∀ room, s.toJson.depth ≤ room → ofDocument? room (.ofJson s.toJson) = some s

theorem toJson_ne_null (s : Schema) : s.toJson ≠ .null := by
  rw [toJson_eq]
  nofun

theorem depth_lt_of_map_mem_fields {α : Type} {s : Schema} {name : String} {a? : Option α}
    {write : α → Json} (h : (name, a?.map write) ∈ s.fields) {a : α} (ha : a? = some a) :
    (write a).depth < s.toJson.depth := by
  subst ha
  exact depth_lt_of_mem_fields h

theorem readProperties?_map {room : Nat} {ps : Members Schema} (hsorted : Members.Sorted ps)
    (hps : ∀ p ∈ ps, p.2.ReadsBack)
    (hroom : (Json.obj (ps.map fun p => (p.1, p.2.toJson))).depth ≤ room) :
    readProperties? room (.ofJson (.obj (ps.map fun p => (p.1, p.2.toJson)))) = some ps := by
  rw [Json.depth] at hroom
  cases room with
  | zero => omega
  | succ room =>
    rw [readProperties?, Document.ofJson, Document.ofJsonMembers_eq_map, List.map_map, readTable?,
      Document.mapM_map fun p hp => ?_]
    · exact congrArg some (Members.ofList_of_sorted hsorted)
    · have hdepth : p.2.toJson.depth ≤ room := by
        have hmem : (p.1, p.2.toJson) ∈ ps.map fun p => (p.1, p.2.toJson) :=
          List.mem_map_of_mem hp
        have hle : p.2.toJson.depth ≤ _ := Json.depth_le_of_mem_members hmem
        omega
      change (do return (p.1, ← ofDocument? room (.ofJson p.2.toJson))) = some p
      rw [hps p hp room hdepth]
      rfl

section Fields

variable {s : Schema} {room : Nat} {members : List (String × Document)}
  (hlookup : ∀ name j?, (name, j?) ∈ s.fields →
    List.lookup name members = j?.map Document.ofJson)
  (hroom : s.toJson.depth ≤ room + 1)

include hlookup hroom

theorem optional?_of_fields {α : Type} {name : String} {a? : Option α} {write : α → Json}
    {read : Document → Option α} (hmem : (name, a?.map write) ∈ s.fields)
    (h : ∀ a, a? = some a → (write a).depth ≤ room →
      write a ≠ .null ∧ read (.ofJson (write a)) = some a) :
    Document.optional? read (List.lookup name members) = some a? := by
  rw [hlookup name _ hmem]
  apply Document.optional?_write
  intro a ha
  have hdepth := depth_lt_of_map_mem_fields hmem ha
  exact h a ha (by omega)

theorem withDefault?_of_fields {α : Type} [DecidableEq α] {name : String} {default a : α}
    {write : α → Json} {read : Document → Option α}
    (hmem : (name, if a = default then none else some (write a)) ∈ s.fields)
    (h : (write a).depth ≤ room → read (.ofJson (write a)) = some a) :
    Document.withDefault? default read (List.lookup name members) = some a := by
  rw [hlookup name _ hmem]
  apply Document.withDefault?_write
  intro hne
  rw [if_neg hne] at hmem
  have hdepth := depth_lt_of_mem_fields hmem
  exact h (by omega)

theorem reads_of_fields (hsorted : ∀ ps, s.properties? = some ps → Members.Sorted ps)
    (hproperties : ∀ ps, s.properties? = some ps → ∀ p ∈ ps, p.2.ReadsBack)
    (hitems : ∀ t, s.items? = some t → t.ReadsBack)
    (hadditional : ∀ t, s.additional? = some t → t.ReadsBack) : Reads room members s where
  reference := by
    have hmem : ("$ref", s.reference?.map .str) ∈ s.fields := by simp [fields, plainFields]
    exact optional?_of_fields hlookup hroom hmem fun r _ _ => ⟨nofun, rfl⟩
  type := by
    have hmem : ("type", s.type?.map fun t => .str t.name) ∈ s.fields := by
      simp [fields, plainFields]
    exact optional?_of_fields hlookup hroom hmem fun t _ _ => ⟨nofun, ofName?_name t⟩
  format := by
    have hmem : ("format", s.format?.map .str) ∈ s.fields := by simp [fields, plainFields]
    exact optional?_of_fields hlookup hroom hmem fun f _ _ => ⟨nofun, rfl⟩
  properties := by
    have hmem : ("properties", s.properties?.map fun ps => .obj (ps.map fun p => (p.1, p.2.toJson)))
        ∈ s.fields := by simp [fields, plainFields]
    exact optional?_of_fields hlookup hroom hmem fun ps hps hdepth =>
      ⟨nofun, readProperties?_map (hsorted ps hps) (hproperties ps hps) hdepth⟩
  required := by
    have hmem : ("required", if s.required = [] then none else some (strings s.required)) ∈
        s.fields := by simp [fields, plainFields]
    exact withDefault?_of_fields hlookup hroom hmem readTexts?_strings
  items := by
    have hmem : ("items", s.items?.map toJson) ∈ s.fields := by simp [fields, plainFields]
    exact optional?_of_fields hlookup hroom hmem fun t ht hdepth =>
      ⟨t.toJson_ne_null, hitems t ht room hdepth⟩
  additional := by
    have hmem : ("additionalProperties", s.additional?.map toJson) ∈ s.fields := by
      simp [fields, plainFields]
    exact optional?_of_fields hlookup hroom hmem fun t ht hdepth =>
      ⟨t.toJson_ne_null, hadditional t ht room hdepth⟩
  labels := by
    have hmem : ("enum", s.labels?.map strings) ∈ s.fields := by simp [fields, plainFields]
    exact optional?_of_fields hlookup hroom hmem fun ls _ hdepth =>
      ⟨nofun, readTexts?_strings hdepth⟩
  readOnly := by
    have hmem : ("readOnly", if s.readOnly = false then none else some (.bool s.readOnly)) ∈
        s.fields := by simp [fields, plainFields]
    exact withDefault?_of_fields hlookup hroom hmem fun _ => rfl
  writeOnly := by
    have hmem : ("writeOnly", if s.writeOnly = false then none else some (.bool s.writeOnly)) ∈
        s.fields := by simp [fields, plainFields]
    exact withDefault?_of_fields hlookup hroom hmem fun _ => rfl

end Fields

theorem Ordered.readsBack {s : Schema} (h : s.Ordered) : s.ReadsBack := by
  induction h with
  | mk s sorted _ _ _ properties items additional =>
    -- The fragments below stand less deep, so that the room that is left is enough for them.
    intro room hroom
    cases room with
    | zero =>
      rw [toJson_eq, Json.depth] at hroom
      omega
    | succ room =>
      obtain ⟨members, hmembers, hlookup⟩ := s.exists_members
      exact ofDocument?_succ_iff.2
        ⟨members, hmembers, reads_of_fields hlookup hroom sorted properties items additional⟩

theorem exists_of_readProperties? {room : Nat} {d : Document} {ps : Members Schema}
    (h : readProperties? room d = some ps) :
    Members.Sorted ps ∧ ∀ p ∈ ps, ∃ room' < room, ∃ d', ofDocument? room' d' = some p.2 := by
  cases room with
  | zero => cases h
  | succ room =>
    cases d with
    | table members =>
      simp only [readProperties?, readTable?, Option.bind_eq_bind, Option.bind_eq_some_iff,
        Option.pure_def, Option.some.injEq] at h
      obtain ⟨entries, hentries, rfl⟩ := h
      refine ⟨Members.sorted_ofList _, fun p hp => ?_⟩
      obtain ⟨⟨name, d'⟩, -, hread⟩ := Document.exists_of_mem_mapM hentries (Members.mem_ofList hp)
      simp only [Option.bind_eq_some_iff, Option.some.injEq] at hread
      obtain ⟨t, ht, rfl⟩ := hread
      exact ⟨room, Nat.lt_succ_self room, d', ht⟩
    | _ => cases h

theorem ordered_of_ofDocument? {room : Nat} {d : Document} {s : Schema}
    (h : ofDocument? room d = some s) : s.Ordered := by
  -- A property stands two levels below its fragment, in the map.
  induction room using Nat.strongRecOn generalizing d s with
  | ind room ih =>
    cases room with
    | zero => cases h
    | succ room =>
      obtain ⟨members, -, h⟩ := ofDocument?_succ_iff.1 h
      refine .mk s (fun ps hps => ?_) (fun ps hps p hp => ?_) (fun t ht => ?_) (fun t ht => ?_)
      · obtain ⟨_, hread⟩ := Document.exists_of_optional? h.properties hps
        exact (exists_of_readProperties? hread).1
      · obtain ⟨_, hread⟩ := Document.exists_of_optional? h.properties hps
        obtain ⟨room', hlt, d', hd⟩ := (exists_of_readProperties? hread).2 p hp
        exact ih room' (by omega) hd
      · obtain ⟨_, hread⟩ := Document.exists_of_optional? h.items ht
        exact ih room (by omega) hread
      · obtain ⟨_, hread⟩ := Document.exists_of_optional? h.additional ht
        exact ih room (by omega) hread

theorem Ordered.ofJson?_toJson {s : Schema} (h : s.Ordered) : ofJson? s.toJson = some s :=
  h.readsBack _ (Nat.le_refl _)

/-- Every fragment is read back from its own document, however deep it is and whichever of its
members are missing or empty. What the reader takes from any document, in memory or as written and
with any number of lists and tables inside one another, is a fragment that is read back as well. -/
theorem read_of_written :
    (∀ s : Schema, s.Ordered → ofJson? s.toJson = some s) ∧
      (∀ (j : Json) (s : Schema), ofJson? j = some s → ofJson? s.toJson = some s) ∧
      ∀ (room : Nat) (d : Document) (s : Schema), ofDocument? room d = some s →
        s.Ordered ∧ ofJson? s.toJson = some s := by
  refine ⟨fun s h => h.ofJson?_toJson, fun j s h => ?_, fun room d s h => ?_⟩
  · exact (ordered_of_ofDocument? h).ofJson?_toJson
  · exact ⟨ordered_of_ofDocument? h, (ordered_of_ofDocument? h).ofJson?_toJson⟩

/-- A fragment with an empty property map and an empty list of labels inside a property, an empty
fragment for its items, and flags inside the fragment for its other members. -/
def corners : Schema where
  properties? := some [("a", { properties? := some [], labels? := some [] }), ("b", {})]
  required := ["b", "b"]
  items? := some {}
  additional? := some { type? := some .array, readOnly := true, writeOnly := true }

theorem ordered_of_flat {s : Schema} (hproperties : s.properties?.getD [] = [])
    (hitems : s.items? = none) (hadditional : s.additional? = none) : s.Ordered := by
  have hnil : ∀ ps, s.properties? = some ps → ps = [] := by
    rintro ps hps
    simpa [hps] using hproperties
  refine .mk s (fun ps hps => ?_) (fun ps hps p hp => ?_) (by simp [hitems]) (by simp [hadditional])
  · rw [hnil ps hps]
    exact Members.sorted_nil
  · rw [hnil ps hps] at hp
    cases hp

theorem ordered_corners : corners.Ordered := by
  have hnil : Ordered { properties? := some [], labels? := some [] } := ordered_of_flat rfl rfl rfl
  have hempty : Ordered {} := ordered_of_flat rfl rfl rfl
  refine .mk corners ?_ ?_ ?_ ?_
  · rintro ps ⟨⟩
    exact Members.sorted_cons.2 ⟨by decide, Members.sorted_cons.2 ⟨nofun, Members.sorted_nil⟩⟩
  · rintro ps ⟨⟩
    simpa using ⟨hnil, hempty⟩
  · rintro t ⟨⟩
    exact hempty
  · rintro t ⟨⟩
    exact ordered_of_flat rfl rfl rfl

/-- A document may name its type as a choice without content, or list its members in order. -/
theorem read_of_written_corners :
    (corners.Ordered ∧ ofJson? corners.toJson = some corners) ∧
      (ofJson? (.obj [("enum", .arr []), ("type", .obj [("array", .null)]), ("x", .int 1)]) =
          some { type? := some .array, labels? := some [] } ∧
        ofJson? (Schema.toJson { type? := some .array, labels? := some [] }) =
          some { type? := some .array, labels? := some [] }) ∧
      ofDocument? 3 (.list [.text "#/x", .null, .null, .table []]) =
          some { reference? := some "#/x", properties? := some [] } ∧
        ofJson? (Schema.toJson { reference? := some "#/x", properties? := some [] }) =
          some { reference? := some "#/x", properties? := some [] } := by
  have hobject : ofJson? (.obj [("enum", .arr []), ("type", .obj [("array", .null)]),
      ("x", .int 1)]) = some { type? := some .array, labels? := some [] } := rfl
  have hlist : ofDocument? 3 (.list [.text "#/x", .null, .null, .table []]) =
      some { reference? := some "#/x", properties? := some [] } := rfl
  exact ⟨⟨ordered_corners, read_of_written.1 _ ordered_corners⟩,
    ⟨hobject, read_of_written.2.1 _ _ hobject⟩, hlist, (read_of_written.2.2 3 _ _ hlist).2⟩

end Schema

end Typewire
