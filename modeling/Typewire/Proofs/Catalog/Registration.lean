import Mathlib.Logic.Relation
import Typewire.Proofs.Catalog.Declaration
import Typewire.Proofs.Catalog.Declared

/-! # Registration of types

A file is added to a catalogue declaration by declaration, up to the first that fails. Whatever is
added, by files or one by one, a definition that is there stays as it is.
-/

namespace Typewire

namespace CatalogFile.Entry

/-- All texts of types are read, and no property that is only read is only written. -/
def WellFormed : Entry → Prop
  | .record r => ∀ p ∈ r.properties, (∃ scheme, TypeScheme.read r.params p.type = .ok scheme) ∧
      ¬ (p.binding = .readOnly ∧ p.writeOnly = true)
  | .enumeration _ => True
  | .union u => ∀ v ∈ u.variants, ∃ scheme, TypeScheme.read u.params v.type = .ok scheme

theorem exists_define_iff {e : Entry} : (∃ d, e.define = .ok d) ↔ e.WellFormed := by
  cases e with
  | record r =>
    have hcontradictory : ∀ p : PropertyEntry, p.isContradictory = false ↔
        ¬ (p.binding = .readOnly ∧ p.writeOnly = true) := by
      intro p
      simp [PropertyEntry.isContradictory]
    have hread : (∃ d, r.declaration.define = .ok d) ↔
        ∀ p ∈ r.properties, ∃ scheme, TypeScheme.read r.params p.type = .ok scheme := by
      rw [RecordDeclaration.exists_define_iff, RecordEntry.declaration, List.forall_mem_map]
      rfl
    simp only [define, RecordEntry.define_eq_ok_iff, exists_and_left, hread, WellFormed,
      hcontradictory, forall₂_and]
    exact and_comm
  | enumeration e => exact iff_of_true ⟨_, rfl⟩ trivial
  | union u =>
    rw [define, UnionEntry.define, UnionDeclaration.exists_define_iff, List.forall_mem_map]
    rfl

def edges (e : Entry) : List (TypeName × TypeName) := e.supertypes.map fun sup => (e.name, sup)

end CatalogFile.Entry

namespace Catalog

open CatalogFile

variable {c c' c'' : Catalog} {e : Entry} {es es' : List Entry} {d : TypeDefinition}

theorem definition?_eq_none_iff {type : TypeName} :
    c.definition? type = none ↔ type ∉ Table.keys c.types :=
  Table.get?_eq_none_iff

theorem define_eq_ok_iff : c.define d = .ok c' ↔ c.definition? d.name = none ∧
    c' = { c with types := Table.insert d.name d c.types } := by
  rw [define, definition?]
  cases h : Table.has d.name c.types with
  | false =>
    rw [Table.has, Option.isSome_eq_false_iff, Option.isNone_iff_eq_none] at h
    simp [h, eq_comm]
  | true =>
    obtain ⟨d', hd'⟩ := Option.isSome_iff_exists.1 h
    simp [hd']

theorem supertypes_declareSubtypes (c : Catalog) (sub : TypeName) (sups : List TypeName) :
    (sups.foldl (fun c sup => c.declareSubtype sub sup) c).supertypes =
      (sups.map fun sup => (sub, sup)).reverse ++ c.supertypes := by
  induction sups generalizing c with
  | nil => rfl
  | cons sup sups ih =>
    rw [List.foldl_cons, ih, List.map_cons, List.reverse_cons, List.append_assoc]
    rfl

/-- The entries are added: each of them is defined under a name that was free, with its supertypes,
and nothing else is changed. -/
structure Adds (c : Catalog) (es : List Entry) (c' : Catalog) : Prop where
  distinct : (es.map Entry.name).Nodup
  free : ∀ e ∈ es, c.definition? e.name = none
  defined : ∀ e ∈ es, ∃ d, e.define = .ok d ∧ c'.definition? e.name = some d
  kept : ∀ type, type ∉ es.map Entry.name → c'.definition? type = c.definition? type
  supertypes : c'.supertypes = (es.flatMap Entry.edges).reverse ++ c.supertypes

namespace Adds

theorem refl (c : Catalog) : Adds c [] c :=
  ⟨.nil, fun _ h => absurd h List.not_mem_nil, fun _ h => absurd h List.not_mem_nil,
    fun _ _ => rfl, rfl⟩

theorem trans (h : Adds c es c') (h' : Adds c' es' c'') : Adds c (es ++ es') c'' := by
  have hapart : ∀ e ∈ es, e.name ∉ es'.map Entry.name := by
    intro e he hmem
    obtain ⟨e', he', hname⟩ := List.mem_map.1 hmem
    obtain ⟨d, -, hd⟩ := h.defined e he
    rw [← hname, h'.free e' he'] at hd
    cases hd
  have hapart' : ∀ e ∈ es', e.name ∉ es.map Entry.name := by
    intro e he hmem
    obtain ⟨e', he', hname⟩ := List.mem_map.1 hmem
    exact hapart e' he' (hname ▸ List.mem_map_of_mem he)
  refine ⟨?_, fun e he => ?_, fun e he => ?_, fun type htype => ?_, ?_⟩
  · rw [List.map_append, List.nodup_append']
    refine ⟨h.distinct, h'.distinct, fun type ht => ?_⟩
    obtain ⟨e, he, rfl⟩ := List.mem_map.1 ht
    exact hapart e he
  · rcases List.mem_append.1 he with he | he
    · exact h.free e he
    · exact h.kept _ (hapart' e he) ▸ h'.free e he
  · rcases List.mem_append.1 he with he | he
    · obtain ⟨d, hdefine, hd⟩ := h.defined e he
      exact ⟨d, hdefine, h'.kept _ (hapart e he) ▸ hd⟩
    · exact h'.defined e he
  · rw [List.map_append, List.mem_append, not_or] at htype
    rw [h'.kept _ htype.2, h.kept _ htype.1]
  · rw [h'.supertypes, h.supertypes, List.flatMap_append, List.reverse_append, List.append_assoc]

end Adds

theorem adds_addTo (h : e.addTo c = .ok c') : Adds c [e] c' := by
  obtain ⟨d, hd, h⟩ := Except.exists_of_bind h
  obtain ⟨c₁, hc, h⟩ := Except.exists_of_bind h
  cases h
  obtain ⟨hname, -⟩ := Entry.define_eq hd
  obtain ⟨hfree, rfl⟩ := define_eq_ok_iff.1 hc
  rw [hname] at hfree
  refine ⟨List.nodup_singleton _, List.forall_mem_singleton.2 hfree,
    List.forall_mem_singleton.2 ⟨d, hd, ?_⟩, fun type htype => ?_, ?_⟩
  · rw [definition?, types_declareSubtypes, Table.get?_insert, if_pos hname.symm]
  · rw [List.map_singleton, List.mem_singleton] at htype
    rw [definition?, types_declareSubtypes, Table.get?_insert, if_neg (hname ▸ htype), definition?]
  · rw [supertypes_declareSubtypes, List.flatMap_singleton, Entry.edges]

theorem exists_addTo_iff :
    (∃ c', e.addTo c = .ok c') ↔ e.WellFormed ∧ c.definition? e.name = none := by
  rw [← Entry.exists_define_iff]
  constructor
  · rintro ⟨c', h⟩
    obtain ⟨d, hd, -⟩ := Except.exists_of_bind h
    exact ⟨⟨d, hd⟩, (adds_addTo h).free e List.mem_cons_self⟩
  · rintro ⟨⟨d, hd⟩, hfree⟩
    rw [Entry.addTo, hd, Except.ok_bind, define_eq_ok_iff.2 ⟨(Entry.define_eq hd).1 ▸ hfree, rfl⟩]
    exact ⟨_, rfl⟩

/-- Entries are added up to the first that fails, of which nothing is. -/
inductive Registers (c : Catalog) (es : List Entry) : Except CatalogError Unit → Catalog → Prop
  | all {c' : Catalog} : Adds c es c' → Registers c es (.ok ()) c'
  | upTo {c' : Catalog} {err : CatalogError} (before after : List Entry) (failing : Entry) :
      es = before ++ failing :: after → Adds c before c' → failing.addTo c' = .error err →
      Registers c es (.error err) c'

theorem Registers.cons {result : Except CatalogError Unit} (h : e.addTo c = .ok c')
    (h' : Registers c' es result c'') : Registers c (e :: es) result c'' := by
  cases h' with
  | all hadds => exact .all ((adds_addTo h).trans hadds)
  | upTo before after failing hes hadds hfailing =>
    subst hes
    exact .upTo (e :: before) after failing rfl ((adds_addTo h).trans hadds) hfailing

theorem registers_addEntries (c : Catalog) (es : List Entry) :
    Registers c es (addEntries c es).1 (addEntries c es).2 := by
  induction es generalizing c with
  | nil => exact .all (.refl c)
  | cons e es ih =>
    rw [addEntries]
    cases h : e.addTo c with
    | ok c' => exact .cons h (ih c')
    | error err => exact .upTo [] es e rfl (.refl c) h

/-- All of a list is added just when its names are distinct and free, and each entry is well
formed. -/
theorem Registers.ok_iff {result : Except CatalogError Unit} (h : Registers c es result c') :
    result = .ok () ↔ (es.map Entry.name).Nodup ∧ (∀ e ∈ es, c.definition? e.name = none) ∧
      ∀ e ∈ es, e.WellFormed := by
  cases h with
  | all hadds =>
    refine iff_of_true rfl ⟨hadds.distinct, hadds.free, fun e he => ?_⟩
    exact Entry.exists_define_iff.1 ((hadds.defined e he).imp fun _ hd => hd.1)
  | upTo before after failing hes hadds hfailing =>
    refine iff_of_false nofun fun ⟨hdistinct, hfree, hformed⟩ => ?_
    have hmem : failing ∈ es := hes ▸ List.mem_append_right _ List.mem_cons_self
    rw [hes, List.map_append, List.map_cons, List.nodup_append'] at hdistinct
    have hnew : failing.name ∉ before.map Entry.name :=
      fun hn => hdistinct.2.2 hn List.mem_cons_self
    obtain ⟨c'', hc⟩ := exists_addTo_iff.2
      ⟨hformed _ hmem, hadds.kept _ hnew ▸ hfree _ hmem⟩
    rw [hfailing] at hc
    cases hc

inductive Change where
  | define (d : TypeDefinition)
  | declareSubtype (sub sup : TypeName)
  | register (f : CatalogFile)

/-- The catalogue after a change. A definition that is refused changes nothing. -/
def change (c : Catalog) : Change → Catalog
  | .define d =>
    match c.define d with
    | .ok c' => c'
    | .error _ => c
  | .declareSubtype sub sup => c.declareSubtype sub sup
  | .register f => (f.registerInto c).2

inductive Grows : Catalog → Catalog → Prop
  | define {c c' : Catalog} {d : TypeDefinition} : c.define d = .ok c' → Grows c c'
  | declareSubtype (c : Catalog) (sub sup : TypeName) : Grows c (c.declareSubtype sub sup)

open Relation (ReflTransGen)

theorem grows_declareSubtypes (c : Catalog) (sub : TypeName) (sups : List TypeName) :
    ReflTransGen Grows c (sups.foldl (fun c sup => c.declareSubtype sub sup) c) := by
  induction sups generalizing c with
  | nil => exact .refl
  | cons sup sups ih => exact .head (.declareSubtype c sub sup) (ih _)

theorem grows_addEntries (c : Catalog) (es : List Entry) :
    ReflTransGen Grows c (addEntries c es).2 := by
  induction es generalizing c with
  | nil => exact .refl
  | cons e es ih =>
    rw [addEntries]
    split
    · rename_i c' h
      obtain ⟨d, -, h⟩ := Except.exists_of_bind h
      obtain ⟨c₁, hc, h⟩ := Except.exists_of_bind h
      cases h
      exact .head (.define hc) ((grows_declareSubtypes c₁ e.name e.supertypes).trans (ih _))
    · exact .refl

theorem grows_change (c : Catalog) (change : Change) : ReflTransGen Grows c (c.change change) := by
  cases change with
  | define d =>
    rw [Catalog.change]
    split
    · rename_i h
      exact .single (.define h)
    · exact .refl
  | declareSubtype sub sup => exact .single (.declareSubtype c sub sup)
  | register f => exact grows_addEntries c f.entries

theorem grows_changes (c : Catalog) (changes : List Change) :
    ReflTransGen Grows c (changes.foldl change c) := by
  induction changes generalizing c with
  | nil => exact .refl
  | cons ch changes ih => exact (grows_change c ch).trans (ih _)

theorem definition?_of_grows {type : TypeName} (h : ReflTransGen Grows c c')
    (hd : c.definition? type = some d) : c'.definition? type = some d := by
  induction h with
  | refl => exact hd
  | tail _ hgrows ih =>
    cases hgrows with
    | define hdefine =>
      obtain ⟨hfree, rfl⟩ := define_eq_ok_iff.1 hdefine
      rw [definition?, Table.get?_insert, if_neg, ← definition?, ih]
      rintro rfl
      rw [ih] at hfree
      cases hfree
    | declareSubtype => exact ih

theorem nodup_of_grows (h : ReflTransGen Grows c c') (hn : (Table.keys c.types).Nodup) :
    (Table.keys c'.types).Nodup := by
  induction h with
  | refl => exact hn
  | tail _ hgrows ih =>
    cases hgrows with
    | define hdefine =>
      obtain ⟨-, rfl⟩ := define_eq_ok_iff.1 hdefine
      exact Table.nodup_keys_insert ih
    | declareSubtype => exact ih

theorem definition?_initial {d : TypeDefinition} (hd : d ∈ builtins) :
    initial.definition? d.name = some d :=
  (Table.get?_eq_some_iff nodup_initial).2 (List.mem_map_of_mem hd)

theorem perm_builtins (hn : (Table.keys c.types).Nodup)
    (hb : ∀ type ∈ Table.keys initial.types, type ∈ Table.keys c.types) :
    ((Table.keys c.types).filter isBuiltin).Perm (Table.keys initial.types) := by
  refine (List.perm_ext_iff_of_nodup (hn.filter _) nodup_initial).2 fun type => ?_
  rw [List.mem_filter, isBuiltin_iff]
  exact ⟨fun h => h.2, fun h => ⟨hb type h, h⟩⟩

theorem length_types (hn : (Table.keys c.types).Nodup)
    (hb : ∀ type ∈ Table.keys initial.types, type ∈ Table.keys c.types) :
    c.types.length = builtins.length + c.userTypes.length := by
  have hbuiltin := (perm_builtins hn hb).length_eq
  have hsplit := (List.filter_append_perm isBuiltin (Table.keys c.types)).length_eq
  rw [List.length_append, hbuiltin] at hsplit
  simpa [userTypes, Table.keys, initial] using hsplit.symm

/-- A file is added to the built-in types just when its names are distinct and not built in, all
texts of types are read, and no property that is only read is only written. Then the types that are
not built in are those of the file, in the order of names. Otherwise the declarations before one
that fails are added, and nothing else. No change to a catalogue alters a definition that is there,
and the built-in types are always among those that are counted. -/
theorem registration_exact (f : CatalogFile) :
    ((f.registerInto .initial).1 = .ok () ↔
      f.typeNames.Nodup ∧ (∀ type ∈ f.typeNames, isBuiltin type = false) ∧
        ∀ e ∈ f.entries, e.WellFormed) ∧
    ((f.registerInto .initial).1 = .ok () →
      Adds .initial f.entries (f.registerInto .initial).2 ∧
        (f.registerInto .initial).2.userTypes.Perm f.typeNames ∧
        (f.registerInto .initial).2.userTypes.Pairwise (· < ·)) ∧
    (∀ err, (f.registerInto .initial).1 = .error err →
      ∃ before failing after, f.entries = before ++ failing :: after ∧
        Adds .initial before (f.registerInto .initial).2 ∧
        failing.addTo (f.registerInto .initial).2 = .error err) ∧
    (∀ (before after : List Change) type d,
      (before.foldl change .initial).definition? type = some d →
        ((before ++ after).foldl change .initial).definition? type = some d) ∧
    ∀ changes : List Change,
      (∀ d ∈ builtins, (changes.foldl change .initial).definition? d.name = some d) ∧
      builtins.length ≤ (changes.foldl change .initial).types.length ∧
      (changes.foldl change .initial).size = (changes.foldl change .initial).userTypes.length := by
  have h : Registers .initial f.entries (f.registerInto .initial).1 (f.registerInto .initial).2 :=
    registers_addEntries .initial f.entries
  refine ⟨?_, fun hok => ?_, fun err herr => ?_, fun before after type d hd => ?_,
    fun changes => ?_⟩
  · rw [h.ok_iff, CatalogFile.typeNames, List.forall_mem_map]
    simp only [definition?_eq_none_iff, ← isBuiltin_iff, Bool.not_eq_true]
  · have hf : f.registerInto .initial = (.ok (), (f.registerInto .initial).2) := Prod.ext hok rfl
    rw [hok] at h
    cases h with
    | all hadds => exact ⟨hadds, perm_userTypes hf, pairwise_userTypes hf⟩
  · rw [herr] at h
    cases h with
    | upTo before after failing hes hadds hfailing =>
      exact ⟨before, failing, after, hes, hadds, hfailing⟩
  · rw [List.foldl_append]
    exact definition?_of_grows (grows_changes _ after) hd
  · have hgrows := grows_changes .initial changes
    have hkept : ∀ d ∈ builtins, (changes.foldl change .initial).definition? d.name = some d :=
      fun d hd => definition?_of_grows hgrows (definition?_initial hd)
    -- Built-in types stay defined, so nothing is cut off where their number is subtracted.
    have hb : ∀ type ∈ Table.keys initial.types,
        type ∈ Table.keys (changes.foldl change .initial).types := by
      intro type htype
      rw [← isBuiltin_iff, isBuiltin, List.any_eq_true] at htype
      obtain ⟨d, hd, htype⟩ := htype
      rw [← of_decide_eq_true htype]
      exact Table.mem_keys_of_mem (Table.mem_of_get? (hkept d hd))
    have hlength := length_types (nodup_of_grows hgrows nodup_initial) hb
    refine ⟨hkept, by omega, ?_⟩
    rw [size, hlength, Nat.add_sub_cancel_left]

/-- A point, and a record whose property has no type. -/
def crooked : CatalogFile :=
  { records := [
      { name := "Point", supertypes := ["Shape"], properties := [{ name := "x", type := "int" }] },
      { name := "Cloud", supertypes := ["Shape"]
        properties := [{ name := "points", type := "List<" }] },
      { name := "Line", properties := [{ name := "ends", type := "List<Point>" }] }] }

theorem registration_exact_crooked : ∃ err before failing after,
    (crooked.registerInto .initial).1 = .error err ∧
    crooked.entries = before ++ failing :: after ∧
    Adds .initial before (crooked.registerInto .initial).2 ∧
    (crooked.registerInto .initial).2.userTypes = ["Point"] ∧
    (crooked.registerInto .initial).2.supertypes = [("Point", "Shape")] ∧
    ([Change.register crooked, .declareSubtype "int" "long"].foldl change .initial).size = 1 := by
  obtain ⟨-, -, hfailure, -, hchanges⟩ := registration_exact crooked
  obtain ⟨err, herr⟩ : ∃ err, (crooked.registerInto .initial).1 = .error err :=
    Except.exists_of_not_isOk (by decide +kernel)
  obtain ⟨before, failing, after, hentries, hadds, hfailing⟩ := hfailure err herr
  refine ⟨err, before, failing, after, herr, hentries, hadds, by decide +kernel, by decide +kernel,
    ?_⟩
  rw [(hchanges _).2.2]
  decide +kernel

end Catalog

end Typewire
