import Typewire.Proofs.Json.Parts
import Typewire.Proofs.Registry.Normalization

/-! # Members that decoding consumes

Where members that no property reads are refused, every member inside a document that decodes is
consumed: by a property of a record, as an entry of a map or as the discriminator of a union. Only a
union lets other members stand beside its discriminator, and nothing looks at what is in them.
-/

namespace Typewire

open Json

namespace Catalog

variable (c : Catalog) (s : Settings)

/-- Decoding the first place decodes its part at the spot, as the second place. -/
inductive Enters : Place → Spot → Place → Prop
  | item {term part : TypeTerm} {container : Container} {element : TypeScheme} {items : List Json}
      {index : Nat} {j : Json} : c.layout? term = some (.sequence container element) →
      s.part? term element = some part → items[index]? = some j → j.isNull = false →
      Enters ⟨term, .arr items⟩ (.item index) ⟨part, j⟩
  | entry {term part : TypeTerm} {key value : TypeScheme} {members : Members Json} {name : String}
      {j : Json} : c.layout? term = some (.map key value) → s.part? term value = some part →
      Members.get? name members = some j → j.isNull = false →
      Enters ⟨term, .obj members⟩ (.member name) ⟨part, j⟩
  | field {term part : TypeTerm} {layout : RecordLayout} {p : Property} {members : Members Json}
      {j : Json} : c.layout? term = some (.record layout) → p ∈ layout.properties →
      p.deserializable = true → s.part? term p.type = some part →
      Members.get? p.name members = some j → j.isNull = false →
      Enters ⟨term, .obj members⟩ (.member p.name) ⟨part, j⟩
  | variant {term part : TypeTerm} {layout : UnionLayout} {variant : Variant}
      {members : Members Json} {j : Json} : c.layout? term = some (.union layout) →
      variant ∈ layout.variants → s.part? term variant.target = some part →
      Members.get? variant.discriminator members = some j →
      Enters ⟨term, .obj members⟩ (.member variant.discriminator) ⟨part, j⟩

inductive Visits : Place → List Spot → Place → Prop
  | here (place : Place) : Visits place [] place
  | enter {place next last : Place} {spot : Spot} {path : List Spot} :
      c.Enters s place spot next → Visits next path last → Visits place (spot :: path) last

/-- The member of an object that was decoded at the term to the value is accounted for. -/
inductive Consumes (term : TypeTerm) (name : String) : Value → Prop
  | field {layout : RecordLayout} {p : Property} {fields : List (String × Value)} :
      c.layout? term = some (.record layout) → p ∈ layout.properties → p.name = name →
      p.deserializable = true → Consumes term name (.object term.head fields)
  | entry {key value : TypeScheme} {entries : List (Value × Value)} {entry : Value × Value} :
      c.layout? term = some (.map key value) → entry ∈ entries → c.label entry.1 = name →
      Consumes term name (.map entries)
  | discriminator {layout : UnionLayout} {variant : Variant} {v : Value} :
      c.layout? term = some (.union layout) → variant ∈ layout.variants →
      variant.discriminator = name → Consumes term name v

/-- The term is a union without a variant of this name. -/
def Overlooks (term : TypeTerm) (name : String) : Prop :=
  ∃ layout, c.layout? term = some (.union layout) ∧
    ∀ variant ∈ layout.variants, variant.discriminator ≠ name

/-- The path passes through a member that a union overlooks. -/
def Strays (start : Place) (path : List Spot) : Prop :=
  ∃ before name after place, path = before ++ .member name :: after ∧
    c.Visits s start before place ∧ c.Overlooks place.term name

variable {c s} {term : TypeTerm} {j : Json} {v : Value} {members : Members Json} {name : String}

theorem Enters.isPart {p q : Place} {spot : Spot} (h : c.Enters s p spot q) :
    c.Part s p.term q.term := by
  cases h with
  | item hl hp => exact .item hl hp
  | entry hl hp => exact .entry hl hp
  | field hl hp _ hpart => exact .field hl hp hpart
  | variant hl hv hp => exact .variant hl hv hp

theorem Visits.eq_of_nil {p q : Place} (h : c.Visits s p [] q) : q = p := by
  cases h
  rfl

theorem Visits.reachable {p q : Place} {path : List Spot} (h : c.Visits s p path q) :
    c.Reachable s p.term q.term := by
  induction h with
  | here => exact .refl
  | enter h _ ih => exact .head h.isPart ih

theorem Strays.enter {p q : Place} {spot : Spot} {path : List Spot} (h : c.Enters s p spot q)
    (hs : c.Strays s q path) : c.Strays s p (spot :: path) := by
  obtain ⟨before, name, after, place, rfl, hv, ho⟩ := hs
  exact ⟨spot :: before, name, after, place, rfl, .enter h hv, ho⟩

theorem depth_of_decodeAtomic {kind : AtomicKind} (h : Scalar.decodeAtomic kind j = .ok v) :
    j.depth = 0 := by
  cases j with
  | arr | obj => cases kind <;> cases h
  | _ => simp only [depth]

theorem eq_or_overlooks {layout : UnionLayout} {variant : Variant}
    (hl : c.layout? term = some (.union layout))
    (hone : ∀ w ∈ layout.variants, Members.has w.discriminator members = true → w = variant)
    (hname : name ∈ Members.names members) :
    variant.discriminator = name ∨ c.Overlooks term name := by
  by_cases h : ∃ w ∈ layout.variants, w.discriminator = name
  · obtain ⟨w, hw, rfl⟩ := h
    exact .inl (congrArg Variant.discriminator (hone w hw (Members.has_iff.2 hname)).symm)
  · push Not at h
    exact .inr ⟨layout, hl, h⟩

section Strict

variable (hstrict : s.denyUnknownFields = true)

include hstrict

theorem Reads.consumes (h : c.Reads s term (.obj members) v)
    (hc : ∀ t, c.Reachable s term t → c.Resolved s t) (hname : name ∈ Members.names members) :
    c.Consumes term name v ∨ c.Overlooks term name := by
  generalize hj : Json.obj members = j at h
  cases h with
  | atomic _ hd =>
    subst hj
    exact absurd (depth_of_decodeAtomic hd) (Nat.succ_ne_zero _)
  | enumeration | sequence => cases hj
  | @map _ keyPart _ _ _ _ entries hl hk _ hkind hlength hkeys =>
    cases hj
    have hlabels := map_label_of_reads (hc _ (.single (.key hl hk))) hkind hlength hkeys
    obtain ⟨entry, hentry, hlabel⟩ := List.mem_map.1 (hlabels ▸ hname)
    exact .inl (.entry hl hentry hlabel)
  | record hl hfills =>
    cases hj
    obtain ⟨p, hp, hpname, hdes⟩ := hfills.known hstrict name hname
    exact .inl (.field hl hp hpname hdes)
  | union hl hv _ hi hone =>
    cases hj
    exact (eq_or_overlooks hl hone hname).imp_left (.discriminator hl hv)

theorem Reads.enters {spot : Spot} {i : Json} (h : c.Reads s term j v)
    (hc : ∀ t, c.Reachable s term t → c.Resolved s t) (hpart : j.part? spot = some i)
    (hn : i.isNull = false) :
    (∃ part w, c.Enters s ⟨term, j⟩ spot ⟨part, i⟩ ∧ c.Reads s part i w) ∨
      ∃ name, spot = .member name ∧ c.Overlooks term name := by
  cases h with
  | atomic _ hd =>
    cases j with
    | arr | obj => exact absurd (depth_of_decodeAtomic hd) (Nat.succ_ne_zero _)
    | _ => cases hpart
  | enumeration => cases hpart
  | @sequence _ part _ _ js vs hl hp hlength _ hreads =>
    cases spot with
    | member => cases hpart
    | item index =>
      obtain ⟨w, -, hzip⟩ := exists_right_of_forall₂
        (List.forall₂_iff_zip.2 ⟨hlength, fun he => he⟩) (List.mem_of_getElem? hpart)
      exact .inl ⟨part, w, .item hl hp hpart hn, hreads _ hzip hn⟩
  | @map _ keyPart part _ _ ms entries hl hk hp _ hlength _ _ hreads =>
    cases spot with
    | item => cases hpart
    | member name =>
      obtain ⟨entry, hentry, hzip⟩ := exists_right_of_forall₂
        (List.forall₂_iff_zip.2 ⟨hlength, fun he => he⟩) (Members.mem_of_get? hpart)
      exact .inl ⟨part, entry.2, .entry hl hp hpart hn, hreads _ hzip hn⟩
  | @record _ layout ms fields hl hfills hreads =>
    cases spot with
    | item => cases hpart
    | member name =>
      -- Unknown members are refused, so the member is that of a property.
      obtain ⟨p, hp, rfl, hdes⟩ := hfills.known hstrict name
        (List.mem_map_of_mem (Members.mem_of_get? hpart))
      obtain ⟨part, hpp⟩ := (hc _ .refl).exists_part hl hp
      exact .inl ⟨part, _, .field hl hp hdes hpp hpart hn, hreads p hp hdes part i hpp hpart hn⟩
  | @union _ part layout variant ms k _ hl hv hp hk hone hread =>
    cases spot with
    | item => cases hpart
    | member name =>
      rcases eq_or_overlooks hl hone (List.mem_map_of_mem (Members.mem_of_get? hpart)) with
        rfl | ho
      · obtain rfl := Option.some.inj (hk.symm.trans hpart)
        exact .inl ⟨part, v, .variant hl hv hp hk, hread⟩
      · exact .inr ⟨name, rfl, ho⟩

/-- Along a path, decoding comes to each object, or the path strays. -/
theorem Reads.consumed {path : List Spot} (h : c.Reads s term j v)
    (hc : ∀ t, c.Reachable s term t → c.Resolved s t)
    (hat : j.at? path = some (.obj members)) (hname : name ∈ Members.names members) :
    (∃ part w, c.Visits s ⟨term, j⟩ path ⟨part, .obj members⟩ ∧
      c.Reads s part (.obj members) w ∧ c.Consumes part name w) ∨
    c.Strays s ⟨term, j⟩ (path ++ [.member name]) := by
  induction path generalizing term j v with
  | nil =>
    cases hat
    rcases h.consumes hstrict hc hname with hcons | ho
    · exact .inl ⟨term, v, .here _, h, hcons⟩
    · exact .inr ⟨[], name, [], _, rfl, .here _, ho⟩
  | cons spot path ih =>
    obtain ⟨i, hpart, hat⟩ := Option.bind_eq_some_iff.1 hat
    rcases h.enters hstrict hc hpart (isNull_of_at? hat) with ⟨part, w, he, hread⟩ | ⟨n, rfl, ho⟩
    · rcases ih hread (fun t ht => hc t (.head he.isPart ht)) hat with ⟨t, w', hv, hw⟩ | hs
      · exact .inl ⟨t, w', .enter he hv, hw⟩
      · exact .inr (hs.enter he)
    · exact .inr ⟨[], n, path ++ [.member name], _, rfl, .here _, ho⟩

end Strict

end Catalog

namespace Registry

variable {f : CatalogFile} {r : Except CatalogError Unit} {c : Catalog} {s : Settings}
  {reg : Registry} {ref : CodecRef} {j : Json} {v : Value}

/-- Decoding comes to the object along the path, and what it decodes to accounts for the member. -/
def Accounts (reg : Registry) (c : Catalog) (start : Catalog.Place) (path : List Spot)
    (members : Members Json) (name : String) : Prop :=
  ∃ ref v, c.Visits reg.settings start path ⟨ref.term, .obj members⟩ ∧ reg.Publishes ref ∧
    reg.store.decode ref (.obj members) = .ok v ∧ c.Consumes ref.term name v

/-- Where unknown members are refused, each member of each object inside a document that decodes is
accounted for, but for those that a union overlooks and what is inside them. -/
theorem accounts_of_decode (hf : f.registerInto .initial = (r, c))
    (h : Plain c.host s (fun _ => none) reg) (hp : reg.Publishes ref)
    (hstrict : s.denyUnknownFields = true) (hd : reg.store.decode ref j = .ok v)
    (path : List Spot) (members : Members Json) (name : String)
    (hat : j.at? path = some (.obj members)) (hname : name ∈ Members.names members) :
    reg.Accounts c ⟨ref.term, j⟩ path members name ∨
      c.Strays s ⟨ref.term, j⟩ (path ++ [.member name]) := by
  have hm := CatalogFile.standard_of_registerInto hf
  have hread := reads_of_decode h hp hm hd
  refine (hread.consumed hstrict (fun _ => resolved_of_reachable h hp) hat hname).imp_left ?_
  rintro ⟨part, w, hvisits, hw, hcons⟩
  obtain ⟨slot, hpart⟩ := publishes_of_reachable h hp hvisits.reachable
  refine ⟨⟨part, slot⟩, w, h.agrees.settings ▸ hvisits, hpart, ?_, hcons⟩
  rw [Store.decode, h.agrees.decodeWithin h.sound.closed hpart]
  exact hw.decodeWithin hm (fun _ ht => resolved_of_reachable h hpart ht) (Nat.lt_succ_self _)

def strictShapes (name : TypeName) : Registry :=
  ((initial Catalog.shapes.host { denyUnknownFields := true }).lookup ⟨name, []⟩).2

theorem plain_strictShapes (name : TypeName) :
    Plain Catalog.shapes.host { denyUnknownFields := true } (fun _ => none) (strictShapes name) :=
  .lookup _ .initial

theorem publishes_strictFigure : (strictShapes "Figure").Publishes ⟨⟨"Figure", []⟩, 0⟩ := by
  unfold Publishes
  decide +kernel

def annotated : Members Json := [("note", .str "x"), ("shape", .obj [("label", .str "a")])]

theorem exists_decode_annotated : ∃ v,
    (strictShapes "Figure").store.decode ⟨⟨"Figure", []⟩, 0⟩ (.obj annotated) = .ok v :=
  Except.exists_of_isOk (by decide +kernel)

theorem accounts_of_decode_annotated : (strictShapes "Figure").Accounts .shapes
    ⟨⟨"Figure", []⟩, .obj annotated⟩ [] annotated "shape" := by
  obtain ⟨v, hv⟩ := exists_decode_annotated
  refine (accounts_of_decode registerInto_shapes (plain_strictShapes "Figure")
    publishes_strictFigure rfl hv [] annotated "shape" rfl (by decide)).resolve_right ?_
  rintro ⟨before, name, after, place, hpath, hvisits, layout, hl, hnone⟩
  cases before with
  | cons spot before => simp at hpath
  | nil =>
    cases hpath
    obtain rfl := hvisits.eq_of_nil
    cases Catalog.layout?_figure.symm.trans hl
    exact hnone _ (List.mem_cons_of_mem _ List.mem_cons_self) rfl

/-- The member beside the discriminator is dropped, though unknown members are refused. -/
theorem not_accounts_annotated :
    CatalogFile.shapes.registerInto .initial = (.ok (), .shapes) ∧
      Plain Catalog.shapes.host { denyUnknownFields := true } (fun _ => none)
        (strictShapes "Figure") ∧
      (strictShapes "Figure").Publishes ⟨⟨"Figure", []⟩, 0⟩ ∧
      (∃ v, (strictShapes "Figure").store.decode ⟨⟨"Figure", []⟩, 0⟩ (.obj annotated) = .ok v) ∧
      (Json.obj annotated).at? [] = some (.obj annotated) ∧ "note" ∈ Members.names annotated ∧
      ¬ (strictShapes "Figure").Accounts .shapes ⟨⟨"Figure", []⟩, .obj annotated⟩ [] annotated
        "note" := by
  refine ⟨registerInto_shapes, plain_strictShapes _, publishes_strictFigure,
    exists_decode_annotated, rfl, by decide, ?_⟩
  rintro ⟨ref, v, hvisits, -, -, hcons⟩
  have hterm : ref.term = ⟨"Figure", []⟩ := congrArg Catalog.Place.term hvisits.eq_of_nil
  rw [hterm] at hcons
  cases hcons with
  | field hl => cases Catalog.layout?_figure.symm.trans hl
  | entry hl => cases Catalog.layout?_figure.symm.trans hl
  | discriminator hl hv hname =>
    cases Catalog.layout?_figure.symm.trans hl
    simp only [List.mem_cons, List.not_mem_nil, or_false] at hv
    rcases hv with rfl | rfl <;> exact absurd hname (by decide)

end Registry

end Typewire
