import Typewire.Proofs.Catalog.Describe
import Typewire.Proofs.Rank
import Typewire.Proofs.Registry.Dependencies
import Typewire.Schema.Dictionary

/-! # Types in schemas

The schema of a type has in it the schemas of its parts, except for the types of map keys. Records
and unions are referenced by name; all other types are written out in place, which comes to an end
if every cycle of parts passes through a record or a union.
-/

namespace Typewire

open Relation

def Layout.shown : Layout → List TypeScheme
  | .map _ value => [value]
  | layout => layout.parts

theorem Layout.mem_parts_of_shown {layout : Layout} {scheme : TypeScheme}
    (h : scheme ∈ layout.shown) : scheme ∈ layout.parts := by
  cases layout with
  | map key value => exact List.mem_cons_of_mem _ h
  | _ => exact h

namespace Codec

def shown : Codec → List TypeTerm
  | record _ _ fields _ => fields.map fun f => f.codec.term
  | sequence _ element => [element.term]
  | map _ _ value => [value.term]
  | union _ branches => branches.map BranchCodec.target
  | _ => []

def labels : Codec → List String
  | record _ _ fields _ => fields.map fun f => f.property.name
  | union _ branches => branches.map BranchCodec.discriminator
  | _ => []

def key? : Codec → Option TypeTerm
  | map _ key _ => some key.term
  | _ => none

end Codec

namespace Reference

variable (r : Reference)

/-- The second term is the type of a property, of the elements, of the map values or of a variant of
the first. -/
def Depicts (key part : TypeTerm) : Prop :=
  r.customs key = none ∧ ∃ layout scheme target, r.host.layout key.head = some (.ok layout) ∧
    scheme ∈ layout.shown ∧ scheme.instantiate key.args = .ok target ∧
    part = r.settings.canonical target

/-- The canonical terms that are reached from a term by parts other than map keys. -/
def depicted (key : TypeTerm) : Set TypeTerm := { part | ReflTransGen r.Depicts key part }

/-- The schemas of the term are in the dictionary, under a name. -/
def Named (key : TypeTerm) : Prop :=
  r.customs key = none ∧
    ∃ layout, r.host.layout key.head = some (.ok layout) ∧ layout.isNamed = true

/-- The first term is a map whose keys are of the second. -/
def Keys (map key : TypeTerm) : Prop :=
  r.customs map = none ∧ ∃ scheme value target,
    r.host.layout map.head = some (.ok (.map scheme value)) ∧
    scheme.instantiate map.args = .ok target ∧ key = r.settings.canonical target

def StringBacked (key : TypeTerm) : Prop :=
  ∃ codec, r.codec? key = some codec ∧ codec.isStringBacked = true

/-- The second term is the type of a part of the first, which is not named. -/
def Nests (key part : TypeTerm) : Prop := r.Needs key part ∧ ¬ r.Named key

/-- Every cycle of parts in the closure of the term passes through a named term. -/
def Guarded (key : TypeTerm) : Prop := ∀ k ∈ r.closure key, ¬ TransGen r.Nests k k

/-- The terms that are written out in the fragment of a term, up to the references. -/
def spread (key : TypeTerm) : Set TypeTerm :=
  { part | ReflTransGen (fun a b => r.Depicts a b ∧ ¬ r.Named a) key part }

def inner (key : TypeTerm) : Set TypeTerm := { m | ∃ part, r.Depicts key part ∧ m ∈ r.spread part }

variable {r} {key part a b : TypeTerm} {layout : Layout} {codec : Codec}

theorem Depicts.needs (h : r.Depicts key part) : r.Needs key part := by
  obtain ⟨hc, layout, scheme, target, hl, hs, hi, rfl⟩ := h
  exact ⟨hc, layout, scheme, target, hl, Layout.mem_parts_of_shown hs, hi, rfl⟩

theorem spread_of_named (h : r.Named key) : r.spread key = {key} := by
  ext m
  refine ⟨fun hm => ?_, fun hm => hm ▸ ReflTransGen.refl⟩
  rcases hm.cases_head with rfl | ⟨part, hstep, -⟩
  · rfl
  · exact absurd h hstep.2

theorem spread_of_not_named (h : ¬ r.Named key) : r.spread key = insert key (r.inner key) := by
  ext m
  refine ⟨fun hm => ?_, fun hm => ?_⟩
  · rcases hm.cases_head with rfl | ⟨part, hstep, hm⟩
    · exact Set.mem_insert _ _
    · exact Set.mem_insert_of_mem _ ⟨part, hstep.1, hm⟩
  · obtain rfl | ⟨part, hp, hm⟩ := hm
    · exact ReflTransGen.refl
    · exact ReflTransGen.head ⟨hp, h⟩ hm

theorem not_keys_of_named (h : r.Named key) : ¬ r.Keys key part := by
  obtain ⟨-, layout, hl, hn⟩ := h
  rintro ⟨-, scheme, value, target, hl', -⟩
  cases hl.symm.trans hl'
  cases hn

theorem map_target {s : Settings} {vs : List Variant} {bs : List BranchCodec}
    (h : branches? s key vs = some bs) :
    vs.map (fun v => v.target.instantiate key.args) = bs.map fun b => .ok b.target := by
  induction vs generalizing bs with
  | nil =>
    cases h
    rfl
  | cons v vs ih =>
    obtain ⟨target, ht, h⟩ := Option.bind_eq_some_iff.1 h
    obtain ⟨rest, hrest, h⟩ := Option.bind_eq_some_iff.1 h
    cases h
    have hok : v.target.instantiate key.args = .ok target := by
      cases hi : v.target.instantiate key.args <;> rw [hi] at ht <;> cases ht
      rfl
    rw [List.map_cons, List.map_cons, ih hrest, hok]

theorem exists_target {s : Settings} {layout : UnionLayout} {owner : TypeTerm}
    {bs : List BranchCodec} (h : describe? s key (.union layout) = some (.union owner bs))
    {target : TypeTerm} : (∃ v ∈ layout.variants, v.target.instantiate key.args = .ok target) ↔
      target ∈ bs.map BranchCodec.target := by
  rw [describe?] at h
  split at h
  · cases h
  · obtain ⟨bs', hbs, h⟩ := Option.bind_eq_some_iff.1 h
    cases h
    have hmem := congrArg (Except.ok target ∈ ·) (map_target hbs)
    simpa using hmem

theorem exists_shown_record {s : Settings} {layout : RecordLayout} {fs : List FieldCodec}
    (hps : fs.map FieldCodec.property = layout.properties)
    (hparts : ∀ f ∈ fs, s.part? key f.property.type = some f.codec.term) :
    (∃ scheme ∈ (Layout.record layout).shown, s.part? key scheme = some part) ↔
      ∃ term ∈ fs.map fun f => f.codec.term, s.canonical term = part := by
  constructor
  · rintro ⟨scheme, hs, hp⟩
    obtain ⟨p, hp', rfl⟩ := List.mem_map.1 hs
    obtain ⟨f, hf, rfl⟩ := List.mem_map.1 (hps.symm ▸ hp')
    obtain rfl := Option.some.inj ((hparts f hf).symm.trans hp)
    exact ⟨_, List.mem_map_of_mem hf, canonical_of_part? hp⟩
  · rintro ⟨term, ht, rfl⟩
    obtain ⟨f, hf, rfl⟩ := List.mem_map.1 ht
    refine ⟨f.property.type, List.mem_map_of_mem (hps ▸ List.mem_map_of_mem hf), ?_⟩
    rw [canonical_of_part? (hparts f hf)]
    exact hparts f hf

theorem exists_shown_union {s : Settings} {layout : UnionLayout} {owner : TypeTerm}
    {bs : List BranchCodec} (h : describe? s key (.union layout) = some (.union owner bs)) :
    (∃ scheme ∈ (Layout.union layout).shown, s.part? key scheme = some part) ↔
      ∃ term ∈ bs.map BranchCodec.target, s.canonical term = part := by
  simp only [part?_eq_some, ← exists_target h]
  constructor
  · rintro ⟨scheme, hs, target, hi, rfl⟩
    obtain ⟨v, hv, rfl⟩ := List.mem_map.1 hs
    exact ⟨target, ⟨v, hv, hi⟩, rfl⟩
  · rintro ⟨target, ⟨v, hv, hi⟩, rfl⟩
    exact ⟨v.target, List.mem_map_of_mem hv, target, hi, rfl⟩

/-- What the schema of a term takes over from its codec. -/
structure Draws (r : Reference) (key : TypeTerm) (codec : Codec) : Prop where
  named : codec.isNamed = true ↔ r.Named key
  shown : ∀ part, r.Depicts key part ↔ ∃ term ∈ codec.shown, r.settings.canonical term = part
  labels : codec.labels.Nodup
  keys : ∀ part, r.Keys key part ↔ codec.key? = some part
  owner : ∀ owner k v, codec = .map owner k v → owner = key
  custom : ∀ c, codec ≠ .custom c

section Described

variable (hc : r.customs key = none) (hl : r.host.layout key.head = some (.ok layout))

include hc hl

theorem named_iff : r.Named key ↔ layout.isNamed = true := by
  simp [Named, hc, hl]

theorem depicts_iff :
    r.Depicts key part ↔ ∃ scheme ∈ layout.shown, r.settings.part? key scheme = some part := by
  simp [Depicts, hc, hl, part?_eq_some]

theorem keys_iff : r.Keys key part ↔
    ∃ scheme value, layout = .map scheme value ∧ r.settings.part? key scheme = some part := by
  simp [Keys, hc, hl, part?_eq_some]

theorem draws_describe (h : describe? r.settings key layout = some codec) : Draws r key codec := by
  have hnamed := named_iff hc hl
  have hdepicts : ∀ part, r.Depicts key part ↔
      ∃ scheme ∈ layout.shown, r.settings.part? key scheme = some part :=
    fun _ => depicts_iff hc hl
  have hkeys : ∀ part, r.Keys key part ↔
      ∃ scheme value, layout = .map scheme value ∧ r.settings.part? key scheme = some part :=
    fun _ => keys_iff hc hl
  cases layout with
  | atomic kind =>
    cases h
    refine ⟨?_, ?_, List.nodup_nil, ?_, ?_, ?_⟩ <;>
      simp_all [Codec.isNamed, Layout.isNamed, Codec.shown, Layout.shown, Layout.parts, Codec.key?]
  | record layout =>
    obtain ⟨hnodup, fs, rfl, hps, hparts⟩ := describe?_record h
    refine ⟨?_, fun part => ?_, ?_, ?_, ?_, ?_⟩
    · simp [hnamed, Codec.isNamed, Layout.isNamed]
    · exact (hdepicts part).trans (exists_shown_record hps hparts)
    · rw [← hps, List.map_map] at hnodup
      exact hnodup
    · simp [hkeys, Codec.key?]
    · simp
    · simp
  | sequence container element =>
    obtain ⟨part', hp, h⟩ := Option.bind_eq_some_iff.1 h
    cases h
    refine ⟨?_, fun part => ?_, List.nodup_nil, ?_, ?_, ?_⟩
    · simp [hnamed, Codec.isNamed, Layout.isNamed]
    · simp [hdepicts, Codec.shown, Layout.shown, Layout.parts, hp, canonical_of_part? hp]
    · simp [hkeys, Codec.key?]
    · simp
    · simp
  | map keyScheme value =>
    obtain ⟨k, hk, h⟩ := Option.bind_eq_some_iff.1 h
    obtain ⟨v, hv, h⟩ := Option.bind_eq_some_iff.1 h
    cases h
    refine ⟨?_, fun part => ?_, List.nodup_nil, ?_, ?_, ?_⟩
    · simp [hnamed, Codec.isNamed, Layout.isNamed]
    · simp [hdepicts, Codec.shown, Layout.shown, hv, canonical_of_part? hv]
    · simp [hkeys, Codec.key?, hk]
    · rintro _ _ _ ⟨⟩
      rfl
    · simp
  | enumeration layout =>
    obtain ⟨-, -, rfl⟩ := describe?_enumeration h
    refine ⟨?_, ?_, List.nodup_nil, ?_, ?_, ?_⟩ <;>
      simp_all [Codec.isNamed, Layout.isNamed, Codec.shown, Layout.shown, Layout.parts, Codec.key?]
  | union layout =>
    obtain ⟨hnodup, bs, rfl, hbs⟩ := describe?_union h
    refine ⟨?_, fun part => ?_, ?_, ?_, ?_, ?_⟩
    · simp [hnamed, Codec.isNamed, Layout.isNamed]
    · exact (hdepicts part).trans (exists_shown_union h)
    · rw [Codec.labels, map_discriminator hbs]
      exact hnodup
    · simp [hkeys, Codec.key?]
    · simp
    · simp
  | foreign => cases h

end Described

theorem Draws.of_bare (h : Draws r key codec.bare) : Draws r key codec := by
  refine ⟨?_, ?_, ?_, ?_, ?_, ?_⟩
  · rw [← h.named]
    cases codec <;> rfl
  · intro part
    rw [h.shown]
    cases codec <;>
      simp [Codec.bare, Codec.mapRefs, Codec.shown, CodecRef.bare, FieldCodec.mapRef,
        BranchCodec.mapRef]
  · have hlabels : codec.bare.labels = codec.labels := by
      cases codec <;>
        simp [Codec.bare, Codec.mapRefs, Codec.labels, FieldCodec.mapRef, BranchCodec.mapRef]
    exact hlabels ▸ h.labels
  · intro part
    rw [h.keys]
    cases codec <;> rfl
  · rintro owner k v rfl
    exact h.owner owner _ _ rfl
  · rintro c rfl
    exact h.custom c rfl

theorem draws_of_codec? (hformatted : ∀ codec, r.customs key = some codec →
      ∃ format accepts, codec = .formatted format accepts)
    (h : r.codec? key = some codec.bare) : Draws r key codec := by
  refine Draws.of_bare ?_
  rw [codec?] at h
  rcases hc : r.customs key with _ | custom
  · rw [hc] at h
    simp only at h
    split at h
    · exact draws_describe hc ‹_› h
    · cases h
  · rw [hc] at h
    obtain ⟨format, accepts, rfl⟩ := hformatted custom hc
    rw [← Option.some.inj h]
    refine ⟨?_, ?_, List.nodup_nil, ?_, ?_, ?_⟩ <;>
      simp [Codec.isNamed, Named, Depicts, Keys, hc, Codec.shown, Codec.key?]

/-- How many terms are reached from a term without passing through a named one. -/
noncomputable def rank (r : Reference) (key : TypeTerm) : Nat :=
  { part | TransGen r.Nests key part }.ncard

section Rank

variable {root : TypeTerm} (hfin : (r.closure root).Finite)

include hfin

theorem rank_le (ha : a ∈ r.closure root) : r.rank a ≤ (r.closure root).ncard :=
  rankBy_le (fun _ _ h => h.1) hfin ha

theorem rank_lt (hg : r.Guarded root) (ha : a ∈ r.closure root) (h : r.Nests a b) :
    r.rank b < r.rank a :=
  rankBy_lt (fun _ _ h => h.1) hfin ha h (hg b (ReflTransGen.tail ha h.1))

end Rank

end Reference

end Typewire
