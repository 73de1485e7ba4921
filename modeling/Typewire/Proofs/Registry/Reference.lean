import Typewire.Proofs.Codec.References
import Typewire.Proofs.Registry.Closure

/-! # Coding without a registry

The reference makes the codec of each term afresh whenever it comes to it: from the codec registered
for the term, or else from the layout of its type name. It keeps nothing and refers to nested types
by their terms alone.
-/

namespace Typewire

def CodecRef.bare (ref : CodecRef) : CodecRef := ⟨ref.term, 0⟩

def Codec.bare (codec : Codec) : Codec := codec.mapRefs CodecRef.bare

/-- A nested type of a term, with the parameters filled in. -/
def Settings.part? (settings : Settings) (term : TypeTerm) (scheme : TypeScheme) :
    Option TypeTerm :=
  (scheme.instantiate term.args).toOption.map settings.canonical

namespace Reference

section Describe

variable (settings : Settings)

def fields? (term : TypeTerm) : List Property → Option (List FieldCodec)
  | [] => some []
  | p :: ps => do
    let part ← settings.part? term p.type
    let rest ← fields? term ps
    return ⟨p, ⟨part, 0⟩⟩ :: rest

def branches? (term : TypeTerm) : List Variant → Option (List BranchCodec)
  | [] => some []
  | v :: vs => do
    let target ← (v.target.instantiate term.args).toOption
    let rest ← branches? term vs
    return ⟨v.discriminator, target, ⟨settings.canonical target, 0⟩⟩ :: rest

/-- The codec that a valid layout describes. -/
def describe? (term : TypeTerm) : Layout → Option Codec
  | .atomic kind => some (.atomic kind)
  | .record layout => do
    layout.check.toOption
    let fields ← fields? settings term layout.properties
    return .record term layout.constructor fields settings.denyUnknownFields
  | .sequence container element => do
    let element ← settings.part? term element
    return .sequence container ⟨element, 0⟩
  | .map key value => do
    let key ← settings.part? term key
    let value ← settings.part? term value
    return .map term ⟨key, 0⟩ ⟨value, 0⟩
  | .enumeration layout => do
    layout.check.toOption
    return .enumeration term.head (layout.members.map fun m => (m.ident, m.label))
  | .union layout =>
    if layout.variants = [] ∨ ¬ layout.discriminators.Nodup then none
    else do
      let branches ← branches? settings term layout.variants
      return .union term branches
  | .foreign => none

end Describe

end Reference

/-- What codecs are made from: the types of the host, the settings and the codecs registered for
canonical terms. -/
structure Reference where
  host : Host
  settings : Settings
  customs : TypeTerm → Option Codec

namespace Reference

variable (r : Reference)

def codec? (term : TypeTerm) : Option Codec :=
  match r.customs term with
  | some codec => some codec
  | none =>
    match r.host.layout term.head with
    | some (.ok layout) => describe? r.settings term layout
    | _ => none

def scope : Scope where
  isInstance := r.host.isInstance
  isStringBacked ref := (r.codec? (r.settings.canonical ref.term)).any Codec.isStringBacked

def encodeWithin : Nat → TypeTerm → Value → Encoding Json
  | 0, _, _ => .endless
  | calls + 1, term, v =>
    match r.codec? (r.settings.canonical term) with
    | none => .fail (.unresolved term)
    | some codec => codec.encodeWith (fun ref => encodeWithin calls ref.term) r.scope v

def encode (term : TypeTerm) (v : Value) : Encoding Json := r.encodeWithin callLimit term v

def decodeWithin : Nat → TypeTerm → Json → Decoding Value
  | 0, term, _ => .fail (.unresolved term)
  | calls + 1, term, j =>
    match r.codec? (r.settings.canonical term) with
    | none => .fail (.unresolved term)
    | some codec => codec.decodeWith (fun ref => decodeWithin calls ref.term) r.scope j

def decode (term : TypeTerm) (j : Json) : Decoding Value := r.decodeWithin (j.depth + 1) term j

theorem exists_layout {r : Reference} {term : TypeTerm} {codec : Codec}
    (h : r.codec? term = some codec) (hc : r.customs term = none) :
    ∃ layout, r.host.layout term.head = some (.ok layout) ∧
      describe? r.settings term layout = some codec := by
  rw [codec?, hc] at h
  rcases hl : r.host.layout term.head with _ | _ | layout <;> simp only [hl] at h
  · cases h
  · cases h
  · exact ⟨layout, rfl, h⟩

/-- A registry whose codecs are those of the reference, apart from slots. -/
structure Agrees (r : Reference) (reg : Registry) : Prop where
  host : reg.host = r.host
  settings : reg.settings = r.settings
  factories : reg.factories = []
  layouts : ∀ type layout, Table.get? type reg.layouts = some layout →
    r.host.layout type = some (.ok layout)
  codecs : ∀ key slot codec, reg.slot? key = some slot → reg.Holds slot codec →
    r.codec? key = some codec.bare
  customs : ∀ key codec, r.customs key = some codec →
    ∃ slot, Table.get? key reg.published = some slot

variable {r} {reg : Registry} {ref : CodecRef}

namespace Agrees

variable (h : Agrees r reg) (hc : reg.Closed)

include h hc

theorem canonical (hp : reg.Publishes ref) : r.settings.canonical ref.term = ref.term := by
  have hk := hc.canonical _ _ hp
  rwa [Registry.canonical, h.settings] at hk

theorem published (hp : reg.Publishes ref) :
    ∃ codec, reg.store.codec? ref = some codec ∧ (∀ nested ∈ codec.refs, reg.Publishes nested) ∧
      r.codec? (r.settings.canonical ref.term) = some codec.bare := by
  obtain ⟨codec, hs, hrefs⟩ := hc.holds hp
  refine ⟨codec, hs.codec?, hrefs, ?_⟩
  rw [h.canonical hc hp]
  exact h.codecs ref.term ref.slot codec (by rw [Registry.slot?, hp, Option.some_or]) hs

theorem exists_codec (hp : reg.Publishes ref) :
    ∃ codec, reg.store.codec? ref = some codec ∧ r.codec? ref.term = some codec.bare ∧
      ∀ nested ∈ codec.refs, reg.Publishes nested := by
  obtain ⟨codec, hs, hrefs, hr⟩ := h.published hc hp
  rw [h.canonical hc hp] at hr
  exact ⟨codec, hs, hr, hrefs⟩

theorem isStringBacked (hp : reg.Publishes ref) :
    r.scope.isStringBacked ref.bare = reg.store.scope.isStringBacked ref := by
  obtain ⟨codec, hs, -, hr⟩ := h.published hc hp
  change Option.any _ (r.codec? (r.settings.canonical ref.term)) = Option.any _ _
  rw [hr, hs, Option.any_some, Option.any_some, Codec.bare, Codec.isStringBacked_mapRefs]

theorem encodeWithin (hp : reg.Publishes ref) (calls : Nat) (v : Value) :
    reg.store.encodeWithin calls ref v = r.encodeWithin calls ref.term v := by
  induction calls generalizing ref v with
  | zero => rfl
  | succ calls ih =>
    obtain ⟨codec, hs, hrefs, hr⟩ := h.published hc hp
    rw [Store.encodeWithin, hs, Reference.encodeWithin, hr]
    symm
    refine Codec.encodeWith_mapRefs (f := CodecRef.bare) (fun nested hn => funext fun v => ?_)
      (fun _ _ => rfl) ?_ (fun nested hn => h.isStringBacked hc (hrefs nested hn)) v
    · exact ih (hrefs nested hn) v
    · exact congrArg Host.isInstance h.host.symm

theorem decodeWithin (hp : reg.Publishes ref) (calls : Nat) (j : Json) :
    reg.store.decodeWithin calls ref j = r.decodeWithin calls ref.term j := by
  induction calls generalizing ref j with
  | zero => rfl
  | succ calls ih =>
    obtain ⟨codec, hs, hrefs, hr⟩ := h.published hc hp
    rw [Store.decodeWithin, hs, Reference.decodeWithin, hr]
    symm
    refine Codec.decodeWith_mapRefs (f := CodecRef.bare) (fun nested hn => funext fun j => ?_)
      (fun _ _ => rfl) (fun nested hn => h.isStringBacked hc (hrefs nested hn)) j
    exact ih (hrefs nested hn) j

end Agrees

end Reference

end Typewire
