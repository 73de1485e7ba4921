import Typewire.Layout.Validity
import Typewire.Registry.Query
import Typewire.Settings

/-! # Deriving codecs from layouts

The factory for types that have none of their own: check the layout, ask for the codec of each
nested type with the parameters filled in, and put the references together.
-/

namespace Typewire

/-- A query that may be refused. -/
abbrev Deriving (α : Type) := ExceptT RegistryError Ask α

namespace Deriving

variable {α : Type}

def ofFault (term : TypeTerm) (r : Except LayoutFault α) : Deriving α :=
  match r with
  | .ok a => pure a
  | .error fault => throw (.invalidLayout term fault.message)

def nested (term : TypeTerm) (scheme : TypeScheme) : Deriving CodecRef :=
  match scheme.instantiate term.args with
  | .ok nested => ExceptT.mk (Ask.lookup nested)
  | .error e => throw (.unbound e)

def fields (term : TypeTerm) : List Property → Deriving (List FieldCodec)
  | [] => pure []
  | p :: ps => do
    let codec ← nested term p.type
    let rest ← fields term ps
    return ⟨p, codec⟩ :: rest

/-- The branches of a union. A repeated discriminator is found only when its turn comes. -/
def branches (term : TypeTerm) (seen : List String) : List Variant → Deriving (List BranchCodec)
  | [] => pure []
  | v :: vs =>
    if seen.contains v.discriminator then
      throw (.invalidLayout term (LayoutFault.duplicateDiscriminator v.discriminator).message)
    else
      match v.target.instantiate term.args with
      | .error e => throw (.unbound e)
      | .ok target => do
        let codec ← ExceptT.mk (Ask.lookup target)
        let rest ← branches term (v.discriminator :: seen) vs
        return ⟨v.discriminator, target, codec⟩ :: rest

def noCodec : String := "opaque type needs a custom codec or factory"

def ofLayout (settings : Settings) (term : TypeTerm) : Layout → Deriving Codec
  | .atomic kind => pure (.atomic kind)
  | .record layout => do
    ofFault term layout.check
    let fields ← fields term layout.properties
    return .record term layout.constructor fields settings.denyUnknownFields
  | .sequence container element => do
    let element ← nested term element
    return .sequence container element
  | .map key value => do
    let key ← nested term key
    let value ← nested term value
    return .map term key value
  | .enumeration layout => do
    ofFault term layout.check
    return .enumeration term.head (layout.members.map fun m => (m.ident, m.label))
  | .union layout => do
    if layout.variants.isEmpty then
      throw (.invalidLayout term LayoutFault.noVariants.message)
    let branches ← branches term [] layout.variants
    return .union term branches
  | .foreign => throw (.unsupported ⟨term, noCodec⟩)

def ofTerm (settings : Settings) (term : TypeTerm) : Deriving Codec := do
  let layout ← ExceptT.mk (Ask.layout term.head)
  ofLayout settings term layout

end Deriving

end Typewire
