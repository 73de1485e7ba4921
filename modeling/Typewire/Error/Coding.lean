import Typewire.Error.Located
import Typewire.Json
import Typewire.Value

/-! # Errors of coding

Why a document does not decode and why a value does not encode. The text of a failure in host code
is kept as it is.
-/

namespace Typewire

structure ConstructionError where
  term : TypeTerm
  member? : Option String
  cause : String
  deriving DecidableEq, Repr

namespace ConstructionError

def message (e : ConstructionError) : String :=
  let place := match e.member? with
    | some member => " (setting `" ++ member ++ "`)"
    | none => ""
  "failed to construct " ++ e.term.text ++ place ++ ": " ++ e.cause

end ConstructionError

inductive DecodeCause where
  | missingField (term : TypeTerm) (field : String)
  | unknownField (term : TypeTerm) (field : String)
  | unexpectedKind (expected found : String)
  | outOfRange (value : Int) (target : String)
  | unknownLabel (label : String) (valid : List String)
  | discriminator (found expected : List String)
  | invalidFormat (format value : String)
  | unsupportedKeyType (key : TypeTerm)
  | unresolved (term : TypeTerm)
  | construction (e : ConstructionError)
  | custom (message : String)
  deriving DecidableEq, Repr

abbrev DecodeError := Located DecodeCause

namespace DecodeCause

def message : DecodeCause → String
  | missingField term field => "missing mandatory field " ++ field ++ " of " ++ term.text
  | unknownField term field => "unknown field " ++ field ++ " for " ++ term.text
  | unexpectedKind expected found => "expected " ++ expected ++ ", found " ++ found
  | outOfRange value target => "number " ++ toString value ++ " out of range for " ++ target
  | unknownLabel label valid =>
    "unknown label " ++ Text.quote label ++ ", expected one of " ++ Text.quoteList valid
  | discriminator found expected =>
    "ambiguous or missing discriminator: found " ++ Text.quoteList found ++
      ", expected exactly one of " ++ Text.quoteList expected
  | invalidFormat format value => "value " ++ Text.quote value ++ " is not a valid " ++ format
  | unsupportedKeyType key => "map key type " ++ key.text ++ " is not string-backed"
  | unresolved term => "codec for " ++ term.text ++ " used before its derivation completed"
  | construction e => e.message
  | custom message => message

def unexpected (expected : String) (found : Json) : DecodeCause :=
  unexpectedKind expected found.kindName

/-- What lies behind the cause, if the host gave a reason of its own. -/
def source? : DecodeCause → Option String
  | construction e => some e.cause
  | _ => none

end DecodeCause

inductive EncodeCause where
  | nullMandatory (term : TypeTerm) (field : String)
  | unsupportedKeyType (found : String)
  | duplicateKey (label : String)
  | noVariant (term : TypeTerm) (runtime : String)
  | unexpectedValue (expected found : String)
  | unknownMember (type : TypeName) (member : String)
  | notFinite (x : Binary64)
  | invalidFormat (format value : String)
  | accessor (field cause : String)
  | unresolved (term : TypeTerm)
  | custom (message : String)
  deriving DecidableEq, Repr

abbrev EncodeError := Located EncodeCause

namespace EncodeCause

def message : EncodeCause → String
  | nullMandatory term field => "null in mandatory property " ++ field ++ " of " ++ term.text
  | unsupportedKeyType found => "unsupported key type: " ++ found
  | duplicateKey label => "duplicate map key " ++ Text.quote label
  | noVariant term runtime => "no mapping for concrete type " ++ runtime ++ " in " ++ term.text
  | unexpectedValue expected found => "expected " ++ expected ++ ", found " ++ found
  | unknownMember type member => member ++ " is not a member of " ++ type
  | notFinite x => "non-finite number " ++ x.specialName ++ " has no JSON representation"
  | invalidFormat format value => "value " ++ Text.quote value ++ " is not a valid " ++ format
  | accessor field cause => "failed to read property " ++ field ++ ": " ++ cause
  | unresolved term => "codec for " ++ term.text ++ " used before its derivation completed"
  | custom message => message

def unexpected (expected : String) (found : Value) : EncodeCause :=
  unexpectedValue expected found.describe

def source? : EncodeCause → Option String
  | accessor _ cause => some cause
  | _ => none

end EncodeCause

end Typewire
