import Typewire.Command
import Typewire.Proofs.Codec.Inversion

/-! # The command that normalizes

What it prints once the input has decoded.
-/

namespace Typewire

namespace Command

variable {path type input : String} {text? : Option String} {s : Settings} {c : Catalog}
  {reg : Registry} {ref : CodecRef} {j j' : Json} {v : Value}

/-- The command has the codec of the type, in a registry of its own, and has read the input. -/
structure Prepared (path : String) (text? : Option String) (type input : String) (s : Settings)
    (c : Catalog) (reg : Registry) (ref : CodecRef) (j : Json) : Prop where
  catalog : openCatalog path text? = .ok c
  codec : ∃ term, readType type = .ok term ∧ (registry c s).lookup term = (.ok (.ok ref), reg)
  document : Json.read? input = some j

theorem Prepared.normalize (h : Prepared path text? type input s c reg ref j)
    (hd : reg.store.decode ref j = .ok v) (he : reg.store.encode ref v = pure j') :
    Command.normalize path text? type input s = .ok j'.pretty := by
  obtain ⟨term, hterm, hlookup⟩ := h.codec
  have hrun : (reg.store.encode ref v).run = some (.ok j') := congrArg ExceptT.run he
  have hsettle : settle (.ok (.ok ref : Except RegistryError CodecRef)) = .ok (.ok ref) := rfl
  simp only [Command.normalize, h.catalog, hterm, hlookup, hsettle, h.document, hd, hrun,
    Except.ok_bind, Except.mapError_ok]
  rfl

end Command

end Typewire
