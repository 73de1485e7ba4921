import Typewire.Codec
import Typewire.Error.Registry

/-! # Queries to a registry

What a codec factory may do while it makes a codec: ask for codecs of other terms and for layouts,
register codecs and factories, look at the codecs that are complete, and answer. A query is the tree
of its requests, so that a statement about all factories is one about all trees.
-/

namespace Typewire

/-- Why a computation ends without an answer: host code crashed, or it does not end. -/
inductive Halt where
  | crashed
  | endless
  deriving DecidableEq, Repr

abbrev Outcome (α : Type) := Except Halt α

/-- Requests that end in an answer of type `ρ`, where factories are values of type `φ`. -/
inductive Query (φ ρ : Type) where
  | answer (r : ρ)
  | halt (why : Halt)
  | lookup (term : TypeTerm) (next : Except RegistryError CodecRef → Query φ ρ)
  | layout (type : TypeName) (next : Except RegistryError Layout → Query φ ρ)
  | override (term : TypeTerm) (codec : Codec) (next : Except RegistryError Unit → Query φ ρ)
  | enlist (type : TypeName) (factory : φ) (next : Except RegistryError Unit → Query φ ρ)
  | inspect (next : Store → Query φ ρ)

namespace Query

variable {φ α β γ : Type}

def bind : Query φ α → (α → Query φ β) → Query φ β
  | answer r, f => f r
  | halt why, _ => halt why
  | lookup term next, f => lookup term fun r => (next r).bind f
  | layout type next, f => layout type fun r => (next r).bind f
  | override term codec next, f => override term codec fun r => (next r).bind f
  | enlist type factory next, f => enlist type factory fun r => (next r).bind f
  | inspect next, f => inspect fun store => (next store).bind f

instance : Monad (Query φ) where
  pure := answer
  bind := bind

theorem bind_answer (q : Query φ α) : q.bind answer = q := by
  induction q with
  | answer | halt => rfl
  | lookup _ _ ih | layout _ _ ih | override _ _ _ ih | enlist _ _ _ ih | inspect _ ih =>
    simp only [bind, ih]

theorem bind_assoc (q : Query φ α) (f : α → Query φ β) (g : β → Query φ γ) :
    (q.bind f).bind g = q.bind fun a => (f a).bind g := by
  induction q with
  | answer | halt => rfl
  | lookup _ _ ih | layout _ _ ih | override _ _ _ ih | enlist _ _ _ ih | inspect _ ih =>
    simp only [bind, ih]

instance : LawfulMonad (Query φ) :=
  LawfulMonad.mk' _ (fun q => bind_answer q) (fun _ _ => rfl) (fun q f g => bind_assoc q f g)

end Query

/-- Makes the codecs of all terms with one type name. -/
inductive Factory where
  | of (create : TypeTerm → Query Factory (Except RegistryError Codec))

abbrev Ask (ρ : Type) := Query Factory ρ

namespace Factory

def create : Factory → TypeTerm → Ask (Except RegistryError Codec)
  | of create => create

end Factory

namespace Ask

def lookup (term : TypeTerm) : Ask (Except RegistryError CodecRef) := Query.lookup term .answer

def layout (type : TypeName) : Ask (Except RegistryError Layout) := Query.layout type .answer

def override (term : TypeTerm) (codec : Codec) : Ask (Except RegistryError Unit) :=
  Query.override term codec .answer

def enlist (type : TypeName) (factory : Factory) : Ask (Except RegistryError Unit) :=
  Query.enlist type factory .answer

def store : Ask Store := Query.inspect .answer

end Ask

end Typewire
