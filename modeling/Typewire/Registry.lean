import Typewire.Host
import Typewire.Registry.Derivation
import Typewire.Table

/-! # The registry

A registry derives one codec for each term and keeps it. While a derivation runs, the terms in
progress are staged: a nested lookup of a staged term gets the slot that is still empty. When the
outermost derivation succeeds, what is staged is published; when it fails, all of it is dropped.
-/

namespace Typewire

structure Stats where
  hits : Nat := 0
  misses : Nat := 0
  derivations : Nat := 0
  layouts : Nat := 0
  deriving DecidableEq, Repr

structure Registry where
  host : Host
  settings : Settings := {}
  slots : Array (Option Codec) := #[]
  published : Table TypeTerm Nat := []
  staged : Table TypeTerm Nat := []
  depth : Nat := 0
  layouts : Table TypeName Layout := []
  factories : Table TypeName Factory := []
  stats : Stats := {}

namespace Registry

def store (reg : Registry) : Store := ⟨reg.host.isInstance, reg.slots⟩

def canonical (reg : Registry) (term : TypeTerm) : TypeTerm := reg.settings.canonical term

def slot? (reg : Registry) (key : TypeTerm) : Option Nat :=
  (Table.get? key reg.published).or (Table.get? key reg.staged)

def size (reg : Registry) : Nat := reg.published.length

def countHit (reg : Registry) : Registry :=
  { reg with stats := { reg.stats with hits := reg.stats.hits + 1 } }

def stage (reg : Registry) (key : TypeTerm) : Registry :=
  { reg with
    slots := reg.slots.push none
    staged := Table.insert key reg.slots.size reg.staged
    depth := reg.depth + 1
    stats := { reg.stats with misses := reg.stats.misses + 1 } }

def isFilled (reg : Registry) (slot : Nat) : Bool := reg.slots[slot]?.join.isSome

/-- Publish the staged terms whose slots are filled. -/
def publish (reg : Registry) : Registry :=
  let filled := reg.staged.filter fun entry => reg.isFilled entry.2
  { reg with
    published := Table.insertAll filled reg.published
    staged := [] }

def fill (reg : Registry) (slot : Nat) (codec : Codec) : Registry :=
  { reg with
    slots := reg.slots.setIfInBounds slot (some codec)
    depth := reg.depth - 1
    stats := { reg.stats with derivations := reg.stats.derivations + 1 } }

def complete (reg : Registry) (slot : Nat) (codec : Codec) : Registry :=
  let reg := reg.fill slot codec
  if reg.depth = 0 then reg.publish else reg

/-- End a derivation without a codec: the term is no longer staged, and at the outermost level none
is. -/
def abandon (reg : Registry) (key : TypeTerm) : Registry :=
  let depth := reg.depth - 1
  { reg with depth, staged := if depth = 0 then [] else Table.erase key reg.staged }

/-- The layout of a type name, asked of the host only once. -/
def layoutOf (reg : Registry) (type : TypeName) :
    Outcome (Except RegistryError Layout) × Registry :=
  match Table.get? type reg.layouts with
  | some layout => (.ok (.ok layout), reg)
  | none =>
    match reg.host.layout type with
    | none => (.error .crashed, reg)
    | some (.error e) => (.ok (.error (.host e)), reg)
    | some (.ok layout) =>
      (.ok (.ok layout), { reg with
        layouts := Table.insert type layout reg.layouts
        stats := { reg.stats with layouts := reg.stats.layouts + 1 } })

def isKnown (reg : Registry) (key : TypeTerm) : Bool :=
  Table.has key reg.staged || Table.has key reg.published

/-- Give a codec to a term that is neither published nor in progress. -/
def override (reg : Registry) (term : TypeTerm) (codec : Codec) :
    Except RegistryError Unit × Registry :=
  let key := reg.canonical term
  if reg.isKnown key then (.error (.alreadyResolved key), reg)
  else
    (.ok (), { reg with
      slots := reg.slots.push (some codec)
      published := Table.insert key reg.slots.size reg.published })

def isInUse (reg : Registry) (type : TypeName) : Bool :=
  reg.staged.any (fun entry => entry.1.head = type) ||
    reg.published.any fun entry => entry.1.head = type

/-- Give a factory to a type name that has none and is not in use. -/
def enlist (reg : Registry) (type : TypeName) (factory : Factory) :
    Except RegistryError Unit × Registry :=
  if reg.isInUse type ∨ Table.has type reg.factories then (.error (.factoryConflict type), reg)
  else (.ok (), { reg with factories := Table.insert type factory reg.factories })

def recipe (reg : Registry) (key : TypeTerm) : Ask (Except RegistryError Codec) :=
  match Table.get? key.head reg.factories with
  | some factory => factory.create key
  | none => (Deriving.ofTerm reg.settings key).run

end Registry

abbrev Lookup := TypeTerm → Registry → Outcome (Except RegistryError CodecRef) × Registry

namespace Query

variable {ρ α β : Type}

def run (resolve : Lookup) : Ask ρ → Registry → Outcome ρ × Registry
  | answer r, reg => (.ok r, reg)
  | halt why, reg => (.error why, reg)
  | lookup term next, reg =>
    match resolve term reg with
    | (.ok r, reg) => run resolve (next r) reg
    | (.error why, reg) => (.error why, reg)
  | layout type next, reg =>
    match reg.layoutOf type with
    | (.ok r, reg) => run resolve (next r) reg
    | (.error why, reg) => (.error why, reg)
  | override term codec next, reg =>
    let (r, reg) := reg.override term codec
    run resolve (next r) reg
  | enlist type factory next, reg =>
    let (r, reg) := reg.enlist type factory
    run resolve (next r) reg
  | inspect next, reg => run resolve (next reg.store) reg

theorem run_bind (resolve : Lookup) (q : Ask α) (f : α → Ask β) (reg : Registry) :
    (q.bind f).run resolve reg =
      match q.run resolve reg with
      | (.ok a, reg) => (f a).run resolve reg
      | (.error why, reg) => (.error why, reg) := by
  induction q generalizing reg with
  | answer | halt => rfl
  | lookup term next ih =>
    simp only [bind, run]
    split <;> simp_all
  | layout type next ih =>
    simp only [bind, run]
    split <;> simp_all
  | override _ _ _ ih | enlist _ _ _ ih | inspect _ ih => simp only [bind, run, ih]

end Query

namespace Registry

def derive (resolve : Lookup) (key : TypeTerm) (reg : Registry) :
    Outcome (Except RegistryError Codec) × Registry :=
  let begun := reg.stage key
  (begun.recipe key).run resolve begun

/-- Look a term up, with at most `calls` derivations inside one another. -/
def resolve : Nat → Lookup
  | 0, _, reg => (.error .endless, reg)
  | calls + 1, term, reg =>
    let key := reg.canonical term
    match reg.slot? key with
    | some slot => (.ok (.ok ⟨key, slot⟩), reg.countHit)
    | none =>
      let slot := reg.slots.size
      match derive (resolve calls) key reg with
      | (.ok (.ok codec), reg) => (.ok (.ok ⟨key, slot⟩), reg.complete slot codec)
      | (.ok (.error e), reg) => (.ok (.error e), reg.abandon key)
      | (.error why, reg) => (.error why, reg.abandon key)

def ask {ρ : Type} (reg : Registry) (query : Ask ρ) : Outcome ρ × Registry :=
  query.run (resolve callLimit) reg

/-- The codec of a term, derived on first use. -/
def lookup (reg : Registry) (term : TypeTerm) :
    Outcome (Except RegistryError CodecRef) × Registry :=
  reg.ask (Ask.lookup term)

end Registry

end Typewire
