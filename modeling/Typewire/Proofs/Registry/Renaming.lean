import Typewire.Proofs.Codec.References
import Typewire.Proofs.Registry.Activity

/-! # Registries that differ in their slots

Slots are only numbers. A registry with some slots more than another, and with the later ones moved
up by as many, answers every request alike, as long as factories do not look at the numbers: they
may compare references and follow them to their codecs, but not compute with slots.
-/

namespace Typewire

def slide (n k slot : Nat) : Nat := if slot < n then slot else slot + k

section Slide

variable {n k slot : Nat}

theorem slide_of_lt (h : slot < n) : slide n k slot = slot := if_pos h

theorem slide_of_le (h : n ≤ slot) : slide n k slot = slot + k := if_neg (Nat.not_lt.2 h)

theorem slide_injective (n k : Nat) : (slide n k).Injective := by
  intro slot slot' h
  unfold slide at h
  split at h <;> split at h <;> omega

end Slide

namespace Table

variable {κ α β : Type} [DecidableEq κ]

def mapValues (f : α → β) (t : Table κ α) : Table κ β := t.map fun entry => (entry.1, f entry.2)

theorem get?_mapValues (f : α → β) (key : κ) (t : Table κ α) :
    get? key (mapValues f t) = (get? key t).map f := by
  induction t with
  | nil => rfl
  | cons entry t ih =>
    rw [mapValues, List.map_cons, get?_cons, ← mapValues, ih, get?_cons]
    split <;> rfl

theorem erase_mapValues (f : α → β) (key : κ) (t : Table κ α) :
    erase key (mapValues f t) = mapValues f (erase key t) := by
  rw [erase, erase, mapValues, mapValues, List.filter_map]
  rfl

theorem insert_mapValues (f : α → β) (key : κ) (a : α) (t : Table κ α) :
    insert key (f a) (mapValues f t) = mapValues f (insert key a t) := by
  rw [insert, erase_mapValues]
  rfl

theorem insertAll_mapValues (f : α → β) (entries : List (κ × α)) (t : Table κ α) :
    insertAll (mapValues f entries) (mapValues f t) = mapValues f (insertAll entries t) := by
  induction entries generalizing t with
  | nil => rfl
  | cons entry entries ih => exact (congrArg _ (insert_mapValues f _ _ t)).trans (ih _)

end Table

def CodecRef.rename (f : Nat → Nat) (ref : CodecRef) : CodecRef := ⟨ref.term, f ref.slot⟩

def Codec.rename (f : Nat → Nat) (codec : Codec) : Codec := codec.mapRefs (CodecRef.rename f)

/-- The second store is the first with other slots, and perhaps with more. -/
structure Store.Renamed (f : Nat → Nat) (store store' : Store) : Prop where
  isInstance : store'.isInstance = store.isInstance
  slots : ∀ slot, store'.slots[f slot]? = store.slots[slot]?.map (Option.map (Codec.rename f))

section Renamed

variable (f : Nat → Nat)

mutual

/-- Factories that ask and give the same but for slots. -/
inductive Factory.Renamed : Factory → Factory → Prop
  | of {create create' : TypeTerm → Ask (Except RegistryError Codec)} :
      (∀ term, Query.Renamed (create term) (create' term)) →
      Factory.Renamed (.of create) (.of create')

inductive Query.Renamed : Ask (Except RegistryError Codec) →
    Ask (Except RegistryError Codec) → Prop
  | refuse (e : RegistryError) : Query.Renamed (.answer (.error e)) (.answer (.error e))
  | give (codec : Codec) : Query.Renamed (.answer (.ok codec)) (.answer (.ok (codec.rename f)))
  | halt (why : Halt) : Query.Renamed (.halt why) (.halt why)
  | lookup {term : TypeTerm}
      {next next' : Except RegistryError CodecRef → Ask (Except RegistryError Codec)} :
      (∀ r, Query.Renamed (next r) (next' (r.map (CodecRef.rename f)))) →
      Query.Renamed (Query.lookup term next) (Query.lookup term next')
  | layout {type : TypeName}
      {next next' : Except RegistryError Layout → Ask (Except RegistryError Codec)} :
      (∀ r, Query.Renamed (next r) (next' r)) →
      Query.Renamed (Query.layout type next) (Query.layout type next')
  | override {term : TypeTerm} {codec : Codec}
      {next next' : Except RegistryError Unit → Ask (Except RegistryError Codec)} :
      (∀ r, Query.Renamed (next r) (next' r)) →
      Query.Renamed (Query.override term codec next) (Query.override term (codec.rename f) next')
  | enlist {type : TypeName} {factory factory' : Factory}
      {next next' : Except RegistryError Unit → Ask (Except RegistryError Codec)} :
      Factory.Renamed factory factory' → (∀ r, Query.Renamed (next r) (next' r)) →
      Query.Renamed (Query.enlist type factory next) (Query.enlist type factory' next')
  | inspect {next next' : Store → Ask (Except RegistryError Codec)} :
      (∀ store store', store.Renamed f store' → Query.Renamed (next store) (next' store')) →
      Query.Renamed (Query.inspect next) (Query.inspect next')

end

end Renamed

/-- The factory does not look at the numbers of slots, except that it may have references to slots
before the `n`th. -/
def Factory.Blind (n : Nat) (factory : Factory) : Prop :=
  ∀ f : Nat → Nat, f.Injective → (∀ slot < n, f slot = slot) → factory.Renamed f factory

namespace Deriving

variable {f : Nat → Nat} {term : TypeTerm}

def renameFound (f : Nat → Nat) : List (TypeTerm × CodecRef) → List (TypeTerm × CodecRef) :=
  List.map fun entry => (entry.1, entry.2.rename f)

theorem renamed_gather {steps : List (Except RegistryError TypeTerm)}
    {next next' : List (TypeTerm × CodecRef) → Ask (Except RegistryError Codec)}
    (h : ∀ found, found.length = steps.length →
      Query.Renamed f (next found) (next' (renameFound f found))) :
    Query.Renamed f (gather steps next) (gather steps next') := by
  induction steps generalizing next next' with
  | nil => exact h [] rfl
  | cons s steps ih =>
    cases s with
    | error e => exact .refuse e
    | ok part =>
      refine .lookup fun r => ?_
      cases r with
      | error e => exact .refuse e
      | ok ref => exact ih fun found hf => h ((part, ref) :: found) (congrArg Nat.succ hf)

theorem fieldCodecs_renameFound (ps : List Property) (found : List (TypeTerm × CodecRef)) :
    fieldCodecs ps (renameFound f found) =
      (fieldCodecs ps found).map (FieldCodec.mapRef (CodecRef.rename f)) := by
  rw [fieldCodecs, renameFound, List.zipWith_map_right, fieldCodecs, List.map_zipWith]
  rfl

theorem branchCodecs_renameFound (vs : List Variant) (found : List (TypeTerm × CodecRef)) :
    branchCodecs vs (renameFound f found) =
      (branchCodecs vs found).map (BranchCodec.mapRef (CodecRef.rename f)) := by
  rw [branchCodecs, renameFound, List.zipWith_map_right, branchCodecs, List.map_zipWith]
  rfl

theorem assemble_renameFound {settings : Settings} {layout : Layout}
    {found : List (TypeTerm × CodecRef)} (h : found.length = (steps term layout).length) :
    assemble settings term (renameFound f found) layout =
      (assemble settings term found layout).rename f := by
  cases layout with
  | atomic | enumeration | foreign => rfl
  | record layout =>
    rw [assemble, fieldCodecs_renameFound]
    rfl
  | union layout =>
    rw [assemble, branchCodecs_renameFound]
    rfl
  | sequence container element =>
    match found, h with
    | [_], _ => rfl
  | map key value =>
    match found, h with
    | [_, _], _ => rfl

theorem renamed_ofTerm (f : Nat → Nat) (settings : Settings) (term : TypeTerm) :
    Query.Renamed f (ofTerm settings term).run (ofTerm settings term).run := by
  rw [run_ofTerm]
  refine .layout fun r => ?_
  cases r with
  | error e => exact .refuse e
  | ok layout =>
    rw [proceed, run_ofLayout]
    refine renamed_gather fun found hf => ?_
    rw [assemble_renameFound hf]
    exact .give _

end Deriving

end Typewire
