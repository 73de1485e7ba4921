import Typewire.Proofs.Registry.Derivation

/-! # The steps of a derivation

The derivation of a codec from a layout looks the types of the parts up, one after the other, and
stops at the first thing that is wrong. What it looks up does not depend on what it finds, so every
such derivation is a walk over a list of steps that the layout gives.
-/

namespace Typewire.Deriving

variable {settings : Settings} {term : TypeTerm}

def step (term : TypeTerm) (scheme : TypeScheme) : Except RegistryError TypeTerm :=
  match scheme.instantiate term.args with
  | .ok part => .ok part
  | .error e => .error (.unbound e)

theorem of_step_ok {scheme : TypeScheme} {part : TypeTerm} (h : step term scheme = .ok part) :
    scheme.instantiate term.args = .ok part := by
  unfold step at h
  split at h <;> cases h
  assumption

def branchSteps (term : TypeTerm) (seen : List String) :
    List Variant → List (Except RegistryError TypeTerm)
  | [] => []
  | v :: vs =>
    if seen.contains v.discriminator then
      [.error (.invalidLayout term (LayoutFault.duplicateDiscriminator v.discriminator).message)]
    else step term v.target :: branchSteps term (v.discriminator :: seen) vs

def guarded (term : TypeTerm) (steps : List (Except RegistryError TypeTerm)) :
    Except LayoutFault Unit → List (Except RegistryError TypeTerm)
  | .ok _ => steps
  | .error fault => [.error (.invalidLayout term fault.message)]

def steps (term : TypeTerm) : Layout → List (Except RegistryError TypeTerm)
  | .atomic _ => []
  | .record layout =>
    guarded term (layout.properties.map fun p => step term p.type) layout.check
  | .sequence _ element => [step term element]
  | .map key value => [step term key, step term value]
  | .enumeration layout => guarded term [] layout.check
  | .union layout =>
    if layout.variants.isEmpty then [.error (.invalidLayout term LayoutFault.noVariants.message)]
    else branchSteps term [] layout.variants
  | .foreign => [.error (.unsupported ⟨term, noCodec⟩)]

/-- Take the steps up to the first that fails, and go on with the terms and what was found. -/
def gather : List (Except RegistryError TypeTerm) →
    (List (TypeTerm × CodecRef) → Ask (Except RegistryError Codec)) →
    Ask (Except RegistryError Codec)
  | [], next => next []
  | .error e :: _, _ => .answer (.error e)
  | .ok part :: steps, next => Query.lookup part fun
    | .ok ref => gather steps fun found => next ((part, ref) :: found)
    | .error e => .answer (.error e)

def fieldCodecs (ps : List Property) (found : List (TypeTerm × CodecRef)) : List FieldCodec :=
  List.zipWith (fun p entry => ⟨p, entry.2⟩) ps found

def branchCodecs (vs : List Variant) (found : List (TypeTerm × CodecRef)) : List BranchCodec :=
  List.zipWith (fun v entry => ⟨v.discriminator, entry.1, entry.2⟩) vs found

def assemble (settings : Settings) (term : TypeTerm) (found : List (TypeTerm × CodecRef)) :
    Layout → Codec
  | .atomic kind => .atomic kind
  | .record layout =>
    .record term layout.constructor (fieldCodecs layout.properties found)
      settings.denyUnknownFields
  | .sequence container _ => .sequence container (found.headD default).2
  | .map _ _ => .map term (found.headD default).2 (found.tail.headD default).2
  | .enumeration layout =>
    .enumeration term.head (layout.members.map fun m => (m.ident, m.label))
  | .union layout => .union term (branchCodecs layout.variants found)
  | .foreign => .union term []

theorem gather_cons {s : Except RegistryError TypeTerm}
    {steps : List (Except RegistryError TypeTerm)}
    {next : List (TypeTerm × CodecRef) → Ask (Except RegistryError Codec)}
    (first : TypeTerm × CodecRef → Ask (Except RegistryError Codec))
    (h : ∀ entry, first entry = gather steps fun found => next (entry :: found)) :
    gather [s] (fun found => first (found.headD default)) = gather (s :: steps) next := by
  cases s with
  | error e => rfl
  | ok part =>
    refine congrArg (Query.lookup part) (funext fun r => ?_)
    cases r with
    | error e => rfl
    | ok ref => exact h (part, ref)

theorem run_nested_bind_eq_gather (scheme : TypeScheme) (next : CodecRef → Deriving Codec) :
    (nested term scheme >>= next).run =
      gather [step term scheme] fun found => (next (found.headD default).2).run := by
  rw [run_nested_bind, step]
  cases scheme.instantiate term.args with
  | error e => rfl
  | ok part =>
    refine (run_lookup_bind part next).trans (congrArg (Query.lookup part) (funext fun r => ?_))
    cases r <;> rfl

theorem run_fields_bind (ps : List Property) (next : List FieldCodec → Deriving Codec) :
    (fields term ps >>= next).run =
      gather (ps.map fun p => step term p.type) fun found => (next (fieldCodecs ps found)).run := by
  induction ps generalizing next with
  | nil => rfl
  | cons p ps ih =>
    simp only [fields, bind_assoc, pure_bind]
    rw [run_nested_bind_eq_gather]
    exact gather_cons (fun entry => (fields term ps >>= fun rest =>
      next (⟨p, entry.2⟩ :: rest)).run) fun entry => ih fun rest => next (⟨p, entry.2⟩ :: rest)

theorem run_branches_bind (vs : List Variant) (seen : List String)
    (next : List BranchCodec → Deriving Codec) :
    (branches term seen vs >>= next).run =
      gather (branchSteps term seen vs) fun found => (next (branchCodecs vs found)).run := by
  induction vs generalizing seen next with
  | nil => rfl
  | cons v vs ih =>
    rw [branches, branchSteps]
    split
    · rfl
    · rw [step]
      cases v.target.instantiate term.args with
      | error e => rfl
      | ok target =>
        simp only [bind_assoc, pure_bind]
        refine (run_lookup_bind target _).trans
          (congrArg (Query.lookup target) (funext fun r => ?_))
        cases r with
        | error e => rfl
        | ok ref => exact ih (v.discriminator :: seen) fun rest => next (⟨_, target, ref⟩ :: rest)

/-- The derivation of a codec from a layout takes the steps of the layout. -/
theorem run_ofLayout (settings : Settings) (term : TypeTerm) (layout : Layout) :
    (ofLayout settings term layout).run =
      gather (steps term layout) fun found =>
        .answer (.ok (assemble settings term found layout)) := by
  cases layout with
  | atomic kind => rfl
  | record layout =>
    rw [ofLayout, steps]
    cases layout.check with
    | error fault => rfl
    | ok => exact run_fields_bind layout.properties _
  | sequence container element => exact run_nested_bind_eq_gather element _
  | map key value =>
    rw [ofLayout, run_nested_bind_eq_gather]
    exact gather_cons (fun entry => (nested term value >>= fun v =>
      pure (Codec.map term entry.2 v)).run) fun entry => run_nested_bind_eq_gather value _
  | enumeration layout =>
    rw [ofLayout, steps]
    cases layout.check <;> rfl
  | union layout =>
    rw [ofLayout, steps]
    split
    · rfl
    · exact run_branches_bind layout.variants [] _
  | foreign => rfl

theorem run_ofTerm (settings : Settings) (term : TypeTerm) :
    (ofTerm settings term).run = Query.layout term.head (proceed (ofLayout settings term)) :=
  congrArg (Query.layout term.head) (funext fun r => by cases r <;> rfl)

end Typewire.Deriving
