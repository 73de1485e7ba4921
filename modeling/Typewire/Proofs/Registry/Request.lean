import Typewire.Proofs.Registry.Frame

/-! # Requests from outside

The states of a registry between the requests of its users. A factory is honest if its codecs hold
only references that its own lookups returned; an honest factory that does not recover answers with
no codec once a lookup of its own has failed.
-/

namespace Typewire

section Honest

variable (recovers : Bool)

mutual

inductive Factory.Honest : Factory → Prop
  | of {create : TypeTerm → Ask (Except RegistryError Codec)} :
      (∀ term, Query.Honest true [] (create term)) → Factory.Honest (.of create)

/-- A query for a codec that may hold the references in a list. It is intact as long as no lookup
has failed. Codecs that it registers by the way hold no references. -/
inductive Query.Honest : Bool → List CodecRef → Ask (Except RegistryError Codec) → Prop
  | refuse {intact : Bool} {held : List CodecRef} (e : RegistryError) :
      Query.Honest intact held (.answer (.error e))
  | give {intact : Bool} {held : List CodecRef} {codec : Codec} :
      intact = true ∨ recovers = true → (∀ ref ∈ codec.refs, ref ∈ held) →
      Query.Honest intact held (.answer (.ok codec))
  | halt {intact : Bool} {held : List CodecRef} (why : Halt) :
      Query.Honest intact held (.halt why)
  | lookup {intact : Bool} {held : List CodecRef} {term : TypeTerm}
      {next : Except RegistryError CodecRef → Ask (Except RegistryError Codec)} :
      (∀ e, Query.Honest false held (next (.error e))) →
      (∀ ref, Query.Honest intact (ref :: held) (next (.ok ref))) →
      Query.Honest intact held (Query.lookup term next)
  | layout {intact : Bool} {held : List CodecRef} {type : TypeName}
      {next : Except RegistryError Layout → Ask (Except RegistryError Codec)} :
      (∀ r, Query.Honest intact held (next r)) → Query.Honest intact held (Query.layout type next)
  | override {intact : Bool} {held : List CodecRef} {term : TypeTerm} {codec : Codec}
      {next : Except RegistryError Unit → Ask (Except RegistryError Codec)} :
      codec.refs = [] → (∀ r, Query.Honest intact held (next r)) →
      Query.Honest intact held (Query.override term codec next)
  | enlist {intact : Bool} {held : List CodecRef} {type : TypeName} {factory : Factory}
      {next : Except RegistryError Unit → Ask (Except RegistryError Codec)} :
      Factory.Honest factory → (∀ r, Query.Honest intact held (next r)) →
      Query.Honest intact held (Query.enlist type factory next)
  | inspect {intact : Bool} {held : List CodecRef}
      {next : Store → Ask (Except RegistryError Codec)} :
      (∀ store, Query.Honest intact held (next store)) →
      Query.Honest intact held (Query.inspect next)

end

end Honest

def Host.chain : Host where
  layout type :=
    if type = "Chain" then
      some (.ok (.record
        { constructor := .record "Chain" ["next"]
          properties := [
            { name := "next"
              type := .apply "Chain" []
              binding := .slot 0
              accessor := .field "next" }] }))
    else some (.error (.unknownType type))

/-- A request from outside. To validate a term is to look it up. -/
inductive Request where
  | lookup (term : TypeTerm)
  | preload (terms : List TypeTerm)
  | override (term : TypeTerm) (codec : Codec)
  | enlist (type : TypeName) (factory : Factory)

namespace Registry

def initial (host : Host) (settings : Settings) : Registry := { host, settings }

/-- The reference is to the codec that is published under its term. -/
def Publishes (reg : Registry) (ref : CodecRef) : Prop :=
  Table.get? ref.term reg.published = some ref.slot

def preload (reg : Registry) : List TypeTerm → Registry
  | [] => reg
  | term :: terms =>
    match reg.lookup term with
    | (.ok (.ok _), reg) => preload reg terms
    | (_, reg) => reg

def perform (reg : Registry) : Request → Registry
  | .lookup term => (reg.lookup term).2
  | .preload terms => reg.preload terms
  | .override term codec => (reg.override term codec).2
  | .enlist type factory => (reg.enlist type factory).2

end Registry

/-- Users hold only references that lookups returned, and give only honest factories. -/
def Request.Honest (recovers : Bool) (reg : Registry) : Request → Prop
  | .lookup _ => True
  | .preload _ => True
  | .override _ codec => ∀ ref ∈ codec.refs, reg.Publishes ref
  | .enlist _ factory => factory.Honest recovers

namespace Registry

/-- The second registry is the first after honest requests. -/
inductive Reaches (recovers : Bool) (reg : Registry) : Registry → Prop
  | refl : Reaches recovers reg reg
  | step {reg' : Registry} (request : Request) : Reaches recovers reg reg' →
      request.Honest recovers reg' → Reaches recovers reg (reg'.perform request)

variable {recovers : Bool} {reg reg' reg'' : Registry}

theorem preload_induction {P : Registry → Prop} (h : ∀ reg term, P reg → P (reg.lookup term).2)
    (terms : List TypeTerm) (hp : P reg) : P (reg.preload terms) := by
  induction terms generalizing reg with
  | nil => exact hp
  | cons term terms ih =>
    have hl := h reg term hp
    rw [preload]
    split <;> rename_i he <;> rw [he] at hl
    · exact ih hl
    · exact hl

/-- What single requests keep, runs keep. -/
theorem Reaches.invariant {P : Registry → Prop} (h : Reaches recovers reg reg') (hp : P reg)
    (hlookup : ∀ reg term, P reg → P (reg.lookup term).2)
    (hoverride : ∀ reg term codec, P reg → (∀ ref ∈ codec.refs, reg.Publishes ref) →
      P (reg.override term codec).2)
    (henlist : ∀ reg type factory, P reg → factory.Honest recovers →
      P (reg.enlist type factory).2) : P reg' := by
  induction h with
  | refl => exact hp
  | step request _ hr ih =>
    cases request with
    | lookup term => exact hlookup _ term ih
    | preload terms => exact preload_induction hlookup terms ih
    | override term codec => exact hoverride _ term codec ih hr
    | enlist type factory => exact henlist _ type factory ih hr

theorem lookup_eq (reg : Registry) (term : TypeTerm) :
    reg.lookup term = resolve callLimit term reg := by
  rw [lookup, ask, Ask.lookup, Query.run]
  split <;> rename_i he <;> exact he.symm

theorem callLimit_eq : ∃ calls, callLimit = calls + 1 := ⟨callLimit - 1, by decide⟩

/-- Well formed, with no derivation in progress. -/
structure Idle (reg : Registry) : Prop extends WellFormed reg where
  depth : reg.depth = 0

theorem Idle.staged (h : reg.Idle) : reg.staged = [] := h.idle h.depth

theorem idle_initial (host : Host) (settings : Settings) : (initial host settings).Idle where
  idle _ := rfl
  published_filled _ _ h := by simp [initial, Table.get?_nil] at h
  staged_lt _ h := by simp [initial] at h
  staged_new _ h := by simp [initial] at h
  staged_nodup := List.nodup_nil
  canonical _ _ h := by simp [initial, slot?, Table.get?_nil] at h
  depth := rfl

theorem Idle.of_extends (h : reg.Idle) (hw : reg'.WellFormed) (hx : Extends reg reg') :
    reg'.Idle :=
  ⟨hw, hx.depth.trans h.depth⟩

theorem Idle.lookup (h : reg.Idle) (term : TypeTerm) :
    (reg.lookup term).2.Idle ∧ Extends reg (reg.lookup term).2 := by
  rw [lookup_eq]
  obtain ⟨hw, hx⟩ := keeps_resolve callLimit term reg h.toWellFormed
  exact ⟨h.of_extends hw hx, hx⟩

theorem Idle.override (h : reg.Idle) (term : TypeTerm) (codec : Codec) :
    (reg.override term codec).2.Idle :=
  h.of_extends (h.toWellFormed.override term codec) (extends_override reg term codec)

theorem Idle.enlist (h : reg.Idle) (type : TypeName) (factory : Factory) :
    (reg.enlist type factory).2.Idle :=
  h.of_extends (h.toWellFormed.enlist type factory) (extends_enlist reg type factory)

theorem Reaches.frame (h : Reaches recovers reg reg') (hi : reg.Idle) :
    reg'.Idle ∧ Extends reg reg' := by
  refine h.invariant (P := fun r => r.Idle ∧ Extends reg r) ⟨hi, .refl reg⟩ ?_ ?_ ?_
  · rintro r term ⟨hr, hx⟩
    exact ⟨(hr.lookup term).1, hx.trans (hr.lookup term).2⟩
  · rintro r term codec ⟨hr, hx⟩ -
    exact ⟨hr.override term codec, hx.trans (extends_override r term codec)⟩
  · rintro r type factory ⟨hr, hx⟩ -
    exact ⟨hr.enlist type factory, hx.trans (extends_enlist r type factory)⟩

theorem Idle.slot?_eq (h : reg.Idle) (key : TypeTerm) :
    reg.slot? key = Table.get? key reg.published := by
  rw [slot?, h.staged, Table.get?_nil, Option.or_none]

theorem resolve_of_slot? {term : TypeTerm} {slot : Nat}
    (h : reg.slot? (reg.canonical term) = some slot) (calls : Nat) :
    resolve (calls + 1) term reg = (.ok (.ok ⟨reg.canonical term, slot⟩), reg.countHit) := by
  rcases resolve_cases calls term reg with ⟨s, hs, he⟩ | ⟨hn, -⟩
  · cases h.symm.trans hs
    exact he
  · cases h.symm.trans hn

theorem resolve_of_publishes {term : TypeTerm} {ref : CodecRef} (hp : reg.Publishes ref)
    (ht : ref.term = reg.canonical term) (calls : Nat) :
    resolve (calls + 1) term reg = (.ok (.ok ref), reg.countHit) := by
  have hs : reg.slot? (reg.canonical term) = some ref.slot := by
    rw [← ht, slot?, hp, Option.some_or]
  rw [resolve_of_slot? hs, ← ht]

theorem lookup_of_slot? {term : TypeTerm} {slot : Nat}
    (h : reg.slot? (reg.canonical term) = some slot) :
    reg.lookup term = (.ok (.ok ⟨reg.canonical term, slot⟩), reg.countHit) := by
  obtain ⟨calls, hcalls⟩ := callLimit_eq
  rw [lookup_eq, hcalls, resolve_of_slot? h]

theorem term_of_lookup {term : TypeTerm} {ref : CodecRef}
    (h : (reg.lookup term).1 = .ok (.ok ref)) : ref.term = reg.canonical term := by
  obtain ⟨calls, hcalls⟩ := callLimit_eq
  rw [lookup_eq, hcalls] at h
  rcases resolve_cases calls term reg with ⟨slot, -, he⟩ | ⟨-, ⟨codec, mid, -, he⟩ | hfail⟩
  · rw [he] at h
    cases h
    rfl
  · rw [he] at h
    cases h
    rfl
  · obtain ⟨_, _, -, -, hfail, -⟩ := hfail
    exact absurd h (hfail ref)

theorem Idle.publishes_resolve (h : reg.Idle) {calls : Nat} {term : TypeTerm} {ref : CodecRef}
    (hl : (resolve calls term reg).1 = .ok (.ok ref)) :
    ref.term = reg.canonical term ∧ (resolve calls term reg).2.Publishes ref := by
  cases calls with
  | zero => cases hl
  | succ calls =>
    rcases resolve_cases calls term reg with ⟨slot, hs, he⟩ | ⟨hn, he⟩
    · rw [he] at hl ⊢
      cases hl
      rw [h.slot?_eq] at hs
      exact ⟨rfl, hs⟩
    · have hend := (keeps_resolve calls).ended h.toWellFormed hn
        (reg.settings.canonical_canonical term)
      rcases he with ⟨codec, mid, hd, he⟩ | ⟨answer, mid, hd, -, hfail, he⟩
      · rw [hd] at hend
        rw [he] at hl ⊢
        cases hl
        exact ⟨rfl, (hend.get?_complete codec).2 (.inr ⟨h.depth, hend.mem_staged⟩)⟩
      · exact absurd hl (hfail ref)

theorem Idle.publishes_lookup (h : reg.Idle) {term : TypeTerm} {ref : CodecRef}
    (hl : (reg.lookup term).1 = .ok (.ok ref)) :
    ref.term = reg.canonical term ∧ (reg.lookup term).2.Publishes ref := by
  rw [lookup_eq] at hl ⊢
  exact h.publishes_resolve hl

end Registry

end Typewire
