import Mathlib.Logic.Relation
import Typewire.Proofs.Registry.Request

/-! # Requests one at a time

The run of a query, taken apart into single steps: which derivations are in progress, what the
innermost is about to do, and what made each codec so far. Users and factories take a registry from
one such moment to the next, whatever they ask for, so what every step keeps holds at each moment of
each run, in the middle of derivations as well.
-/

namespace Typewire

/-- What makes the codec of a term: the factory of its type name, or the registry itself from the
layout. -/
inductive Maker where
  | factory (factory : Factory)
  | layout

def Maker.create (settings : Settings) (key : TypeTerm) :
    Maker → Ask (Except RegistryError Codec)
  | factory f => f.create key
  | layout => (Deriving.ofTerm settings key).run

namespace Registry

def maker (reg : Registry) (key : TypeTerm) : Maker :=
  match Table.get? key.head reg.factories with
  | some factory => .factory factory
  | none => .layout

theorem recipe_eq (reg : Registry) (key : TypeTerm) :
    reg.recipe key = (reg.maker key).create reg.settings key := by
  rw [recipe, maker]
  cases Table.get? key.head reg.factories <;> rfl

end Registry

/-- A codec that was put into a slot: for which term, and made by what, unless it was registered for
this term. -/
structure Deposit where
  key : TypeTerm
  slot : Nat
  codec : Codec
  maker : Option Maker

/-- A derivation in progress, and what goes on when it ends. -/
structure Frame where
  key : TypeTerm
  slot : Nat
  maker : Maker
  next : Except RegistryError CodecRef → Ask (Except RegistryError Codec)

/-- A registry in the middle of a run, with the derivations in progress from the innermost outwards,
what is left of the query that runs, and the codecs put into slots so far. -/
structure Moment where
  reg : Registry
  frames : List Frame
  query : Ask (Except RegistryError Codec)
  deposits : List Deposit

inductive Query.Over {φ ρ : Type} : Query φ ρ → Prop
  | answer (r : ρ) : Over (.answer r)
  | halt (why : Halt) : Over (.halt why)

def Query.resume {φ ρ σ : Type} (next : ρ → Query φ σ) : Outcome ρ → Query φ σ
  | .ok r => next r
  | .error why => .halt why

namespace Moment

/-- One step. A lookup may find no room for another derivation and halt, and when nothing is in
progress users go on with any query. -/
inductive Next : Moment → Moment → Prop
  | hit {reg : Registry} {frames : List Frame} {deposits : List Deposit} {term : TypeTerm}
      {next : Except RegistryError CodecRef → Ask (Except RegistryError Codec)} {slot : Nat} :
      reg.slot? (reg.canonical term) = some slot →
      Next ⟨reg, frames, Query.lookup term next, deposits⟩
        ⟨reg.countHit, frames, next (.ok ⟨reg.canonical term, slot⟩), deposits⟩
  | enter {reg : Registry} {frames : List Frame} {deposits : List Deposit} {term : TypeTerm}
      {next : Except RegistryError CodecRef → Ask (Except RegistryError Codec)} :
      reg.slot? (reg.canonical term) = none →
      Next ⟨reg, frames, Query.lookup term next, deposits⟩
        ⟨reg.stage (reg.canonical term),
          ⟨reg.canonical term, reg.slots.size, reg.maker (reg.canonical term), next⟩ :: frames,
          (reg.maker (reg.canonical term)).create reg.settings (reg.canonical term), deposits⟩
  | noRoom {reg : Registry} {frames : List Frame} {deposits : List Deposit} {term : TypeTerm}
      {next : Except RegistryError CodecRef → Ask (Except RegistryError Codec)} :
      Next ⟨reg, frames, Query.lookup term next, deposits⟩
        ⟨reg, frames, .halt .endless, deposits⟩
  | layout {reg : Registry} {frames : List Frame} {deposits : List Deposit} {type : TypeName}
      {next : Except RegistryError Layout → Ask (Except RegistryError Codec)} :
      Next ⟨reg, frames, Query.layout type next, deposits⟩
        ⟨(reg.layoutOf type).2, frames, Query.resume next (reg.layoutOf type).1, deposits⟩
  | given {reg : Registry} {frames : List Frame} {deposits : List Deposit} {term : TypeTerm}
      {codec : Codec} {next : Except RegistryError Unit → Ask (Except RegistryError Codec)} :
      (reg.override term codec).1 = .ok () →
      Next ⟨reg, frames, Query.override term codec next, deposits⟩
        ⟨(reg.override term codec).2, frames, next (.ok ()),
          ⟨reg.canonical term, reg.slots.size, codec, none⟩ :: deposits⟩
  | refused {reg : Registry} {frames : List Frame} {deposits : List Deposit} {term : TypeTerm}
      {codec : Codec} {next : Except RegistryError Unit → Ask (Except RegistryError Codec)}
      {e : RegistryError} : (reg.override term codec).1 = .error e →
      Next ⟨reg, frames, Query.override term codec next, deposits⟩
        ⟨(reg.override term codec).2, frames, next (.error e), deposits⟩
  | enlist {reg : Registry} {frames : List Frame} {deposits : List Deposit} {type : TypeName}
      {factory : Factory} {next : Except RegistryError Unit → Ask (Except RegistryError Codec)} :
      Next ⟨reg, frames, Query.enlist type factory next, deposits⟩
        ⟨(reg.enlist type factory).2, frames, next (reg.enlist type factory).1, deposits⟩
  | inspect {reg : Registry} {frames : List Frame} {deposits : List Deposit}
      {next : Store → Ask (Except RegistryError Codec)} :
      Next ⟨reg, frames, Query.inspect next, deposits⟩
        ⟨reg, frames, next reg.store, deposits⟩
  | finish {reg : Registry} {frame : Frame} {frames : List Frame} {deposits : List Deposit}
      {codec : Codec} :
      Next ⟨reg, frame :: frames, .answer (.ok codec), deposits⟩
        ⟨reg.complete frame.slot codec, frames, frame.next (.ok ⟨frame.key, frame.slot⟩),
          ⟨frame.key, frame.slot, codec, some frame.maker⟩ :: deposits⟩
  | fail {reg : Registry} {frame : Frame} {frames : List Frame} {deposits : List Deposit}
      {e : RegistryError} :
      Next ⟨reg, frame :: frames, .answer (.error e), deposits⟩
        ⟨reg.abandon frame.key, frames, frame.next (.error e), deposits⟩
  | unwind {reg : Registry} {frame : Frame} {frames : List Frame} {deposits : List Deposit}
      {why : Halt} :
      Next ⟨reg, frame :: frames, .halt why, deposits⟩
        ⟨reg.abandon frame.key, frames, .halt why, deposits⟩
  | start {reg : Registry} {deposits : List Deposit} {last : Ask (Except RegistryError Codec)}
      (query : Ask (Except RegistryError Codec)) :
      last.Over → Next ⟨reg, [], last, deposits⟩ ⟨reg, [], query, deposits⟩

/-- The moments of the runs of a registry that begins empty. -/
inductive Reached (host : Host) (settings : Settings) : Moment → Prop
  | first (query : Ask (Except RegistryError Codec)) :
      Reached host settings ⟨.initial host settings, [], query, []⟩
  | next {m m' : Moment} : Reached host settings m → m.Next m' → Reached host settings m'

abbrev Steps : Moment → Moment → Prop := Relation.ReflTransGen Next

theorem Reached.steps {host : Host} {settings : Settings} {m m' : Moment}
    (h : Reached host settings m) (hs : m.Steps m') : Reached host settings m' := by
  induction hs with
  | refl => exact h
  | tail _ hn ih => exact ih.next hn

/-- The lookup is taken in steps, from any moment that is about to make it. -/
def Stepwise (resolve : Lookup) : Prop :=
  ∀ reg frames term next deposits, ∃ deposits',
    Steps ⟨reg, frames, Query.lookup term next, deposits⟩
      ⟨(resolve term reg).2, frames, Query.resume next (resolve term reg).1, deposits'⟩

theorem Stepwise.run {ρ : Type} {resolve : Lookup} (h : Stepwise resolve) (q : Ask ρ)
    (f : ρ → Ask (Except RegistryError Codec)) (reg : Registry) (frames : List Frame)
    (deposits : List Deposit) : ∃ deposits',
      Steps ⟨reg, frames, q.bind f, deposits⟩
        ⟨(q.run resolve reg).2, frames, Query.resume f (q.run resolve reg).1, deposits'⟩ := by
  induction q generalizing reg deposits with
  | answer | halt => exact ⟨deposits, .refl⟩
  | lookup term next ih =>
    obtain ⟨deposits₁, hs⟩ := h reg frames term (fun r => (next r).bind f) deposits
    rw [Query.run]
    rcases hres : resolve term reg with ⟨why | r, mid⟩ <;> rw [hres] at hs
    · exact ⟨deposits₁, hs⟩
    · obtain ⟨deposits₂, hs'⟩ := ih r mid deposits₁
      exact ⟨deposits₂, hs.trans hs'⟩
  | layout type next ih =>
    have hs : Next ⟨reg, frames, Query.layout type fun r => (next r).bind f, deposits⟩ _ := .layout
    rw [Query.run]
    rcases hres : reg.layoutOf type with ⟨why | r, mid⟩ <;> rw [hres] at hs
    · exact ⟨deposits, .single hs⟩
    · obtain ⟨deposits', hs'⟩ := ih r mid deposits
      exact ⟨deposits', .head hs hs'⟩
  | override term codec next ih =>
    rw [Query.run]
    rcases hres : reg.override term codec with ⟨e | ⟨⟩, mid⟩
    · have hs :
          Next ⟨reg, frames, Query.override term codec fun r => (next r).bind f, deposits⟩ _ :=
        .refused (congrArg Prod.fst hres)
      rw [hres] at hs
      obtain ⟨deposits', hs'⟩ := ih (.error e) mid deposits
      exact ⟨deposits', .head hs hs'⟩
    · have hs :
          Next ⟨reg, frames, Query.override term codec fun r => (next r).bind f, deposits⟩ _ :=
        .given (congrArg Prod.fst hres)
      rw [hres] at hs
      obtain ⟨deposits', hs'⟩ := ih (.ok ()) mid _
      exact ⟨deposits', .head hs hs'⟩
  | enlist type factory next ih =>
    obtain ⟨deposits', hs⟩ := ih (reg.enlist type factory).1 (reg.enlist type factory).2 deposits
    exact ⟨deposits', .head .enlist hs⟩
  | inspect next ih =>
    obtain ⟨deposits', hs⟩ := ih reg.store reg deposits
    exact ⟨deposits', .head .inspect hs⟩

theorem Stepwise.succ {calls : Nat} (h : Stepwise (Registry.resolve calls)) :
    Stepwise (Registry.resolve (calls + 1)) := by
  intro reg frames term next deposits
  rw [Registry.resolve]
  cases hs : reg.slot? (reg.canonical term) with
  | some slot => exact ⟨deposits, .single (.hit hs)⟩
  | none =>
    obtain ⟨deposits', hrun⟩ := h.run
      ((reg.maker (reg.canonical term)).create reg.settings (reg.canonical term)) .answer
      (reg.stage (reg.canonical term))
      (⟨reg.canonical term, reg.slots.size, reg.maker (reg.canonical term), next⟩ :: frames)
      deposits
    rw [Query.bind_answer] at hrun
    have hin := Relation.ReflTransGen.head (Next.enter hs) hrun
    have hderive : Registry.derive (Registry.resolve calls) (reg.canonical term) reg =
        ((reg.maker (reg.canonical term)).create reg.settings (reg.canonical term)).run
          (Registry.resolve calls) (reg.stage (reg.canonical term)) :=
      congrArg (Query.run _ · _) (Registry.recipe_eq (reg.stage _) _)
    rw [← hderive] at hin
    rcases hd : Registry.derive (Registry.resolve calls) (reg.canonical term) reg with
      ⟨why | e | codec, mid⟩ <;> rw [hd] at hin
    · exact ⟨deposits', hin.tail .unwind⟩
    · exact ⟨deposits', hin.tail .fail⟩
    · exact ⟨_, hin.tail .finish⟩

theorem stepwise_resolve (calls : Nat) : Stepwise (Registry.resolve calls) := by
  induction calls with
  | zero => exact fun _ _ _ _ deposits => ⟨deposits, .single .noRoom⟩
  | succ calls ih => exact ih.succ

theorem Reached.ask {host : Host} {settings : Settings} {m : Moment} {ρ : Type}
    (h : Reached host settings m) (hf : m.frames = []) (ho : m.query.Over) (query : Ask ρ) :
    ∃ m', Reached host settings m' ∧ m'.frames = [] ∧ m'.query.Over ∧
      m'.reg = (m.reg.ask query).2 := by
  obtain ⟨reg, frames, last, deposits⟩ := m
  subst hf
  have hstart : Next ⟨reg, [], last, deposits⟩
      ⟨reg, [], query.bind fun _ => .halt .crashed, deposits⟩ := .start _ ho
  obtain ⟨deposits', hs⟩ :=
    (stepwise_resolve callLimit).run query (fun _ => .halt .crashed) reg [] deposits
  refine ⟨_, (h.next hstart).steps hs, rfl, ?_, rfl⟩
  cases (query.run (Registry.resolve callLimit) reg).1 with
  | error why => exact .halt why
  | ok r => exact .halt .crashed

end Moment

end Typewire
