import Mathlib.Data.Finset.Dedup
import Mathlib.Data.Set.Finite.Basic
import Typewire.Proofs.Catalog.Typing
import Typewire.Proofs.Layout.Validity
import Typewire.Proofs.Registry.Ledger
import Typewire.Proofs.Registry.Refinement
import Typewire.Proofs.Registry.Search

/-! # Lookups search the dependencies

A registry without factories looks a term up by a depth-first search through the types of parts.
What it has seen are the terms that are published or in progress.
-/

namespace Typewire

open Registry

namespace Deriving

variable {term part : TypeTerm} {layout : Layout}

theorem branchSteps_eq {seen : List String} {vs : List Variant}
    (hn : (vs.map Variant.discriminator).Nodup) (hs : ∀ v ∈ vs, v.discriminator ∉ seen) :
    branchSteps term seen vs = vs.map fun v => step term v.target := by
  induction vs generalizing seen with
  | nil => rfl
  | cons v vs ih =>
    obtain ⟨hv, hn⟩ := List.nodup_cons.1 hn
    obtain ⟨hseen, hs⟩ := List.forall_mem_cons.1 hs
    have ih := ih hn fun w hw => by
      rw [List.mem_cons, not_or]
      exact ⟨fun he => hv (List.mem_map.2 ⟨w, hw, he⟩), hs w hw⟩
    rw [branchSteps, if_neg (by simpa using hseen), ih]
    rfl

theorem nodup_of_branchSteps {seen : List String} {vs : List Variant}
    (h : ∀ s ∈ branchSteps term seen vs, ∃ part, s = .ok part) :
    (vs.map Variant.discriminator).Nodup ∧ ∀ v ∈ vs, v.discriminator ∉ seen := by
  induction vs generalizing seen with
  | nil => exact ⟨List.nodup_nil, by simp⟩
  | cons v vs ih =>
    rw [branchSteps] at h
    split at h
    · obtain ⟨_, he⟩ := h _ List.mem_cons_self
      cases he
    · rename_i hseen
      obtain ⟨hn, hs⟩ := ih fun s hs => h s (List.mem_cons_of_mem _ hs)
      refine ⟨List.nodup_cons.2 ⟨fun hm => ?_, hn⟩, List.forall_mem_cons.2 ⟨?_, fun w hw hm => ?_⟩⟩
      · obtain ⟨w, hw, he⟩ := List.mem_map.1 hm
        exact hs w hw (he ▸ List.mem_cons_self)
      · simpa using hseen
      · exact hs w hw (List.mem_cons_of_mem _ hm)

theorem mem_branchSteps {seen : List String} {vs : List Variant}
    (h : .ok part ∈ branchSteps term seen vs) : ∃ v ∈ vs, step term v.target = .ok part := by
  induction vs generalizing seen with
  | nil => cases h
  | cons v vs ih =>
    rw [branchSteps] at h
    split at h
    · simp at h
    · rcases List.mem_cons.1 h with h | h
      · exact ⟨v, List.mem_cons_self, h.symm⟩
      · obtain ⟨w, hw, he⟩ := ih h
        exact ⟨w, List.mem_cons_of_mem _ hw, he⟩

theorem mem_steps (h : .ok part ∈ steps term layout) :
    ∃ scheme ∈ layout.parts, scheme.instantiate term.args = .ok part := by
  suffices hstep : ∃ scheme ∈ layout.parts, step term scheme = .ok part by
    obtain ⟨scheme, hs, he⟩ := hstep
    exact ⟨scheme, hs, of_step_ok he⟩
  cases layout with
  | atomic | foreign => simp [steps] at h
  | enumeration layout =>
    rw [steps] at h
    cases hc : layout.check <;> simp [hc, guarded] at h
  | record layout =>
    rw [steps] at h
    cases hc : layout.check <;> simp only [hc, guarded] at h
    · simp at h
    · obtain ⟨p, hp, he⟩ := List.mem_map.1 h
      exact ⟨p.type, List.mem_map_of_mem hp, he⟩
  | sequence container element =>
    exact ⟨element, by simp [Layout.parts], (List.mem_singleton.1 h).symm⟩
  | map key value =>
    rcases List.mem_cons.1 h with h | h
    · exact ⟨key, by simp [Layout.parts], h.symm⟩
    · exact ⟨value, by simp [Layout.parts], (List.mem_singleton.1 h).symm⟩
  | union layout =>
    rw [steps] at h
    split at h
    · simp at h
    · obtain ⟨v, hv, he⟩ := mem_branchSteps h
      exact ⟨v.target, List.mem_map_of_mem hv, he⟩

theorem steps_of_valid (h : layout.Valid) : steps term layout = layout.parts.map (step term) := by
  cases layout with
  | atomic | sequence | map => rfl
  | foreign => exact h.elim
  | enumeration layout =>
    rw [steps, EnumLayout.check_iff.2 h]
    rfl
  | record layout =>
    rw [steps, RecordLayout.check_iff.2 h, guarded, Layout.parts, List.map_map]
    rfl
  | union layout =>
    rw [steps, if_neg (by simpa using h.nonempty), branchSteps_eq h.discriminators (by simp),
      Layout.parts, List.map_map]
    rfl

theorem valid_of_steps (h : ∀ s ∈ steps term layout, ∃ part, s = .ok part) : layout.Valid := by
  cases layout with
  | atomic | sequence | map => trivial
  | foreign =>
    obtain ⟨_, he⟩ := h _ List.mem_cons_self
    cases he
  | enumeration layout =>
    rw [steps] at h
    cases hc : layout.check
    · rw [hc] at h
      obtain ⟨_, he⟩ := h _ List.mem_cons_self
      cases he
    · exact EnumLayout.check_iff.1 hc
  | record layout =>
    rw [steps] at h
    cases hc : layout.check
    · rw [hc] at h
      obtain ⟨_, he⟩ := h _ List.mem_cons_self
      cases he
    · exact RecordLayout.check_iff.1 hc
  | union layout =>
    rw [steps] at h
    split at h
    · obtain ⟨_, he⟩ := h _ List.mem_cons_self
      cases he
    · rename_i hne
      exact ⟨by simpa using hne, (nodup_of_branchSteps h).1⟩

theorem steps_ok_iff : (∀ s ∈ steps term layout, ∃ part, s = .ok part) ↔
    layout.Valid ∧ ∀ scheme ∈ layout.parts, ∃ part, scheme.instantiate term.args = .ok part := by
  constructor
  · intro h
    have hv := valid_of_steps h
    rw [steps_of_valid hv, List.forall_mem_map] at h
    refine ⟨hv, fun scheme hs => ?_⟩
    obtain ⟨part, he⟩ := h scheme hs
    exact ⟨part, of_step_ok he⟩
  · rintro ⟨hv, hp⟩
    rw [steps_of_valid hv, List.forall_mem_map]
    intro scheme hs
    obtain ⟨part, he⟩ := hp scheme hs
    exact ⟨part, by rw [step, he]⟩

end Deriving

inductive Failure where
  | refused (e : RegistryError)
  | halted (why : Halt)

def verdict {α : Type} : Outcome (Except RegistryError α) → Except Failure α
  | .ok (.ok a) => .ok a
  | .ok (.error e) => .error (.refused e)
  | .error why => .error (.halted why)

def Settings.follow (s : Settings) : Except RegistryError TypeTerm → Except Failure TypeTerm
  | .ok part => .ok (s.canonical part)
  | .error e => .error (.refused e)

namespace Reference

variable (r : Reference)

def stepsFor (key : TypeTerm) : Option (Except HostError Layout) → List (Except Failure TypeTerm)
  | none => [.error (.halted .crashed)]
  | some (.error e) => [.error (.refused (.host e))]
  | some (.ok layout) => (Deriving.steps key layout).map r.settings.follow

/-- What the derivation of a canonical term does. There is none for a registered codec. -/
def steps (key : TypeTerm) : List (Except Failure TypeTerm) :=
  if (r.customs key).isSome then [] else r.stepsFor key (r.host.layout key.head)

/-- The host describes the type of the term by a valid layout, and the types of all parts are
instantiated. -/
def Described (key : TypeTerm) : Prop :=
  ∃ layout, r.host.layout key.head = some (.ok layout) ∧ layout.Valid ∧
    ∀ scheme ∈ layout.parts, ∃ part, scheme.instantiate key.args = .ok part

/-- The first term has a part whose type is the second. Terms with registered codecs need none. -/
def Needs (key part : TypeTerm) : Prop :=
  r.customs key = none ∧ ∃ layout scheme target, r.host.layout key.head = some (.ok layout) ∧
    scheme ∈ layout.parts ∧ scheme.instantiate key.args = .ok target ∧
    part = r.settings.canonical target

def closure (key : TypeTerm) : Set TypeTerm := { part | Relation.ReflTransGen r.Needs key part }

/-- The closure of the term is finite, with fewer terms than there are calls. -/
def Within (calls : Nat) (term : TypeTerm) : Prop :=
  ∃ hfin : (r.closure (r.settings.canonical term)).Finite, hfin.toFinset.card < calls

variable {r} {key part : TypeTerm}

theorem Needs.of_leads (h : Search.Leads r.steps key part) : r.Needs key part := by
  unfold Search.Leads steps at h
  split at h
  · cases h
  · rename_i hc
    refine ⟨by simpa using hc, ?_⟩
    unfold stepsFor at h
    split at h
    · simp at h
    · simp at h
    · rename_i layout hl
      obtain ⟨s, hs, he⟩ := List.mem_map.1 h
      rcases s with e | target <;> cases he
      obtain ⟨scheme, hscheme, hi⟩ := Deriving.mem_steps hs
      exact ⟨layout, scheme, target, hl, hscheme, hi, rfl⟩

theorem follow_ok_iff {s : Except RegistryError TypeTerm} :
    (∃ part, r.settings.follow s = .ok part) ↔ ∃ part, s = .ok part := by
  rcases s with e | part <;> simp [Settings.follow]

theorem steps_ok_iff : (∀ s ∈ r.steps key, ∃ part, s = .ok part) ↔
    (r.customs key = none → r.Described key) := by
  unfold steps
  by_cases hc : r.customs key = none
  · rw [hc, Option.isSome_none, if_neg Bool.false_ne_true]
    rcases hl : r.host.layout key.head with _ | e | layout
    · simp [stepsFor, Described, hl]
    · simp [stepsFor, Described, hl]
    · rw [stepsFor, List.forall_mem_map]
      simp only [follow_ok_iff, Deriving.steps_ok_iff, Described, hl, forall_const]
      refine ⟨fun h => ⟨layout, rfl, h⟩, ?_⟩
      rintro ⟨_, ⟨⟩, h⟩
      exact h
  · rw [if_pos (Option.isSome_iff_ne_none.2 hc)]
    simp [hc]

theorem Needs.leads (h : r.Needs key part) (hd : r.Described key) :
    Search.Leads r.steps key part := by
  obtain ⟨hc, layout, scheme, target, hl, hs, hi, rfl⟩ := h
  obtain ⟨layout', hl', hv, -⟩ := hd
  cases hl.symm.trans hl'
  rw [Search.Leads, steps, hc, Option.isSome_none, if_neg Bool.false_ne_true, hl, stepsFor,
    Deriving.steps_of_valid hv, List.map_map]
  refine List.mem_map.2 ⟨scheme, hs, ?_⟩
  rw [Function.comp_apply, Deriving.step, hi]
  rfl

theorem endless_not_mem_steps : .error (.halted .endless) ∉ r.steps key := by
  unfold steps
  split
  · simp
  · unfold stepsFor
    split
    · simp
    · simp
    · intro h
      obtain ⟨s, -, he⟩ := List.mem_map.1 h
      rcases s with e | part <;> cases he

theorem mem_closure_of_reaches (h : Search.Reaches r.steps key part) : part ∈ r.closure key := by
  induction h with
  | refl => exact Relation.ReflTransGen.refl
  | tail _ hl ih => exact Relation.ReflTransGen.tail ih (.of_leads hl)

theorem within_of_closed {all : Finset TypeTerm} {calls : Nat} {term : TypeTerm}
    (hall : ∀ k ∈ all, ∀ part, r.Needs k part → part ∈ all)
    (hterm : r.settings.canonical term ∈ all) (hcalls : all.card < calls) :
    r.Within calls term := by
  have hsub : r.closure (r.settings.canonical term) ⊆ all := by
    intro key hk
    induction hk with
    | refl => exact hterm
    | tail _ hn ih => exact hall _ ih _ hn
  refine ⟨all.finite_toSet.subset hsub, (Finset.card_le_card fun key hk => ?_).trans_lt hcalls⟩
  exact hsub ((Set.Finite.mem_toFinset _).1 hk)

end Reference

namespace Registry

def seen (reg : Registry) : Finset TypeTerm := reg.known.toFinset

theorem seen_stage {reg : Registry} {key : TypeTerm} (h : reg.slot? key = none) :
    (reg.stage key).seen = insert key reg.seen := by
  rw [seen, known_stage h, List.toFinset_cons]
  rfl

theorem Ended.seen_complete {reg mid : Registry} {key : TypeTerm} (h : Ended reg key mid)
    (codec : Codec) : (mid.complete reg.slots.size codec).seen = mid.seen :=
  List.toFinset_eq_of_perm _ _ (h.perm_known_complete codec)

theorem mem_seen_iff {reg : Registry} {key : TypeTerm} : key ∈ reg.seen ↔ reg.slot? key ≠ none := by
  rw [seen, List.mem_toFinset, known, List.mem_append, ne_eq, slot?_eq_none_iff,
    Table.get?_eq_none_iff]
  tauto

theorem seen_layoutOf (reg : Registry) (type : TypeName) :
    (reg.layoutOf type).2.seen = reg.seen := by
  rcases layoutOf_cases reg type with h | ⟨_, -, -, h⟩ <;> rw [h]
  rfl

end Registry

namespace Reference

variable {r : Reference} {reg : Registry} {key : TypeTerm}

/-- What a request found, as far as a search shows it: the terms that are seen after it. -/
def survey {α : Type} (run : Outcome (Except RegistryError α) × Registry) :
    Except Failure (Finset TypeTerm) :=
  (verdict run.1).map fun _ => run.2.seen

def Shows (r : Reference) (resolve : Lookup)
    (visit : TypeTerm → Finset TypeTerm → Except Failure (Finset TypeTerm)) : Prop :=
  ∀ term reg, reg.WellFormed → Agrees r reg →
    survey (resolve term reg) = visit (r.settings.canonical term) reg.seen

variable {resolve : Lookup}
  {visit : TypeTerm → Finset TypeTerm → Except Failure (Finset TypeTerm)}

theorem Shows.gather (hs : Shows r resolve visit) (hl : Follows r resolve) (hk : Keeps resolve)
    {steps : List (Except RegistryError TypeTerm)}
    {next : List (TypeTerm × CodecRef) → Ask (Except RegistryError Codec)}
    (hnext : ∀ found, ∃ codec, next found = .answer (.ok codec)) (hw : reg.WellFormed)
    (hr : Agrees r reg) :
    survey ((Deriving.gather steps next).run resolve reg) =
      Search.walk visit (steps.map r.settings.follow) reg.seen := by
  induction steps generalizing next reg with
  | nil =>
    obtain ⟨codec, he⟩ := hnext []
    rw [Deriving.gather, he]
    rfl
  | cons s steps ih =>
    rcases s with e | part
    · rfl
    · have hpart := hs part reg hw hr
      obtain ⟨hr', -⟩ := hl part reg hw hr
      obtain ⟨hw', -⟩ := hk part reg hw
      rw [Deriving.gather, Query.run, List.map_cons, Settings.follow, Search.walk, ← hpart]
      rcases hrun : resolve part reg with ⟨why | e | ref, mid⟩ <;> rw [hrun] at hr' hw'
      · rfl
      · rfl
      · exact ih (fun found => hnext _) hw' hr'

theorem Shows.ofTerm (hs : Shows r resolve visit) (hl : Follows r resolve) (hk : Keeps resolve)
    (hc : r.customs key = none) (hw : reg.WellFormed) (hr : Agrees r reg) :
    survey ((Deriving.ofTerm r.settings key).run.run resolve reg) =
      Search.walk visit (r.steps key) reg.seen := by
  have hfaithful : reg.Faithful := fun type layout h => hr.host ▸ hr.layouts type layout h
  have hans := hfaithful.layoutOf key.head
  have hw' := hw.layoutOf key.head
  obtain ⟨hr', -⟩ := hr.layoutOf key.head
  rw [Deriving.run_ofTerm, Query.run, steps, hc, Option.isSome_none, if_neg Bool.false_ne_true]
  rw [hr.host] at hans
  rw [← seen_layoutOf reg key.head]
  rcases hl' : r.host.layout key.head with _ | e | layout <;> rw [hl'] at hans <;>
    rcases hrun : reg.layoutOf key.head with ⟨answer, mid⟩ <;> rw [hrun] at hans hw' hr' <;>
    obtain rfl := hans
  · rfl
  · rfl
  · rw [stepsFor]
    change survey ((Deriving.ofLayout r.settings key layout).run.run resolve mid) = _
    rw [Deriving.run_ofLayout]
    exact hs.gather hl hk (fun found => ⟨_, rfl⟩) hw' hr'

/-- A lookup is a search, with as many visits inside one another as there are derivations. -/
theorem shows_resolve (r : Reference) (calls : Nat) :
    Shows r (Registry.resolve calls) (Search.visit r.steps (.halted .endless) calls) := by
  induction calls with
  | zero => exact fun term reg _ _ => rfl
  | succ calls ih =>
    intro term reg hw hr
    have hcanonical : reg.canonical term = r.settings.canonical term := by
      rw [Registry.canonical, hr.settings]
    have hc := reg.settings.canonical_canonical term
    rw [Registry.resolve, Search.visit, ← hcanonical]
    cases hs : reg.slot? (reg.canonical term) with
    | some slot =>
      rw [if_pos (mem_seen_iff.2 (by simp [hs]))]
      rfl
    | none =>
      have hcustom : r.customs (reg.canonical term) = none := by
        rw [Option.eq_none_iff_forall_ne_some]
        intro codec hk
        obtain ⟨slot, hp⟩ := hr.customs _ codec hk
        simp [slot?_eq_none_iff, hp] at hs
      have hend := (keeps_resolve calls).ended hw hs hc
      have hr' := hr.stage hw hs hc
      have hrun := ih.ofTerm (follows_resolve r calls) (keeps_resolve calls) hcustom
        (hw.stage hs hc) hr'
      rw [if_neg fun hm => mem_seen_iff.1 hm hs, ← seen_stage hs, ← hrun, ← hr'.recipe]
      change _ = survey (derive (Registry.resolve calls) (reg.canonical term) reg)
      rcases hd : derive (Registry.resolve calls) (reg.canonical term) reg with
        ⟨why | e | codec, mid⟩ <;> rw [hd] at hend
      · rfl
      · rfl
      · exact congrArg Except.ok (hend.seen_complete codec)

end Reference

end Typewire
