import Typewire.Proofs.Registry.Steps

/-! # Activities

While a registry waits for a codec, host code may do anything: describe types differently from one
question to the next, look terms up and go on whatever the answers are, register codecs and
factories, and crash. An activity is any sequence of such requests, with a log of what happened.
What holds of all activities holds of the runs of all factories, because these are activities.
-/

namespace Typewire

/-- What happens in an activity: a lookup ends with an answer, the host tells a layout, a codec or a
factory is registered. -/
inductive Event where
  | lookup (term : TypeTerm) (answer : Outcome (Except RegistryError CodecRef))
  | layout (type : TypeName)
  | override (key : TypeTerm)
  | enlist (type : TypeName)

def Event.Quiet : Event → Prop
  | .override _ => False
  | .enlist _ => False
  | _ => True

inductive Query.Quiet {φ ρ : Type} : Query φ ρ → Prop
  | answer (r : ρ) : Quiet (.answer r)
  | halt (why : Halt) : Quiet (.halt why)
  | lookup {term : TypeTerm} {next : Except RegistryError CodecRef → Query φ ρ} :
      (∀ r, Quiet (next r)) → Quiet (.lookup term next)
  | layout {type : TypeName} {next : Except RegistryError Layout → Query φ ρ} :
      (∀ r, Quiet (next r)) → Quiet (.layout type next)
  | inspect {next : Store → Query φ ρ} : (∀ store, Quiet (next store)) → Quiet (.inspect next)

namespace Registry

def learn (reg : Registry) (type : TypeName) (layout : Layout) : Registry :=
  { reg with
    layouts := Table.insert type layout reg.layouts
    stats := { reg.stats with layouts := reg.stats.layouts + 1 } }

mutual

/-- A lookup, with the log of the derivation in it and its answer. -/
inductive Looks : Registry → TypeTerm → List Event → Outcome (Except RegistryError CodecRef) →
    Registry → Prop
  | hit {reg : Registry} {term : TypeTerm} {slot : Nat} :
      reg.slot? (reg.canonical term) = some slot →
      Looks reg term [] (.ok (.ok ⟨reg.canonical term, slot⟩)) reg.countHit
  | derived {reg mid : Registry} {term : TypeTerm} {events : List Event} (codec : Codec) :
      reg.slot? (reg.canonical term) = none → Acts (reg.stage (reg.canonical term)) events mid →
      Looks reg term events (.ok (.ok ⟨reg.canonical term, reg.slots.size⟩))
        (mid.complete reg.slots.size codec)
  | failed {reg mid : Registry} {term : TypeTerm} {events : List Event}
      {answer : Outcome (Except RegistryError CodecRef)} :
      reg.slot? (reg.canonical term) = none → Acts (reg.stage (reg.canonical term)) events mid →
      (∀ ref, answer ≠ .ok (.ok ref)) →
      Looks reg term events answer (mid.abandon (reg.canonical term))

/-- A sequence of requests. Those that are refused change nothing and are left out. -/
inductive Acts : Registry → List Event → Registry → Prop
  | done {reg : Registry} : Acts reg [] reg
  | lookup {reg mid reg' : Registry} {term : TypeTerm} {inner events : List Event}
      {answer : Outcome (Except RegistryError CodecRef)} :
      Looks reg term inner answer mid → Acts mid events reg' →
      Acts reg (inner ++ .lookup term answer :: events) reg'
  | layout {reg reg' : Registry} {events : List Event} (type : TypeName) (layout : Layout) :
      Table.get? type reg.layouts = none → Acts (reg.learn type layout) events reg' →
      Acts reg (.layout type :: events) reg'
  | override {reg reg' : Registry} {events : List Event} (term : TypeTerm) (codec : Codec) :
      (reg.override term codec).1 = .ok () → Acts (reg.override term codec).2 events reg' →
      Acts reg (.override (reg.canonical term) :: events) reg'
  | enlist {reg reg' : Registry} {events : List Event} (type : TypeName) (factory : Factory) :
      (reg.enlist type factory).1 = .ok () → Acts (reg.enlist type factory).2 events reg' →
      Acts reg (.enlist type :: events) reg'

end

def Quiet (reg : Registry) : Prop :=
  ∀ type factory term, Table.get? type reg.factories = some factory → (factory.create term).Quiet

theorem WellFormed.learn {reg : Registry} (hw : reg.WellFormed) (type : TypeName)
    (layout : Layout) : (reg.learn type layout).WellFormed :=
  ⟨hw.idle, hw.published_filled, hw.staged_lt, hw.staged_new, hw.staged_nodup, hw.canonical⟩

theorem extends_learn (reg : Registry) (type : TypeName) (layout : Layout) :
    Extends reg (reg.learn type layout) :=
  ⟨rfl, rfl, rfl, le_rfl, fun _ _ => rfl, fun _ _ h => h, fun _ h => h, fun _ h => .inl h,
    fun _ _ h => h⟩

mutual

theorem Looks.frame {reg reg' : Registry} {term : TypeTerm} {events : List Event}
    {answer : Outcome (Except RegistryError CodecRef)} :
    Looks reg term events answer reg' → reg.WellFormed → reg'.WellFormed ∧ Extends reg reg'
  | .hit _, hw => ⟨hw.countHit, extends_countHit reg⟩
  | .derived codec hn h, hw =>
    have hc := reg.settings.canonical_canonical term
    have ⟨hw', hx⟩ := h.frame (hw.stage hn hc)
    have he : Ended reg (reg.canonical term) _ := ⟨hw, hn, hc, hw', hx⟩
    ⟨he.wellFormed_complete codec, he.extends_complete codec⟩
  | .failed hn h _, hw =>
    have hc := reg.settings.canonical_canonical term
    have ⟨hw', hx⟩ := h.frame (hw.stage hn hc)
    have he : Ended reg (reg.canonical term) _ := ⟨hw, hn, hc, hw', hx⟩
    ⟨he.wellFormed_abandon, he.extends_abandon⟩

theorem Acts.frame {reg reg' : Registry} {events : List Event} :
    Acts reg events reg' → reg.WellFormed → reg'.WellFormed ∧ Extends reg reg'
  | .done, hw => ⟨hw, .refl reg⟩
  | .lookup h h', hw =>
    have ⟨hw, hx⟩ := h.frame hw
    have ⟨hw', hx'⟩ := h'.frame hw
    ⟨hw', hx.trans hx'⟩
  | .layout type layout _ h, hw =>
    have ⟨hw', hx'⟩ := h.frame (hw.learn type layout)
    ⟨hw', (extends_learn reg type layout).trans hx'⟩
  | .override term codec _ h, hw =>
    have ⟨hw', hx'⟩ := h.frame (hw.override term codec)
    ⟨hw', (extends_override reg term codec).trans hx'⟩
  | .enlist type factory _ h, hw =>
    have ⟨hw', hx'⟩ := h.frame (hw.enlist type factory)
    ⟨hw', (extends_enlist reg type factory).trans hx'⟩

end

/-- A relation between two registries and the log between them that holds of single requests, of
one activity after another, and of a derivation if it holds of the activity inside. The log of a
lookup ends with the lookup. -/
structure AddsUp (R : Registry → List Event → Registry → Prop) : Prop where
  done (reg : Registry) : R reg [] reg
  append {reg mid reg' : Registry} {events events' : List Event} : Extends reg mid →
    Extends mid reg' → R reg events mid → R mid events' reg' → R reg (events ++ events') reg'
  hit {reg : Registry} {term : TypeTerm} {slot : Nat} :
    reg.slot? (reg.canonical term) = some slot →
    R reg [.lookup term (.ok (.ok ⟨reg.canonical term, slot⟩))] reg.countHit
  derived {reg mid : Registry} {term : TypeTerm} {events : List Event} (codec : Codec) :
    Ended reg (reg.canonical term) mid → R (reg.stage (reg.canonical term)) events mid →
    R reg (events ++ [.lookup term (.ok (.ok ⟨reg.canonical term, reg.slots.size⟩))])
      (mid.complete reg.slots.size codec)
  failed {reg mid : Registry} {term : TypeTerm} {events : List Event}
    {answer : Outcome (Except RegistryError CodecRef)} :
    Ended reg (reg.canonical term) mid → R (reg.stage (reg.canonical term)) events mid →
    (∀ ref, answer ≠ .ok (.ok ref)) →
    R reg (events ++ [.lookup term answer]) (mid.abandon (reg.canonical term))
  learn {reg : Registry} {type : TypeName} (layout : Layout) :
    Table.get? type reg.layouts = none → R reg [.layout type] (reg.learn type layout)
  override {reg : Registry} {term : TypeTerm} {codec : Codec} :
    (reg.override term codec).1 = .ok () →
    R reg [.override (reg.canonical term)] (reg.override term codec).2
  enlist {reg : Registry} {type : TypeName} {factory : Factory} :
    (reg.enlist type factory).1 = .ok () → R reg [.enlist type] (reg.enlist type factory).2

mutual

theorem AddsUp.looks {R : Registry → List Event → Registry → Prop} (hR : AddsUp R)
    {reg reg' : Registry} {term : TypeTerm} {events : List Event}
    {answer : Outcome (Except RegistryError CodecRef)} :
    Looks reg term events answer reg' → reg.WellFormed →
    R reg (events ++ [.lookup term answer]) reg'
  | .hit hs, _ => hR.hit hs
  | .derived codec hn h, hw =>
    have hc := reg.settings.canonical_canonical term
    have hs := hw.stage hn hc
    have ⟨hw', hx⟩ := h.frame hs
    hR.derived codec ⟨hw, hn, hc, hw', hx⟩ (hR.acts h hs)
  | .failed hn h hfail, hw =>
    have hc := reg.settings.canonical_canonical term
    have hs := hw.stage hn hc
    have ⟨hw', hx⟩ := h.frame hs
    hR.failed ⟨hw, hn, hc, hw', hx⟩ (hR.acts h hs) hfail

theorem AddsUp.acts {R : Registry → List Event → Registry → Prop} (hR : AddsUp R)
    {reg reg' : Registry} {events : List Event} :
    Acts reg events reg' → reg.WellFormed → R reg events reg'
  | .done, _ => hR.done reg
  | .lookup h h', hw =>
    have ⟨hw', hx⟩ := h.frame hw
    List.append_cons _ _ _ ▸ hR.append hx (h'.frame hw').2 (hR.looks h hw) (hR.acts h' hw')
  | .layout type layout hn h, hw =>
    have hw' := hw.learn type layout
    hR.append (extends_learn reg type layout) (h.frame hw').2 (hR.learn layout hn) (hR.acts h hw')
  | .override term codec ho h, hw =>
    have hw' := hw.override term codec
    hR.append (extends_override reg term codec) (h.frame hw').2 (hR.override ho) (hR.acts h hw')
  | .enlist type factory he h, hw =>
    have hw' := hw.enlist type factory
    hR.append (extends_enlist reg type factory) (h.frame hw').2 (hR.enlist he) (hR.acts h hw')

end

/-- Slots are added and keep what they hold, layouts are kept, and counters do not go back. -/
structure Grows (reg reg' : Registry) : Prop where
  size : reg.slots.size ≤ reg'.slots.size
  slots : ∀ slot < reg.slots.size, reg'.slots[slot]? = reg.slots[slot]?
  layouts : ∀ type layout, Table.get? type reg.layouts = some layout →
    Table.get? type reg'.layouts = some layout
  hits : reg.stats.hits ≤ reg'.stats.hits
  misses : reg.stats.misses ≤ reg'.stats.misses
  derivations : reg.stats.derivations ≤ reg'.stats.derivations
  loads : reg.stats.layouts ≤ reg'.stats.layouts

theorem Grows.trans {reg mid reg' : Registry} (h : Grows reg mid) (h' : Grows mid reg') :
    Grows reg reg' where
  size := h.size.trans h'.size
  slots slot hs := (h'.slots slot (hs.trans_le h.size)).trans (h.slots slot hs)
  layouts type layout hl := h'.layouts type layout (h.layouts type layout hl)
  hits := h.hits.trans h'.hits
  misses := h.misses.trans h'.misses
  derivations := h.derivations.trans h'.derivations
  loads := h.loads.trans h'.loads

theorem grows_stage (reg : Registry) (key : TypeTerm) : Grows reg (reg.stage key) where
  size := by simp [stage]
  slots slot hs := by simp [stage, Array.getElem?_push_lt hs]
  layouts _ _ h := h
  hits := le_rfl
  misses := Nat.le_succ _
  derivations := le_rfl
  loads := le_rfl

theorem Grows.complete {reg mid : Registry} (h : Grows reg mid) (codec : Codec) :
    Grows reg (mid.complete reg.slots.size codec) := by
  have hfill : Grows reg (mid.fill reg.slots.size codec) := by
    refine ⟨?_, fun slot hs => ?_, h.layouts, h.hits, h.misses, h.derivations.step, h.loads⟩
    · simpa [fill] using h.size
    · rw [fill, Array.getElem?_setIfInBounds_ne (Nat.ne_of_gt hs)]
      exact h.slots slot hs
  rw [Registry.complete]
  split
  · exact ⟨hfill.size, hfill.slots, hfill.layouts, hfill.hits, hfill.misses, hfill.derivations,
      hfill.loads⟩
  · exact hfill

theorem Grows.abandon {reg mid : Registry} (h : Grows reg mid) (key : TypeTerm) :
    Grows reg (mid.abandon key) :=
  ⟨h.size, h.slots, h.layouts, h.hits, h.misses, h.derivations, h.loads⟩

theorem addsUp_grows : AddsUp fun reg _ reg' => Grows reg reg' where
  done reg := ⟨le_rfl, fun _ _ => rfl, fun _ _ h => h, le_rfl, le_rfl, le_rfl, le_rfl⟩
  append _ _ h h' := h.trans h'
  hit _ := ⟨le_rfl, fun _ _ => rfl, fun _ _ h => h, Nat.le_succ _, le_rfl, le_rfl, le_rfl⟩
  derived codec _ h := ((grows_stage _ _).trans h).complete codec
  failed _ h _ := ((grows_stage _ _).trans h).abandon _
  learn {reg type} layout hn := by
    refine ⟨le_rfl, fun _ _ => rfl, fun t l hl => ?_, le_rfl, le_rfl, le_rfl, Nat.le_succ _⟩
    have hne : t ≠ type := fun he => by simp [he, hn] at hl
    rwa [Registry.learn, Table.get?_insert, if_neg hne]
  override ho := by
    rw [(of_override_ok ho).2]
    refine ⟨by simp, fun slot hs => ?_, fun _ _ h => h, le_rfl, le_rfl, le_rfl, le_rfl⟩
    simp [Array.getElem?_push_lt hs]
  enlist he := by
    rw [(of_enlist_ok he).2]
    exact ⟨le_rfl, fun _ _ => rfl, fun _ _ h => h, le_rfl, le_rfl, le_rfl, le_rfl⟩

/-- Host, settings and factories are the same, and inside a derivation so is what is published. -/
structure Kept (reg reg' : Registry) : Prop where
  host : reg'.host = reg.host
  settings : reg'.settings = reg.settings
  depth : reg'.depth = reg.depth
  factories : reg'.factories = reg.factories
  published : reg.depth ≠ 0 → reg'.published = reg.published

theorem Kept.trans {reg mid reg' : Registry} (h : Kept reg mid) (h' : Kept mid reg') :
    Kept reg reg' where
  host := h'.host.trans h.host
  settings := h'.settings.trans h.settings
  depth := h'.depth.trans h.depth
  factories := h'.factories.trans h.factories
  published hd := (h'.published (h.depth ▸ hd)).trans (h.published hd)

theorem Kept.abandon {reg mid : Registry} {key : TypeTerm} (h : Kept (reg.stage key) mid) :
    Kept reg (mid.abandon key) ∧ (mid.abandon key).published = reg.published := by
  have hd : mid.depth = reg.depth + 1 := h.depth
  have hp : mid.published = reg.published := h.published (Nat.succ_ne_zero reg.depth)
  exact ⟨⟨h.host, h.settings, by simp [Registry.abandon, hd], h.factories, fun _ => hp⟩, hp⟩

theorem Kept.complete {reg mid : Registry} {key : TypeTerm} (h : Kept (reg.stage key) mid)
    (codec : Codec) : Kept reg (mid.complete reg.slots.size codec) := by
  have hd : (mid.fill reg.slots.size codec).depth = reg.depth := by simp [fill, h.depth, stage]
  have hp : mid.published = reg.published := h.published (Nat.succ_ne_zero reg.depth)
  rw [Registry.complete, hd]
  split
  · exact ⟨h.host, h.settings, hd, h.factories, fun hne => absurd ‹_› hne⟩
  · exact ⟨h.host, h.settings, hd, h.factories, fun _ => hp⟩

theorem addsUp_kept : AddsUp fun reg events reg' => (∀ e ∈ events, e.Quiet) → Kept reg reg' where
  done _ _ := ⟨rfl, rfl, rfl, rfl, fun _ => rfl⟩
  append _ _ h h' hq :=
    (h (List.forall_mem_append.1 hq).1).trans (h' (List.forall_mem_append.1 hq).2)
  hit _ _ := ⟨rfl, rfl, rfl, rfl, fun _ => rfl⟩
  derived codec _ h hq := (h (List.forall_mem_append.1 hq).1).complete codec
  failed _ h _ hq := (h (List.forall_mem_append.1 hq).1).abandon.1
  learn _ _ _ := ⟨rfl, rfl, rfl, rfl, fun _ => rfl⟩
  override _ hq := absurd (hq _ List.mem_cons_self) id
  enlist _ hq := absurd (hq _ List.mem_cons_self) id

theorem quiet_gather {steps : List (Except RegistryError TypeTerm)}
    {next : List (TypeTerm × CodecRef) → Ask (Except RegistryError Codec)}
    (h : ∀ found, (next found).Quiet) : (Deriving.gather steps next).Quiet := by
  induction steps generalizing next with
  | nil => exact h []
  | cons s steps ih =>
    cases s with
    | error e => exact .answer _
    | ok part =>
      refine .lookup fun r => ?_
      cases r with
      | error e => exact .answer _
      | ok ref => exact ih fun found => h _

theorem Quiet.recipe {reg : Registry} (h : reg.Quiet) (key : TypeTerm) :
    (reg.recipe key).Quiet := by
  rw [Registry.recipe]
  split
  · exact h _ _ key ‹_›
  · rw [Deriving.run_ofTerm]
    refine .layout fun r => ?_
    cases r with
    | error e => exact .answer _
    | ok layout =>
      rw [Deriving.proceed, Deriving.run_ofLayout]
      exact quiet_gather fun found => .answer _

theorem Quiet.kept {reg reg' : Registry} (h : reg.Quiet) (hk : Kept reg reg') : reg'.Quiet := by
  rw [Quiet, hk.factories]
  exact h

/-- The lookup is an activity, and a quiet one if factories are quiet, unless it does not begin. -/
def Active (resolve : Lookup) : Prop :=
  ∀ term reg, reg.WellFormed → resolve term reg = (.error .endless, reg) ∨
    ∃ events, Looks reg term events (resolve term reg).1 (resolve term reg).2 ∧
      (reg.Quiet → ∀ e ∈ events, e.Quiet)

theorem Active.run {ρ : Type} {resolve : Lookup} (ha : Active resolve) (q : Ask ρ)
    {reg : Registry} (hw : reg.WellFormed) : ∃ events, Acts reg events (q.run resolve reg).2 ∧
      (reg.Quiet → q.Quiet → ∀ e ∈ events, e.Quiet) := by
  induction q generalizing reg with
  | answer | halt => exact ⟨[], .done, by simp⟩
  | lookup term next ih =>
    rw [Query.run]
    rcases ha term reg hw with h | ⟨inner, hl, hq⟩
    · rw [h]
      exact ⟨[], .done, by simp⟩
    · have hquiet : reg.Quiet → ∀ answer, ∀ e ∈ inner ++ [.lookup term answer], e.Quiet :=
        fun hr _ => List.forall_mem_append.2 ⟨hq hr, List.forall_mem_singleton.2 trivial⟩
      rcases hres : resolve term reg with ⟨why | r, mid⟩ <;> rw [hres] at hl
      · exact ⟨inner ++ [.lookup term (.error why)], .lookup hl .done, fun hr _ => hquiet hr _⟩
      · obtain ⟨events, h, hq'⟩ := ih r (hl.frame hw).1
        refine ⟨inner ++ .lookup term (.ok r) :: events, .lookup hl h, fun hr hn => ?_⟩
        have hn' : (next r).Quiet := by
          cases hn with | lookup hn => exact hn r
        rw [List.append_cons, List.forall_mem_append]
        exact ⟨hquiet hr _, hq' (hr.kept (addsUp_kept.looks hl hw (hquiet hr _))) hn'⟩
  | layout type next ih =>
    obtain ⟨events, h, hq⟩ : ∃ events, Acts (reg.layoutOf type).2 events
        (Query.run resolve (Query.layout type next) reg).2 ∧ ((reg.layoutOf type).2.Quiet →
          Query.Quiet (Query.layout type next) → ∀ e ∈ events, e.Quiet) := by
      have hw' := hw.layoutOf type
      rw [Query.run]
      rcases hres : reg.layoutOf type with ⟨why | r, mid⟩ <;> rw [hres] at hw'
      · exact ⟨[], .done, by simp⟩
      · obtain ⟨events, h, hq⟩ := ih r hw'
        refine ⟨events, h, fun hr hn => hq hr ?_⟩
        cases hn with | layout hn => exact hn r
    rcases layoutOf_cases reg type with he | ⟨layout, -, hn, he⟩ <;> rw [he] at h hq
    · exact ⟨events, h, hq⟩
    · exact ⟨_, .layout type layout hn h, fun hr hl => List.forall_mem_cons.2 ⟨trivial, hq hr hl⟩⟩
  | override term codec next ih =>
    obtain ⟨events, h, -⟩ := ih (reg.override term codec).1 (hw.override term codec)
    have hquiet : ¬ Query.Quiet (Query.override term codec next) := fun hn => by cases hn
    -- A registration that is refused leaves no event.
    by_cases hok : (reg.override term codec).1 = .ok ()
    · exact ⟨_, .override term codec hok h, fun _ hn => absurd hn hquiet⟩
    · rcases override_cases reg term codec with ⟨-, he⟩ | ⟨-, he⟩
      · rw [Query.run, he]
        rw [he] at h
        exact ⟨events, h, fun _ hn => absurd hn hquiet⟩
      · exact absurd (by rw [he]) hok
  | enlist type factory next ih =>
    obtain ⟨events, h, -⟩ := ih (reg.enlist type factory).1 (hw.enlist type factory)
    have hquiet : ¬ Query.Quiet (Query.enlist type factory next) := fun hn => by cases hn
    by_cases hok : (reg.enlist type factory).1 = .ok ()
    · exact ⟨_, .enlist type factory hok h, fun _ hn => absurd hn hquiet⟩
    · rcases enlist_cases reg type factory with he | ⟨-, -, he⟩
      · rw [Query.run, he]
        rw [he] at h
        exact ⟨events, h, fun _ hn => absurd hn hquiet⟩
      · exact absurd (by rw [he]) hok
  | inspect next ih =>
    obtain ⟨events, h, hq⟩ := ih reg.store hw
    refine ⟨events, h, fun hr hn => hq hr ?_⟩
    cases hn with | inspect hn => exact hn reg.store

theorem Active.looks {calls : Nat} (ha : Active (resolve calls)) (term : TypeTerm)
    {reg : Registry} (hw : reg.WellFormed) :
    ∃ events, Looks reg term events (resolve (calls + 1) term reg).1
      (resolve (calls + 1) term reg).2 ∧ (reg.Quiet → ∀ e ∈ events, e.Quiet) := by
  rcases resolve_cases calls term reg with ⟨slot, hs, h⟩ | ⟨hn, h⟩
  · rw [h]
    exact ⟨[], .hit hs, by simp⟩
  · obtain ⟨events, hacts, hq⟩ :=
      ha.run ((reg.stage (reg.canonical term)).recipe (reg.canonical term))
        (hw.stage hn (reg.settings.canonical_canonical term))
    have hquiet : reg.Quiet → ∀ e ∈ events, e.Quiet := fun hr =>
      have hs : (reg.stage (reg.canonical term)).Quiet := hr
      hq hs (hs.recipe _)
    rcases h with ⟨codec, mid, hd, h⟩ | ⟨answer, mid, hd, -, hfail, h⟩ <;>
      rw [derive] at hd <;> rw [hd] at hacts
    · rw [h]
      exact ⟨events, .derived codec hn hacts, hquiet⟩
    · rw [h]
      exact ⟨events, .failed hn hacts hfail, hquiet⟩

theorem active_resolve (calls : Nat) : Active (resolve calls) := by
  induction calls with
  | zero => exact fun term reg _ => .inl rfl
  | succ calls ih => exact fun term reg hw => .inr (ih.looks term hw)

theorem looks_lookup {reg : Registry} (hw : reg.WellFormed) (term : TypeTerm) :
    ∃ events, Looks reg term events (reg.lookup term).1 (reg.lookup term).2 ∧
      (reg.Quiet → ∀ e ∈ events, e.Quiet) := by
  obtain ⟨calls, hcalls⟩ := callLimit_eq
  rw [lookup_eq, hcalls]
  exact (active_resolve calls).looks term hw

end Registry

end Typewire
