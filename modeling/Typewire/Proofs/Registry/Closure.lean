import Mathlib.Order.MinMax
import Typewire.Proofs.Codec.Causes
import Typewire.Proofs.Registry.Links

/-! # Closed registries

As long as no factory recovers from a failed lookup, published codecs refer to published codecs
only, after every request and whether it fails or not. So coding never comes to an empty slot, and a
codec that was registered for a term serves all references to it.
-/

namespace Typewire.Registry

variable {recovers : Bool} {old new : Nat} {reg reg' : Registry} {key : TypeTerm} {slot : Nat}
  {codec : Codec} {ref : CodecRef}

/-- Published terms are canonical and have their codecs, which refer to published codecs only. -/
structure Closed (reg : Registry) : Prop where
  canonical : ∀ key slot, Table.get? key reg.published = some slot → reg.canonical key = key
  filled : ∀ key slot, Table.get? key reg.published = some slot →
    ∃ codec, reg.Holds slot codec ∧ ∀ ref ∈ codec.refs, reg.Publishes ref

theorem Holds.unique {codec' : Codec} (h : reg.Holds slot codec) (h' : reg.Holds slot codec') :
    codec = codec' :=
  Option.some.inj (Option.some.inj (h.symm.trans h'))

theorem Holds.codec? (h : reg.Holds ref.slot codec) : reg.store.codec? ref = some codec := by
  rw [Store.codec?, store, h, Option.join_some]

theorem Publishes.extends (h : reg.Publishes ref) (hx : Extends reg reg') : reg'.Publishes ref :=
  hx.published _ _ h

theorem Closed.holds (h : reg.Closed) (hp : reg.Publishes ref) :
    ∃ codec, reg.Holds ref.slot codec ∧ ∀ r ∈ codec.refs, reg.Publishes r :=
  h.filled _ _ hp

theorem Closed.linked (h : reg.Closed) (hi : reg.Idle)
    (hf : ∀ type factory, Table.get? type reg.factories = some factory →
      factory.Honest recovers) (old new : Nat) : Linked recovers old new reg := by
  refine ⟨hf, ?_, fun entry he => ?_⟩
  · intro k s c hp hs r hr
    obtain ⟨c', hc, hrefs⟩ := h.filled k s hp
    obtain rfl := hs.unique hc
    exact .inl (hrefs r hr)
  · rw [hi.staged] at he
    cases he

def Refers (reg : Registry) (ref : CodecRef) : Prop :=
  ∃ key slot codec, Table.get? key reg.published = some slot ∧ reg.Holds slot codec ∧
    ref ∈ codec.refs

theorem Refers.extends (h : reg.Refers ref) (hx : Extends reg reg') : reg'.Refers ref := by
  obtain ⟨key, slot, codec, hp, hs, hr⟩ := h
  exact ⟨key, slot, codec, hx.published key slot hp, hx.holds hs, hr⟩

theorem Closed.publishes (h : reg.Closed) (hr : reg.Refers ref) : reg.Publishes ref := by
  obtain ⟨key, slot, codec, hp, hs, hr⟩ := hr
  obtain ⟨codec', hs', hrefs⟩ := h.filled key slot hp
  obtain rfl := hs.unique hs'
  exact hrefs ref hr

theorem Publishes.not_lost (h : reg.Publishes ref) (hw : reg.WellFormed) :
    ¬ reg.Lost ref.slot := by
  obtain ⟨codec, hc⟩ := hw.published_filled _ _ h
  exact fun hl => hl.not_holds hc

theorem Linked.refers (h : Linked recovers old new reg) (hr : reg.Refers ref) :
    reg.Publishes ref ∨ old ≤ ref.slot ∧ reg.Lost ref.slot := by
  obtain ⟨key, slot, codec, hp, hs, hr⟩ := hr
  exact h.published key slot codec hp hs ref hr

theorem Linked.closed_iff (h : Linked recovers old new reg) (hw : reg.WellFormed) :
    reg.Closed ↔ ∀ ref, reg.Refers ref → old ≤ ref.slot → ¬ reg.Lost ref.slot := by
  constructor
  · exact fun hc ref hr _ => (hc.publishes hr).not_lost hw
  · intro hn
    refine ⟨fun k s hp => hw.canonical k s (by rw [slot?, hp, Option.some_or]), fun k s hp => ?_⟩
    obtain ⟨codec, hs⟩ := hw.published_filled k s hp
    refine ⟨codec, hs, fun r hr => ?_⟩
    have hr : reg.Refers r := ⟨k, s, codec, hp, hs, hr⟩
    rcases h.refers hr with hp | ⟨hle, hl⟩
    · exact hp
    · exact absurd hl (hn r hr hle)

theorem Whole.not_lost (h : Whole reg reg') (hi : reg'.Idle) (hs : reg.slots.size ≤ slot) :
    ¬ reg'.Lost slot := by
  intro hl
  obtain ⟨k, hk⟩ := h slot hs hl.lt_size
  rw [hi.slot?_eq] at hk
  obtain ⟨c, hc⟩ := hi.published_filled k slot hk
  exact hl.not_holds hc

/-- Idle and closed, with factories that do not recover. -/
structure Sound (reg : Registry) : Prop extends Idle reg where
  closed : reg.Closed
  factories : ∀ type factory, Table.get? type reg.factories = some factory → factory.Honest false

theorem sound_initial (host : Host) (settings : Settings) : (initial host settings).Sound where
  toIdle := idle_initial host settings
  closed := by
    refine ⟨?_, ?_⟩ <;> intro key slot h <;> cases h
  factories _ _ h := by cases h

theorem Sound.linked (h : reg.Sound) (old new : Nat) : Linked false old new reg :=
  h.closed.linked h.toIdle h.factories old new

theorem Linked.sound (h : Linked false old new reg) (hi : reg.Idle) (hs : reg.slots.size ≤ old) :
    reg.Sound :=
  ⟨hi, (h.closed_iff hi.toWellFormed).2 fun _ _ hle hl =>
    absurd hl.lt_size (Nat.not_lt.2 (hs.trans hle)),
    h.factories⟩

theorem Sound.resolve (h : reg.Sound) (calls : Nat) (term : TypeTerm) :
    (resolve calls term reg).2.Sound := by
  obtain ⟨hw, hx⟩ := keeps_resolve calls term reg h.toWellFormed
  have hi := h.toIdle.of_extends hw hx
  obtain ⟨hfail, hok⟩ :=
    h.toIdle.linked_resolve (h.linked (Registry.resolve calls term reg).2.slots.size _) le_rfl
      calls term
  by_cases hr : ∃ ref, (Registry.resolve calls term reg).1 = .ok (.ok ref)
  · obtain ⟨ref, hr⟩ := hr
    obtain ⟨hlinked, hwhole⟩ := hok ref hr
    refine ⟨hi, (hlinked.closed_iff hi.toWellFormed).2 fun r _ hs => ?_, hlinked.factories⟩
    rcases min_le_iff.1 hs with hs | hs
    · exact fun hl => absurd hl.lt_size (Nat.not_lt.2 hs)
    · exact (hwhole rfl).not_lost hi hs
  · exact (hfail (not_exists.1 hr)).sound hi le_rfl

theorem Sound.lookup (h : reg.Sound) (term : TypeTerm) : (reg.lookup term).2.Sound := by
  rw [lookup_eq]
  exact h.resolve callLimit term

theorem Sound.override (h : reg.Sound) (term : TypeTerm)
    (hc : ∀ ref ∈ codec.refs, reg.Publishes ref) : (reg.override term codec).2.Sound :=
  ((h.linked _ 0).override h.toWellFormed term hc).sound (h.toIdle.override term codec) le_rfl

theorem Sound.enlist (h : reg.Sound) (type : TypeName) {factory : Factory}
    (hf : factory.Honest false) : (reg.enlist type factory).2.Sound :=
  ((h.linked _ 0).enlist type hf).sound (h.toIdle.enlist type factory) le_rfl

theorem Sound.reaches (h : reg.Sound) (hr : Reaches false reg reg') : reg'.Sound :=
  hr.invariant h (fun _ term h => h.lookup term) (fun _ term _ h hc => h.override term hc)
    fun _ type _ h hf => h.enlist type hf

/-- The cause is not an empty slot, unless a custom codec says so itself. -/
def EncodeExcused (reg : Registry) (cause : EncodeCause) : Prop :=
  ∀ term, cause = .unresolved term →
    ∃ slot c v e, reg.Holds slot (.custom c) ∧ c.encode v = .error e ∧ e.cause = cause

def DecodeExcused (reg : Registry) (cause : DecodeCause) : Prop :=
  ∀ term, cause = .unresolved term →
    ∃ slot c j e, reg.Holds slot (.custom c) ∧ c.decode j = .error e ∧ e.cause = cause

/-- Coding by the reference does not come to an empty slot. -/
def Resolves (reg : Registry) (ref : CodecRef) : Prop :=
  (∀ v, (reg.store.encode ref v).FailsOnly reg.EncodeExcused) ∧
    ∀ j, Decoding.FailsOnly reg.DecodeExcused (reg.store.decode ref j)

theorem Closed.encodeWithin (h : reg.Closed) (hp : reg.Publishes ref) (calls : Nat) (v : Value) :
    (reg.store.encodeWithin calls ref v).FailsOnly reg.EncodeExcused := by
  induction calls generalizing ref v with
  | zero => exact Encoding.failsOnly_endless
  | succ calls ih =>
    obtain ⟨codec, hs, hrefs⟩ := h.holds hp
    rw [Store.encodeWithin, hs.codec?]
    refine Codec.failsOnly_encodeWith (fun cause hc term ht => absurd ht (hc term)) ?_
      (fun r hr v => ih (hrefs r hr) v) v
    rintro c rfl v e he - -
    exact ⟨_, c, v, e, hs, he, rfl⟩

theorem Closed.decodeWithin (h : reg.Closed) (hp : reg.Publishes ref) {calls : Nat} {j : Json}
    (hj : j.depth < calls) :
    Decoding.FailsOnly reg.DecodeExcused (reg.store.decodeWithin calls ref j) := by
  induction calls generalizing ref j with
  | zero => exact absurd hj (Nat.not_lt_zero _)
  | succ calls ih =>
    obtain ⟨codec, hs, hrefs⟩ := h.holds hp
    rw [Store.decodeWithin, hs.codec?]
    refine Codec.failsOnly_decodeWith (fun cause hc term ht => absurd ht (hc term)) ?_
      fun r hr j' hj' => ih (hrefs r hr) (hj'.trans_le (Nat.le_of_lt_succ hj))
    rintro c rfl j e he - -
    exact ⟨_, c, j, e, hs, he, rfl⟩

theorem Closed.resolves (h : reg.Closed) (hp : reg.Publishes ref) : reg.Resolves ref :=
  ⟨h.encodeWithin hp callLimit, fun j => h.decodeWithin hp (Nat.lt_succ_self j.depth)⟩

/-- All references to a term are to this codec: those that lookups give and those in published
codecs. -/
structure Serves (reg : Registry) (key : TypeTerm) (codec : Codec) : Prop where
  lookup : ∀ term, reg.canonical term = key →
    ∃ ref, (reg.lookup term).1 = .ok (.ok ref) ∧ ref.term = key ∧ reg.Holds ref.slot codec
  nested : ∀ k s c, Table.get? k reg.published = some s → reg.Holds s c →
    ∀ ref ∈ c.refs, ref.term = key → reg.Holds ref.slot codec

theorem Closed.serves (h : reg.Closed) (hp : Table.get? key reg.published = some slot)
    (hs : reg.Holds slot codec) : reg.Serves key codec := by
  refine ⟨?_, ?_⟩
  · rintro term rfl
    have hk : reg.slot? (reg.canonical term) = some slot := by rw [slot?, hp, Option.some_or]
    exact ⟨⟨reg.canonical term, slot⟩, congrArg Prod.fst (lookup_of_slot? hk), rfl, hs⟩
  · rintro k s c hk hc r hr rfl
    obtain ⟨c', hc', hrefs⟩ := h.filled k s hk
    obtain rfl := hc.unique hc'
    have hslot : r.slot = slot := Option.some.inj ((hrefs r hr).symm.trans hp)
    rwa [hslot]

/-- After any requests, and whether these succeed or fail, published codecs refer to published ones
only. A derivation that is to be published leaves no staged term without its codec, a reference from
a lookup never comes to an empty slot, and a registered codec serves all references to its term. -/
theorem closed_of_reaches {host : Host} {settings : Settings}
    (h : Reaches false (initial host settings) reg) :
    reg.Closed ∧
    (∀ term calls codec mid, reg.slot? (reg.canonical term) = none →
      derive (resolve calls) (reg.canonical term) reg = (.ok (.ok codec), mid) →
      ∀ entry ∈ mid.staged, (mid.fill reg.slots.size codec).isFilled entry.2 = true) ∧
    (∀ term ref, (reg.lookup term).1 = .ok (.ok ref) →
      ∀ reg', Reaches false (reg.lookup term).2 reg' → reg'.Resolves ref) ∧
    (∀ term codec, (∀ ref ∈ codec.refs, reg.Publishes ref) →
      (reg.override term codec).1 = .ok () →
      ∀ reg', Reaches false (reg.override term codec).2 reg' →
        reg'.Serves (reg.canonical term) codec) := by
  have hs := (sound_initial host settings).reaches h
  refine ⟨hs.closed, ?_, ?_, ?_⟩
  · intro term calls codec mid hn hd entry he
    have hend := (keeps_resolve calls).ended hs.toWellFormed hn
      (reg.settings.canonical_canonical term)
    rw [hd] at hend
    exact hend.filled_of_outermost hs.depth he codec
  · intro term ref hl reg' hr
    have hp := (hs.toIdle.publishes_lookup hl).2
    obtain ⟨-, hx⟩ := hr.frame (hs.lookup term).toIdle
    exact ((hs.lookup term).reaches hr).closed.resolves (hp.extends hx)
  · intro term codec hc ho reg' hr
    obtain ⟨hp, hh⟩ := override_published ho
    have ho := hs.override term hc
    obtain ⟨-, hx⟩ := hr.frame ho.toIdle
    exact (ho.reaches hr).closed.serves (hx.published _ _ hp) (hx.holds hh)

theorem closed_of_reaches_chain :
    ∃ reg, Reaches false (initial .chain {}) reg ∧ reg.size = 1 ∧ reg.slots.size = 2 ∧ reg.Closed ∧
      (reg.lookup ⟨"Chain", []⟩).2.Resolves ⟨⟨"Chain", []⟩, 1⟩ ∧
      (reg.override ⟨"Absent", []⟩ (.atomic .bool)).2.Serves ⟨"Absent", []⟩ (.atomic .bool) := by
  have h : Reaches false (initial .chain {})
      (((initial .chain {}).perform (.lookup ⟨"Absent", []⟩)).perform (.lookup ⟨"Chain", []⟩)) :=
    .step _ (.step _ .refl trivial) trivial
  obtain ⟨hc, -, hl, ho⟩ := closed_of_reaches h
  refine ⟨_, h, by rfl, by rfl, hc, hl ⟨"Chain", []⟩ _ (by rfl) _ .refl, ?_⟩
  exact ho ⟨"Absent", []⟩ (.atomic .bool) (by simp [Codec.refs]) (by rfl) _ .refl

end Typewire.Registry
