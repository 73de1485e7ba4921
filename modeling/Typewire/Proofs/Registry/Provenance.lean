import Mathlib.Data.List.Nodup
import Typewire.Proofs.Registry.Machine

/-! # What made each codec

A type name has one way for its codecs to be made. A term that is published or in progress keeps
factories away from its type name and codecs away from itself, from the moment it is staged to the
moment it is dropped, so no registration comes between a derivation and its end.
-/

namespace Typewire

namespace Registry

variable {reg mid reg' : Registry} {key : TypeTerm} {slot : Nat} {codec : Codec}
  {deposits : List Deposit}

theorem isInUse_iff {type : TypeName} :
    reg.isInUse type = true ↔ ∃ key : TypeTerm, key.head = type ∧ reg.slot? key ≠ none := by
  simp only [isInUse, Bool.or_eq_true, List.any_eq_true, decide_eq_true_eq, ne_eq,
    slot?_eq_none_iff, Table.get?_eq_none_iff, Table.keys, List.mem_map]
  constructor
  · rintro (⟨entry, he, ht⟩ | ⟨entry, he, ht⟩)
    · exact ⟨entry.1, ht, fun h => h.2 ⟨entry, he, rfl⟩⟩
    · exact ⟨entry.1, ht, fun h => h.1 ⟨entry, he, rfl⟩⟩
  · rintro ⟨key, ht, h⟩
    rw [not_and_or, not_not, not_not] at h
    rcases h with ⟨entry, he, rfl⟩ | ⟨entry, he, rfl⟩
    · exact .inr ⟨entry, he, ht⟩
    · exact .inl ⟨entry, he, ht⟩

theorem slot?_eq_none_iff_get? :
    reg.slot? key = none ↔
      Table.get? key reg.published = none ∧ Table.get? key reg.staged = none := by
  rw [slot?_eq_none_iff, Table.get?_eq_none_iff (t := reg.staged)]

theorem enlist_ok_iff {type : TypeName} {factory : Factory} :
    (reg.enlist type factory).1 = .ok () ↔ Table.get? type reg.factories = none ∧
      ∀ key : TypeTerm, key.head = type →
        Table.get? key reg.published = none ∧ Table.get? key reg.staged = none := by
  have huse : (∀ key : TypeTerm, key.head = type →
      Table.get? key reg.published = none ∧ Table.get? key reg.staged = none) ↔
        ¬ reg.isInUse type = true := by
    simp only [isInUse_iff, ← slot?_eq_none_iff_get?]
    constructor
    · rintro h ⟨key, ht, hs⟩
      exact hs (h key ht)
    · intro h key ht
      exact by_contra fun hs => h ⟨key, ht, hs⟩
  rw [huse, enlist]
  split <;> rename_i h <;> rw [Table.has, Option.isSome_iff_ne_none] at h
  · simp only [reduceCtorEq, false_iff]
    tauto
  · simp only [true_iff]
    tauto

theorem override_ok_iff {term : TypeTerm} :
    (reg.override term codec).1 = .ok () ↔
      Table.get? (reg.canonical term) reg.published = none ∧
        Table.get? (reg.canonical term) reg.staged = none := by
  rw [← slot?_eq_none_iff_get?]
  rcases override_cases reg term codec with ⟨hs, h⟩ | ⟨hs, h⟩ <;> simp [h, hs]

theorem enlist_of_not_ok {type : TypeName} {factory : Factory}
    (h : (reg.enlist type factory).1 ≠ .ok ()) : (reg.enlist type factory).2 = reg := by
  rcases enlist_cases reg type factory with he | ⟨-, -, he⟩
  · rw [he]
  · exact absurd (by rw [he]) h

theorem override_of_not_ok {term : TypeTerm} (h : (reg.override term codec).1 ≠ .ok ()) :
    (reg.override term codec).2 = reg := by
  rcases override_cases reg term codec with ⟨-, he⟩ | ⟨-, he⟩
  · rw [he]
  · exact absurd (by rw [he]) h

theorem maker_enlist (type : TypeName) (factory : Factory) (h : reg.slot? key ≠ none) :
    (reg.enlist type factory).2.maker key = reg.maker key := by
  rcases enlist_cases reg type factory with he | ⟨huse, -, he⟩ <;> rw [he]
  have hne : key.head ≠ type := by
    rintro rfl
    rw [isInUse_iff.2 ⟨key, rfl, h⟩] at huse
    cases huse
  rw [maker, maker, Table.get?_insert, if_neg hne]

theorem maker_of_factories (h : reg'.factories = reg.factories) (key : TypeTerm) :
    reg'.maker key = reg.maker key := by
  rw [maker, maker, h]

/-- Every codec in a slot was deposited there once, for one term, and as long as this term has the
slot, the codec was registered for the term or is from what would make it now. -/
structure Accounted (reg : Registry) (deposits : List Deposit) : Prop where
  filled : ∀ slot codec, reg.Holds slot codec → ∃ d ∈ deposits, d.slot = slot ∧ d.codec = codec
  holds : ∀ d ∈ deposits, reg.Holds d.slot d.codec
  once : (deposits.map Deposit.slot).Nodup
  distinct : ∀ key key' slot, reg.slot? key = some slot → reg.slot? key' = some slot → key = key'
  key : ∀ d ∈ deposits, ∀ key, reg.slot? key = some d.slot → key = d.key
  maker : ∀ d ∈ deposits, reg.slot? d.key = some d.slot →
    d.maker = none ∨ d.maker = some (reg.maker d.key)

namespace Accounted

theorem initial (host : Host) (settings : Settings) :
    Accounted (Registry.initial host settings) [] where
  filled slot codec h := by simp [Holds, Registry.initial] at h
  holds := by simp
  once := List.nodup_nil
  distinct key key' slot h := by simp [slot?, Registry.initial, Table.get?_nil] at h
  key := by simp
  maker := by simp

variable (h : Accounted reg deposits)

include h

theorem mono (hs : reg'.slots = reg.slots)
    (hk : ∀ key slot, reg'.slot? key = some slot → reg.slot? key = some slot)
    (hm : ∀ key slot, reg'.slot? key = some slot → reg'.maker key = reg.maker key) :
    Accounted reg' deposits where
  filled slot codec hc := h.filled slot codec (by rwa [Holds, hs] at hc)
  holds d hd := by
    rw [Holds, hs]
    exact h.holds d hd
  once := h.once
  distinct key key' slot hk₁ hk₂ := h.distinct key key' slot (hk _ _ hk₁) (hk _ _ hk₂)
  key d hd key hk' := h.key d hd key (hk _ _ hk')
  maker d hd hk' := by
    rw [hm _ _ hk']
    exact h.maker d hd (hk _ _ hk')

theorem slot_lt {d : Deposit} (hd : d ∈ deposits) : d.slot < reg.slots.size :=
  (h.holds d hd).lt_size

theorem countHit : Accounted reg.countHit deposits :=
  h.mono rfl (fun _ _ hs => hs) fun _ _ _ => rfl

theorem layoutOf (type : TypeName) : Accounted (reg.layoutOf type).2 deposits := by
  rcases layoutOf_cases reg type with he | ⟨layout, -, -, he⟩ <;> rw [he]
  · exact h
  · exact h.mono rfl (fun _ _ hs => hs) fun _ _ _ => rfl

theorem enlist (type : TypeName) (factory : Factory) :
    Accounted (reg.enlist type factory).2 deposits := by
  have hsame : (reg.enlist type factory).2.slots = reg.slots ∧
      ∀ key, (reg.enlist type factory).2.slot? key = reg.slot? key := by
    rcases enlist_cases reg type factory with he | ⟨-, -, he⟩ <;> rw [he] <;>
      exact ⟨rfl, fun _ => rfl⟩
  refine h.mono hsame.1 (fun key slot hs => by rwa [hsame.2] at hs) fun key slot hs => ?_
  rw [hsame.2] at hs
  exact maker_enlist type factory (by simp [hs])

theorem allot (hw : reg.WellFormed)
    (hslot : ∀ k, reg'.slot? k = if k = key then some reg.slots.size else reg.slot? k) :
    (∀ k k' slot, reg'.slot? k = some slot → reg'.slot? k' = some slot → k = k') ∧
      ∀ d ∈ deposits, ∀ k, reg'.slot? k = some d.slot → reg.slot? k = some d.slot := by
  have hlt : ∀ k, reg.slot? k ≠ some reg.slots.size := fun k hk =>
    absurd (slot?_lt_size hw hk) (lt_irrefl _)
  constructor
  · intro k k' slot hk hk'
    rw [hslot] at hk hk'
    split at hk <;> split at hk'
    · simp [*]
    · cases hk
      exact absurd hk' (hlt k')
    · cases hk'
      exact absurd hk (hlt k)
    · exact h.distinct k k' slot hk hk'
  · intro d hd k hk
    rw [hslot] at hk
    split at hk
    · exact absurd (Option.some.inj hk) (Nat.ne_of_gt (h.slot_lt hd))
    · exact hk

theorem stage (hw : reg.WellFormed) (hn : reg.slot? key = none) :
    Accounted (reg.stage key) deposits := by
  have hslot : ∀ k, (reg.stage key).slot? k =
      if k = key then some reg.slots.size else reg.slot? k := by
    intro k
    rw [slot?, Registry.stage, Table.get?_insert]
    split
    · subst_vars
      rw [(slot?_eq_none_iff.1 hn).1]
      rfl
    · rfl
  obtain ⟨hdistinct, hold⟩ := h.allot hw hslot
  refine ⟨fun slot codec hc => ?_, fun d hd => (h.holds d hd).push none, h.once, hdistinct,
    fun d hd k hk => h.key d hd k (hold d hd k hk), fun d hd hk => h.maker d hd (hold d hd _ hk)⟩
  rcases getElem?_push_iff.1 hc with hc | ⟨-, hc⟩
  · exact h.filled slot codec hc
  · cases hc

theorem override (hw : reg.WellFormed) {term : TypeTerm}
    (hok : (reg.override term codec).1 = .ok ()) :
    Accounted (reg.override term codec).2
      (⟨reg.canonical term, reg.slots.size, codec, none⟩ :: deposits) := by
  obtain ⟨hn, he⟩ := of_override_ok hok
  have hslot : ∀ k, (reg.override term codec).2.slot? k =
      if k = reg.canonical term then some reg.slots.size else reg.slot? k := by
    intro k
    rw [he, slot?, Table.get?_insert]
    split <;> rfl
  have hholds : ∀ slot c, (reg.override term codec).2.Holds slot c ↔
      reg.Holds slot c ∨ slot = reg.slots.size ∧ codec = c := by
    intro slot c
    rw [he, Holds, getElem?_push_iff, Option.some.injEq]
  obtain ⟨hdistinct, hold⟩ := h.allot hw hslot
  refine ⟨?_, ?_, ?_, hdistinct, ?_, ?_⟩
  · intro slot c hc
    rcases (hholds slot c).1 hc with hc | ⟨rfl, rfl⟩
    · obtain ⟨d, hd, hdc⟩ := h.filled slot c hc
      exact ⟨d, List.mem_cons_of_mem _ hd, hdc⟩
    · exact ⟨_, List.mem_cons_self, rfl, rfl⟩
  · refine List.forall_mem_cons.2 ⟨(hholds _ _).2 (.inr ⟨rfl, rfl⟩), fun d hd => ?_⟩
    exact (hholds _ _).2 (.inl (h.holds d hd))
  · refine List.nodup_cons.2 ⟨fun hm => ?_, h.once⟩
    obtain ⟨d, hd, hs⟩ := List.mem_map.1 hm
    exact absurd hs (Nat.ne_of_lt (h.slot_lt hd))
  · refine List.forall_mem_cons.2 ⟨fun k hk => ?_, fun d hd k hk => ?_⟩
    · exact hdistinct k _ _ hk ((hslot _).trans (if_pos rfl))
    · exact h.key d hd k (hold d hd k hk)
  · refine List.forall_mem_cons.2 ⟨fun _ => .inl rfl, fun d hd hk => ?_⟩
    rw [maker_of_factories (by rw [he])]
    exact h.maker d hd (hold d hd _ hk)

end Accounted

/-- The codec that a derivation ends with is deposited for its term, by what made it from the
beginning. -/
theorem Accounted.complete (h : Accounted mid deposits) (he : Ended reg key mid) (codec : Codec) :
    Accounted (mid.complete reg.slots.size codec)
      (⟨key, reg.slots.size, codec, some (mid.maker key)⟩ :: deposits) := by
  have hempty : ∀ c, ¬ mid.Holds reg.slots.size c := by
    intro c hc
    rw [Holds, he.slot_empty] at hc
    cases hc
  have hmine : mid.slot? key = some reg.slots.size :=
    (slot?_eq_some_iff he.after).2 (.inr he.mem_staged)
  have hfactories : (mid.complete reg.slots.size codec).factories = mid.factories := by
    rw [he.complete_eq]
    split <;> rfl
  refine ⟨?_, ?_, ?_, ?_, ?_, ?_⟩
  · intro slot c hc
    rw [he.holds_complete_iff, holds_fill_iff he.slot_lt] at hc
    split at hc
    · subst_vars
      exact ⟨_, List.mem_cons_self, rfl, rfl⟩
    · obtain ⟨d, hd, hdc⟩ := h.filled slot c hc
      exact ⟨d, List.mem_cons_of_mem _ hd, hdc⟩
  · refine List.forall_mem_cons.2 ⟨?_, fun d hd => ?_⟩
    · exact he.holds_complete_iff.2 (he.holds_fill_self codec)
    · exact he.holds_complete_iff.2 (he.holds_fill (h.holds d hd) codec)
  · refine List.nodup_cons.2 ⟨fun hm => ?_, h.once⟩
    obtain ⟨d, hd, hs⟩ := List.mem_map.1 hm
    exact hempty d.codec ((show d.slot = reg.slots.size from hs) ▸ h.holds d hd)
  · intro k k' slot hk hk'
    rw [he.slot?_complete] at hk hk'
    exact h.distinct k k' slot hk hk'
  · refine List.forall_mem_cons.2 ⟨fun k hk => ?_, fun d hd k hk => ?_⟩
    · rw [he.slot?_complete] at hk
      exact h.distinct k key _ hk hmine
    · exact h.key d hd k ((he.slot?_complete codec).1 hk)
  · simp only [maker_of_factories hfactories, he.slot?_complete]
    exact List.forall_mem_cons.2 ⟨fun _ => .inr rfl, h.maker⟩

theorem Accounted.abandon (h : Accounted mid deposits) (he : Ended reg key mid) :
    Accounted (mid.abandon key) deposits :=
  h.mono rfl (fun _ _ hs => (he.slot?_abandon hs).1) fun _ _ _ => rfl

end Registry

open Registry

/-- A factory that looks another term up, tries to register a factory for its name and a codec for
the term that it is asked for, and answers whatever comes of that. -/
def Factory.meddler : Factory := .of fun key =>
  Query.lookup ⟨"Chain", []⟩ fun _ =>
    Query.enlist "Chain" (.of fun _ => .halt .crashed) fun _ =>
      Query.override key (.atomic .string) fun _ => .answer (.ok (.atomic .string))

namespace Moment

/-- The derivations in progress: each began in a well-formed registry, in which the ones outside it
were in progress, and its term still is. -/
inductive Nested : List Frame → Registry → Prop
  | nil {reg : Registry} : reg.WellFormed → reg.depth = 0 → Nested [] reg
  | cons {reg before : Registry} {frame : Frame} {frames : List Frame} :
      Ended before frame.key reg → frame.slot = before.slots.size → Nested frames before →
      Nested (frame :: frames) reg

variable {reg reg' : Registry} {frames : List Frame}

theorem Nested.wellFormed (h : Nested frames reg) : reg.WellFormed := by
  cases h with
  | nil hw => exact hw
  | cons he => exact he.after

theorem Nested.extends (h : Nested frames reg) (hw : reg'.WellFormed) (hx : Extends reg reg') :
    Nested frames reg' := by
  cases h with
  | nil _ hd => exact .nil hw (hx.depth.trans hd)
  | cons he hs h =>
    exact .cons ⟨he.before, he.new, he.canonical, hw, he.extends_stage.trans hx⟩ hs h

theorem Nested.slot? (h : Nested frames reg) {frame : Frame} (hm : frame ∈ frames) :
    reg.slot? frame.key = some frame.slot := by
  induction h with
  | nil => cases hm
  | @cons reg before f frames he hs h ih =>
    refine (slot?_eq_some_iff he.after).2 ?_
    rcases List.mem_cons.1 hm with rfl | hm
    · exact .inr (hs ▸ he.mem_staged)
    · have hstaged := he.before.stage he.new he.canonical
      refine ((slot?_eq_some_iff he.before).1 (ih hm)).imp ?_ ?_
      · exact he.extends_stage.published _ _
      · exact fun hin => he.extends_stage.staged _ ((mem_staged_stage he.new).2 (.inr hin))

/-- The derivations in progress are nested, each with what would make its codec now, and every codec
so far is accounted for. -/
structure Sound (m : Moment) : Prop where
  nested : Nested m.frames m.reg
  makers : ∀ frame ∈ m.frames, frame.maker = m.reg.maker frame.key
  accounted : Accounted m.reg m.deposits

theorem Sound.request {query query' : Ask (Except RegistryError Codec)}
    {deposits deposits' : List Deposit} (h : Sound ⟨reg, frames, query, deposits⟩)
    (hw : reg'.WellFormed) (hx : Extends reg reg')
    (hm : ∀ key, reg.slot? key ≠ none → reg'.maker key = reg.maker key)
    (ha : Accounted reg' deposits') : Sound ⟨reg', frames, query', deposits'⟩ where
  nested := h.nested.extends hw hx
  makers frame hf := by
    rw [hm _ (by simp [h.nested.slot? hf])]
    exact h.makers frame hf
  accounted := ha

theorem Sound.leave {query query' : Ask (Except RegistryError Codec)} {frame : Frame}
    {deposits deposits' : List Deposit} (h : Sound ⟨reg, frame :: frames, query, deposits⟩)
    (hn : ∀ before, Ended before frame.key reg → frame.slot = before.slots.size →
      reg'.WellFormed ∧ Extends before reg' ∧ Accounted reg' deposits')
    (hf : reg'.factories = reg.factories) : Sound ⟨reg', frames, query', deposits'⟩ := by
  obtain ⟨hnested, hmakers, -⟩ := h
  cases hnested with
  | cons he hs hnest =>
    obtain ⟨hw, hx, ha⟩ := hn _ he hs
    refine ⟨hnest.extends hw hx, fun f hm => ?_, ha⟩
    rw [maker_of_factories hf]
    exact hmakers f (List.mem_cons_of_mem _ hm)

theorem Sound.next {m m' : Moment} (h : m.Sound) (hn : m.Next m') : m'.Sound := by
  have hw := h.nested.wellFormed
  cases hn with
  | hit => exact h.request hw.countHit (extends_countHit _) (fun _ _ => rfl) h.accounted.countHit
  | @enter reg frames deposits term next hs =>
    have hc := reg.settings.canonical_canonical term
    have hstage := hw.stage hs hc
    refine ⟨.cons ⟨hw, hs, hc, hstage, .refl _⟩ rfl h.nested, ?_, h.accounted.stage hw hs⟩
    exact List.forall_mem_cons.2 ⟨rfl, h.makers⟩
  | noRoom => exact h.request hw (.refl _) (fun _ _ => rfl) h.accounted
  | @layout reg frames deposits type next =>
    refine h.request (hw.layoutOf _) (extends_layoutOf _ _) (fun key _ => ?_)
      (h.accounted.layoutOf _)
    rcases layoutOf_cases reg type with he | ⟨layout, -, -, he⟩ <;> rw [he]
    rfl
  | @given reg frames deposits term codec next hok =>
    exact h.request (hw.override _ _) (extends_override _ _ _)
      (fun key _ => maker_of_factories (by rw [(of_override_ok hok).2]) key)
      (h.accounted.override hw hok)
  | @refused reg frames deposits term codec next e hrefused =>
    rw [override_of_not_ok (by simp [hrefused])]
    exact h.request hw (.refl _) (fun _ _ => rfl) h.accounted
  | enlist =>
    exact h.request (hw.enlist _ _) (extends_enlist _ _ _) (fun _ => maker_enlist _ _)
      (h.accounted.enlist _ _)
  | inspect => exact h.request hw (.refl _) (fun _ _ => rfl) h.accounted
  | @finish reg frame frames deposits codec =>
    refine h.leave (fun before he hs => ?_) ?_
    · -- The codec is from what made it at the beginning, which would still make it now.
      rw [hs, h.makers frame List.mem_cons_self]
      exact ⟨he.wellFormed_complete codec, he.extends_complete codec, h.accounted.complete he codec⟩
    · rw [complete]
      split <;> rfl
  | fail =>
    exact h.leave (fun before he _ =>
      ⟨he.wellFormed_abandon, he.extends_abandon, h.accounted.abandon he⟩) rfl
  | unwind =>
    exact h.leave (fun before he _ =>
      ⟨he.wellFormed_abandon, he.extends_abandon, h.accounted.abandon he⟩) rfl
  | start => exact ⟨h.nested, h.makers, h.accounted⟩

variable {host : Host} {settings : Settings} {m : Moment}

theorem Reached.sound (h : Reached host settings m) : m.Sound := by
  induction h with
  | first query =>
    have hi := idle_initial host settings
    exact ⟨.nil hi.toWellFormed hi.depth, by simp, .initial host settings⟩
  | next _ hn ih => exact ih.next hn

/-- At every moment of every run, in the middle of derivations as well: each published codec was
put into its slot once, for the term that it is published under; while a factory is registered for
the type name, the codec was registered for exactly this term or is an answer of this factory, so
it was not derived from the layout. A factory is taken exactly if its type name has none and no term
with the name is published or staged, a codec exactly if its canonical term is neither, and
what is refused changes nothing. The runs of all queries are made of such moments. -/
theorem one_provenance (h : Reached host settings m) :
    (∀ key slot, Table.get? key m.reg.published = some slot →
      ∃ d ∈ m.deposits, d.key = key ∧ d.slot = slot ∧ m.reg.Holds slot d.codec ∧
        (∀ d' ∈ m.deposits, d'.slot = slot → d' = d) ∧
        ∀ factory, Table.get? key.head m.reg.factories = some factory →
          d.maker = none ∨ d.maker = some (.factory factory)) ∧
    (∀ type factory,
      ((m.reg.enlist type factory).1 = .ok () ↔ Table.get? type m.reg.factories = none ∧
        ∀ key : TypeTerm, key.head = type →
          Table.get? key m.reg.published = none ∧ Table.get? key m.reg.staged = none) ∧
      ((m.reg.enlist type factory).1 ≠ .ok () → (m.reg.enlist type factory).2 = m.reg)) ∧
    (∀ term codec,
      ((m.reg.override term codec).1 = .ok () ↔
        Table.get? (m.reg.canonical term) m.reg.published = none ∧
          Table.get? (m.reg.canonical term) m.reg.staged = none) ∧
      ((m.reg.override term codec).1 ≠ .ok () → (m.reg.override term codec).2 = m.reg)) ∧
    (m.frames = [] → m.query.Over → ∀ (ρ : Type) (query : Ask ρ), ∃ m',
      Reached host settings m' ∧ m'.frames = [] ∧ m'.query.Over ∧
        m'.reg = (m.reg.ask query).2) := by
  have hs := h.sound
  refine ⟨fun key slot hp => ?_, fun type factory => ⟨enlist_ok_iff, enlist_of_not_ok⟩,
    fun term codec => ⟨override_ok_iff, override_of_not_ok⟩, fun hf ho ρ query => h.ask hf ho query⟩
  obtain ⟨codec, hc⟩ := hs.nested.wellFormed.published_filled key slot hp
  obtain ⟨d, hd, rfl, rfl⟩ := hs.accounted.filled slot codec hc
  have hslot : m.reg.slot? key = some d.slot :=
    (slot?_eq_some_iff hs.nested.wellFormed).2 (.inl hp)
  obtain rfl := hs.accounted.key d hd key hslot
  refine ⟨d, hd, rfl, rfl, hc, fun d' hd' hsame => ?_, fun factory hf => ?_⟩
  · exact List.inj_on_of_nodup_map hs.accounted.once hd' hd hsame
  · have hmaker := hs.accounted.maker d hd hslot
    rwa [Registry.maker, hf] at hmaker

/-- In the middle of a derivation by a factory, with a nested one behind it, neither type name takes
another factory and neither term a codec. In the end one codec is from the factory and the other
from the layout. -/
theorem one_provenance_meddler :
    ∃ mid last : Moment, Reached .chain {} mid ∧ mid.frames.length = 1 ∧
      (mid.reg.enlist "Chain" .meddler).1 ≠ .ok () ∧
      (∀ codec, (mid.reg.override ⟨"Mark", []⟩ codec).1 ≠ .ok ()) ∧
      Reached .chain {} last ∧ last.frames = [] ∧
      (∃ d ∈ last.deposits, d.key = ⟨"Mark", []⟩ ∧ last.reg.Holds 0 d.codec ∧
        (d.maker = none ∨ d.maker = some (.factory .meddler))) ∧
      ∃ d ∈ last.deposits, d.key = ⟨"Chain", []⟩ ∧ d.maker = some .layout := by
  have hfirst : Reached .chain {} ⟨.initial .chain {}, [], Query.enlist "Mark" .meddler fun _ =>
      Query.lookup ⟨"Mark", []⟩ fun _ => .halt .crashed, []⟩ := .first _
  have hmid := hfirst
    |>.next .enlist |>.next (.enter rfl) |>.next (.enter rfl) |>.next .layout |>.next (.hit rfl)
    |>.next .finish
  have hlast := hmid.next .enlist |>.next (.refused rfl) |>.next .finish
  obtain ⟨-, henlist, hoverride, -⟩ := one_provenance hmid
  obtain ⟨hpublished, -⟩ := one_provenance hlast
  refine ⟨_, _, hmid, rfl, fun hok => ?_, fun codec hok => ?_, hlast, rfl, ?_, ?_⟩
  · have := (((henlist _ _).1.1 hok).2 ⟨"Chain", []⟩ rfl).2
    cases this
  · have := ((hoverride _ codec).1.1 hok).2
    cases this
  · obtain ⟨d, hd, hkey, -, hc, -, hmaker⟩ := hpublished ⟨"Mark", []⟩ 0 rfl
    exact ⟨d, hd, hkey, hc, hmaker _ rfl⟩
  · exact ⟨_, List.mem_cons_of_mem _ List.mem_cons_self, rfl, rfl⟩

end Moment

end Typewire
