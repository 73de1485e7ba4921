import Typewire.Proofs.Registry.Derivation

/-! # Where references lead

A lookup may give a reference to a slot that is still empty. The slot is filled when the derivation
of its term ends well, and lost when that derivation fails. A codec that is complete holds only
references that are still known, or whose slots were lost after they had been handed out.
-/

namespace Typewire.Registry

variable {recovers : Bool} {old new : Nat} {reg mid reg' : Registry} {key : TypeTerm} {slot : Nat}
  {codec : Codec} {ref : CodecRef}

/-- The reference is to the slot of its term, published or staged. -/
def Knows (reg : Registry) (ref : CodecRef) : Prop := reg.slot? ref.term = some ref.slot

/-- The derivation that was to fill the slot has failed. -/
def Lost (reg : Registry) (slot : Nat) : Prop :=
  reg.slots[slot]? = some none ∧ ∀ entry ∈ reg.staged, entry.2 ≠ slot

/-- The reference is known, or its slot is one of the lost slots from a number on. -/
def Tied (since : Nat) (reg : Registry) (ref : CodecRef) : Prop :=
  reg.Knows ref ∨ since ≤ ref.slot ∧ reg.Lost ref.slot

/-- Published codecs refer to published ones or to lost slots from `old` on, codecs that are staged
also to staged ones or to lost slots from `new` on. -/
structure Linked (recovers : Bool) (old new : Nat) (reg : Registry) : Prop where
  factories : ∀ type factory, Table.get? type reg.factories = some factory →
    factory.Honest recovers
  published : ∀ key slot codec, Table.get? key reg.published = some slot →
    reg.Holds slot codec → ∀ ref ∈ codec.refs,
      reg.Publishes ref ∨ old ≤ ref.slot ∧ reg.Lost ref.slot
  staged : ∀ entry ∈ reg.staged, ∀ codec, reg.Holds entry.2 codec →
    ∀ ref ∈ codec.refs, reg.Tied new ref

/-- Every slot that was added has a term. -/
def Whole (reg reg' : Registry) : Prop :=
  ∀ slot, reg.slots.size ≤ slot → slot < reg'.slots.size → ∃ key, reg'.slot? key = some slot

theorem Lost.lt_size (h : reg.Lost slot) : slot < reg.slots.size :=
  (Array.getElem?_eq_some_iff.1 h.1).1

theorem Lost.not_holds (h : reg.Lost slot) : ¬ reg.Holds slot codec := by
  intro hs
  rw [Holds, h.1] at hs
  cases hs

theorem Lost.extends (h : reg.Lost slot) (hx : Extends reg reg') : reg'.Lost slot := by
  have he : reg'.slots[slot]? = some none := (hx.slots slot h.lt_size).trans h.1
  refine ⟨he, ?_⟩
  rintro entry hs rfl
  rcases hx.staged_filled entry hs with hs | ⟨codec, hc⟩
  · exact h.2 entry hs rfl
  · rw [Holds, he] at hc
    cases hc

theorem Tied.extends (h : reg.Tied new ref) (hw : reg.WellFormed) (hw' : reg'.WellFormed)
    (hx : Extends reg reg') : reg'.Tied new ref :=
  h.imp (hx.slot? hw hw') (And.imp_right fun hl => hl.extends hx)

theorem Linked.congr (h : Linked recovers old new reg) (hs : reg'.slots = reg.slots)
    (hp : reg'.published = reg.published) (hst : reg'.staged = reg.staged)
    (hf : ∀ type factory, Table.get? type reg'.factories = some factory →
      factory.Honest recovers) : Linked recovers old new reg' := by
  refine ⟨hf, ?_, ?_⟩
  · simpa only [Holds, Publishes, Lost, hs, hp, hst] using h.published
  · simpa only [Holds, Tied, Knows, Registry.slot?, Lost, hs, hp, hst] using h.staged

theorem Linked.mono (h : Linked recovers old new reg) {old' : Nat} (ho : old' ≤ old) :
    Linked recovers old' new reg :=
  ⟨h.factories, fun k s c hp hs r hr =>
    (h.published k s c hp hs r hr).imp_right (And.imp_left ho.trans), h.staged⟩

section SingleRequests

theorem Linked.countHit (h : Linked recovers old new reg) : Linked recovers old new reg.countHit :=
  h.congr rfl rfl rfl h.factories

theorem Linked.layoutOf (h : Linked recovers old new reg) (type : TypeName) :
    Linked recovers old new (reg.layoutOf type).2 := by
  rcases layoutOf_cases reg type with he | ⟨layout, -, -, he⟩
  · rwa [he]
  · rw [he]
    exact h.congr rfl rfl rfl h.factories

theorem Linked.enlist (h : Linked recovers old new reg) (type : TypeName) {factory : Factory}
    (hf : factory.Honest recovers) : Linked recovers old new (reg.enlist type factory).2 := by
  rcases enlist_cases reg type factory with he | ⟨-, -, he⟩
  · rwa [he]
  · rw [he]
    refine h.congr rfl rfl rfl ?_
    intro t f hg
    rw [Table.get?_insert] at hg
    split at hg
    · cases hg
      exact hf
    · exact h.factories t f hg

theorem Linked.override (h : Linked recovers old new reg) (hw : reg.WellFormed) (term : TypeTerm)
    (hc : ∀ ref ∈ codec.refs, reg.Publishes ref) :
    Linked recovers old new (reg.override term codec).2 := by
  have hx := extends_override reg term codec
  have hw' := hw.override term codec
  rcases override_cases reg term codec with ⟨-, he⟩ | ⟨hn, he⟩
  · rwa [he]
  rw [he] at hx hw' ⊢
  refine ⟨h.factories, ?_, ?_⟩
  · intro k s c hp hs r hr
    rcases getElem?_push_iff.1 hs with hs | ⟨-, heq⟩
    · rw [Table.get?_insert] at hp
      split at hp
      · cases hp
        exact absurd hs.lt_size (Nat.lt_irrefl _)
      · exact (h.published k s c hp hs r hr).imp (hx.published _ _)
          (And.imp_right fun hl => hl.extends hx)
    · cases heq
      exact .inl (hx.published _ _ (hc r hr))
  · intro entry he c hs r hr
    rcases getElem?_push_iff.1 hs with hs | ⟨heq, -⟩
    · exact (h.staged entry he c hs r hr).extends hw hw' hx
    · exact absurd (hw.staged_lt entry he) (heq ▸ Nat.lt_irrefl _)

end SingleRequests

section Derivations

theorem holds_stage_iff : (reg.stage key).Holds slot codec ↔ reg.Holds slot codec := by
  rw [Holds, Registry.stage, getElem?_push_iff]
  simp

theorem Lost.stage (h : reg.Lost slot) (hn : reg.slot? key = none) : (reg.stage key).Lost slot := by
  refine ⟨?_, ?_⟩
  · rw [Registry.stage, Array.getElem?_push_lt h.lt_size, ← Array.getElem?_eq_getElem h.lt_size]
    exact h.1
  · intro entry he
    rcases (mem_staged_stage hn).1 he with rfl | he
    · exact (Nat.ne_of_lt h.lt_size).symm
    · exact h.2 entry he

theorem Tied.stage (h : reg.Tied new ref) (hw : reg.WellFormed) (hn : reg.slot? key = none)
    (hc : reg.canonical key = key) : (reg.stage key).Tied new ref := by
  refine h.imp (fun hk => ?_) (And.imp_right fun hl => hl.stage hn)
  rw [Knows, slot?_eq_some_iff hw] at hk
  rw [Knows, slot?_eq_some_iff (hw.stage hn hc)]
  exact hk.imp_right fun he => (mem_staged_stage hn).2 (.inr he)

theorem Linked.stage (h : Linked recovers old new reg) (hw : reg.WellFormed)
    (hn : reg.slot? key = none) (hc : reg.canonical key = key) :
    Linked recovers old new (reg.stage key) := by
  refine ⟨h.factories, ?_, ?_⟩
  · intro k s c hp hs r hr
    exact (h.published k s c hp (holds_stage_iff.1 hs) r hr).imp_right
      (And.imp_right fun hl => hl.stage hn)
  · intro entry he c hs r hr
    rw [holds_stage_iff] at hs
    rcases (mem_staged_stage hn).1 he with rfl | he
    · exact absurd hs.lt_size (Nat.lt_irrefl _)
    · exact (h.staged entry he c hs r hr).stage hw hn hc

namespace Ended

variable (h : Ended reg key mid)

include h

theorem lost_complete (hl : mid.Lost slot) (codec : Codec) :
    (mid.complete reg.slots.size codec).Lost slot := by
  have hne : reg.slots.size ≠ slot := hl.2 _ h.mem_staged
  refine ⟨?_, fun entry he => hl.2 entry ((h.mem_staged_complete codec).1 he).2⟩
  rw [h.slots_complete, fill, Array.getElem?_setIfInBounds_ne hne]
  exact hl.1

theorem tied_complete (ht : mid.Tied new ref) (codec : Codec) :
    (mid.complete reg.slots.size codec).Tied new ref :=
  ht.imp (h.slot?_complete codec).2 (And.imp_right fun hl => h.lost_complete hl codec)

theorem holds_complete_cases {c : Codec} (hs : (mid.complete reg.slots.size codec).Holds slot c) :
    slot = reg.slots.size ∧ c = codec ∨ mid.Holds slot c := by
  rw [h.holds_complete_iff, holds_fill_iff h.slot_lt] at hs
  split at hs
  · exact .inl ⟨‹_›, hs⟩
  · exact .inr hs

theorem linked_complete (hl : Linked recovers old new mid) {old' : Nat} (ho : old' ≤ old)
    (hn : reg.depth = 0 → old' ≤ new) (hc : ∀ ref ∈ codec.refs, mid.Tied new ref) :
    Linked recovers old' new (mid.complete reg.slots.size codec) := by
  have hstaged : ∀ entry ∈ mid.staged, ∀ c,
      (mid.complete reg.slots.size codec).Holds entry.2 c → ∀ ref ∈ c.refs,
      (mid.complete reg.slots.size codec).Tied new ref := by
    intro entry he c hs r hr
    rcases h.holds_complete_cases hs with ⟨-, rfl⟩ | hs
    · exact h.tied_complete (hc r hr) c
    · exact h.tied_complete (hl.staged entry he c hs r hr) codec
  refine ⟨?_, ?_, ?_⟩
  · intro type factory hf
    rw [h.complete_eq] at hf
    split at hf <;> exact hl.factories type factory hf
  · intro k s c hp hs r hr
    rcases (h.get?_complete codec).1 hp with hp | ⟨hd, he⟩
    · obtain ⟨c', hc'⟩ := h.after.published_filled k s hp
      have hs' : mid.Holds s c := by
        rcases h.holds_complete_cases hs with ⟨rfl, -⟩ | hs
        · rw [Holds, h.slot_empty] at hc'
          cases hc'
        · exact hs
      refine (hl.published k s c hp hs' r hr).imp (fun hr => ?_) fun hr => ?_
      · exact (h.get?_complete codec).2 (.inl hr)
      · exact ⟨ho.trans hr.1, h.lost_complete hr.2 codec⟩
    · have hi : (mid.complete reg.slots.size codec).Idle :=
        ⟨h.wellFormed_complete codec, (h.extends_complete codec).depth.trans hd⟩
      refine (hstaged _ he c hs r hr).imp (fun hk => ?_) fun hl => ⟨(hn hd).trans hl.1, hl.2⟩
      rwa [Knows, hi.slot?_eq] at hk
  · intro entry he
    exact hstaged entry ((h.mem_staged_complete codec).1 he).2

theorem lost_abandon (hl : mid.Lost slot) : (mid.abandon key).Lost slot :=
  ⟨hl.1, fun entry he => hl.2 entry (h.mem_staged_abandon.1 he).2.1⟩

theorem lost_self : (mid.abandon key).Lost reg.slots.size := by
  refine ⟨h.slot_empty, fun entry he heq => ?_⟩
  obtain ⟨-, he, hk⟩ := h.mem_staged_abandon.1 he
  rcases h.staged_cases he with he | rfl | ⟨c, hc⟩
  · exact absurd (h.before.staged_lt entry he) (heq ▸ Nat.lt_irrefl _)
  · exact hk rfl
  · rw [heq, Holds, h.slot_empty] at hc
    cases hc

theorem tied_abandon (hd : reg.depth ≠ 0) (hn : new ≤ reg.slots.size) (ht : mid.Tied new ref) :
    (mid.abandon key).Tied new ref := by
  rcases ht with hk | ⟨hle, hl⟩
  · rw [Knows, slot?_eq_some_iff h.after] at hk
    by_cases he : ref.term = key
    · have hs : ref.slot = reg.slots.size := by
        rcases hk with hk | hk
        · have hnone : Table.get? key mid.published = none := h.after.staged_new _ h.mem_staged
          rw [he, hnone] at hk
          cases hk
        · rw [← Table.get?_eq_some_iff h.after.staged_nodup, he,
            (Table.get?_eq_some_iff h.after.staged_nodup).2 h.mem_staged] at hk
          exact (Option.some.inj hk).symm
      exact .inr ⟨hs ▸ hn, hs ▸ h.lost_self⟩
    · refine .inl ((slot?_eq_some_iff h.wellFormed_abandon).2 (hk.imp_right fun hm => ?_))
      exact h.mem_staged_abandon.2 ⟨hd, hm, he⟩
  · exact .inr ⟨hle, h.lost_abandon hl⟩

theorem linked_abandon (hl : Linked recovers old new mid) (hn : new ≤ reg.slots.size) :
    Linked recovers old new (mid.abandon key) := by
  refine ⟨hl.factories, ?_, ?_⟩
  · intro k s c hp hs r hr
    exact (hl.published k s c hp hs r hr).imp_right (And.imp_right h.lost_abandon)
  · intro entry he c hs r hr
    obtain ⟨hd, he, -⟩ := h.mem_staged_abandon.1 he
    exact h.tied_abandon hd hn (hl.staged entry he c hs r hr)

end Ended

end Derivations

section Runs

theorem Whole.refl (reg : Registry) : Whole reg reg := fun _ h h' => absurd h' (Nat.not_lt.2 h)

theorem Whole.of_eq (h : reg'.slots = reg.slots) : Whole reg reg' := by
  intro slot hs hs'
  rw [h] at hs'
  exact absurd hs' (Nat.not_lt.2 hs)

theorem Whole.trans {reg'' : Registry} (h : Whole reg reg') (h' : Whole reg' reg'')
    (hw' : reg'.WellFormed) (hw'' : reg''.WellFormed) (hx : Extends reg' reg'') :
    Whole reg reg'' := by
  intro slot hs hs'
  by_cases hlt : slot < reg'.slots.size
  · obtain ⟨key, hk⟩ := h slot hs hlt
    exact ⟨key, hx.slot? hw' hw'' hk⟩
  · exact h' slot (Nat.not_lt.1 hlt) hs'

theorem whole_layoutOf (reg : Registry) (type : TypeName) : Whole reg (reg.layoutOf type).2 := by
  rcases layoutOf_cases reg type with h | ⟨layout, -, -, h⟩ <;> exact .of_eq (by rw [h])

theorem whole_enlist (reg : Registry) (type : TypeName) (factory : Factory) :
    Whole reg (reg.enlist type factory).2 := by
  rcases enlist_cases reg type factory with h | ⟨-, -, h⟩ <;> exact .of_eq (by rw [h])

theorem whole_override (reg : Registry) (term : TypeTerm) (codec : Codec) :
    Whole reg (reg.override term codec).2 := by
  rcases override_cases reg term codec with ⟨-, h⟩ | ⟨-, h⟩
  · exact .of_eq (by rw [h])
  · rw [h]
    intro slot hs hs'
    refine ⟨reg.canonical term, ?_⟩
    have heq : slot = reg.slots.size := by
      simp only [Array.size_push] at hs'
      omega
    rw [slot?, Table.get?_insert, if_pos rfl, heq, Option.some_or]

theorem Ended.whole_complete (h : Ended reg key mid) (hm : Whole (reg.stage key) mid)
    (codec : Codec) : Whole reg (mid.complete reg.slots.size codec) := by
  intro slot hs hs'
  rw [h.slots_complete, fill, Array.size_setIfInBounds] at hs'
  simp only [h.slot?_complete]
  by_cases heq : slot = reg.slots.size
  · exact ⟨key, (slot?_eq_some_iff h.after).2 (.inr (heq ▸ h.mem_staged))⟩
  · exact hm slot (by simp only [Registry.stage, Array.size_push]; omega) hs'

def KeepsLinks (recovers : Bool) (resolve : Lookup) : Prop :=
  ∀ term reg old new, reg.WellFormed → reg.depth ≠ 0 → new ≤ reg.slots.size →
    Linked recovers old new reg → Linked recovers old new (resolve term reg).2 ∧
      ∀ ref, (resolve term reg).1 = .ok (.ok ref) →
        (resolve term reg).2.Knows ref ∧ (recovers = false → Whole reg (resolve term reg).2)

/-- The query leaves references linked. If it gives a codec, the references of this are tied, and
without recovery no lookup in it failed and no slot that it added is without a term. -/
structure Delivers (recovers intact : Bool) (old new : Nat) (resolve : Lookup) (reg : Registry)
    (q : Ask (Except RegistryError Codec)) : Prop where
  linked : Linked recovers old new (q.run resolve reg).2
  tied : ∀ codec, (q.run resolve reg).1 = .ok (.ok codec) →
    ∀ ref ∈ codec.refs, (q.run resolve reg).2.Tied new ref
  whole : ∀ codec, (q.run resolve reg).1 = .ok (.ok codec) → recovers = false →
    intact = true ∧ Whole reg (q.run resolve reg).2

section Delivers

variable {intact : Bool} {resolve : Lookup} {q q' : Ask (Except RegistryError Codec)}

theorem delivers_of_halt {why : Halt} (hr : Linked recovers old new reg')
    (hq : q.run resolve reg = (.error why, reg')) :
    Delivers recovers intact old new resolve reg q := by
  constructor <;> rw [hq]
  · exact hr
  · exact fun codec he => by cases he
  · exact fun codec he => by cases he

/-- A query that goes on as another one does after a step delivers what that one does. Nothing is
asked of the step if a lookup fails in it. -/
theorem Delivers.after {intact' : Bool} (h : Delivers recovers intact' old new resolve reg' q')
    (hq : q.run resolve reg = q'.run resolve reg') (hk : Keeps resolve) (hw : reg'.WellFormed)
    (hs : intact' = true → intact = true ∧ (recovers = false → Whole reg reg')) :
    Delivers recovers intact old new resolve reg q := by
  constructor <;> rw [hq]
  · exact h.linked
  · exact h.tied
  · intro codec he hf
    obtain ⟨hi', hrest⟩ := h.whole codec he hf
    obtain ⟨hi, hs⟩ := hs hi'
    obtain ⟨hw', hx⟩ := hk.run q' hw
    exact ⟨hi, (hs hf).trans hrest hw hw' hx⟩

theorem KeepsLinks.run (hl : KeepsLinks recovers resolve) (hk : Keeps resolve)
    {held : List CodecRef} (hq : q.Honest recovers intact held) (hw : reg.WellFormed)
    (hd : reg.depth ≠ 0) (hn : new ≤ reg.slots.size) (hr : Linked recovers old new reg)
    (hh : ∀ ref ∈ held, reg.Tied new ref) : Delivers recovers intact old new resolve reg q := by
  induction q generalizing reg intact held with
  | answer r =>
    cases hq with
    | refuse => exact ⟨hr, fun codec he => (by cases he), fun codec he => (by cases he)⟩
    | give hi hg =>
      refine ⟨hr, ?_, ?_⟩
      · rintro codec ⟨⟩ ref href
        exact hh ref (hg ref href)
      · rintro codec ⟨⟩ hf
        exact ⟨hi.resolve_right (by simp [hf]), .refl reg⟩
  | halt why => exact delivers_of_halt hr rfl
  | lookup term next ih =>
    obtain ⟨hfailed, hfound⟩ : (∀ e, (next (.error e)).Honest recovers false held) ∧
        ∀ ref, (next (.ok ref)).Honest recovers intact (ref :: held) := by
      cases hq with | lookup hf hs => exact ⟨hf, hs⟩
    obtain ⟨hr', hfind⟩ := hl term reg old new hw hd hn hr
    obtain ⟨hw', hx⟩ := hk term reg hw
    rcases hres : resolve term reg with ⟨why | e | ref, reg'⟩ <;> rw [hres] at hr' hw' hx hfind
    · exact delivers_of_halt hr' (by rw [Query.run, hres])
    · -- After a lookup that failed, the rest of the query is not asked to be intact.
      have hrest := ih (.error e) (hfailed e) hw' (hx.depth ▸ hd) (hn.trans hx.size) hr'
        fun ref href => (hh ref href).extends hw hw' hx
      exact hrest.after (by rw [Query.run, hres]) hk hw' fun hf => absurd hf Bool.false_ne_true
    · obtain ⟨hknows, hwhole⟩ := hfind ref rfl
      -- What the lookup gave is known, and what was held before stays tied.
      have hh' : ∀ r ∈ ref :: held, reg'.Tied new r := by
        intro r href
        rcases List.mem_cons.1 href with rfl | href
        · exact .inl hknows
        · exact (hh r href).extends hw hw' hx
      exact (ih (.ok ref) (hfound ref) hw' (hx.depth ▸ hd) (hn.trans hx.size) hr' hh').after
        (by rw [Query.run, hres]) hk hw' fun hi => ⟨hi, hwhole⟩
  | layout type next ih =>
    have hnext : ∀ r, (next r).Honest recovers intact held := by
      cases hq with | layout h => exact h
    have hr' := hr.layoutOf type
    have hw' := hw.layoutOf type
    have hx := extends_layoutOf reg type
    have hwhole := whole_layoutOf reg type
    rcases hres : reg.layoutOf type with ⟨why | r, reg'⟩ <;> rw [hres] at hr' hw' hx hwhole
    · exact delivers_of_halt hr' (by rw [Query.run, hres])
    · have hrest := ih r (hnext r) hw' (hx.depth ▸ hd) (hn.trans hx.size) hr'
        fun ref href => (hh ref href).extends hw hw' hx
      exact hrest.after (by rw [Query.run, hres]) hk hw' fun hi => ⟨hi, fun _ => hwhole⟩
  | override term codec next ih =>
    obtain ⟨hrefs, hnext⟩ : codec.refs = [] ∧ ∀ r, (next r).Honest recovers intact held := by
      cases hq with | override hc h => exact ⟨hc, h⟩
    have hw' := hw.override term codec
    have hx := extends_override reg term codec
    have hrest := ih (reg.override term codec).1 (hnext _) hw' (hx.depth ▸ hd)
      (hn.trans hx.size) (hr.override hw term (by simp [hrefs]))
      fun ref href => (hh ref href).extends hw hw' hx
    exact hrest.after rfl hk hw' fun hi => ⟨hi, fun _ => whole_override reg term codec⟩
  | enlist type factory next ih =>
    obtain ⟨hfactory, hnext⟩ : factory.Honest recovers ∧
        ∀ r, (next r).Honest recovers intact held := by
      cases hq with | enlist hf h => exact ⟨hf, h⟩
    have hw' := hw.enlist type factory
    have hx := extends_enlist reg type factory
    have hrest := ih (reg.enlist type factory).1 (hnext _) hw' (hx.depth ▸ hd)
      (hn.trans hx.size) (hr.enlist type hfactory)
      fun ref href => (hh ref href).extends hw hw' hx
    exact hrest.after rfl hk hw' fun hi => ⟨hi, fun _ => whole_enlist reg type factory⟩
  | inspect next ih =>
    have hnext : (next reg.store).Honest recovers intact held := by
      cases hq with | inspect h => exact h _
    exact (ih reg.store hnext hw hd hn hr hh).after rfl hk hw fun hi => ⟨hi, fun _ => .refl reg⟩

end Delivers

theorem Linked.honest_recipe (hr : Linked recovers old new reg) (key : TypeTerm) :
    Query.Honest recovers true [] (reg.recipe key) := by
  rw [recipe]
  split
  · rename_i factory hf
    obtain ⟨h⟩ := hr.factories _ _ hf
    exact h key
  · exact Deriving.honest_ofTerm reg.settings key

theorem KeepsLinks.derive {resolve : Lookup} (hl : KeepsLinks recovers resolve)
    (hk : Keeps resolve) (hw : reg.WellFormed) (hs : reg.slot? key = none)
    (hc : reg.canonical key = key) (hn : new ≤ reg.slots.size)
    (hr : Linked recovers old new reg) :
    Linked recovers old new (derive resolve key reg).2 ∧
      ∀ codec, (derive resolve key reg).1 = .ok (.ok codec) →
        (∀ ref ∈ codec.refs, (derive resolve key reg).2.Tied new ref) ∧
        (recovers = false → Whole (reg.stage key) (derive resolve key reg).2) := by
  have hr' := hr.stage hw hs hc
  have hn' : new ≤ (reg.stage key).slots.size := by
    simp only [Registry.stage, Array.size_push]
    omega
  have h := hl.run hk (hr'.honest_recipe key) (hw.stage hs hc) (Nat.succ_ne_zero reg.depth) hn'
    hr' (by simp)
  exact ⟨h.linked, fun codec he => ⟨h.tied codec he, fun hf => (h.whole codec he hf).2⟩⟩

theorem keepsLinks_resolve (recovers : Bool) (calls : Nat) :
    KeepsLinks recovers (resolve calls) := by
  induction calls with
  | zero => exact fun term reg old new _ _ _ hr => ⟨hr, fun ref he => by cases he⟩
  | succ calls ih =>
    intro term reg old new hw hd hn hr
    rcases resolve_cases calls term reg with ⟨slot, hs, h⟩ | ⟨hs, h⟩
    · rw [h]
      refine ⟨hr.countHit, fun ref he => ?_⟩
      cases he
      exact ⟨hs, fun _ => .of_eq rfl⟩
    · have hc := reg.settings.canonical_canonical term
      have he := (keeps_resolve calls).ended hw hs hc
      obtain ⟨hlinked, hans⟩ := ih.derive (keeps_resolve calls) hw hs hc hn hr
      rcases h with ⟨codec, mid, hder, h⟩ | ⟨answer, mid, hder, -, hfail, h⟩ <;>
        rw [hder] at he hlinked hans
      · obtain ⟨htied, hwhole⟩ := hans codec rfl
        rw [h]
        refine ⟨he.linked_complete hlinked le_rfl (fun h0 => absurd h0 hd) htied, ?_⟩
        rintro ref ⟨⟩
        refine ⟨(he.slot?_complete codec).2 ?_, fun hf => he.whole_complete (hwhole hf) codec⟩
        exact (slot?_eq_some_iff he.after).2 (.inr he.mem_staged)
      · refine ⟨?_, fun ref hok => absurd hok (hfail ref)⟩
        rw [h]
        exact he.linked_abandon hlinked hn

end Runs

/-- A lookup from outside may leave published codecs with references to slots lost since it began,
if it succeeds; without recovery it loses none. -/
theorem Idle.linked_resolve (hi : reg.Idle) (hr : Linked recovers old new reg)
    (hn : new ≤ reg.slots.size) (calls : Nat) (term : TypeTerm) :
    ((∀ ref, (resolve calls term reg).1 ≠ .ok (.ok ref)) →
        Linked recovers old new (resolve calls term reg).2) ∧
      ∀ ref, (resolve calls term reg).1 = .ok (.ok ref) →
        Linked recovers (min old new) new (resolve calls term reg).2 ∧
        (recovers = false → Whole reg (resolve calls term reg).2) := by
  cases calls with
  | zero => exact ⟨fun _ => hr, fun _ he => by cases he⟩
  | succ calls =>
    have hw := hi.toWellFormed
    rcases resolve_cases calls term reg with ⟨slot, hs, h⟩ | ⟨hs, h⟩
    · rw [h]
      refine ⟨fun hne => absurd rfl (hne _), ?_⟩
      rintro ref ⟨⟩
      exact ⟨hr.countHit.mono (min_le_left old new), fun _ => .of_eq rfl⟩
    · have hc := reg.settings.canonical_canonical term
      have he := (keeps_resolve calls).ended hw hs hc
      obtain ⟨hlinked, hans⟩ :=
        (keepsLinks_resolve recovers calls).derive (keeps_resolve calls) hw hs hc hn hr
      rcases h with ⟨codec, mid, hder, h⟩ | ⟨answer, mid, hder, -, hfail, h⟩ <;>
        rw [hder] at he hlinked hans
      · obtain ⟨htied, hwhole⟩ := hans codec rfl
        rw [h]
        refine ⟨fun hne => absurd rfl (hne _), ?_⟩
        rintro ref ⟨⟩
        exact ⟨he.linked_complete hlinked (min_le_left old new) (fun _ => min_le_right old new)
          htied, fun hf => he.whole_complete (hwhole hf) codec⟩
      · refine ⟨fun _ => ?_, fun ref hok => absurd hok (hfail ref)⟩
        rw [h]
        exact he.linked_abandon hlinked hn

theorem Idle.linked_lookup (hi : reg.Idle) (hr : Linked recovers old new reg)
    (hn : new ≤ reg.slots.size) (term : TypeTerm) :
    ((∀ ref, (reg.lookup term).1 ≠ .ok (.ok ref)) → Linked recovers old new (reg.lookup term).2) ∧
      ∀ ref, (reg.lookup term).1 = .ok (.ok ref) →
        Linked recovers (min old new) new (reg.lookup term).2 ∧
        (recovers = false → Whole reg (reg.lookup term).2) := by
  rw [lookup_eq]
  exact hi.linked_resolve hr hn callLimit term

end Typewire.Registry
