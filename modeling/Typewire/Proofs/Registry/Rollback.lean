import Mathlib.Data.List.Forall2
import Typewire.Proofs.Registry.Bisimulation
import Typewire.Proofs.Registry.Ledger
import Typewire.Proofs.Registry.Recovery

/-! # Failed lookups leave no trace

A lookup from outside that fails leaves behind only slots that nothing refers to, layouts and
counters. If factories and users do not look at the numbers of slots, then what is asked later is
answered as if the lookup had never been made.
-/

namespace Typewire

section Rename

variable {f : Nat → Nat} {codec : Codec}

theorem CodecRef.rename_eq_self_iff {ref : CodecRef} :
    ref.rename f = ref ↔ f ref.slot = ref.slot := by
  obtain ⟨term, slot⟩ := ref
  simp [rename]

theorem Codec.rename_eq_self (h : ∀ ref ∈ codec.refs, f ref.slot = ref.slot) :
    codec.rename f = codec :=
  mapRefs_eq_self fun ref hr => CodecRef.rename_eq_self_iff.2 (h ref hr)

theorem Codec.of_rename_eq_self (h : codec.rename f = codec) :
    ∀ ref ∈ codec.refs, f ref.slot = ref.slot := by
  have hrefs := congrArg Codec.refs h
  rw [rename, refs_mapRefs] at hrefs
  intro ref hr
  exact CodecRef.rename_eq_self_iff.1
    (List.map_inj_left.1 (hrefs.trans (List.map_id _).symm) ref hr)

end Rename

inductive Request.Renamed (f : Nat → Nat) : Request → Request → Prop
  | lookup (term : TypeTerm) : Request.Renamed f (.lookup term) (.lookup term)
  | preload (terms : List TypeTerm) : Request.Renamed f (.preload terms) (.preload terms)
  | override (term : TypeTerm) (codec : Codec) :
      Request.Renamed f (.override term codec) (.override term (codec.rename f))
  | enlist (type : TypeName) {factory factory' : Factory} : factory.Renamed f factory' →
      Request.Renamed f (.enlist type factory) (.enlist type factory')

/-- The request uses only slots before the `n`th, and does not look at the numbers of others. -/
def Request.Blind (n : Nat) : Request → Prop
  | .lookup _ => True
  | .preload _ => True
  | .override _ codec => ∀ ref ∈ codec.refs, ref.slot < n
  | .enlist _ factory => factory.Blind n

def Factory.crashing : Factory := .of fun _ => .halt .crashed

namespace Registry

variable {reg reg' : Registry} {events : List Event} {term : TypeTerm}

abbrev Reply := Outcome (Except RegistryError (Option CodecRef))

def preloadReply (reg : Registry) : List TypeTerm → Reply
  | [] => .ok (.ok none)
  | term :: terms =>
    match reg.lookup term with
    | (.ok (.ok _), reg) => preloadReply reg terms
    | (.ok (.error e), _) => .ok (.error e)
    | (.error why, _) => .error why

def reply (reg : Registry) : Request → Reply
  | .lookup term => (reg.lookup term).1.map (Except.map some)
  | .preload terms => reg.preloadReply terms
  | .override term codec => .ok ((reg.override term codec).1.map fun _ => none)
  | .enlist type factory => .ok ((reg.enlist type factory).1.map fun _ => none)

def replies (reg : Registry) : List Request → List Reply
  | [] => []
  | request :: requests => reg.reply request :: (reg.perform request).replies requests

/-- Nothing is left of a lookup that failed and on the way registered nothing, but slots, layouts
and counters. -/
theorem Looks.rolled_back {answer : Outcome (Except RegistryError CodecRef)}
    (h : Looks reg term events answer reg') (hi : reg.Idle) (hq : ∀ e ∈ events, e.Quiet)
    (hfail : ∀ ref, answer ≠ .ok (.ok ref)) :
    reg' = { reg with slots := reg'.slots, layouts := reg'.layouts, stats := reg'.stats } := by
  cases h with
  | hit => exact absurd rfl (hfail _)
  | derived => exact absurd rfl (hfail _)
  | @failed _ mid _ _ _ hn h =>
    have hs := hi.stage hn (reg.settings.canonical_canonical term)
    have hk := addsUp_kept.acts h hs hq
    have hd : mid.depth - 1 = reg.depth := congrArg (· - 1) hk.depth
    have hstaged : (mid.abandon (reg.canonical term)).staged = reg.staged := by
      rw [abandon, hi.staged, if_pos (hd.trans hi.depth)]
    obtain ⟨hk, hp⟩ := hk.abandon
    generalize mid.abandon (reg.canonical term) = left at hk hp hstaged
    cases left
    cases hk.host
    cases hk.settings
    cases hk.depth
    cases hk.factories
    cases hp
    cases hstaged
    rfl

/-- Between requests, with references to its own slots only, layouts that the host tells every
time, and factories that do not look at the numbers of slots that are still to come. -/
structure Settled (reg : Registry) : Prop extends Idle reg where
  nodup : reg.known.Nodup
  bounded : ∀ slot codec, reg.Holds slot codec → ∀ ref ∈ codec.refs, ref.slot < reg.slots.size
  faithful : reg.Faithful
  blind : ∀ entry ∈ reg.factories, entry.2.Blind reg.slots.size

variable {f : Nat → Nat} {limit : Nat}

theorem Settled.slot_lt (h : reg.Settled) {entry : TypeTerm × Nat} (he : entry ∈ reg.published) :
    entry.2 < reg.slots.size := by
  have hn := h.nodup
  rw [known, h.staged] at hn
  obtain ⟨codec, hc⟩ := h.published_filled _ _ ((Table.get?_eq_some_iff hn).2 he)
  exact hc.lt_size

/-- A settled registry that is left with more slots is itself with other slots, if these do not come
among those that it had. -/
theorem Settled.renamed (h : reg.Settled) (hf : f.Injective)
    (hfix : ∀ slot < reg.slots.size, f slot = slot)
    (he : reg' = { reg with slots := reg'.slots, layouts := reg'.layouts, stats := reg'.stats })
    (hg : Grows reg reg') (hfaithful : reg'.Faithful)
    (hnew : ∀ slot, reg.slots.size ≤ slot → reg'.slots.size ≤ f slot)
    (hfresh : ∀ slot, reg.slots.size ≤ slot → slot < limit →
      f slot + reg.slots.size = reg'.slots.size + slot) : reg.Renamed f limit reg' := by
  have hpublished : Table.mapValues f reg.published = reg.published := by
    refine (List.map_congr_left fun entry he => ?_).trans (List.map_id _)
    rw [hfix _ (h.slot_lt he)]
    rfl
  refine ⟨?_, ?_, ?_, hfresh, fun slot => ?_, ?_, ?_, ?_, h.faithful, hfaithful⟩
  · rw [he]
  · rw [he]
  · rw [he]
  · rcases Nat.lt_or_ge slot reg.slots.size with hs | hs
    · rw [hfix slot hs, hg.slots slot hs]
      rcases hslot : reg.slots[slot]? with _ | _ | codec
      · rfl
      · rfl
      · have hself := Codec.rename_eq_self fun ref hr => hfix _ (h.bounded slot codec hslot ref hr)
        rw [Option.map_some, Option.map_some, hself]
    · rw [Array.getElem?_eq_none hs, Array.getElem?_eq_none (hnew slot hs)]
      rfl
  · rw [hpublished, he]
  · rw [he, h.staged]
    rfl
  · rw [he]
    exact List.forall₂_same.2 fun entry hm => ⟨rfl, h.blind entry hm f hf hfix⟩

theorem Settled.renamed_self (h : reg.Settled) (hf : f.Injective)
    (hfix : ∀ slot < limit, f slot = slot) (hlt : reg.slots.size ≤ limit) :
    reg.Renamed f limit reg := by
  have hfix' : ∀ slot < reg.slots.size, f slot = slot := fun slot hs => hfix slot (hs.trans_le hlt)
  refine h.renamed hf hfix' rfl (addsUp_grows.done reg) h.faithful (fun slot hs => ?_)
    fun slot _ hs => ?_
  · by_contra hlt
    exact absurd (hf (hfix' _ (not_le.1 hlt))) (ne_of_lt ((not_le.1 hlt).trans_le hs))
  · rw [hfix slot hs, Nat.add_comm]

theorem settled_of_renamed (hi : reg.Idle) (hn : reg.known.Nodup)
    (h : ∀ f : Nat → Nat, f.Injective → (∀ slot < reg.slots.size, f slot = slot) →
      reg.Renamed f reg.slots.size reg) : reg.Settled := by
  refine ⟨hi, hn, fun slot codec hc ref hr => ?_, ?_, fun entry he f hf hfix => ?_⟩
  · have hs := (h _ (slide_injective _ 1) fun _ => slide_of_lt).slots slot
    rw [slide_of_lt hc.lt_size, hc, Option.map_some, Option.map_some] at hs
    have hself := Option.some.inj (Option.some.inj hs)
    by_contra hlt
    have := Codec.of_rename_eq_self hself.symm ref hr
    rw [slide_of_le (not_lt.1 hlt)] at this
    omega
  · exact (h id Function.injective_id fun _ _ => rfl).faithful
  · exact (List.forall₂_same.1 (h f hf hfix).factories entry he).2

theorem Settled.lookup (h : reg.Settled) (term : TypeTerm) : (reg.lookup term).2.Settled := by
  obtain ⟨hi, hx⟩ := h.toIdle.lookup term
  obtain ⟨log, hlog⟩ := acts_lookup h.toWellFormed term
  refine settled_of_renamed hi (addsUp_nodup.acts hlog h.toWellFormed h.nodup) fun f hf hfix => ?_
  have hself := h.renamed_self hf hfix hx.size
  rw [lookup_eq] at *
  exact (tracks_resolve hf _ callLimit term reg reg h.toWellFormed hself le_rfl).2

theorem settled_initial (host : Host) (settings : Settings) : (initial host settings).Settled where
  toIdle := idle_initial host settings
  nodup := List.nodup_nil
  bounded slot codec h := by cases h
  faithful type layout h := by cases h
  blind entry h := by cases h

theorem Settled.override (h : reg.Settled) (term : TypeTerm) {codec : Codec}
    (hc : ∀ ref ∈ codec.refs, ref.slot < reg.slots.size) :
    (reg.override term codec).2.Settled := by
  rcases override_cases reg term codec with ⟨-, he⟩ | ⟨-, he⟩
  · rwa [he]
  · have hok : (reg.override term codec).1 = .ok () := by rw [he]
    have hnodup := addsUp_nodup.override hok h.nodup
    refine ⟨h.toIdle.override term codec, hnodup, ?_, ?_, ?_⟩ <;> rw [he]
    · intro slot c hs ref hr
      rw [Array.size_push]
      rcases getElem?_push_iff.1 hs with hs | ⟨-, hs⟩
      · exact (h.bounded slot c hs ref hr).trans (Nat.lt_succ_self _)
      · cases hs
        exact (hc ref hr).trans (Nat.lt_succ_self _)
    · exact h.faithful
    · intro entry hm f hf hfix
      refine h.blind entry hm f hf fun slot hs => hfix slot ?_
      rw [Array.size_push]
      omega

theorem Settled.enlist (h : reg.Settled) (type : TypeName) {factory : Factory}
    (hb : factory.Blind reg.slots.size) : (reg.enlist type factory).2.Settled := by
  rcases enlist_cases reg type factory with he | ⟨-, -, he⟩
  · rwa [he]
  · have hok : (reg.enlist type factory).1 = .ok () := by rw [he]
    have hnodup := addsUp_nodup.enlist hok h.nodup
    refine ⟨h.toIdle.enlist type factory, hnodup, ?_, ?_, ?_⟩ <;> rw [he]
    · exact h.bounded
    · exact h.faithful
    · intro entry hm
      rcases Table.mem_insert.1 hm with rfl | ⟨hm, -⟩
      · exact hb
      · exact h.blind entry hm

theorem Idle.perform (h : reg.Idle) (request : Request) : (reg.perform request).Idle := by
  obtain ⟨log, hlog⟩ := acts_perform h.toWellFormed request
  obtain ⟨hw, hx⟩ := hlog.frame h.toWellFormed
  exact h.of_extends hw hx

theorem Settled.perform (h : reg.Settled) {request : Request}
    (hb : request.Blind reg.slots.size) : (reg.perform request).Settled := by
  cases request with
  | lookup term => exact h.lookup term
  | preload terms => exact preload_induction (fun _ term h => h.lookup term) terms h
  | override term codec => exact h.override term hb
  | enlist type factory => exact h.enlist type hb

def renameReply (f : Nat → Nat) : Reply → Reply := renameAnswer (Option.map (CodecRef.rename f))

theorem Renamed.mono {A B : Registry} {limit' : Nat} (h : A.Renamed f limit B)
    (hl : limit' ≤ limit) : A.Renamed f limit' B :=
  { h with fresh := fun slot hs hs' => h.fresh slot hs (hs'.trans_le hl) }

/-- The second registry is the first with other slots, however many are filled from now on. -/
def Alike (f : Nat → Nat) (A B : Registry) : Prop := ∀ limit, A.Renamed f limit B

namespace Alike

variable {A B : Registry}

theorem lookup (h : Alike f A B) (hf : f.Injective) (hi : A.Idle) (term : TypeTerm) :
    (B.lookup term).1 = renameAnswer (CodecRef.rename f) (A.lookup term).1 ∧
      Alike f (A.lookup term).2 (B.lookup term).2 := by
  have ht : ∀ limit, (A.lookup term).2.slots.size ≤ limit → _ := fun limit hl => by
    rw [lookup_eq] at hl
    exact tracks_resolve hf limit callLimit term A B hi.toWellFormed (h limit) hl
  rw [lookup_eq, lookup_eq] at *
  refine ⟨(ht _ le_rfl).1, fun limit => ?_⟩
  exact (ht _ (le_max_left _ limit)).2.mono (le_max_right _ limit)

theorem preload (h : Alike f A B) (hf : f.Injective) (hi : A.Idle) (terms : List TypeTerm) :
    B.preloadReply terms = renameReply f (A.preloadReply terms) ∧
      Alike f (A.preload terms) (B.preload terms) := by
  induction terms generalizing A B with
  | nil => exact ⟨rfl, h⟩
  | cons term terms ih =>
    have hi' := (hi.lookup term).1
    have hl := h.lookup hf hi term
    rw [preloadReply, preloadReply, Registry.preload, Registry.preload]
    rcases hA : A.lookup term with ⟨why | e | ref, A'⟩ <;> rw [hA] at hl hi' <;>
      rcases hB : B.lookup term with ⟨answer, B'⟩ <;> rw [hB] at hl <;> obtain ⟨rfl, h'⟩ := hl
    · exact ⟨rfl, h'⟩
    · exact ⟨rfl, h'⟩
    · exact ih h' hi'

theorem perform (h : Alike f A B) (hf : f.Injective) (hi : A.Idle) {request request' : Request}
    (hr : request.Renamed f request') :
    B.reply request' = renameReply f (A.reply request) ∧
      Alike f (A.perform request) (B.perform request') := by
  cases hr with
  | lookup term =>
    obtain ⟨hans, h'⟩ := h.lookup hf hi term
    refine ⟨?_, h'⟩
    rw [reply, reply, hans]
    rcases (A.lookup term).1 with _ | _ | _ <;> rfl
  | preload terms => exact h.preload hf hi terms
  | override term codec =>
    have ho : ∀ limit, (A.override term codec).2.slots.size ≤ limit → _ := fun limit hl =>
      (h limit).override hf hl
    refine ⟨?_, fun limit => ?_⟩
    · rw [reply, reply, (ho _ le_rfl).1]
      rcases (A.override term codec).1 with _ | _ <;> rfl
    · exact (ho _ (le_max_left _ limit)).2.mono (le_max_right _ limit)
  | enlist type hr =>
    refine ⟨?_, fun limit => ((h limit).enlist hr type).2⟩
    rw [reply, reply, ((h 0).enlist hr type).1]
    rcases (A.enlist type _).1 with _ | _ <;> rfl

theorem replies (h : Alike f A B) (hf : f.Injective) (hi : A.Idle)
    {requests requests' : List Request} (hr : List.Forall₂ (Request.Renamed f) requests requests') :
    B.replies requests' = (A.replies requests).map (renameReply f) := by
  induction hr generalizing A B with
  | nil => rfl
  | cons hr _ ih =>
    obtain ⟨hans, h'⟩ := h.perform hf hi hr
    rw [Registry.replies, Registry.replies, hans, ih h' (hi.perform _)]
    rfl

end Alike

def shiftBy (reg : Registry) (term : TypeTerm) : Nat → Nat :=
  slide reg.slots.size ((reg.lookup term).2.slots.size - reg.slots.size)

theorem Settled.alike_lookup (h : reg.Settled) (hq : reg.Quiet)
    (hfail : ∀ ref, (reg.lookup term).1 ≠ .ok (.ok ref)) :
    Alike (reg.shiftBy term) reg (reg.lookup term).2 := by
  obtain ⟨events, hl, hquiet⟩ := looks_lookup h.toWellFormed term
  have he := hl.rolled_back h.toIdle (hquiet hq) hfail
  have hg := addsUp_grows.looks hl h.toWellFormed
  refine fun limit => h.renamed (slide_injective _ _) (fun slot => slide_of_lt) he hg
    (h.lookup term).faithful (fun slot hs => ?_) fun slot hs _ => ?_ <;>
  · have := hg.size
    rw [shiftBy, slide_of_le hs]
    omega

/-- A lookup from outside that fails, at whatever depth and whatever way, leaves the registry as it
was but for slots, layouts and counters, which only grow, if nothing is registered on the way. If
layouts are always the same and factories do not look at the numbers of slots, then the answers to
later requests are those that would have been given without the failed lookup, except that slots
filled from now on come after the ones that are left over. -/
theorem failure_rolled_back (hi : reg.Idle) :
    (∀ term events answer reg', Looks reg term events answer reg' → (∀ e ∈ events, e.Quiet) →
      (∀ ref, answer ≠ .ok (.ok ref)) →
      reg' = { reg with slots := reg'.slots, layouts := reg'.layouts, stats := reg'.stats } ∧
      reg'.staged = [] ∧ reg'.depth = 0 ∧ Grows reg reg') ∧
    (reg.Quiet → ∀ term, ∃ events, Looks reg term events (reg.lookup term).1 (reg.lookup term).2 ∧
      ∀ e ∈ events, e.Quiet) ∧
    (reg.Settled → reg.Quiet → ∀ term, (∀ ref, (reg.lookup term).1 ≠ .ok (.ok ref)) →
      ∀ requests requests', List.Forall₂ (Request.Renamed (reg.shiftBy term)) requests requests' →
        (reg.lookup term).2.replies requests' =
          (reg.replies requests).map (renameReply (reg.shiftBy term))) ∧
    (reg.Settled → ∀ request : Request, request.Blind reg.slots.size →
      (reg.perform request).Settled ∧ ∀ term, request.Renamed (reg.shiftBy term) request) := by
  refine ⟨?_, fun hq term => ?_, ?_, fun hs request hb => ⟨hs.perform hb, fun term => ?_⟩⟩
  · intro term events answer reg' hl hq hfail
    have he := hl.rolled_back hi hq hfail
    refine ⟨he, ?_, ?_, addsUp_grows.looks hl hi.toWellFormed⟩
    · rw [he, hi.staged]
    · rw [he, hi.depth]
  · obtain ⟨events, hl, hquiet⟩ := looks_lookup hi.toWellFormed term
    exact ⟨events, hl, hquiet hq⟩
  · intro hs hq term hfail requests requests' hr
    exact (hs.alike_lookup hq hfail).replies (slide_injective _ _) hi hr
  · cases request with
    | lookup term' => exact .lookup term'
    | preload terms => exact .preload terms
    | override term' codec =>
      have hself : codec.rename (reg.shiftBy term) = codec :=
        Codec.rename_eq_self fun ref hr => slide_of_lt (hb ref hr)
      have hr := Request.Renamed.override (f := reg.shiftBy term) term' codec
      rwa [hself] at hr
    | enlist type factory => exact .enlist type (hb _ (slide_injective _ _) fun _ => slide_of_lt)

theorem failure_rolled_back_tangled :
    ∃ reg : Registry, reg.Settled ∧ reg.Quiet ∧
      (reg.lookup ⟨"Holder", []⟩).1 = .error .crashed ∧
      (reg.lookup ⟨"Holder", []⟩).2.slots.size = 3 ∧
      (reg.lookup ⟨"Holder", []⟩).2.staged = [] ∧
      (reg.lookup ⟨"Holder", []⟩).2.replies
          [.override ⟨"Class", []⟩ (.atomic .string), .lookup ⟨"Holder", []⟩] =
        [.ok (.ok none), .ok (.ok (some ⟨⟨"Holder", []⟩, 4⟩))] := by
  have hblind : Factory.crashing.Blind 0 := fun f _ _ => .of fun _ => .halt _
  have hs : ((initial .tangled {}).enlist "Class" .crashing).2.Settled :=
    (settled_initial .tangled {}).enlist "Class" hblind
  have hq : ((initial .tangled {}).enlist "Class" .crashing).2.Quiet := by
    intro type factory term h
    obtain rfl : factory = .crashing := by
      rcases List.mem_singleton.1 (Table.mem_of_get? h) with h
      cases h
      rfl
    exact .halt _
  have hcrash : (((initial .tangled {}).enlist "Class" .crashing).2.lookup ⟨"Holder", []⟩).1 =
      .error .crashed := by rfl
  have hfail : ∀ ref, (((initial .tangled {}).enlist "Class" .crashing).2.lookup
      ⟨"Holder", []⟩).1 ≠ .ok (.ok ref) := fun ref h => by cases hcrash.symm.trans h
  obtain ⟨hback, hquiet, hlater, -⟩ := failure_rolled_back hs.toIdle
  obtain ⟨events, hl, hq'⟩ := hquiet hq ⟨"Holder", []⟩
  refine ⟨_, hs, hq, hcrash, by rfl, (hback _ _ _ _ hl hq' hfail).2.1, ?_⟩
  exact (hlater hs hq _ hfail _ _
    (.cons (.override _ (.atomic .string)) (.cons (.lookup _) .nil))).trans (by rfl)

end Registry

end Typewire
