import Typewire.Proofs.Registry.Activity

/-! # The ledger of a registry

The log of an activity accounts for the counters and the keys of a registry: each lookup is a hit or
a miss, each layout is told once, and if nothing fails each miss is a derivation that ends with one
more published term. A term that is published keeps its slot, so the log never gives it two answers.
-/

namespace Typewire

namespace Event

def isLookup : Event → Bool
  | .lookup .. => true
  | _ => false

def described? : Event → Option TypeName
  | .layout type => some type
  | _ => none

def registered? : Event → Option TypeTerm
  | .override key => some key
  | _ => none

def Succeeds : Event → Prop
  | .lookup _ answer => ∃ ref, answer = .ok (.ok ref)
  | _ => True

def told (events : List Event) : List TypeName := events.filterMap described?

def registered (events : List Event) : List TypeTerm := events.filterMap registered?

theorem told_append (events events' : List Event) :
    told (events ++ events') = told events ++ told events' :=
  List.filterMap_append

theorem told_concat_lookup (events : List Event) (term : TypeTerm)
    (answer : Outcome (Except RegistryError CodecRef)) :
    told (events ++ [.lookup term answer]) = told events :=
  (told_append _ _).trans (List.append_nil _)

theorem registered_append (events events' : List Event) :
    registered (events ++ events') = registered events ++ registered events' :=
  List.filterMap_append

theorem registered_concat_lookup (events : List Event) (term : TypeTerm)
    (answer : Outcome (Except RegistryError CodecRef)) :
    registered (events ++ [.lookup term answer]) = registered events :=
  (registered_append _ _).trans (List.append_nil _)

end Event

namespace Registry

def known (reg : Registry) : List TypeTerm := Table.keys reg.staged ++ Table.keys reg.published

variable {reg mid reg' : Registry} {key : TypeTerm} {slot : Nat} {events : List Event}

theorem known_stage (h : reg.slot? key = none) : (reg.stage key).known = key :: reg.known := by
  rw [slot?_eq_none_iff] at h
  rw [known, stage, Table.keys_insert h.2]
  rfl

theorem perm_known_override {term : TypeTerm} {codec : Codec}
    (ho : (reg.override term codec).1 = .ok ()) :
    (reg.override term codec).2.known.Perm (reg.canonical term :: reg.known) := by
  obtain ⟨hn, h⟩ := of_override_ok ho
  rw [slot?_eq_none_iff, Table.get?_eq_none_iff] at hn
  rw [h, known, Table.keys_insert hn.1]
  exact List.perm_middle

theorem not_mem_known (h : reg.slot? key = none) : key ∉ reg.known := by
  rw [slot?_eq_none_iff, Table.get?_eq_none_iff] at h
  rw [known, List.mem_append, not_or]
  exact h.symm

theorem stats_complete (mid : Registry) (slot : Nat) (codec : Codec) :
    (mid.complete slot codec).stats =
      { mid.stats with derivations := mid.stats.derivations + 1 } := by
  rw [complete]
  split <;> rfl

theorem layouts_complete (mid : Registry) (slot : Nat) (codec : Codec) :
    (mid.complete slot codec).layouts = mid.layouts := by
  rw [complete]
  split <;> rfl

theorem Ended.perm_known_complete (h : Ended reg key mid) (codec : Codec) :
    (mid.complete reg.slots.size codec).known.Perm mid.known := by
  rw [h.complete_eq]
  split
  · rename_i hd
    have hall : (mid.fill reg.slots.size codec).staged.filter (fun entry =>
        (mid.fill reg.slots.size codec).isFilled entry.2) = mid.staged :=
      List.filter_eq_self.2 fun entry he => h.filled_of_outermost hd he codec
    have hperm := Table.perm_keys_insertAll h.after.staged_nodup fun k hk => by
      obtain ⟨entry, he, rfl⟩ := List.mem_map.1 hk
      exact Table.get?_eq_none_iff.1 (h.after.staged_new entry he)
    rw [publish, hall]
    exact hperm
  · rfl

theorem known_abandon (mid : Registry) (key : TypeTerm) :
    (mid.abandon key).known.Sublist mid.known := by
  refine List.Sublist.append_right (List.Sublist.map _ ?_) _
  rw [abandon]
  split
  · exact List.nil_sublist _
  · exact List.filter_sublist

theorem addsUp_nodup : AddsUp fun reg _ reg' => reg.known.Nodup → reg'.known.Nodup where
  done _ h := h
  append _ _ h h' hn := h' (h hn)
  hit _ h := h
  derived codec he h hn := by
    rw [known_stage he.new, List.nodup_cons] at h
    exact (he.perm_known_complete codec).nodup_iff.2 (h ⟨not_mem_known he.new, hn⟩)
  failed he h _ hn := by
    rw [known_stage he.new, List.nodup_cons] at h
    exact (h ⟨not_mem_known he.new, hn⟩).sublist (known_abandon _ _)
  learn _ _ h := h
  override ho hn := (perm_known_override ho).nodup_iff.2
    (List.nodup_cons.2 ⟨not_mem_known (of_override_ok ho).1, hn⟩)
  enlist he hn := by
    rw [(of_enlist_ok he).2]
    exact hn

section Counters

/-- What the log says of the counters. -/
structure Counted (reg : Registry) (events : List Event) (reg' : Registry) : Prop where
  lookups : reg'.stats.hits + reg'.stats.misses =
    reg.stats.hits + reg.stats.misses + events.countP Event.isLookup
  layouts : reg'.stats.layouts = reg.stats.layouts + (Event.told events).length
  told : Table.keys reg'.layouts = (Event.told events).reverse ++ Table.keys reg.layouts
  nodup : (Table.keys reg.layouts).Nodup → (Table.keys reg'.layouts).Nodup

theorem addsUp_counted : AddsUp Counted where
  done _ := ⟨rfl, rfl, rfl, id⟩
  append _ _ h h' := by
    refine ⟨?_, ?_, ?_, h'.nodup ∘ h.nodup⟩
    · rw [List.countP_append, h'.lookups, h.lookups, Nat.add_assoc]
    · rw [Event.told_append, List.length_append, h'.layouts, h.layouts, Nat.add_assoc]
    · rw [Event.told_append, List.reverse_append, h'.told, h.told, List.append_assoc]
  hit {reg _ _} _ := ⟨Nat.add_right_comm reg.stats.hits 1 reg.stats.misses, rfl, rfl, id⟩
  derived codec _ h := by
    refine ⟨?_, ?_, ?_, ?_⟩
    · rw [stats_complete, List.countP_append]
      exact h.lookups.trans (Nat.add_right_comm _ 1 _)
    · rw [stats_complete, Event.told_concat_lookup]
      exact h.layouts
    · rw [layouts_complete, Event.told_concat_lookup]
      exact h.told
    · rw [layouts_complete]
      exact h.nodup
  failed _ h _ := by
    refine ⟨?_, ?_, ?_, h.nodup⟩
    · rw [List.countP_append]
      exact h.lookups.trans (Nat.add_right_comm _ 1 _)
    · rw [Event.told_concat_lookup]
      exact h.layouts
    · rw [Event.told_concat_lookup]
      exact h.told
  learn {reg type} layout hn := by
    rw [Table.get?_eq_none_iff] at hn
    exact ⟨rfl, rfl, Table.keys_insert hn, Table.nodup_keys_insert⟩
  override ho := by
    rw [(of_override_ok ho).2]
    exact ⟨rfl, rfl, rfl, id⟩
  enlist he := by
    rw [(of_enlist_ok he).2]
    exact ⟨rfl, rfl, rfl, id⟩

/-- If every lookup finds a codec, each miss is a derivation and makes one more term known. -/
structure Flawless (reg : Registry) (events : List Event) (reg' : Registry) : Prop where
  derivations : reg'.stats.misses + reg.stats.derivations =
    reg'.stats.derivations + reg.stats.misses
  known : reg'.known.length + reg.stats.misses =
    reg.known.length + reg'.stats.misses + (Event.registered events).length

theorem addsUp_flawless :
    AddsUp fun reg events reg' => (∀ e ∈ events, e.Succeeds) → Flawless reg events reg' where
  done _ _ := ⟨Nat.add_comm _ _, rfl⟩
  append _ _ h h' hall := by
    obtain ⟨hall, hall'⟩ := List.forall_mem_append.1 hall
    have h := h hall
    have h' := h' hall'
    refine ⟨?_, ?_⟩
    · have := h.derivations
      have := h'.derivations
      omega
    · have := h.known
      have := h'.known
      rw [Event.registered_append, List.length_append]
      omega
  hit _ _ := ⟨Nat.add_comm _ _, rfl⟩
  derived {reg mid term events} codec he h hall := by
    -- The miss is counted before the derivation begins, and the derivation when it ends.
    have h := h (List.forall_mem_append.1 hall).1
    refine ⟨?_, ?_⟩
    · have hd : mid.stats.misses + reg.stats.derivations =
        mid.stats.derivations + (reg.stats.misses + 1) := h.derivations
      rw [stats_complete]
      simp only
      omega
    · have hk : mid.known.length + (reg.stats.misses + 1) =
          (reg.stage (reg.canonical term)).known.length + mid.stats.misses +
            (Event.registered events).length := h.known
      rw [known_stage he.new, List.length_cons] at hk
      rw [(he.perm_known_complete codec).length_eq, stats_complete,
        Event.registered_concat_lookup]
      simp only
      omega
  failed _ _ hfail hall := by
    obtain ⟨ref, href⟩ := hall _ (List.mem_append_right _ List.mem_cons_self)
    exact absurd href (hfail ref)
  learn _ _ _ := ⟨Nat.add_comm _ _, rfl⟩
  override {reg term codec} ho _ := by
    have hstats : (reg.override term codec).2.stats = reg.stats := by rw [(of_override_ok ho).2]
    have hknown := (perm_known_override ho).length_eq
    refine ⟨?_, ?_⟩
    · rw [hstats, Nat.add_comm]
    · rw [hstats, hknown, List.length_cons]
      exact Nat.add_right_comm _ 1 _
  enlist he _ := by
    rw [(of_enlist_ok he).2]
    exact ⟨Nat.add_comm _ _, rfl⟩

end Counters

section Answers

/-- A lookup gives the codec that was registered before it. -/
def Heeds (reg : Registry) (e e' : Event) : Prop :=
  ∀ key term answer, e = .override key → e' = .lookup term answer → reg.canonical term = key →
    ∃ slot, Table.get? key reg.published = some slot ∧ answer = .ok (.ok ⟨key, slot⟩)

theorem Heeds.mono {e e' : Event} (h : reg.Heeds e e') (hs : reg'.settings = reg.settings)
    (hp : ∀ key slot, Table.get? key reg.published = some slot →
      Table.get? key reg'.published = some slot) : reg'.Heeds e e' := by
  intro key term answer he he' hc
  rw [Registry.canonical, hs] at hc
  obtain ⟨slot, hslot, ha⟩ := h key term answer he he' hc
  exact ⟨slot, hp key slot hslot, ha⟩

/-- Published terms are not registered again, and every lookup of theirs finds them. -/
structure Consistent (reg : Registry) (events : List Event) (reg' : Registry) : Prop where
  new : ∀ key ∈ Event.registered events, Table.get? key reg.published = none
  published : ∀ key ∈ Event.registered events, ∃ slot, Table.get? key reg'.published = some slot
  nodup : (Event.registered events).Nodup
  answers : ∀ key slot, Table.get? key reg.published = some slot → ∀ term answer,
    .lookup term answer ∈ events → reg.canonical term = key → answer = .ok (.ok ⟨key, slot⟩)
  heeds : events.Pairwise reg'.Heeds

theorem mem_registered {key : TypeTerm} :
    key ∈ Event.registered events ↔ .override key ∈ events := by
  rw [Event.registered, List.mem_filterMap]
  constructor
  · rintro ⟨e, he, hk⟩
    cases e <;> cases hk
    exact he
  · exact fun he => ⟨_, he, rfl⟩

theorem Consistent.append {events' : List Event} (h : Consistent reg events mid)
    (h' : Consistent mid events' reg') (hx : Extends reg mid) (hx' : Extends mid reg') :
    Consistent reg (events ++ events') reg' := by
  have hnew : ∀ key ∈ Event.registered events', Table.get? key reg.published = none := by
    intro key hk
    rw [Option.eq_none_iff_forall_ne_some]
    intro slot hs
    have := h'.new key hk
    rw [hx.published key slot hs] at this
    cases this
  refine ⟨?_, ?_, ?_, ?_, ?_⟩
  · rw [Event.registered_append]
    exact List.forall_mem_append.2 ⟨h.new, hnew⟩
  · rw [Event.registered_append]
    refine List.forall_mem_append.2 ⟨fun key hk => ?_, h'.published⟩
    obtain ⟨slot, hs⟩ := h.published key hk
    exact ⟨slot, hx'.published key slot hs⟩
  · rw [Event.registered_append]
    refine List.nodup_append.2 ⟨h.nodup, h'.nodup, fun key hk k hk' heq => ?_⟩
    subst heq
    obtain ⟨slot, hs⟩ := h.published key hk
    have := h'.new key hk'
    rw [hs] at this
    cases this
  · intro key slot hs term answer hm hc
    rcases List.mem_append.1 hm with hm | hm
    · exact h.answers key slot hs term answer hm hc
    · refine h'.answers key slot (hx.published key slot hs) term answer hm ?_
      rwa [Registry.canonical, hx.settings]
  · refine List.pairwise_append.2
      ⟨h.heeds.imp fun he => he.mono hx'.settings hx'.published, h'.heeds, ?_⟩
    rintro e he e' he' key term answer rfl rfl hc
    obtain ⟨slot, hs⟩ := h.published key (mem_registered.2 he)
    refine ⟨slot, hx'.published key slot hs, h'.answers key slot hs term answer he' ?_⟩
    rwa [Registry.canonical, hx'.settings] at hc

/-- The lookup that ends with a derivation adds an answer for a term that was not published. -/
theorem Ended.consistent {term : TypeTerm} {answer : Outcome (Except RegistryError CodecRef)}
    (he : Ended reg (reg.canonical term) mid)
    (h : Consistent (reg.stage (reg.canonical term)) events mid)
    (hs : reg'.settings = mid.settings)
    (hp : ∀ key slot, Table.get? key mid.published = some slot →
      Table.get? key reg'.published = some slot) :
    Consistent reg (events ++ [.lookup term answer]) reg' := by
  refine ⟨?_, ?_, ?_, ?_, ?_⟩
  · rw [Event.registered_concat_lookup]
    exact h.new
  · rw [Event.registered_concat_lookup]
    intro key hk
    obtain ⟨slot, hslot⟩ := h.published key hk
    exact ⟨slot, hp key slot hslot⟩
  · rw [Event.registered_concat_lookup]
    exact h.nodup
  · intro key slot hslot t a hm hc
    rcases List.mem_append.1 hm with hm | hm
    · exact h.answers key slot hslot t a hm hc
    · cases List.mem_singleton.1 hm
      have hnone := (slot?_eq_none_iff.1 he.new).1
      rw [hc, hslot] at hnone
      cases hnone
  · refine List.pairwise_append.2 ⟨h.heeds.imp fun he => he.mono hs hp,
      List.pairwise_singleton _ _, ?_⟩
    rintro e hm e' hm' key t a rfl rfl hc
    cases List.mem_singleton.1 hm'
    obtain ⟨slot, hslot⟩ := h.published key (mem_registered.2 hm)
    have hnone := he.after.staged_new _ he.mem_staged
    rw [Registry.canonical, hs, he.extends_stage.settings] at hc
    change Table.get? (reg.settings.canonical term) mid.published = none at hnone
    change reg.settings.canonical term = key at hc
    rw [hc, hslot] at hnone
    cases hnone

theorem addsUp_consistent : AddsUp Consistent where
  done _ := ⟨List.forall_mem_nil _, List.forall_mem_nil _, List.nodup_nil, by simp, .nil⟩
  append hx hx' h h' := h.append h' hx hx'
  hit {reg term slot} hs := by
    refine ⟨List.forall_mem_nil _, List.forall_mem_nil _, List.nodup_nil, ?_,
      List.pairwise_singleton _ _⟩
    intro key slot' hslot t a hm hc
    cases List.mem_singleton.1 hm
    subst hc
    rw [slot?, hslot, Option.some_or] at hs
    cases hs
    rfl
  derived codec he h := by
    refine he.consistent h ?_ fun key slot hs => (he.get?_complete codec).2 (.inl hs)
    rw [he.complete_eq]
    split <;> rfl
  failed he h _ := he.consistent h rfl fun _ _ hs => hs
  learn _ _ := ⟨List.forall_mem_nil _, List.forall_mem_nil _, List.nodup_nil, by simp,
    List.pairwise_singleton _ _⟩
  override ho :=
    ⟨List.forall_mem_singleton.2 (slot?_eq_none_iff.1 (of_override_ok ho).1).1,
      List.forall_mem_singleton.2 ⟨_, (override_published ho).1⟩,
      List.pairwise_singleton _ _, by simp, List.pairwise_singleton _ _⟩
  enlist _ := ⟨List.forall_mem_nil _, List.forall_mem_nil _, List.nodup_nil, by simp,
    List.pairwise_singleton _ _⟩

end Answers

section Runs

theorem Acts.append {reg mid reg' : Registry} {events events' : List Event} :
    Acts reg events mid → Acts mid events' reg' → Acts reg (events ++ events') reg'
  | .done, h' => h'
  | .lookup hl h, h' => List.append_assoc _ _ _ ▸ .lookup hl (h.append h')
  | .layout _ _ hn h, h' => .layout _ _ hn (h.append h')
  | .override _ _ ho h, h' => .override _ _ ho (h.append h')
  | .enlist _ _ he h, h' => .enlist _ _ he (h.append h')

theorem acts_lookup (hw : reg.WellFormed) (term : TypeTerm) :
    ∃ log, Acts reg log (reg.lookup term).2 := by
  obtain ⟨events, hl, -⟩ := looks_lookup hw term
  exact ⟨_, .lookup hl .done⟩

theorem acts_perform (hw : reg.WellFormed) (request : Request) :
    ∃ log, Acts reg log (reg.perform request) := by
  cases request with
  | lookup term => exact acts_lookup hw term
  | preload terms =>
    have h : (reg.preload terms).WellFormed ∧ ∃ log, Acts reg log (reg.preload terms) := by
      refine preload_induction (P := fun r => r.WellFormed ∧ ∃ log, Acts reg log r) ?_ terms
        ⟨hw, [], .done⟩
      rintro r term ⟨hr, log, h⟩
      obtain ⟨log', h'⟩ := acts_lookup hr term
      exact ⟨(h'.frame hr).1, log ++ log', h.append h'⟩
    exact h.2
  | override term codec =>
    by_cases ho : (reg.override term codec).1 = .ok ()
    · exact ⟨_, .override term codec ho .done⟩
    · refine ⟨[], ?_⟩
      rcases override_cases reg term codec with ⟨-, h⟩ | ⟨-, h⟩
      · rw [perform, h]
        exact .done
      · exact absurd (by rw [h]) ho
  | enlist type factory =>
    by_cases he : (reg.enlist type factory).1 = .ok ()
    · exact ⟨_, .enlist type factory he .done⟩
    · refine ⟨[], ?_⟩
      rcases enlist_cases reg type factory with h | ⟨-, -, h⟩
      · rw [perform, h]
        exact .done
      · exact absurd (by rw [h]) he

theorem acts_requests (hw : reg.WellFormed) (requests : List Request) :
    ∃ log, Acts reg log (requests.foldl perform reg) := by
  induction requests generalizing reg with
  | nil => exact ⟨[], .done⟩
  | cons request requests ih =>
    obtain ⟨log, h⟩ := acts_perform hw request
    obtain ⟨log', h'⟩ := ih (h.frame hw).1
    exact ⟨log ++ log', h.append h'⟩

theorem Looks.published (hi : reg.Idle) {term : TypeTerm} {ref : CodecRef}
    (h : Looks reg term events (.ok (.ok ref)) reg') :
    ref.term = reg.canonical term ∧ reg'.Publishes ref := by
  cases h with
  | hit hs =>
    rw [hi.slot?_eq] at hs
    exact ⟨rfl, hs⟩
  | derived codec hn h =>
    have hc := reg.settings.canonical_canonical term
    obtain ⟨hw', hx⟩ := h.frame (hi.stage hn hc)
    have he : Ended reg (reg.canonical term) _ := ⟨hi.toWellFormed, hn, hc, hw', hx⟩
    exact ⟨rfl, (he.get?_complete codec).2 (.inr ⟨hi.depth, he.mem_staged⟩)⟩
  | failed _ _ hfail => exact absurd rfl (hfail ref)

theorem length_unregistered {host : Host} {settings : Settings}
    (h : Acts (initial host settings) events reg) (hall : ∀ e ∈ events, e.Succeeds) :
    ((Table.keys reg.published).filter (· ∉ Event.registered events)).length =
      reg.stats.misses := by
  have hi := idle_initial host settings
  obtain ⟨hw, hx⟩ := h.frame hi.toWellFormed
  have hknown : reg.known = Table.keys reg.published := by
    rw [known, (hi.of_extends hw hx).staged]
    rfl
  have hn := addsUp_nodup.acts h hi.toWellFormed List.nodup_nil
  have hc := addsUp_consistent.acts h hi.toWellFormed
  have hf := (addsUp_flawless.acts h hi.toWellFormed hall).known
  rw [hknown] at hn hf
  have hperm : ((Table.keys reg.published).filter (· ∈ Event.registered events)).Perm
      (Event.registered events) := by
    refine (List.perm_ext_iff_of_nodup (hn.filter _) hc.nodup).2 fun key => ?_
    rw [List.mem_filter, decide_eq_true_iff]
    refine and_iff_right_of_imp fun hk => ?_
    obtain ⟨slot, hs⟩ := hc.published key hk
    exact Table.mem_keys_of_mem (Table.mem_of_get? hs)
  have hsum := List.length_eq_countP_add_countP (· ∈ Event.registered events)
    (l := Table.keys reg.published)
  rw [List.countP_eq_length_filter, hperm.length_eq] at hsum
  rw [← List.countP_eq_length_filter]
  simp only [decide_eq_true_eq] at hsum
  have hfirst : (initial host settings).stats.misses = 0 := rfl
  have hnone : (initial host settings).known.length = 0 := rfl
  omega

/-- In every run from the start, whatever host and factories do, nested requests included:
what is published is neither removed nor replaced; once a lookup from outside has found a codec, or
one was registered at any depth, later lookups of terms with the same canonical term give the same
slot; each lookup is a hit or a miss; each layout counted is one that the host told, once for each
type name; and if no lookup failed, the misses are the derivations, and the published terms that
were not registered with a codec. Requests to a registry are such runs. -/
theorem cached_once {host : Host} {settings : Settings}
    (h : Acts (initial host settings) events reg) :
    (∀ later reg', Acts reg later reg' → ∀ key slot, Table.get? key reg.published = some slot →
      Table.get? key reg'.published = some slot ∧
        ∀ codec, reg.Holds slot codec → reg'.Holds slot codec) ∧
    (∀ term inner ref mid later reg', Looks reg term inner (.ok (.ok ref)) mid →
      Acts mid later reg' → ∀ term' answer, .lookup term' answer ∈ later →
        settings.canonical term' = settings.canonical term → answer = .ok (.ok ref)) ∧
    events.Pairwise reg.Heeds ∧
    (∀ term term' : TypeTerm, term.head ∈ settings.alwaysRaw → term'.head = term.head →
      settings.canonical term' = settings.canonical term) ∧
    reg.stats.hits + reg.stats.misses = events.countP Event.isLookup ∧
    reg.stats.layouts = (Event.told events).length ∧ (Event.told events).Nodup ∧
    (Table.keys reg.published).Nodup ∧
    ((∀ e ∈ events, e.Succeeds) → reg.stats.misses = reg.stats.derivations ∧
      reg.stats.misses =
        ((Table.keys reg.published).filter (· ∉ Event.registered events)).length) ∧
    (∀ term, ∃ inner, Looks reg term inner (reg.lookup term).1 (reg.lookup term).2) ∧
    ∀ requests : List Request, ∃ log, Acts reg log (requests.foldl perform reg) := by
  have hi := idle_initial host settings
  obtain ⟨hw, hx⟩ := h.frame hi.toWellFormed
  have hr := hi.of_extends hw hx
  have hcounted := addsUp_counted.acts h hi.toWellFormed
  refine ⟨?_, ?_, (addsUp_consistent.acts h hi.toWellFormed).heeds, ?_, ?_, ?_, ?_, ?_, ?_,
    fun term => ?_, acts_requests hw⟩
  · intro later reg' h' key slot hp
    have hx' := (h'.frame hw).2
    exact ⟨hx'.published key slot hp, fun codec hc => hx'.holds hc⟩
  · -- What was found is published, and what is published is found again.
    intro term inner ref mid later reg' hl h' term' answer hm hc
    obtain ⟨hw', hx'⟩ := hl.frame hw
    obtain ⟨hterm, hp⟩ := hl.published hr
    refine (addsUp_consistent.acts h' hw').answers ref.term ref.slot hp term' answer hm ?_
    rw [hterm, Registry.canonical, Registry.canonical, hx'.settings, hx.settings]
    exact hc
  · intro term term' hraw hhead
    have hraw' : term'.head ∈ settings.alwaysRaw := hhead ▸ hraw
    rw [Settings.canonical_of_mem_alwaysRaw hraw, Settings.canonical_of_mem_alwaysRaw hraw',
      TypeTerm.erased, TypeTerm.erased, hhead]
  · exact hcounted.lookups.trans (Nat.zero_add _)
  · exact hcounted.layouts.trans (Nat.zero_add _)
  · have hn := hcounted.nodup List.nodup_nil
    rw [hcounted.told] at hn
    exact (List.reverse_perm _).nodup_iff.1 (hn.sublist (List.sublist_append_left _ _))
  · have hn := addsUp_nodup.acts h hi.toWellFormed List.nodup_nil
    rw [known, hr.staged] at hn
    exact hn
  · intro hall
    exact ⟨(addsUp_flawless.acts h hi.toWellFormed hall).derivations,
      (length_unregistered h hall).symm⟩
  · obtain ⟨inner, hl, -⟩ := looks_lookup hw term
    exact ⟨inner, hl⟩

theorem cached_once_chain :
    ∃ events, Acts (initial .chain {}) events ((initial .chain {}).lookup ⟨"Chain", []⟩).2 ∧
      (∀ e ∈ events, e.Succeeds) ∧ events.countP Event.isLookup = 2 ∧
      ((initial .chain {}).lookup ⟨"Chain", []⟩).2.stats = ⟨1, 1, 1, 1⟩ ∧
      ((Table.keys ((initial .chain {}).lookup ⟨"Chain", []⟩).2.published).filter
        (· ∉ Event.registered events)).length = 1 ∧
      ∀ later reg', Acts ((initial .chain {}).lookup ⟨"Chain", []⟩).2 later reg' →
        ∀ answer, .lookup ⟨"Chain", []⟩ answer ∈ later →
          answer = .ok (.ok ⟨⟨"Chain", []⟩, 0⟩) := by
  have outer : Looks (initial .chain {}) ⟨"Chain", []⟩
      [.layout "Chain", .lookup ⟨"Chain", []⟩ (.ok (.ok ⟨⟨"Chain", []⟩, 0⟩))]
      (.ok (.ok ⟨⟨"Chain", []⟩, 0⟩)) ((initial .chain {}).lookup ⟨"Chain", []⟩).2 :=
    .derived _ rfl (.layout "Chain" _ rfl (.lookup (.hit rfl) .done))
  have run := Acts.lookup outer .done
  have hall : ∀ e ∈ [Event.layout "Chain",
      .lookup ⟨"Chain", []⟩ (.ok (.ok ⟨⟨"Chain", []⟩, 0⟩)),
      .lookup ⟨"Chain", []⟩ (.ok (.ok ⟨⟨"Chain", []⟩, 0⟩))], e.Succeeds := by
    simp [Event.Succeeds]
  obtain ⟨-, -, -, -, -, -, -, -, hmisses, -⟩ := cached_once run
  obtain ⟨-, hsame, -⟩ := cached_once (Acts.done : Acts (initial .chain {}) _ _)
  refine ⟨_, run, hall, rfl, rfl, (hmisses hall).2.symm, fun later reg' h answer hm => ?_⟩
  exact hsame _ _ _ _ later reg' outer h _ answer hm rfl

end Runs

end Registry

end Typewire
