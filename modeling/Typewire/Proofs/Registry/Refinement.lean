import Mathlib.Logic.Function.Basic
import Typewire.Proofs.Registry.Reference

/-! # Registries agree with the reference

The derivation of a term gives the codec that the reference describes, whatever is cached or in
progress when it starts. So in a registry without factories the behaviour of a published codec is a
function of the host, the settings and the codecs that were registered, and of nothing else.
-/

namespace Typewire

open Registry

namespace Reference

variable {r : Reference} {reg mid : Registry} {key : TypeTerm}

theorem Agrees.congr {reg' : Registry} (h : Agrees r reg) (hh : reg'.host = reg.host)
    (hs : reg'.settings = reg.settings) (hf : reg'.factories = reg.factories)
    (hslots : reg'.slots = reg.slots) (hp : reg'.published = reg.published)
    (hst : reg'.staged = reg.staged)
    (hl : ∀ type layout, Table.get? type reg'.layouts = some layout →
      r.host.layout type = some (.ok layout)) : Agrees r reg' where
  host := hh.trans h.host
  settings := hs.trans h.settings
  factories := hf.trans h.factories
  layouts := hl
  codecs key slot codec := by
    simpa only [slot?, Holds, hslots, hp, hst] using h.codecs key slot codec
  customs key codec := by simpa only [hp] using h.customs key codec

theorem Agrees.countHit (h : Agrees r reg) : Agrees r reg.countHit :=
  h.congr rfl rfl rfl rfl rfl rfl h.layouts

theorem Agrees.layoutOf (h : Agrees r reg) (type : TypeName) :
    Agrees r (reg.layoutOf type).2 ∧ ∀ layout, (reg.layoutOf type).1 = .ok (.ok layout) →
      r.host.layout type = some (.ok layout) := by
  unfold Registry.layoutOf
  split
  · rename_i layout hl
    refine ⟨h, ?_⟩
    rintro _ ⟨⟩
    exact h.layouts type layout hl
  · split
    · exact ⟨h, fun _ he => by cases he⟩
    · exact ⟨h, fun _ he => by cases he⟩
    · rename_i layout hl
      rw [h.host] at hl
      refine ⟨h.congr rfl rfl rfl rfl rfl rfl fun t l ht => ?_, ?_⟩
      · rw [Table.get?_insert] at ht
        split at ht
        · cases ht
          subst_vars
          exact hl
        · exact h.layouts t l ht
      · rintro _ ⟨⟩
        exact hl

theorem Agrees.stage (h : Agrees r reg) (hw : reg.WellFormed) (hn : reg.slot? key = none)
    (hc : reg.canonical key = key) : Agrees r (reg.stage key) where
  host := h.host
  settings := h.settings
  factories := h.factories
  layouts := h.layouts
  codecs k slot codec hk hs := by
    rw [holds_stage_iff] at hs
    refine h.codecs k slot codec ?_ hs
    rw [slot?_eq_some_iff (hw.stage hn hc), mem_staged_stage hn] at hk
    rw [slot?_eq_some_iff hw]
    rcases hk with hk | hk | hk
    · exact .inl hk
    · cases hk
      exact absurd hs.lt_size (Nat.lt_irrefl _)
    · exact .inr hk
  customs := h.customs

theorem eq_of_slot? (he : Ended reg key mid) {k : TypeTerm}
    (hk : mid.slot? k = some reg.slots.size) : k = key := by
  have hempty : ∀ codec, ¬ mid.Holds reg.slots.size codec := by
    intro codec hc
    rw [Holds, he.slot_empty] at hc
    cases hc
  rcases (slot?_eq_some_iff he.after).1 hk with hk | hk
  · obtain ⟨codec, hc⟩ := he.after.published_filled _ _ hk
    exact absurd hc (hempty codec)
  · rcases he.staged_cases hk with hk | hk | ⟨codec, hc⟩
    · exact absurd (he.before.staged_lt _ hk) (Nat.lt_irrefl _)
    · exact congrArg Prod.fst hk
    · exact absurd hc (hempty codec)

theorem Agrees.complete (h : Agrees r mid) (he : Ended reg key mid) {codec : Codec}
    (hc : r.codec? key = some codec.bare) : Agrees r (mid.complete reg.slots.size codec) where
  host := by
    rw [he.complete_eq]
    split <;> exact h.host
  settings := by
    rw [he.complete_eq]
    split <;> exact h.settings
  factories := by
    rw [he.complete_eq]
    split <;> exact h.factories
  layouts := by
    rw [he.complete_eq]
    split <;> exact h.layouts
  codecs k slot c hk hs := by
    rw [he.slot?_complete] at hk
    rcases he.holds_complete_cases hs with ⟨rfl, rfl⟩ | hs
    · rw [eq_of_slot? he hk]
      exact hc
    · exact h.codecs k slot c hk hs
  customs k c hk := by
    obtain ⟨slot, hp⟩ := h.customs k c hk
    exact ⟨slot, (he.get?_complete codec).2 (.inl hp)⟩

theorem Agrees.abandon (h : Agrees r mid) (he : Ended reg key mid) :
    Agrees r (mid.abandon key) where
  host := h.host
  settings := h.settings
  factories := h.factories
  layouts := h.layouts
  codecs k slot c hk hs := h.codecs k slot c (he.slot?_abandon hk).1 hs
  customs := h.customs

/-- The lookup keeps the agreement and names what it finds by the canonical term. -/
def Follows (r : Reference) (resolve : Lookup) : Prop :=
  ∀ term reg, reg.WellFormed → Agrees r reg → Agrees r (resolve term reg).2 ∧
    ∀ ref, (resolve term reg).1 = .ok (.ok ref) → ref.term = r.settings.canonical term

def Yields (r : Reference) (resolve : Lookup) {α : Type} (x : Deriving α) (Q : α → Prop) : Prop :=
  ∀ reg, reg.WellFormed → Agrees r reg → Agrees r (x.run.run resolve reg).2 ∧
    ∀ a, (x.run.run resolve reg).1 = .ok (.ok a) → Q a

section Yields

variable {resolve : Lookup} {α β : Type} {x : Deriving α} {Q : α → Prop} {P : β → Prop}

theorem yields_pure {a : α} (h : Q a) : Yields r resolve (pure a) Q := by
  intro reg _ hr
  refine ⟨hr, ?_⟩
  rintro _ ⟨⟩
  exact h

theorem yields_throw (e : RegistryError) : Yields r resolve (throw e : Deriving α) Q :=
  fun _ _ hr => ⟨hr, fun _ he => by cases he⟩

theorem run_bind (x : Deriving α) (f : α → Deriving β) (reg : Registry) :
    (x >>= f).run.run resolve reg =
      match x.run.run resolve reg with
      | (.ok (.ok a), reg) => (f a).run.run resolve reg
      | (.ok (.error e), reg) => (.ok (.error e), reg)
      | (.error why, reg) => (.error why, reg) := by
  change (Query.bind x.run _).run resolve reg = _
  rw [Query.run_bind]
  rcases x.run.run resolve reg with ⟨_ | _ | _, _⟩ <;> rfl

theorem Yields.bind (hk : Keeps resolve) (hx : Yields r resolve x Q) {f : α → Deriving β}
    (hf : ∀ a, Q a → Yields r resolve (f a) P) : Yields r resolve (x >>= f) P := by
  intro reg hw hr
  obtain ⟨hr', hans⟩ := hx reg hw hr
  obtain ⟨hw', -⟩ := hk.run x.run hw
  rw [run_bind]
  rcases hrun : x.run.run resolve reg with ⟨why | e | a, reg'⟩ <;> rw [hrun] at hr' hans hw'
  · exact ⟨hr', fun _ he => by cases he⟩
  · exact ⟨hr', fun _ he => by cases he⟩
  · exact hf a (hans a rfl) reg' hw' hr'

theorem yields_lookup (hl : Follows r resolve) (term : TypeTerm) :
    Yields r resolve (ExceptT.mk (Ask.lookup term))
      fun ref => ref.term = r.settings.canonical term := by
  intro reg hw hr
  obtain ⟨hr', hans⟩ := hl term reg hw hr
  change Agrees r (Query.run resolve (Query.lookup term .answer) reg).2 ∧
    ∀ ref, (Query.run resolve (Query.lookup term .answer) reg).1 = _ → _
  rw [Query.run]
  split <;> rename_i he <;> rw [he] at hr' hans
  · exact ⟨hr', hans⟩
  · exact ⟨hr', fun _ he => by cases he⟩

theorem yields_layout (type : TypeName) :
    Yields r resolve (ExceptT.mk (Ask.layout type))
      fun layout => r.host.layout type = some (.ok layout) := by
  intro reg _ hr
  obtain ⟨hr', hans⟩ := hr.layoutOf type
  change Agrees r (Query.run resolve (Query.layout type .answer) reg).2 ∧
    ∀ layout, (Query.run resolve (Query.layout type .answer) reg).1 = _ → _
  rw [Query.run]
  split <;> rename_i he <;> rw [he] at hr' hans
  · exact ⟨hr', hans⟩
  · exact ⟨hr', fun _ he => by cases he⟩

theorem yields_nested (hl : Follows r resolve) (term : TypeTerm) (scheme : TypeScheme) :
    Yields r resolve (Deriving.nested term scheme)
      fun ref => r.settings.part? term scheme = some ref.term := by
  unfold Deriving.nested Settings.part?
  cases scheme.instantiate term.args with
  | error e => exact yields_throw _
  | ok target =>
    intro reg hw hr
    obtain ⟨hr', hans⟩ := yields_lookup hl target reg hw hr
    exact ⟨hr', fun ref he => congrArg some (hans ref he).symm⟩

theorem yields_fields (hl : Follows r resolve) (hk : Keeps resolve) (term : TypeTerm)
    (ps : List Property) :
    Yields r resolve (Deriving.fields term ps)
      fun fs => fields? r.settings term ps = some (fs.map (FieldCodec.mapRef CodecRef.bare)) := by
  induction ps with
  | nil => exact yields_pure rfl
  | cons p ps ih =>
    refine (yields_nested hl term p.type).bind hk fun ref href => ?_
    refine ih.bind hk fun fs hfs => yields_pure ?_
    rw [fields?, href, hfs]
    rfl

theorem yields_branches (hl : Follows r resolve) (hk : Keeps resolve) (term : TypeTerm)
    (seen : List String) (vs : List Variant) :
    Yields r resolve (Deriving.branches term seen vs)
      fun bs => branches? r.settings term vs = some (bs.map (BranchCodec.mapRef CodecRef.bare)) ∧
        (vs.map Variant.discriminator).Nodup ∧ ∀ v ∈ vs, v.discriminator ∉ seen := by
  induction vs generalizing seen with
  | nil => exact yields_pure ⟨rfl, List.nodup_nil, by simp⟩
  | cons v vs ih =>
    unfold Deriving.branches branches?
    split
    · exact yields_throw _
    · rename_i hseen
      cases v.target.instantiate term.args with
      | error e => exact yields_throw _
      | ok target =>
        refine (yields_lookup hl target).bind hk fun ref href => ?_
        refine (ih _).bind hk fun bs hbs => yields_pure ?_
        obtain ⟨hbs, hnodup, hnew⟩ := hbs
        refine ⟨?_, List.nodup_cons.2 ⟨fun hm => ?_, hnodup⟩, fun w hw => ?_⟩
        · rw [List.map_cons, BranchCodec.mapRef, CodecRef.bare, href, hbs]
          rfl
        · obtain ⟨w, hw, heq⟩ := List.mem_map.1 hm
          exact hnew w hw (heq ▸ List.mem_cons_self)
        · rcases List.mem_cons.1 hw with rfl | hw
          · simpa using hseen
          · exact fun hm => hnew w hw (List.mem_cons_of_mem _ hm)

theorem yields_ofFault (term : TypeTerm) (check : Except LayoutFault α) :
    Yields r resolve (Deriving.ofFault term check) fun a => check = .ok a := by
  cases check with
  | ok a => exact yields_pure rfl
  | error fault => exact yields_throw _

/-- What is derived from a layout is what the reference describes. -/
theorem yields_ofLayout (hl : Follows r resolve) (hk : Keeps resolve) (term : TypeTerm)
    (layout : Layout) :
    Yields r resolve (Deriving.ofLayout r.settings term layout)
      fun codec => describe? r.settings term layout = some codec.bare := by
  cases layout with
  | atomic kind => exact yields_pure rfl
  | record layout =>
    refine (yields_ofFault term layout.check).bind hk fun _ hcheck => ?_
    refine (yields_fields hl hk term layout.properties).bind hk fun fs hfs => yields_pure ?_
    rw [describe?, hcheck, hfs]
    rfl
  | sequence container element =>
    refine (yields_nested hl term element).bind hk fun ref href => yields_pure ?_
    rw [describe?, href]
    rfl
  | map key value =>
    refine (yields_nested hl term key).bind hk fun k hkey => ?_
    refine (yields_nested hl term value).bind hk fun v hvalue => yields_pure ?_
    rw [describe?, hkey, hvalue]
    rfl
  | enumeration layout =>
    refine (yields_ofFault term layout.check).bind hk fun _ hcheck => yields_pure ?_
    rw [describe?, hcheck]
    rfl
  | union layout =>
    rw [Deriving.ofLayout]
    split
    · exact yields_throw _
    · rename_i hne
      refine (yields_branches hl hk term [] layout.variants).bind hk fun bs hbs => yields_pure ?_
      rw [describe?, if_neg, hbs.1]
      · rfl
      · rintro (hnil | hdup)
        · simp [hnil] at hne
        · exact hdup hbs.2.1
  | foreign => exact yields_throw _

theorem yields_ofTerm (hl : Follows r resolve) (hk : Keeps resolve) (hn : r.customs key = none) :
    Yields r resolve (Deriving.ofTerm r.settings key)
      fun codec => r.codec? key = some codec.bare := by
  refine (yields_layout key.head).bind hk fun layout hlayout => ?_
  simp only [codec?, hn, hlayout]
  exact yields_ofLayout hl hk key layout

end Yields

theorem Agrees.recipe (h : Agrees r reg) (key : TypeTerm) :
    reg.recipe key = (Deriving.ofTerm r.settings key).run := by
  rw [Registry.recipe, h.factories, h.settings]
  rfl

theorem Agrees.derive {resolve : Lookup} (h : Agrees r reg) (hl : Follows r resolve)
    (hk : Keeps resolve) (hw : reg.WellFormed) (hn : reg.slot? key = none)
    (hc : reg.canonical key = key) :
    Agrees r (derive resolve key reg).2 ∧
      ∀ codec, (derive resolve key reg).1 = .ok (.ok codec) → r.codec? key = some codec.bare := by
  have hs := h.stage hw hn hc
  have hcustom : r.customs key = none := by
    rw [Option.eq_none_iff_forall_ne_some]
    intro codec hk
    obtain ⟨slot, hp⟩ := h.customs key codec hk
    simp [slot?_eq_none_iff, hp] at hn
  rw [Registry.derive, hs.recipe]
  exact yields_ofTerm hl hk hcustom _ (hw.stage hn hc) hs

theorem follows_resolve (r : Reference) (calls : Nat) : Follows r (resolve calls) := by
  induction calls with
  | zero => exact fun term reg _ hr => ⟨hr, fun _ he => by cases he⟩
  | succ calls ih =>
    intro term reg hw hr
    have hcanonical : reg.canonical term = r.settings.canonical term := by
      rw [Registry.canonical, hr.settings]
    rcases resolve_cases calls term reg with ⟨slot, -, h⟩ | ⟨hn, h⟩
    · rw [h]
      refine ⟨hr.countHit, ?_⟩
      rintro _ ⟨⟩
      exact hcanonical
    · have hc := reg.settings.canonical_canonical term
      have he := (keeps_resolve calls).ended hw hn hc
      obtain ⟨hr', hans⟩ := hr.derive ih (keeps_resolve calls) hw hn hc
      rcases h with ⟨codec, mid, hd, h⟩ | ⟨answer, mid, hd, -, hfail, h⟩ <;>
        rw [hd] at he hr' hans
      · rw [h]
        refine ⟨hr'.complete he (hans codec rfl), ?_⟩
        rintro _ ⟨⟩
        exact hcanonical
      · rw [h]
        exact ⟨hr'.abandon he, fun ref hok => absurd hok (hfail ref)⟩

end Reference

namespace Registry

/-- A run of lookups and registrations, and the codecs that were registered for canonical terms. -/
inductive Plain (host : Host) (settings : Settings) : (TypeTerm → Option Codec) → Registry → Prop
  | initial : Plain host settings (fun _ => none) (initial host settings)
  | lookup {customs : TypeTerm → Option Codec} {reg : Registry} (term : TypeTerm) :
      Plain host settings customs reg → Plain host settings customs (reg.lookup term).2
  | registered {customs : TypeTerm → Option Codec} {reg : Registry} {term : TypeTerm}
      {codec : Codec} : Plain host settings customs reg →
      (∀ ref ∈ codec.refs, reg.Publishes ref) → (reg.override term codec).1 = .ok () →
      Plain host settings (Function.update customs (reg.canonical term) (some codec.bare))
        (reg.override term codec).2
  | refused {customs : TypeTerm → Option Codec} {reg : Registry} {term : TypeTerm}
      {codec : Codec} : Plain host settings customs reg → (reg.override term codec).1 ≠ .ok () →
      Plain host settings customs (reg.override term codec).2

variable {host : Host} {settings : Settings} {customs : TypeTerm → Option Codec}
  {reg : Registry} {ref : CodecRef}

theorem override_of_ne {term : TypeTerm} {codec : Codec}
    (h : (reg.override term codec).1 ≠ .ok ()) : (reg.override term codec).2 = reg := by
  rcases override_cases reg term codec with ⟨-, he⟩ | ⟨-, he⟩
  · rw [he]
  · rw [he] at h
    exact absurd rfl h

theorem Plain.sound (h : Plain host settings customs reg) : reg.Sound := by
  induction h with
  | initial => exact sound_initial host settings
  | lookup term _ ih => exact ih.lookup term
  | registered _ hc _ ih => exact ih.override _ hc
  | refused _ hn ih =>
    rw [override_of_ne hn]
    exact ih

theorem agrees_override {term : TypeTerm} {codec : Codec}
    (h : Reference.Agrees ⟨host, settings, customs⟩ reg) (hw : reg.WellFormed)
    (ho : (reg.override term codec).1 = .ok ()) :
    Reference.Agrees ⟨host, settings,
      Function.update customs (reg.canonical term) (some codec.bare)⟩
      (reg.override term codec).2 := by
  obtain ⟨hp, hs⟩ := override_published ho
  have hx := extends_override reg term codec
  rcases override_cases reg term codec with ⟨-, he⟩ | ⟨hn, he⟩
  · rw [he] at ho
    cases ho
  rw [he] at hp hs hx ⊢
  refine ⟨h.host, h.settings, h.factories, h.layouts, ?_, ?_⟩
  · intro k slot c hk hc
    by_cases heq : k = reg.canonical term
    · subst heq
      rw [slot?, hp, Option.some_or] at hk
      cases hk
      simp only [hc.unique hs, Reference.codec?, Function.update_self]
    · simp only [slot?, Table.get?_insert, if_neg heq] at hk
      have hlt : slot < reg.slots.size := slot?_lt_size hw hk
      rcases getElem?_push_iff.1 hc with hc | ⟨rfl, -⟩
      · have hr := h.codecs k slot c hk hc
        simpa only [Reference.codec?, Function.update_of_ne heq] using hr
      · exact absurd hlt (Nat.lt_irrefl _)
  · intro k c hk
    by_cases heq : k = reg.canonical term
    · subst heq
      exact ⟨_, hp⟩
    · simp only [Function.update_of_ne heq] at hk
      obtain ⟨slot, hk⟩ := h.customs k c hk
      exact ⟨slot, hx.published k slot hk⟩

theorem Plain.agrees (h : Plain host settings customs reg) :
    Reference.Agrees ⟨host, settings, customs⟩ reg := by
  induction h with
  | initial =>
    refine ⟨rfl, rfl, rfl, ?_, ?_, ?_⟩
    · exact fun _ _ h => by cases h
    · exact fun _ _ _ h => by cases h
    · exact fun _ _ h => by cases h
  | lookup term hp ih =>
    rw [lookup_eq]
    exact (Reference.follows_resolve _ callLimit term _ hp.sound.toWellFormed ih).1
  | registered hp _ ho ih => exact agrees_override ih hp.sound.toWellFormed ho
  | refused _ hn ih =>
    rw [override_of_ne hn]
    exact ih

theorem Plain.found (h : Plain host settings customs reg) {term : TypeTerm} {base : Registry}
    (hl : reg.lookup term = (.ok (.ok ref), base)) :
    Plain host settings customs base ∧ ref.term = settings.canonical term ∧
      base.Publishes ref := by
  obtain ⟨ht, hp⟩ := h.sound.publishes_lookup (congrArg Prod.fst hl)
  have hafter := h.lookup term
  rw [hl] at hp hafter
  rw [canonical, h.agrees.settings] at ht
  exact ⟨hafter, ht, hp⟩

theorem Plain.described (h : Plain host settings customs reg) (hp : reg.Publishes ref)
    (hc : customs ref.term = none) :
    ∃ codec layout, reg.store.codec? ref = some codec ∧
      host.layout ref.term.head = some (.ok layout) ∧
      Reference.describe? settings ref.term layout = some codec.bare ∧
      ∀ nested ∈ codec.refs, reg.Publishes nested := by
  obtain ⟨codec, hs, hr, hrefs⟩ := h.agrees.exists_codec h.sound.closed hp
  obtain ⟨layout, hl, hd⟩ := Reference.exists_layout hr hc
  exact ⟨codec, layout, hs, hl, hd, hrefs⟩

/-- Coding by a published reference gives what the reference interpreter gives, with any bound on
calls. So two registries agree if they have the same host, settings and registered codecs, whatever
was looked up in them before. -/
theorem coding_eq_reference (h : Plain host settings customs reg) (hp : reg.Publishes ref) :
    (∀ calls v, reg.store.encodeWithin calls ref v =
      Reference.encodeWithin ⟨host, settings, customs⟩ calls ref.term v) ∧
    (∀ v, reg.store.encode ref v = Reference.encode ⟨host, settings, customs⟩ ref.term v) ∧
    (∀ j, reg.store.decode ref j = Reference.decode ⟨host, settings, customs⟩ ref.term j) ∧
    ∀ reg' ref', Plain host settings customs reg' → reg'.Publishes ref' → ref'.term = ref.term →
      (∀ v, reg'.store.encode ref' v = reg.store.encode ref v) ∧
      ∀ j, reg'.store.decode ref' j = reg.store.decode ref j := by
  have hr := h.agrees
  have hc := h.sound.closed
  refine ⟨hr.encodeWithin hc hp, hr.encodeWithin hc hp _, fun j => hr.decodeWithin hc hp _ j, ?_⟩
  intro reg' ref' h' hp' ht
  have hr' := h'.agrees
  have hc' := h'.sound.closed
  refine ⟨fun v => ?_, fun j => ?_⟩
  · calc reg'.store.encode ref' v
        = Reference.encodeWithin ⟨host, settings, customs⟩ callLimit ref'.term v :=
          hr'.encodeWithin hc' hp' callLimit v
      _ = reg.store.encode ref v := by rw [ht, ← hr.encodeWithin hc hp]; rfl
  · calc reg'.store.decode ref' j
        = Reference.decodeWithin ⟨host, settings, customs⟩ (j.depth + 1) ref'.term j :=
          hr'.decodeWithin hc' hp' (j.depth + 1) j
      _ = reg.store.decode ref j := by rw [ht, ← hr.decodeWithin hc hp]; rfl

theorem coding_eq_reference_chain :
    ∃ customs reg, Plain .chain {} customs reg ∧ reg.Publishes ⟨⟨"Chain", []⟩, 2⟩ ∧
      reg.store.decode ⟨⟨"Chain", []⟩, 2⟩ (.obj [("next", .obj [])]) =
        Reference.decode ⟨.chain, {}, customs⟩ ⟨"Chain", []⟩ (.obj [("next", .obj [])]) := by
  have h : Plain .chain {} _ ((initial .chain {}).lookup ⟨"Absent", []⟩).2 := .lookup _ .initial
  have h : Plain .chain {} _
      ((((initial .chain {}).lookup ⟨"Absent", []⟩).2.override ⟨"Absent", []⟩
        (.atomic .bool)).2.lookup ⟨"Chain", []⟩).2 :=
    .lookup _ (h.registered (by simp [Codec.refs]) (by rfl))
  exact ⟨_, _, h, by rfl, (coding_eq_reference h (by rfl)).2.2.1 _⟩

end Registry

end Typewire
