import Typewire.Proofs.Schema.Document

/-! # What fragments show

A pass that succeeds gives a fragment that shows, codec by codec, what the term is written as:
records and unions by references to entries, all others in place. Whether the pass comes to an end
is no matter here.
-/

namespace Typewire

open Registry Collecting

namespace Codec

structure PropertyShape (nested : TypeTerm → Schema → Prop) (f : FieldCodec)
    (p : String × Schema) : Prop where
  name : p.1 = f.property.name
  schema : ∃ s, nested f.codec.term s ∧
    p.2 = { s with
      readOnly := f.property.serializable && !f.property.deserializable
      writeOnly := f.property.deserializable && !f.property.serializable }

structure VariantShape (nested : TypeTerm → Schema → Prop) (b : BranchCodec)
    (p : String × Schema) : Prop where
  name : p.1 = b.discriminator
  schema : nested b.codec.term p.2

/-- The schema of what a codec writes, given the schemas of the nested terms. -/
inductive Shape (nested : TypeTerm → Schema → Prop) : Codec → Schema → Prop
  | atomic (kind : AtomicKind) : Shape nested (.atomic kind) (Collecting.atomic kind)
  | record {owner : TypeTerm} {constructor : Constructor} {fields : List FieldCodec}
      {strict : Bool} {ps : List (String × Schema)} :
      List.Forall₂ (PropertyShape nested) fields ps →
      Shape nested (.record owner constructor fields strict)
        (.object (Members.ofList ps) (mandatoryNames fields))
  | sequence {container : Container} {element : CodecRef} {items : Schema} :
      nested element.term items → Shape nested (.sequence container element) (.array items)
  | map {owner : TypeTerm} {key value : CodecRef} {values : Schema} :
      nested value.term values → Shape nested (.map owner key value) (.map values)
  | enumeration (type : TypeName) (members : List (String × String)) :
      Shape nested (.enumeration type members) (.enumeration (members.map Prod.snd))
  | union {owner : TypeTerm} {branches : List BranchCodec} {ps : List (String × Schema)} :
      List.Forall₂ (VariantShape nested) branches ps →
      Shape nested (.union owner branches) (.object (Members.ofList ps) [])
  | formatted (format : String) (accepts : String → Bool) :
      Shape nested (.formatted format accepts) (.formatted .string format)

variable {nested nested' : TypeTerm → Schema → Prop} {codec : Codec} {schema : Schema}

theorem Shape.mono (h : codec.Shape nested schema) (hn : ∀ term s, nested term s → nested' term s) :
    codec.Shape nested' schema := by
  cases h with
  | atomic kind => exact .atomic kind
  | record hps =>
    refine .record (hps.imp fun f p hp => ⟨hp.name, ?_⟩)
    obtain ⟨s, hs, he⟩ := hp.schema
    exact ⟨s, hn _ _ hs, he⟩
  | sequence hitems => exact .sequence (hn _ _ hitems)
  | map hvalues => exact .map (hn _ _ hvalues)
  | enumeration type members => exact .enumeration type members
  | union hps => exact .union (hps.imp fun b p hp => ⟨hp.name, hn _ _ hp.schema⟩)
  | formatted format accepts => exact .formatted format accepts

theorem mandatoryNames_bare (fields : List FieldCodec) :
    mandatoryNames (fields.map (FieldCodec.mapRef CodecRef.bare)) = mandatoryNames fields := by
  rw [mandatoryNames, List.filter_map, List.map_map]
  rfl

theorem Shape.bare (h : codec.Shape nested schema) : codec.bare.Shape nested schema := by
  cases h with
  | atomic kind => exact .atomic kind
  | @record owner constructor fields strict ps hps =>
    rw [Codec.bare, mapRefs, ← mandatoryNames_bare fields]
    exact .record (List.forall₂_map_left_iff.2 (hps.imp fun f p hp => ⟨hp.name, hp.schema⟩))
  | sequence hitems => exact .sequence hitems
  | map hvalues => exact .map hvalues
  | enumeration type members => exact .enumeration type members
  | union hps =>
    exact .union (List.forall₂_map_left_iff.2 (hps.imp fun b p hp => ⟨hp.name, hp.schema⟩))
  | formatted format accepts => exact .formatted format accepts

theorem Shape.isReference (h : codec.Shape nested schema) : schema.isReference = false := by
  cases h with
  | atomic kind => cases kind <;> rfl
  | _ => rfl

/-- What the checks on layouts say of the codecs that are made from them. -/
def Checked (settings : Settings) : Codec → Prop
  | record _ _ fields _ => (fields.map fun f => f.property.name).Nodup ∧
    ∀ f ∈ fields, f.property.serializable = true ∨ f.property.deserializable = true
  | union _ branches => (branches.map BranchCodec.discriminator).Nodup ∧
    ∀ b ∈ branches, settings.canonical b.target = b.codec.term
  | custom _ => False
  | _ => True

end Codec

namespace Reference

variable (r : Reference)

/-- The fragment shows the canonical term, with at most `n` codecs written out inside one
another. -/
def Outlines (d : Dictionary) : Nat → TypeTerm → Schema → Prop
  | 0, _, _ => False
  | n + 1, key, schema => r.settings.canonical key = key ∧ ∃ codec, r.codec? key = some codec ∧
    ((codec.isNamed = true ∧ ∃ name, Table.get? key d.names = some name ∧
        schema = d.reference name) ∨
      (codec.isNamed = false ∧ codec.Shape (Outlines d n) schema))

structure Drafted (d : Dictionary) : Prop extends d.Sound where
  filled : ∀ key name schema, Table.get? key d.names = some name →
    Members.get? name d.entries = some (some schema) → ∃ codec n, r.codec? key = some codec ∧
      codec.Shape (r.Outlines d n) schema

/-- What a pass has done that succeeded. -/
structure Drafts (d d' : Dictionary) : Prop where
  extended : d.Extends d'
  drafted : r.Drafted d'

variable {r} {d d' d'' : Dictionary} {key : TypeTerm} {schema : Schema} {n : Nat} {name : String}

theorem Outlines.mono (hd : d.Retains d') (h : r.Outlines d n key schema) :
    r.Outlines d' n key schema := by
  induction n generalizing key schema with
  | zero => exact h
  | succ n ih =>
    obtain ⟨hk, codec, hc, ⟨hn, name, hname, rfl⟩ | ⟨hn, hs⟩⟩ := h
    · refine ⟨hk, codec, hc, .inl ⟨hn, name, hd.names key name hname, ?_⟩⟩
      rw [Dictionary.reference, Dictionary.reference, hd.refPrefix]
    · exact ⟨hk, codec, hc, .inr ⟨hn, hs.mono fun _ _ => ih⟩⟩

theorem Drafts.trans (h : r.Drafts d d') (h' : r.Drafts d' d'') : r.Drafts d d'' :=
  ⟨h.extended.trans h'.extended, h'.drafted⟩

theorem drafted_empty (refPrefix : String) : r.Drafted { refPrefix } :=
  ⟨Dictionary.sound_empty refPrefix, fun _ _ _ h => by cases h⟩

theorem Drafted.reserve (h : r.Drafted d) (hkey : Table.get? key d.names = none)
    (hname : name ∉ Members.names d.entries) : r.Drafted (d.reserve key name) := by
  refine ⟨h.toSound.reserve hkey hname, fun k n schema hk hs => ?_⟩
  rw [Dictionary.reserve, Members.get?_insert] at hs
  split at hs
  · cases hs
  · rw [Dictionary.get?_names_reserve] at hk
    split at hk
    · cases hk
      exact absurd rfl ‹_›
    · obtain ⟨codec, m, hc, hshape⟩ := h.filled k n schema hk hs
      exact ⟨codec, m, hc, hshape.mono fun _ _ ho => ho.mono (Dictionary.retains_reserve hkey)⟩

theorem Drafted.fill (h : r.Drafted d) (hkey : Table.get? key d.names = some name) {codec : Codec}
    (hc : r.codec? key = some codec) (hs : codec.Shape (r.Outlines d n) schema) :
    r.Drafted (d.fill name schema) := by
  have hretains : d.Retains (d.fill name schema) := ⟨rfl, fun _ _ hk => hk⟩
  refine ⟨h.toSound.fill hkey schema, fun k m t hk ht => ?_⟩
  rw [Dictionary.fill, Members.get?_insert] at ht
  split at ht
  · cases ht
    subst_vars
    obtain rfl := h.injective k key _ hk hkey
    exact ⟨codec, n, hc, hs.mono fun _ _ ho => ho.mono hretains⟩
  · obtain ⟨codec', m', hc', hs'⟩ := h.filled k m t hk ht
    exact ⟨codec', m', hc', hs'.mono fun _ _ ho => ho.mono hretains⟩

theorem branches?_canonical {s : Settings} {vs : List Variant} {bs : List BranchCodec}
    (h : branches? s key vs = some bs) : ∀ b ∈ bs, s.canonical b.target = b.codec.term := by
  induction vs generalizing bs with
  | nil =>
    cases h
    exact fun b hb => by cases hb
  | cons v vs ih =>
    obtain ⟨target, -, h⟩ := Option.bind_eq_some_iff.1 h
    obtain ⟨rest, hrest, h⟩ := Option.bind_eq_some_iff.1 h
    cases h
    exact List.forall_mem_cons.2 ⟨rfl, ih hrest⟩

theorem checked_describe? {s : Settings} {layout : Layout} {codec : Codec}
    (h : describe? s key layout = some codec) : codec.Checked s := by
  cases layout with
  | record layout =>
    obtain ⟨⟨⟩, hcheck, -⟩ := Option.bind_eq_some_iff.1 h
    have hvalid := RecordLayout.check_iff.1 (Except.eq_ok_of_toOption hcheck)
    obtain ⟨hnodup, fs, rfl, hps, -⟩ := describe?_record h
    rw [← hps, List.map_map] at hnodup
    exact ⟨hnodup, fun f hf => (hvalid.able _ (hps ▸ List.mem_map_of_mem hf)).2⟩
  | union layout =>
    have hcanonical : ∀ owner bs, codec = .union owner bs →
        ∀ b ∈ bs, s.canonical b.target = b.codec.term := by
      rintro owner bs rfl
      rw [describe?] at h
      split at h
      · cases h
      · obtain ⟨bs', hbs, h⟩ := Option.bind_eq_some_iff.1 h
        cases h
        exact branches?_canonical hbs
    obtain ⟨hnodup, bs, rfl, hbs⟩ := describe?_union h
    exact ⟨map_discriminator hbs ▸ hnodup, hcanonical _ _ rfl⟩
  | _ =>
    have hkind := kind_of_describe? h
    cases codec with
    | record | union => cases hkind
    | custom => exact absurd rfl (kind_ne_custom_of_describe? h)
    | _ => trivial

def Formatted (r : Reference) : Prop :=
  ∀ key codec, r.customs key = some codec → ∃ format accepts, codec = .formatted format accepts

theorem Formatted.checked (hr : r.Formatted) {codec : Codec} (h : r.codec? key = some codec) :
    codec.Checked r.settings := by
  rw [codec?] at h
  split at h
  · rename_i custom hc
    obtain ⟨format, accepts, rfl⟩ := hr key custom hc
    cases h
    trivial
  · split at h
    · exact checked_describe? h
    · cases h

/-- All that published codecs need is published, and registered codecs are formats. -/
structure Ground (r : Reference) (reg : Registry) : Prop where
  agrees : r.Agrees reg
  closed : reg.Closed
  formatted : r.Formatted

variable {reg : Registry} {ref : CodecRef} {nested : TypeTerm → Collecting Schema}

theorem course_drafts : Course r.Drafted r.Drafts where
  refl := fun {d} hd => ⟨.refl d, hd⟩
  trans := Drafts.trans
  kept := Drafts.drafted

namespace Ground

variable (h : r.Ground reg)

include h

theorem canonical (hp : reg.Publishes ref) : r.settings.canonical ref.term = ref.term :=
  h.agrees.canonical h.closed hp

theorem codec? (hp : reg.Publishes ref) : ∃ codec, reg.store.codec? ref = some codec ∧
    r.codec? ref.term = some codec.bare ∧ ∀ nested ∈ codec.refs, reg.Publishes nested :=
  h.agrees.exists_codec h.closed hp

theorem allows_body {codec : Codec} (hc : r.codec? key = some codec.bare)
    (hrefs : ∀ ref ∈ codec.refs, reg.Publishes ref)
    (hnested : ∀ term ref d, reg.Publishes ref → r.settings.canonical term = ref.term →
      r.Drafted d → Allows reg (nested term) d fun s d' =>
        r.Drafts d d' ∧ r.Outlines d' n ref.term s)
    (hd : r.Drafted d) (store : Store) :
    Allows reg (body nested store codec) d fun schema d' =>
      r.Drafts d d' ∧ codec.Shape (r.Outlines d' n) schema := by
  have hchecked := h.formatted.checked hc
  have hpart : ∀ ref ∈ codec.refs, ∀ d, r.Drafted d → Allows reg (nested ref.term) d fun s d' =>
      r.Drafts d d' ∧ r.Outlines d' n ref.term s :=
    fun ref href d hd => hnested _ ref d (hrefs ref href) (h.canonical (hrefs ref href)) hd
  cases codec with
  | atomic kind => exact allows_pure ⟨⟨.refl d, hd⟩, .atomic kind⟩
  | enumeration type members => exact allows_pure ⟨⟨.refl d, hd⟩, .enumeration type members⟩
  | formatted format accepts => exact allows_pure ⟨⟨.refl d, hd⟩, .formatted format accepts⟩
  | custom codec => exact absurd hchecked id
  | sequence container element =>
    refine (hpart element (List.mem_singleton_self _) d hd).bind fun items d' hitems => ?_
    exact allows_pure ⟨hitems.1, .sequence hitems.2⟩
  | map owner k value =>
    rw [body]
    split
    · refine (hpart value (List.mem_cons_of_mem _ List.mem_cons_self) d hd).bind
        fun values d' hvalues => ?_
      exact allows_pure ⟨hvalues.1, .map hvalues.2⟩
    · exact allows_throw _
  | record owner constructor fields strict =>
    rw [body, properties_eq_mapM]
    refine (course_drafts.allows_mapM (R := fun d => Codec.PropertyShape (r.Outlines d n)) ?_
      (fun f hf d hd => ?_) hd).bind fun ps d' hfields => ?_
    · rintro d d' f p hd ⟨hname, s, hs, he⟩
      exact ⟨hname, s, hs.mono hd.extended.toRetains, he⟩
    · refine (hpart f.codec (List.mem_map_of_mem hf) d hd).bind fun s d' hfield => ?_
      exact allows_pure ⟨hfield.1, rfl, s, hfield.2, rfl⟩
    · exact allows_pure ⟨hfields.1, .record hfields.2⟩
  | union owner bs =>
    rw [body, branches_eq_mapM]
    refine (course_drafts.allows_mapM (R := fun d => Codec.VariantShape (r.Outlines d n)) ?_
      (fun b hb d hd => ?_) hd).bind fun ps d' hbranches => ?_
    · rintro d d' b p hd ⟨hname, hs⟩
      exact ⟨hname, hs.mono hd.extended.toRetains⟩
    -- A variant is looked up by its target, which need not be canonical.
    · have hcanonical := hchecked.2 (b.mapRef CodecRef.bare) (List.mem_map_of_mem hb)
      refine (hnested b.target b.codec d (hrefs _ (List.mem_map_of_mem hb)) hcanonical hd).bind
        fun s d' hbranch => ?_
      exact allows_pure ⟨hbranch.1, rfl, hbranch.2⟩
    · exact allows_pure ⟨hbranches.1, .union hbranches.2⟩

/-- In place, or by a reference to an entry that was there or is made. -/
theorem allows_fragment (displayName : TypeName → String) (hp : reg.Publishes ref)
    (hnested : ∀ term ref d, reg.Publishes ref → r.settings.canonical term = ref.term →
      r.Drafted d → Allows reg (nested term) d fun s d' =>
        r.Drafts d d' ∧ r.Outlines d' n ref.term s)
    (hd : r.Drafted d) :
    Allows reg (fragment nested displayName ref) d fun schema d' =>
      r.Drafts d d' ∧ r.Outlines d' (n + 1) ref.term schema := by
  obtain ⟨codec, hs, hc, hrefs⟩ := h.codec? hp
  have hbody : ∀ d, r.Drafted d → Allows reg (body nested reg.store codec) d fun schema d' =>
      r.Drafts d d' ∧ codec.Shape (r.Outlines d' n) schema :=
    fun d hd => h.allows_body hc hrefs hnested hd reg.store
  have hbare : codec.bare.isNamed = codec.isNamed := by cases codec <;> rfl
  rw [fragment]
  refine (returns_store reg d).bind_allows ?_
  rw [hs]
  cases hn : codec.isNamed with
  | false =>
    simp only [hn, Bool.not_false, if_true]
    refine (hbody d hd).mono fun schema d' hshape => ⟨hshape.1, ?_⟩
    exact ⟨h.canonical hp, codec.bare, hc, .inr ⟨hbare.trans hn, hshape.2.bare⟩⟩
  | true =>
    simp only [hn, Bool.not_true, Bool.false_eq_true, if_false]
    refine (returns_get reg d).bind_allows ?_
    cases hname : Table.get? ref.term d.names with
    | some name =>
      exact allows_pure ⟨⟨.refl d, hd⟩, h.canonical hp, codec.bare, hc,
        .inl ⟨hbare.trans hn, name, hname, rfl⟩⟩
    | none =>
      have hfresh := hd.freshName_not_mem (Dictionary.baseName displayName ref.term)
      refine (returns_set reg d _).bind_allows ?_
      refine (hbody _ (hd.reserve hname hfresh)).bind fun schema d' hmade => ?_
      obtain ⟨hdrafts, hshape⟩ := hmade
      refine (returns_modify reg d' _).bind_allows (allows_pure ?_)
      -- What was reserved is still there, now to be filled.
      have hnames := hdrafts.extended.names ref.term _
        ((Dictionary.get?_names_reserve _ _ _ _).trans (if_pos rfl))
      refine ⟨⟨hdrafts.extended.fill hname schema, hdrafts.drafted.fill hnames hc hshape.bare⟩,
        h.canonical hp, codec.bare, hc, .inl ⟨hbare.trans hn, _, hnames, ?_⟩⟩
      exact congrArg (fun p => Schema.reference (p ++ _)) hdrafts.extended.refPrefix.symm

theorem allows_schemaWithin (displayName : TypeName → String) {term : TypeTerm}
    (hp : reg.Publishes ref) (hterm : r.settings.canonical term = ref.term) (hd : r.Drafted d) :
    Allows reg (Dictionary.schemaWithin displayName n term) d fun schema d' =>
      r.Drafts d d' ∧ r.Outlines d' n ref.term schema := by
  induction n generalizing term ref d with
  | zero =>
    intro limit stats a d' reg' hrun
    cases hrun
  | succ n ih =>
    have hcanonical : reg.canonical term = ref.term := by
      rw [Registry.canonical, h.agrees.settings, hterm]
    rw [Dictionary.schemaWithin]
    have hslot : reg.slot? (reg.canonical term) = some ref.slot := by
      rw [hcanonical, slot?, hp, Option.some_or]
    have hlookup := returns_lookup d hslot
    rw [hcanonical] at hlookup
    exact hlookup.bind_allows (h.allows_fragment displayName hp
      (fun term ref d hp hterm hd => ih hp hterm hd) hd)

end Ground

structure Settled (r : Reference) (d : Dictionary) : Prop extends r.Drafted d where
  made : ∀ name, Members.get? name d.entries ≠ some none

theorem Settled.entry (h : r.Settled d) (hk : Table.get? key d.names = some name) :
    ∃ schema, Members.get? name d.entries = some (some schema) :=
  h.exists_entry (h.made name) hk

/-- A pass over a new dictionary that succeeds has found a codec and gives a fragment that shows the
term, and nothing is left to be made. -/
theorem outlines_schemaFor (h : Plain r.host r.settings r.customs reg) (hr : r.Formatted)
    {displayName : TypeName → String} {refPrefix : String} {term : TypeTerm} {fragment : Schema}
    (hrun : (reg.ask (Dictionary.schemaFor displayName { refPrefix } term)).1 =
      .ok (.ok fragment, d)) :
    ∃ ref, (reg.lookup term).1 = .ok (.ok ref) ∧ (reg.lookup term).2.Publishes ref ∧
      (∃ entries, d.complete? = .ok entries) ∧ r.Settled d ∧
        ∃ n, r.Outlines d n ref.term fragment := by
  obtain ⟨calls, hcalls⟩ := callLimit_eq
  rw [Dictionary.schemaFor, hcalls] at hrun
  obtain ⟨ref, hfound⟩ : ∃ ref, (reg.lookup term).1 = .ok (.ok ref) := by
    rw [Dictionary.schemaWithin, Collecting.run_bind, Registry.ask, Query.run_bind] at hrun
    have hlookup := Collecting.ask_lookup reg term { refPrefix }
    rw [Registry.ask] at hlookup
    rw [hlookup] at hrun
    rcases hfound : (reg.lookup term).1 with why | e | ref <;> rw [hfound] at hrun
    · cases hrun
    · cases hrun
    · exact ⟨ref, rfl⟩
  obtain ⟨hafter, -, hp⟩ := h.found (Prod.ext hfound rfl)
  have hground : r.Ground (reg.lookup term).2 := ⟨hafter.agrees, hafter.sound.closed, hr⟩
  rw [Dictionary.ask_schemaWithin (Prod.ext hfound rfl), Registry.ask, hcalls] at hrun
  have hallows := hground.allows_fragment displayName hp
    (fun _ _ _ => hground.allows_schemaWithin (n := calls) displayName) (drafted_empty refPrefix)
  obtain ⟨⟨hdrafts, houtlines⟩, -⟩ :=
    hallows calls (reg.lookup term).2.stats fragment d _ (Prod.ext hrun rfl)
  have hmade : ∀ name, Members.get? name d.entries ≠ some none := by
    intro name hn
    cases hdrafts.extended.reserved name hn
  obtain ⟨entries, hentries, -⟩ := Dictionary.exists_complete? hdrafts.drafted.toSound hmade
  exact ⟨ref, hfound, hp, ⟨entries, hentries⟩, ⟨hdrafts.drafted, hmade⟩, _, houtlines⟩

end Reference

end Typewire
