import Typewire.Proofs.Registry.Strictness
import Typewire.Proofs.Schema.Outline

/-! # Schemas and unknown members

A pass gives the same fragment and the same dictionary over two registries with the same codecs, of
which one refuses unknown members.
-/

namespace Typewire

open Relation Registry

namespace Codec

def plain (codec : Codec) : Codec := codec.bare.withStrict false

theorem shown_plain (codec : Codec) : codec.plain.shown = codec.shown := by
  cases codec <;> simp [plain, bare, mapRefs, withStrict, shown, FieldCodec.mapRef,
    BranchCodec.mapRef, CodecRef.bare]

theorem isNamed_plain (codec : Codec) : codec.plain.isNamed = codec.isNamed := by
  cases codec <;> rfl

end Codec

namespace Collecting

variable {α β : Type} {base base' : Registry} {x x' : Collecting α}

/-- The steps end with the same outcome and the same dictionary, or halt for the same reason, and
leave their registries as they are but for counters. -/
def Alike (base base' : Registry) (x x' : Collecting α) : Prop :=
  ∀ d stats stats', ∃ outcome next next',
    ({ base with stats } : Registry).ask (x.run.run d) = (outcome, { base with stats := next }) ∧
    ({ base' with stats := stats' } : Registry).ask (x'.run.run d) =
      (outcome, { base' with stats := next' })

theorem alike_pure (a : α) : Alike base base' (pure a) (pure a) :=
  fun _ stats stats' => ⟨_, stats, stats', rfl, rfl⟩

theorem alike_throw (e : SchemaError) : Alike base base' (throw e : Collecting α) (throw e) :=
  fun _ stats stats' => ⟨_, stats, stats', rfl, rfl⟩

theorem alike_halt (why : Halt) :
    Alike base base' (ask (Query.halt why) : Collecting α) (ask (Query.halt why)) :=
  fun _ stats stats' => ⟨_, stats, stats', rfl, rfl⟩

theorem Alike.bind (hx : Alike base base' x x') {f f' : α → Collecting β}
    (hf : ∀ a, Alike base base' (f a) (f' a)) : Alike base base' (x >>= f) (x' >>= f') := by
  intro d stats stats'
  obtain ⟨outcome, next, next', hrun, hrun'⟩ := hx d stats stats'
  rw [Registry.ask] at hrun hrun'
  rw [run_bind, run_bind, Registry.ask, Registry.ask, Query.run_bind, Query.run_bind, hrun, hrun']
  rcases outcome with why | ⟨e | a, d'⟩
  · exact ⟨_, next, next', rfl, rfl⟩
  · exact ⟨_, next, next', rfl, rfl⟩
  · exact hf a d' next next'

theorem sequential_alike : Sequential fun x => Alike base base' x x :=
  ⟨alike_pure, alike_throw, fun hx hf => hx.bind hf⟩

section Steps

variable {f f' : Store → Collecting β} {g g' : Dictionary → Collecting β}
  {k k' : PUnit → Collecting β}

theorem Alike.store (h : Alike base base' (f base.store) (f' base'.store)) :
    Alike base base' (ask Ask.store >>= f) (ask Ask.store >>= f') := h

theorem Alike.get (h : ∀ d, Alike base base' (g d) (g' d)) :
    Alike base base' (getThe Dictionary >>= g) (getThe Dictionary >>= g') := fun d => h d d

theorem Alike.set (d : Dictionary) (h : Alike base base' (k ⟨⟩) (k' ⟨⟩)) :
    Alike base base' (set d >>= k) (set d >>= k') := fun _ => h d

theorem Alike.modify (change : Dictionary → Dictionary) (h : Alike base base' (k ⟨⟩) (k' ⟨⟩)) :
    Alike base base' (modifyThe Dictionary change >>= k) (modifyThe Dictionary change >>= k') :=
  fun d => h (change d)

end Steps

section Bodies

variable {nested : TypeTerm → Collecting Schema} {store store' : Store} {codec codec' : Codec}

theorem properties_bare (fields : List FieldCodec) :
    properties nested (fields.map (FieldCodec.mapRef CodecRef.bare)) =
      properties nested fields := by
  induction fields with
  | nil => rfl
  | cons f fields ih =>
    rw [List.map_cons, properties, properties, ih]
    rfl

theorem branches_bare (bs : List BranchCodec) :
    branches nested (bs.map (BranchCodec.mapRef CodecRef.bare)) = branches nested bs := by
  induction bs with
  | nil => rfl
  | cons b bs ih =>
    rw [List.map_cons, branches, branches, ih]
    rfl

theorem body_congr (h : codec.plain = codec'.plain)
    (hs : ∀ owner key value owner' key' value', codec = .map owner key value →
      codec' = .map owner' key' value' → store.isStringBacked key = store'.isStringBacked key') :
    body nested store codec = body nested store' codec' := by
  cases codec with
  | record owner constructor fields strict =>
    cases codec' with
    | record owner' constructor' fields' strict' =>
      injection h with _ _ hfields
      rw [body, body, ← properties_bare fields, ← properties_bare fields',
        ← Codec.mandatoryNames_bare fields, ← Codec.mandatoryNames_bare fields', hfields]
    | _ => cases h
  | union owner bs =>
    cases codec' with
    | union owner' bs' =>
      injection h with _ hbs
      rw [body, body, ← branches_bare bs, ← branches_bare bs', hbs]
    | _ => cases h
  | sequence container element =>
    cases codec' with
    | sequence container' element' =>
      injection h with _ helement
      have hterm : element.bare.term = element'.bare.term := congrArg CodecRef.term helement
      rw [body, body, show element.term = element'.term from hterm]
    | _ => cases h
  | map owner key value =>
    cases codec' with
    | map owner' key' value' =>
      injection h with howner hkey hvalue
      have hterm : key.bare.term = key'.bare.term := congrArg CodecRef.term hkey
      have hterm' : value.bare.term = value'.bare.term := congrArg CodecRef.term hvalue
      rw [body, body, hs _ _ _ _ _ _ rfl rfl, howner, show key.term = key'.term from hterm,
        show value.term = value'.term from hterm']
    | _ => cases h
  | atomic | enumeration | formatted | custom =>
    cases codec' with
    | atomic | enumeration | formatted | custom =>
      cases h
      try rfl
    | _ => cases h

end Bodies

end Collecting

namespace Reference

/-- A closed registry that agrees with the reference, with or without the check on unknown members.
Registered unions look their variants up by the terms of their codecs. -/
structure Mirrors (r : Reference) (strict : Bool) (reg : Registry) : Prop where
  agrees : (r.withStrict strict).Agrees reg
  closed : reg.Closed
  targets : ∀ key owner bs, r.customs key = some (.union owner bs) →
    ∀ b ∈ bs, r.settings.canonical b.target = b.codec.term

variable {r : Reference} {strict strict' : Bool} {reg base base' : Registry} {ref ref' : CodecRef}
  {codec c : Codec} {key term : TypeTerm}

theorem withStrict_fit : (r.fit strict key codec).withStrict false = codec.withStrict false := by
  rw [fit]
  split
  · cases codec <;> rfl
  · rfl

namespace Mirrors

theorem canonical (h : r.Mirrors strict reg) (hp : reg.Publishes ref) :
    r.settings.canonical ref.term = ref.term :=
  h.agrees.canonical h.closed hp

theorem lookup (h : r.Mirrors strict reg) (hp : reg.Publishes ref)
    (ht : ref.term = r.settings.canonical term) (stats : Stats) :
    ({ reg with stats } : Registry).lookup term =
      (.ok (.ok ref), { reg with stats := { stats with hits := stats.hits + 1 } }) := by
  obtain ⟨key, slot⟩ := ref
  obtain rfl : key = reg.canonical term := by
    rw [Registry.canonical, h.agrees.settings]
    exact ht
  have hslot : reg.slot? (reg.canonical term) = some slot := by
    rw [Registry.slot?, hp, Option.some_or]
  have hslot' : ({ reg with stats } : Registry).slot? (({ reg with stats } : Registry).canonical
    term) = some slot := hslot
  exact lookup_of_slot? hslot'

theorem exists_codec (h : r.Mirrors strict reg) (hp : reg.Publishes ref) :
    ∃ codec c, reg.store.codec? ref = some codec ∧ r.codec? ref.term = some c ∧
      codec.plain = c.withStrict false ∧ ∀ nested ∈ codec.refs, reg.Publishes nested := by
  obtain ⟨codec, hs, hrefs, hr⟩ := h.agrees.published h.closed hp
  rw [canonical_withStrict, h.canonical hp, codec?_withStrict] at hr
  obtain ⟨c, hc, hfit⟩ := Option.map_eq_some_iff.1 hr
  exact ⟨codec, c, hs, hc, by rw [Codec.plain, ← hfit, withStrict_fit], hrefs⟩

theorem canonical_target (h : r.Mirrors strict reg) {owner : TypeTerm} {bs : List BranchCodec}
    (hc : r.codec? key = some (.union owner bs)) :
    ∀ b ∈ bs, r.settings.canonical b.target = b.codec.term := by
  rw [codec?] at hc
  split at hc
  · cases hc
    exact h.targets key owner bs ‹_›
  · split at hc
    · exact (checked_describe? hc).2
    · cases hc

theorem exists_shown (h : r.Mirrors strict reg) (hc : r.codec? key = some c)
    (hplain : codec.plain = c.withStrict false)
    (hrefs : ∀ nested ∈ codec.refs, reg.Publishes nested) (ht : term ∈ codec.shown) :
    ∃ nested, reg.Publishes nested ∧ nested.term = r.settings.canonical term := by
  have hnested : ∀ nested ∈ codec.refs, nested.term = term →
      ∃ nested, reg.Publishes nested ∧ nested.term = r.settings.canonical term := by
    rintro nested hn rfl
    exact ⟨nested, hrefs nested hn, (h.canonical (hrefs nested hn)).symm⟩
  cases codec with
  | atomic | enumeration | formatted | custom => cases ht
  | record owner constructor fields strict =>
    obtain ⟨f, hf, rfl⟩ := List.mem_map.1 ht
    exact hnested f.codec (List.mem_map_of_mem hf) rfl
  | sequence container element =>
    exact hnested element (List.mem_singleton_self _) (List.mem_singleton.1 ht).symm
  | map owner k value =>
    exact hnested value (List.mem_cons_of_mem _ (List.mem_singleton_self _))
      (List.mem_singleton.1 ht).symm
  | union owner bs =>
    obtain ⟨b, hb, rfl⟩ := List.mem_map.1 ht
    cases c with
    | union owner' bs' =>
      injection hplain with howner hbs
      have hb' : b.mapRef CodecRef.bare ∈ bs' := hbs ▸ List.mem_map_of_mem hb
      exact ⟨b.codec, hrefs _ (List.mem_map_of_mem hb), (h.canonical_target hc _ hb').symm⟩
    | _ => cases hplain

end Mirrors

section Twins

variable (h : r.Mirrors strict base) (h' : r.Mirrors strict' base')
  {displayName : TypeName → String} {nested : TypeTerm → Collecting Schema}

include h h'

theorem alike_fragment (hp : base.Publishes ref) (hp' : base'.Publishes ref')
    (ht : ref.term = ref'.term)
    (hn : ∀ term part part', base.Publishes part → base'.Publishes part' →
      part.term = r.settings.canonical term → part'.term = r.settings.canonical term →
        Collecting.Alike base base' (nested term) (nested term)) :
    Collecting.Alike base base' (Collecting.fragment nested displayName ref)
      (Collecting.fragment nested displayName ref') := by
  obtain ⟨codec, c, hs, hc, hplain, hrefs⟩ := h.exists_codec hp
  obtain ⟨codec', c', hs', hc', hplain', hrefs'⟩ := h'.exists_codec hp'
  cases hc.symm.trans (ht ▸ hc')
  have hsame : codec.plain = codec'.plain := hplain.trans hplain'.symm
  have hnamed : codec.isNamed = codec'.isNamed := by
    rw [← codec.isNamed_plain, hsame, codec'.isNamed_plain]
  have hbody : Collecting.body nested base.store codec =
      Collecting.body nested base'.store codec' := by
    refine Collecting.body_congr hsame fun owner k value owner' k' value' he he' => ?_
    subst he he'
    injection hsame with _ hk
    have hbacked := h.agrees.isStringBacked h.closed (hrefs k List.mem_cons_self)
    have hbacked' := h'.agrees.isStringBacked h'.closed (hrefs' k' List.mem_cons_self)
    rw [scope_withStrict] at hbacked hbacked'
    exact hbacked.symm.trans ((congrArg r.scope.isStringBacked hk).trans hbacked')
  have halike : Collecting.Alike base base' (Collecting.body nested base.store codec)
      (Collecting.body nested base.store codec) := by
    refine Collecting.sequential_alike.body (fun term hterm => ?_) _
    obtain ⟨part, hpart, he⟩ := h.exists_shown hc hplain hrefs hterm
    rw [← codec.shown_plain, hsame, codec'.shown_plain] at hterm
    obtain ⟨part', hpart', he'⟩ := h'.exists_shown hc hplain' hrefs' hterm
    exact hn term part part' hpart hpart' he he'
  rw [Collecting.fragment, Collecting.fragment]
  refine Collecting.Alike.store ?_
  simp only [hs, hs', ← hnamed, ← hbody, ← ht]
  split
  · exact halike
  · refine Collecting.Alike.get fun d => ?_
    split
    · exact Collecting.alike_pure _
    · exact .set _ (halike.bind fun schema => .modify _ (Collecting.alike_pure _))

theorem alike_schemaWithin (calls : Nat) (hp : base.Publishes ref) (hp' : base'.Publishes ref')
    (ht : ref.term = r.settings.canonical term) (ht' : ref'.term = r.settings.canonical term) :
    Collecting.Alike base base' (Dictionary.schemaWithin displayName calls term)
      (Dictionary.schemaWithin displayName calls term) := by
  induction calls generalizing term ref ref' with
  | zero => exact Collecting.alike_halt _
  | succ calls ih =>
    intro d stats stats'
    rw [Dictionary.ask_schemaWithin (h.lookup hp ht stats),
      Dictionary.ask_schemaWithin (h'.lookup hp' ht' stats')]
    exact alike_fragment h h' hp hp' (ht.trans ht'.symm)
      (fun _ _ _ hpart hpart' he he' => ih hpart hpart' he he') d _ _

end Twins

end Reference

namespace Registry

variable {host : Host} {s : Settings} {customs : TypeTerm → Option Codec} {reg reg' : Registry}
  {term : TypeTerm}

/-- Take two registries over the same types and registered codecs, of which one refuses unknown
members and the other ignores them. Terms have a codec in both or in none. Where one has, schemas
and dictionaries are the same and values are encoded alike. The strict registry decodes a document
if the other decodes it to the same value and all members of objects that are handed to the codecs
of records, registered codecs apart, are named after properties that are read. -/
theorem strict_iff_lax (h : Plain host { s with denyUnknownFields := true } customs reg)
    (h' : Plain host { s with denyUnknownFields := false } customs reg')
    (htargets : ∀ key owner bs, customs key = some (.union owner bs) →
      ∀ b ∈ bs, s.canonical b.target = b.codec.term) :
    (reg.Derives term ↔ reg'.Derives term) ∧
    ∀ ref ref' base base', reg.lookup term = (.ok (.ok ref), base) →
      reg'.lookup term = (.ok (.ok ref'), base') →
      (∀ displayName d, (reg.ask (Dictionary.schemaFor displayName d term)).1 =
        (reg'.ask (Dictionary.schemaFor displayName d term)).1) ∧
      (∀ calls v, base.store.encodeWithin calls ref v = base'.store.encodeWithin calls ref' v) ∧
      ∀ j v, base.store.decode ref j = .ok v ↔
        base'.store.decode ref' j = .ok v ∧ base'.store.KnowsAll customs (ref', j) := by
  refine ⟨derives_strict_iff h h', fun ref ref' base base' hfound hfound' => ?_⟩
  obtain ⟨hbase, ht, hp⟩ := h.found hfound
  obtain ⟨hbase', ht', hp'⟩ := h'.found hfound'
  have hterm : ref.term = ref'.term := ht.trans ht'.symm
  refine ⟨fun displayName d => ?_,
    fun calls v => encodeWithin_strict hbase hbase' hp hp' hterm calls,
    fun j v => decode_strict_iff hbase hbase' hp hp' hterm⟩
  obtain ⟨limit, hlimit⟩ := callLimit_eq
  rw [Dictionary.schemaFor, hlimit, Dictionary.ask_schemaWithin hfound,
    Dictionary.ask_schemaWithin hfound']
  have hm : Reference.Mirrors ⟨host, s, customs⟩ true base :=
    ⟨hbase.agrees, hbase.sound.closed, htargets⟩
  have hm' : Reference.Mirrors ⟨host, s, customs⟩ false base' :=
    ⟨hbase'.agrees, hbase'.sound.closed, htargets⟩
  obtain ⟨outcome, next, next', hrun, hrun'⟩ := Reference.alike_fragment hm hm' hp hp' hterm
    (fun _ _ _ hpart hpart' he he' => Reference.alike_schemaWithin hm hm' limit hpart hpart' he he')
    d base.stats base'.stats
  exact (congrArg Prod.fst hrun).trans (congrArg Prod.fst hrun').symm

def folders (strict : Bool) : Registry :=
  ((initial Reference.folder.host { denyUnknownFields := strict }).override ⟨"Class", []⟩
    (.formatted "file name" fun _ => true)).2

theorem plain_folders (strict : Bool) : Plain Reference.folder.host { denyUnknownFields := strict }
    Reference.folder.customs (folders strict) := by
  have h : Plain Reference.folder.host { denyUnknownFields := strict } _ (folders strict) :=
    .registered .initial (by simp [Codec.refs]) rfl
  exact h

def nestedFolder (members : Members Json) : Json :=
  .obj [("children", .obj [("a", .obj members)])]

theorem strict_iff_lax_folder : ∃ ref ref' base base',
    (folders true).lookup ⟨"Folder", []⟩ = (.ok (.ok ref), base) ∧
    (folders false).lookup ⟨"Folder", []⟩ = (.ok (.ok ref'), base') ∧
    base'.store.KnowsAll Reference.folder.customs (ref', nestedFolder []) ∧
    ¬ base'.store.KnowsAll Reference.folder.customs (ref', nestedFolder [("size", .int 1)]) := by
  have htargets : ∀ key owner bs, Reference.folder.customs key = some (.union owner bs) →
      ∀ b ∈ bs, ({} : Settings).canonical b.target = b.codec.term := by
    intro key owner bs hc
    simp only [Reference.folder, Function.update_apply] at hc
    split at hc <;> cases hc
  have hfound : ∀ strict, ∃ found ∈ ((folders strict).lookup ⟨"Folder", []⟩).1.toOption,
      ∃ ref ∈ found.toOption,
        (((folders strict).lookup ⟨"Folder", []⟩).2.store.decode ref
          (nestedFolder [])).isOk = true ∧
        (((folders strict).lookup ⟨"Folder", []⟩).2.store.decode ref
          (nestedFolder [("size", .int 1)])).isOk = !strict := by
    decide +kernel
  obtain ⟨_, hfirst, ref, hok, hdecodes, hrefuses⟩ := hfound true
  obtain ⟨_, hsecond, ref', hok', -, hdecodes'⟩ := hfound false
  cases Except.eq_ok_of_toOption hok
  cases Except.eq_ok_of_toOption hok'
  obtain ⟨v, hv⟩ := Except.exists_of_isOk hdecodes
  obtain ⟨w, hw⟩ := Except.exists_of_isOk hdecodes'
  have hstrict := plain_folders true
  have hlax := plain_folders false
  generalize folders true = reg, folders false = reg' at *
  have hl : reg.lookup ⟨"Folder", []⟩ = (.ok (.ok ref), (reg.lookup ⟨"Folder", []⟩).2) :=
    Prod.ext (Except.eq_ok_of_toOption hfirst) rfl
  have hl' : reg'.lookup ⟨"Folder", []⟩ = (.ok (.ok ref'), (reg'.lookup ⟨"Folder", []⟩).2) :=
    Prod.ext (Except.eq_ok_of_toOption hsecond) rfl
  obtain ⟨-, -, hdecode⟩ := (strict_iff_lax hstrict hlax htargets).2 _ _ _ _ hl hl'
  refine ⟨ref, ref', _, _, hl, hl', ((hdecode _ v).1 hv).2, fun hknows => ?_⟩
  rw [(hdecode _ w).2 ⟨hw, hknows⟩] at hrefuses
  cases hrefuses

end Registry

end Typewire
