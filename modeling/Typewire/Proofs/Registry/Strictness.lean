import Typewire.Proofs.Codec.Handing
import Typewire.Proofs.Registry.Outcome

/-! # Refusing unknown members

Of two registries over the same types and registered codecs, one refuses unknown members and one
ignores them. They derive codecs for the same terms and encode alike. The strict one decodes what
the other does, if each record is handed an object without unknown members.
-/

namespace Typewire

open Relation Registry

theorem forall_reached_iff {α : Type} {R : α → α → Prop} {P : α → Prop} {a : α} :
    (∀ b, ReflTransGen R a b → P b) ↔ P a ∧ ∀ b, R a b → ∀ c, ReflTransGen R b c → P c := by
  refine ⟨fun h => ⟨h a .refl, fun b hb c hc => h c (.head hb hc)⟩, fun ⟨ha, h⟩ b hb => ?_⟩
  rcases hb.cases_head with rfl | ⟨c, hc, hcb⟩
  · exact ha
  · exact h c hc b hcb

namespace Reference

variable (r : Reference)

def withStrict (strict : Bool) : Reference :=
  { r with settings := { r.settings with denyUnknownFields := strict } }

/-- A codec that is not registered makes the check, or does not. -/
def fit (strict : Bool) (key : TypeTerm) : Codec → Codec :=
  if (r.customs key).isNone then Codec.withStrict strict else id

def Hands (p q : TypeTerm × Json) : Prop :=
  ∃ codec ref, r.codec? (r.settings.canonical p.1) = some codec ∧ codec.Hands p.2 ref q.2 ∧
    ref.term = q.1

/-- The document has no unknown members, if the codec of the term is one of a record and not
registered. -/
def Tidy (p : TypeTerm × Json) : Prop :=
  r.customs (r.settings.canonical p.1) = none →
    ∀ codec, r.codec? (r.settings.canonical p.1) = some codec → codec.Knows p.2

variable {r} {strict : Bool} {key term : TypeTerm} {codec : Codec} {layout : Layout} {j : Json}
  {v : Value}

theorem canonical_withStrict : (r.withStrict strict).settings.canonical = r.settings.canonical :=
  rfl

theorem fields?_strict (s : Settings) (ps : List Property) :
    fields? { s with denyUnknownFields := strict } term ps = fields? s term ps := by
  induction ps with
  | nil => rfl
  | cons p ps ih =>
    rw [fields?, fields?, ih]
    rfl

theorem branches?_strict (s : Settings) (vs : List Variant) :
    branches? { s with denyUnknownFields := strict } term vs = branches? s term vs := by
  induction vs with
  | nil => rfl
  | cons v vs ih =>
    rw [branches?, branches?, ih]
    rfl

theorem describe?_strict (s : Settings) :
    describe? { s with denyUnknownFields := strict } term layout =
      (describe? s term layout).map (Codec.withStrict strict) := by
  cases layout with
  | atomic | foreign => rfl
  | record layout =>
    simp only [describe?, fields?_strict]
    cases layout.check.toOption <;> cases fields? s term layout.properties <;> rfl
  | sequence container element =>
    change (s.part? term element).bind _ = _
    rw [describe?]
    cases s.part? term element <;> rfl
  | map key value =>
    change (s.part? term key).bind (fun k => (s.part? term value).bind _) = _
    rw [describe?]
    cases s.part? term key <;> cases s.part? term value <;> rfl
  | enumeration layout =>
    rw [describe?, describe?]
    cases layout.check.toOption <;> rfl
  | union layout =>
    simp only [describe?, branches?_strict]
    split
    · rfl
    · cases branches? s term layout.variants <;> rfl

theorem codec?_withStrict :
    (r.withStrict strict).codec? key = (r.codec? key).map (r.fit strict key) := by
  rw [codec?, codec?, withStrict, fit]
  cases r.customs key with
  | some codec => rfl
  | none =>
    simp only [Option.isNone_none, if_true]
    split
    · exact describe?_strict _
    · rfl

theorem isStringBacked_fit : (r.fit strict key codec).isStringBacked = codec.isStringBacked := by
  rw [fit]
  split
  · exact Codec.isStringBacked_withStrict strict
  · rfl

theorem encodeWith_fit {enc : CodecRef → Value → Encoding Json} {scope : Scope} :
    (r.fit strict key codec).encodeWith enc scope v = codec.encodeWith enc scope v := by
  rw [fit]
  split
  · exact Codec.encodeWith_withStrict strict enc
  · rfl

theorem decodeWith_fit_iff {dec : CodecRef → Json → Decoding Value} {scope : Scope} :
    (r.fit true key codec).decodeWith dec scope j = .ok v ↔
      (r.fit false key codec).decodeWith dec scope j = .ok v ∧
        (r.customs key = none → (r.fit false key codec).Knows j) := by
  rw [fit, fit]
  cases r.customs key with
  | some codec => simp
  | none =>
    have hknows : (codec.withStrict false).Knows j ↔ codec.Knows j := by
      cases codec <;> cases j <;> rfl
    simpa [hknows] using Codec.decodeWith_withStrict_iff

theorem scope_withStrict : (r.withStrict strict).scope = r.scope := by
  have hbacked : ∀ ref : CodecRef,
      ((r.withStrict strict).codec? (r.settings.canonical ref.term)).any Codec.isStringBacked =
        (r.codec? (r.settings.canonical ref.term)).any Codec.isStringBacked := by
    intro ref
    rw [codec?_withStrict, Option.any_map]
    exact congrArg (Option.any · _) (funext fun _ => isStringBacked_fit)
  exact congrArg (Scope.mk r.host.isInstance) (funext hbacked)

theorem encodeWithin_withStrict (calls : Nat) :
    (r.withStrict strict).encodeWithin calls term v = r.encodeWithin calls term v := by
  induction calls generalizing term v with
  | zero => rfl
  | succ calls ih =>
    have hnested : (fun ref : CodecRef => (r.withStrict strict).encodeWithin calls ref.term) =
        fun ref => r.encodeWithin calls ref.term := funext fun ref => funext fun v => ih
    rw [encodeWithin, encodeWithin, canonical_withStrict, codec?_withStrict, scope_withStrict,
      hnested]
    cases r.codec? (r.settings.canonical term) with
    | none => rfl
    | some codec => exact encodeWith_fit

theorem hands_iff (h : r.codec? (r.settings.canonical term) = some codec) {q : TypeTerm × Json} :
    r.Hands (term, j) q ↔ ∃ ref, codec.Hands j ref q.2 ∧ ref.term = q.1 := by
  refine ⟨?_, fun ⟨ref, hands, ht⟩ => ⟨codec, ref, h, hands, ht⟩⟩
  rintro ⟨codec', ref, h', hands, ht⟩
  cases h.symm.trans h'
  exact ⟨ref, hands, ht⟩

theorem tidy_iff (h : r.codec? (r.settings.canonical term) = some codec) :
    r.Tidy (term, j) ↔ (r.customs (r.settings.canonical term) = none → codec.Knows j) := by
  refine forall_congr' fun _ => ⟨fun hall => hall codec h, fun hknows codec' h' => ?_⟩
  cases h.symm.trans h'
  exact hknows

/-- With the check on unknown members a document is decoded as without, if there are none wherever
decoding comes to the codec of a record that is not registered. -/
theorem decodeWithin_strict_iff (calls : Nat) :
    (r.withStrict true).decodeWithin calls term j = .ok v ↔
      (r.withStrict false).decodeWithin calls term j = .ok v ∧
        ∀ place, ReflTransGen (r.withStrict false).Hands (term, j) place →
          (r.withStrict false).Tidy place := by
  induction calls generalizing term j v with
  | zero => exact iff_of_false (by rintro ⟨⟩) (by rintro ⟨⟨⟩, -⟩)
  | succ calls ih =>
    rw [decodeWithin, decodeWithin, canonical_withStrict, canonical_withStrict, codec?_withStrict,
      scope_withStrict, scope_withStrict]
    have hlax : (r.withStrict false).codec? (r.settings.canonical term) = _ := codec?_withStrict
    rw [hlax]
    cases hc : r.codec? (r.settings.canonical term) with
    | none => exact iff_of_false (by rintro ⟨⟩) (by rintro ⟨⟨⟩, -⟩)
    | some codec =>
      rw [hc, Option.map_some] at hlax
      simp only [Option.map_some, decodeWith_fit_iff]
      rw [forall_reached_iff, tidy_iff hlax]
      constructor
      · rintro ⟨hd, hknows⟩
        refine ⟨Codec.decodeWith_mono hd fun ref i w _ hw => (ih.1 hw).1, hknows, ?_⟩
        rintro ⟨part, i⟩ hq
        obtain ⟨ref, hands, rfl⟩ := (hands_iff hlax).1 hq
        obtain ⟨w, hw⟩ := hands.exists_ok hd
        exact (ih.1 hw).2
      · rintro ⟨hd, hknows, hbelow⟩
        refine ⟨Codec.decodeWith_mono hd fun ref i w hands hw => ih.2 ⟨hw, ?_⟩, hknows⟩
        exact hbelow (ref.term, i) ((hands_iff hlax).2 ⟨ref, hands, rfl⟩)

end Reference

def Store.Hands (store : Store) (p q : CodecRef × Json) : Prop :=
  ∃ codec, store.codec? p.1 = some codec ∧ codec.Hands p.2 q.1 q.2

/-- Wherever decoding comes to the codec of a record that is not registered, all members of the
object there are named after properties that are read. -/
def Store.KnowsAll (store : Store) (customs : TypeTerm → Option Codec) (start : CodecRef × Json) :
    Prop :=
  ∀ place, ReflTransGen store.Hands start place → customs place.1.term = none →
    ∀ codec, store.codec? place.1 = some codec → codec.Knows place.2

namespace Reference.Agrees

variable {r : Reference} {reg : Registry} {ref : CodecRef} {j : Json}

section Places

variable (h : r.Agrees reg) (hc : reg.Closed)

include h hc

theorem hands {q : CodecRef × Json} (hp : reg.Publishes ref) (hands : reg.store.Hands (ref, j) q) :
    reg.Publishes q.1 ∧ r.Hands (ref.term, j) (q.1.term, q.2) := by
  obtain ⟨codec, hs, hrefs, hr⟩ := h.published hc hp
  obtain ⟨codec', hs', hands⟩ := hands
  cases hs.symm.trans hs'
  exact ⟨hrefs _ hands.mem_refs, codec.bare, q.1.bare, hr, hands.mapRefs, rfl⟩

theorem exists_hands {q : TypeTerm × Json} (hp : reg.Publishes ref)
    (hands : r.Hands (ref.term, j) q) :
    ∃ ref', reg.Publishes ref' ∧ ref'.term = q.1 ∧ reg.store.Hands (ref, j) (ref', q.2) := by
  obtain ⟨codec, hs, hrefs, hr⟩ := h.published hc hp
  obtain ⟨codec', ref', hr', hands, ht⟩ := hands
  cases hr.symm.trans hr'
  obtain ⟨nested, rfl, hands'⟩ := hands.of_mapRefs
  exact ⟨nested, hrefs _ hands'.mem_refs, ht, codec, hs, hands'⟩

theorem reached {q : CodecRef × Json} (hp : reg.Publishes ref)
    (hq : ReflTransGen reg.store.Hands (ref, j) q) :
    reg.Publishes q.1 ∧ ReflTransGen r.Hands (ref.term, j) (q.1.term, q.2) := by
  induction hq with
  | refl => exact ⟨hp, .refl⟩
  | tail _ hstep ih =>
    obtain ⟨hp', hstep'⟩ := h.hands hc ih.1 hstep
    exact ⟨hp', ih.2.tail hstep'⟩

theorem exists_reached {q : TypeTerm × Json} (hp : reg.Publishes ref)
    (hq : ReflTransGen r.Hands (ref.term, j) q) : ∃ ref', reg.Publishes ref' ∧
      ref'.term = q.1 ∧ ReflTransGen reg.store.Hands (ref, j) (ref', q.2) := by
  induction hq with
  | refl => exact ⟨ref, hp, rfl, .refl⟩
  | @tail a q _ hstep ih =>
    obtain ⟨ref₁, hp₁, ht, hpath⟩ := ih
    obtain ⟨ref', hp', ht', hstep'⟩ := h.exists_hands hc hp₁ (j := a.2) (q := q) (ht ▸ hstep)
    exact ⟨ref', hp', ht', hpath.tail hstep'⟩

theorem tidy_iff {codec : Codec} (hp : reg.Publishes ref) (hs : reg.store.codec? ref = some codec) :
    r.Tidy (ref.term, j) ↔ (r.customs ref.term = none → codec.Knows j) := by
  obtain ⟨codec', hs', -, hr⟩ := h.published hc hp
  cases hs.symm.trans hs'
  rw [Reference.tidy_iff hr, h.canonical hc hp, Codec.bare, Codec.knows_mapRefs]

theorem knowsAll_iff (hp : reg.Publishes ref) : reg.store.KnowsAll r.customs (ref, j) ↔
    ∀ place, ReflTransGen r.Hands (ref.term, j) place → r.Tidy place := by
  constructor
  · rintro hall ⟨_, i⟩ hpath
    obtain ⟨ref', hp', rfl, hpath'⟩ := h.exists_reached hc hp hpath
    obtain ⟨codec, hs, -⟩ := h.published hc hp'
    exact (h.tidy_iff hc hp' hs).2 fun hcustom => hall _ hpath' hcustom codec hs
  · rintro hall ⟨ref', i⟩ hpath hcustom codec hs
    obtain ⟨hp', hpath'⟩ := h.reached hc hp hpath
    exact (h.tidy_iff hc hp' hs).1 (hall _ hpath') hcustom

end Places

end Reference.Agrees

namespace Registry

def Derives (reg : Registry) (term : TypeTerm) : Prop :=
  ∃ calls ref, (resolve calls term reg).1 = .ok (.ok ref)

variable {host : Host} {s : Settings} {customs : TypeTerm → Option Codec} {reg reg' : Registry}
  {r : Reference} {term : TypeTerm} {ref ref' : CodecRef} {j : Json} {v : Value}

theorem Complete.derives_iff (h : Complete r reg) : reg.Derives term ↔
    (r.closure (r.settings.canonical term)).Finite ∧
      ∀ key ∈ r.closure (r.settings.canonical term), r.customs key = none → r.Described key := by
  constructor
  · rintro ⟨calls, ref, hok⟩
    obtain ⟨hall, hmem⟩ := h.of_found hok
    exact ⟨(List.finite_toSet _).subset fun key hk => (hmem key).2 (.inr hk), hall⟩
  · rintro ⟨hfin, hall⟩
    obtain ⟨ref, hok⟩ := (h.found_iff hfin (Nat.lt_succ_self _)).2.2 hall
    exact ⟨_, ref, hok⟩

section Strict

variable (h : Plain host { s with denyUnknownFields := true } customs reg)
  (h' : Plain host { s with denyUnknownFields := false } customs reg')

include h h'

theorem derives_strict_iff : reg.Derives term ↔ reg'.Derives term :=
  h.factoryless.complete.derives_iff.trans h'.factoryless.complete.derives_iff.symm

variable (hp : reg.Publishes ref) (hp' : reg'.Publishes ref') (ht : ref.term = ref'.term)

include hp hp' ht

theorem encodeWithin_strict (calls : Nat) :
    reg.store.encodeWithin calls ref v = reg'.store.encodeWithin calls ref' v := by
  let r : Reference := ⟨host, s, customs⟩
  have hr : Reference.Agrees (r.withStrict true) reg := h.agrees
  have hr' : Reference.Agrees (r.withStrict false) reg' := h'.agrees
  rw [hr.encodeWithin h.sound.closed hp, hr'.encodeWithin h'.sound.closed hp', ht,
    Reference.encodeWithin_withStrict, Reference.encodeWithin_withStrict]

theorem decode_strict_iff : reg.store.decode ref j = .ok v ↔
    reg'.store.decode ref' j = .ok v ∧ reg'.store.KnowsAll customs (ref', j) := by
  let r : Reference := ⟨host, s, customs⟩
  have hr : Reference.Agrees (r.withStrict true) reg := h.agrees
  have hr' : Reference.Agrees (r.withStrict false) reg' := h'.agrees
  rw [Store.decode, Store.decode, hr.decodeWithin h.sound.closed hp,
    hr'.decodeWithin h'.sound.closed hp', ht, Reference.decodeWithin_strict_iff,
    ← hr'.knowsAll_iff h'.sound.closed hp']
  rfl

end Strict

end Registry

end Typewire
