import Typewire.Proofs.Catalog.Describe
import Typewire.Proofs.Codec.Maps
import Typewire.Proofs.Registry.Refinement
import Typewire.Proofs.Schema.Pass

/-! # Maps of a registry

A map says in its three ways which keys it takes: it writes values, reads documents and gives a
schema for keys whose codec makes texts, and for no others.
-/

namespace Typewire

open Registry

namespace Collecting

theorem run_fragment_map {resolve : Lookup} {reg : Registry} {ref key value : CodecRef}
    {owner : TypeTerm} (hs : reg.store.codec? ref = some (.map owner key value))
    (nested : TypeTerm → Collecting Schema) (displayName : TypeName → String) (d : Dictionary) :
    ((fragment nested displayName ref).run.run d).run resolve reg =
      ((body nested reg.store (.map owner key value)).run.run d).run resolve reg := by
  have hstore : ((ask Ask.store).run.run d).run resolve reg = (.ok (.ok reg.store, d), reg) := rfl
  rw [fragment, run_bind, Query.run_bind, hstore]
  simp only [hs]
  rfl

end Collecting

namespace Store

variable {store : Store} {ref key value : CodecRef} {owner : TypeTerm} {codec : Codec}

theorem isStringBacked_of_labels (hkey : store.codec? key = some codec) (h : codec.Labels) :
    store.scope.isStringBacked key = true := by
  change (store.codec? key).any Codec.isStringBacked = true
  rw [hkey, Option.any_some, h.isStringBacked]

section StringBacked

variable (hm : store.codec? ref = some (.map owner key value))
  (hkey : store.codec? key = some codec) (hlabels : codec.Labels)

include hm hkey hlabels

theorem encodeWithin_map (calls : Nat) (entries : List (Value × Value)) :
    store.encodeWithin (calls + 1) ref (.map entries) =
      Codec.encodeEntries (store.encodeWithin calls) true key value [] entries >>= fun members =>
        pure (.obj members) := by
  rw [encodeWithin, hm]
  change Codec.encodeEntries _ (store.scope.isStringBacked key) _ _ _ _ >>= _ = _
  rw [isStringBacked_of_labels hkey hlabels]

theorem decode_map (members : Members Json) :
    store.decode ref (.obj members) =
      (Codec.decodeEntries store.decode key value members).map .map := by
  rw [decode_eq hm, Codec.decodeWith, if_pos (isStringBacked_of_labels hkey hlabels)]

theorem encodes_map_iff (calls : Nat) (entries : List (Value × Value)) :
    (∃ j, store.encodeWithin (calls + 1) ref (.map entries) = pure j) ↔
      (∀ e ∈ entries, e.1 ≠ .null ∧ ∃ j, store.encodeWithin calls key e.1 = pure j) ∧
      (∀ e ∈ entries, e.2 ≠ .null → ∃ j, store.encodeWithin calls value e.2 = pure j) ∧
      entries.Pairwise fun e e' =>
        store.encodeWithin calls key e.1 ≠ store.encodeWithin calls key e'.1 := by
  rw [← Codec.encodes_entries_iff (labelled hkey hlabels calls),
    encodeWithin_map hm hkey hlabels]
  constructor
  · rintro ⟨j, hj⟩
    obtain ⟨members, hmembers, -⟩ := Encoding.exists_of_bind hj
    exact ⟨members, hmembers⟩
  · rintro ⟨members, hmembers⟩
    exact ⟨.obj members, by rw [hmembers, pure_bind]⟩

theorem exists_lists_of_encodeWithin {calls : Nat} {entries : List (Value × Value)} {j : Json}
    (he : store.encodeWithin (calls + 1) ref (.map entries) = pure j) :
    ∃ listed members, j = .obj members ∧ listed.Perm entries ∧
      Codec.Lists (store.encodeWithin calls) key value listed members ∧
      ((∃ v, store.decode ref j = .ok v) ↔
        ∀ m ∈ members, m.2.isNull = false → ∃ w, store.decode value m.2 = .ok w) ∧
      ∀ v, store.decode ref j = .ok v ↔
        ∃ values, v = .map ((listed.map Prod.fst).zip values) ∧
          List.Forall₂ (fun m w => Codec.PartDecodes store.decode value m.2 w) members values := by
  rw [encodeWithin_map hm hkey hlabels] at he
  obtain ⟨members, hmembers, hj⟩ := Encoding.exists_of_bind he
  cases hj
  obtain ⟨listed, hperm, hlists⟩ := Codec.exists_lists_of_encodeEntries hmembers
  have hlabelled := labelled hkey hlabels calls
  refine ⟨listed, members, rfl, hperm, hlists, ?_, fun v => ?_⟩
  · rw [← hlists.decodes_iff hlabelled, decode_map hm hkey hlabels]
    constructor
    · rintro ⟨v, hv⟩
      obtain ⟨back, hback, -⟩ := Except.exists_of_map hv
      exact ⟨back, hback⟩
    · rintro ⟨back, hback⟩
      exact ⟨.map back, by rw [hback]; rfl⟩
  · rw [decode_map hm hkey hlabels]
    constructor
    · intro hv
      obtain ⟨back, hback, rfl⟩ := Except.exists_of_map hv
      obtain ⟨values, rfl, hvalues⟩ := (hlists.decodeEntries_eq_ok_iff hlabelled).1 hback
      exact ⟨values, rfl, hvalues⟩
    · rintro ⟨values, rfl, hvalues⟩
      rw [(hlists.decodeEntries_eq_ok_iff hlabelled).2 ⟨values, rfl, hvalues⟩]
      rfl

end StringBacked

section Unsupported

variable (hm : store.codec? ref = some (.map owner key value))
  (hkey : store.isStringBacked key = false)

include hm hkey

theorem encodeWithin_map_of_unsupported (calls : Nat) (e : Value × Value)
    (entries : List (Value × Value)) :
    store.encodeWithin (calls + 1) ref (.map (e :: entries)) =
      .fail (.unsupportedKeyType (e.1.describe ++ " (declared " ++ key.term.text ++ ")")) := by
  have hlabel : Codec.encodeKey (store.encodeWithin calls) false key e.1 =
      .fail (.unsupportedKeyType (e.1.describe ++ " (declared " ++ key.term.text ++ ")")) :=
    if_pos (.inr rfl)
  rw [encodeWithin, hm]
  change Codec.encodeEntries _ (store.isStringBacked key) _ _ _ _ >>= _ = _
  rw [hkey, Codec.encodeEntries, hlabel]
  rfl

theorem decode_map_of_unsupported (members : Members Json) :
    store.decode ref (.obj members) = .fail (.unsupportedKeyType key.term) := by
  have hbacked : store.scope.isStringBacked key = false := hkey
  rw [decode_eq hm, Codec.decodeWith, hbacked, if_neg Bool.false_ne_true]

end Unsupported

end Store

namespace Dictionary

variable {reg : Registry} {ref key value : CodecRef} {owner term : TypeTerm}

theorem ask_schemaWithin_map (hp : reg.Publishes ref) (ht : reg.canonical term = ref.term)
    (hm : reg.store.codec? ref = some (.map owner key value)) (displayName : TypeName → String)
    (calls : Nat) (d : Dictionary) :
    reg.ask ((schemaWithin displayName (calls + 1) term).run.run d) =
      reg.countHit.ask ((Collecting.body (schemaWithin displayName calls) reg.store
        (.map owner key value)).run.run d) := by
  have hslot : reg.slot? (reg.canonical term) = some ref.slot := by
    rw [ht, slot?, hp, Option.some_or]
  have hfound := lookup_of_slot? hslot
  rw [ht] at hfound
  rw [ask_schemaWithin hfound]
  have hm : reg.countHit.store.codec? ref = some (.map owner key value) := hm
  exact Collecting.run_fragment_map hm _ displayName d

end Dictionary

namespace Registry

variable {reg : Registry} {ref key value : CodecRef} {owner : TypeTerm}

theorem labels_of_bare {codec : Codec} (h : codec.bare.Labels) : codec.Labels := by
  cases codec with
  | atomic | enumeration | formatted | custom => exact h
  | record | sequence | map | union => cases h

theorem Plain.labels {host : Host} {settings : Settings} {customs : TypeTerm → Option Codec}
    {codec : Codec} (h : Plain host settings customs reg) (hp : reg.Publishes key)
    (hcustom : customs key.term = none) (hkey : reg.store.codec? key = some codec)
    (hbacked : reg.store.isStringBacked key = true) : codec.Labels := by
  obtain ⟨codec', layout, hs, -, hd, -⟩ := h.described hp hcustom
  cases hkey.symm.trans hs
  have hbacked : codec.bare.isStringBacked = true := by
    rw [Codec.bare, Codec.isStringBacked_mapRefs]
    simpa [Store.isStringBacked, hkey] using hbacked
  refine labels_of_bare ?_
  rcases Reference.layout_of_isStringBacked hd hbacked with rfl | ⟨enum, rfl⟩
  · rw [← Option.some.inj hd]
    exact .string
  · obtain ⟨hidents, hlabels, he⟩ := Reference.describe?_enumeration hd
    rw [he]
    exact .enumeration (EnumLayout.check_iff.2 ⟨hidents, hlabels⟩)

/-- A map over keys of texts, of members of an enumeration or of texts in a format loses no entry
and merges no two. It is written exactly if its keys and values are and labels are distinct, and
then the object has one member for each entry, from which the keys come back. The schema is that of
the values. A map over keys that have no texts is refused in each of the three ways. -/
theorem maps_faithful (hp : reg.Publishes ref)
    (hm : reg.store.codec? ref = some (.map owner key value)) :
    (∀ codec, reg.store.codec? key = some codec → codec.Labels → ∀ calls entries,
      ((∃ j, reg.store.encodeWithin (calls + 1) ref (.map entries) = pure j) ↔
        (∀ e ∈ entries, e.1 ≠ .null ∧ ∃ j, reg.store.encodeWithin calls key e.1 = pure j) ∧
        (∀ e ∈ entries, e.2 ≠ .null → ∃ j, reg.store.encodeWithin calls value e.2 = pure j) ∧
        entries.Pairwise fun e e' =>
          reg.store.encodeWithin calls key e.1 ≠ reg.store.encodeWithin calls key e'.1) ∧
      ∀ j, reg.store.encodeWithin (calls + 1) ref (.map entries) = pure j →
        ∃ listed members, j = .obj members ∧ listed.Perm entries ∧
          Codec.Lists (reg.store.encodeWithin calls) key value listed members ∧
          ((∃ v, reg.store.decode ref j = .ok v) ↔
            ∀ m ∈ members, m.2.isNull = false → ∃ w, reg.store.decode value m.2 = .ok w) ∧
          ∀ v, reg.store.decode ref j = .ok v ↔
            ∃ values, v = .map ((listed.map Prod.fst).zip values) ∧ List.Forall₂
              (fun m w => Codec.PartDecodes reg.store.decode value m.2 w) members values) ∧
    (reg.store.isStringBacked key = true →
      ∀ displayName calls d term, reg.canonical term = ref.term →
        reg.ask ((Dictionary.schemaWithin displayName (calls + 1) term).run.run d) =
          reg.countHit.ask ((do
            let values ← Dictionary.schemaWithin displayName calls value.term
            return Schema.map values : Collecting Schema).run.run d)) ∧
    (reg.store.isStringBacked key = false →
      (∀ calls e entries, ∃ found, reg.store.encodeWithin (calls + 1) ref (.map (e :: entries)) =
        .fail (.unsupportedKeyType found)) ∧
      (∀ members, reg.store.decode ref (.obj members) = .fail (.unsupportedKeyType key.term)) ∧
      ∀ displayName d term, reg.canonical term = ref.term →
        (reg.ask (Dictionary.schemaFor displayName d term)).1 =
          .ok (.error (.unsupported ⟨owner, Collecting.keyReason key.term⟩), d)) := by
  refine ⟨fun codec hkey hlabels calls entries => ⟨?_, fun j he => ?_⟩,
    fun hbacked displayName calls d term ht => ?_, fun hbacked => ⟨fun calls e entries => ?_,
      fun members => ?_, fun displayName d term ht => ?_⟩⟩
  · exact Store.encodes_map_iff hm hkey hlabels calls entries
  · exact Store.exists_lists_of_encodeWithin hm hkey hlabels he
  · rw [Dictionary.ask_schemaWithin_map hp ht hm, Collecting.body, if_pos hbacked]
  · exact ⟨_, Store.encodeWithin_map_of_unsupported hm hbacked calls e entries⟩
  · exact Store.decode_map_of_unsupported hm hbacked members
  · obtain ⟨calls, hcalls⟩ := callLimit_eq
    rw [Dictionary.schemaFor, hcalls, Dictionary.ask_schemaWithin_map hp ht hm, Collecting.body,
      hbacked, if_neg Bool.false_ne_true]
    rfl

/-- The registry of the built-in types in which maps from texts to numbers and from numbers to texts
have been looked up. -/
def numbered : Registry :=
  (((initial Catalog.initial.host {}).lookup ⟨"Map", [⟨"string", []⟩, ⟨"int", []⟩]⟩).2.lookup
    ⟨"Map", [⟨"int", []⟩, ⟨"string", []⟩]⟩).2

theorem maps_faithful_numbered :
    (∃ members, numbered.store.encodeWithin 2 ⟨⟨"Map", [⟨"string", []⟩, ⟨"int", []⟩]⟩, 0⟩
        (.map [(.string "b", .int 1), (.string "a", .null)]) = pure (.obj members) ∧
      members.length = 2) ∧
    numbered.store.decode ⟨⟨"Map", [⟨"int", []⟩, ⟨"string", []⟩]⟩, 3⟩ (.obj []) =
      .fail (.unsupportedKeyType ⟨"int", []⟩) := by
  have hp : numbered.Publishes ⟨⟨"Map", [⟨"string", []⟩, ⟨"int", []⟩]⟩, 0⟩ := by
    unfold Publishes
    decide +kernel
  have hp' : numbered.Publishes ⟨⟨"Map", [⟨"int", []⟩, ⟨"string", []⟩]⟩, 3⟩ := by
    unfold Publishes
    decide +kernel
  have hm : numbered.store.codec? ⟨⟨"Map", [⟨"string", []⟩, ⟨"int", []⟩]⟩, 0⟩ =
      some (.map ⟨"Map", [⟨"string", []⟩, ⟨"int", []⟩]⟩ ⟨⟨"string", []⟩, 1⟩ ⟨⟨"int", []⟩, 2⟩) := by
    rfl
  have hm' : numbered.store.codec? ⟨⟨"Map", [⟨"int", []⟩, ⟨"string", []⟩]⟩, 3⟩ =
      some (.map ⟨"Map", [⟨"int", []⟩, ⟨"string", []⟩]⟩ ⟨⟨"int", []⟩, 2⟩ ⟨⟨"string", []⟩, 1⟩) := by
    rfl
  have hkey : numbered.Publishes ⟨⟨"string", []⟩, 1⟩ := by
    unfold Publishes
    decide +kernel
  have hlabels : (Codec.atomic .string).Labels :=
    Plain.labels (.lookup _ (.lookup _ .initial)) hkey rfl (by rfl) (by rfl)
  refine ⟨?_, ((maps_faithful hp' hm').2.2 (by rfl)).2.1 []⟩
  obtain ⟨hiff, hwritten⟩ := (maps_faithful hp hm).1 _ (by rfl) hlabels 1
    [(.string "b", .int 1), (.string "a", .null)]
  have htext : ∀ s, numbered.store.encodeWithin 1 ⟨⟨"string", []⟩, 1⟩ (.string s) =
      pure (.str s) := fun _ => rfl
  obtain ⟨j, hj⟩ := hiff.2 ⟨by simp [htext], by simpa using ⟨Json.int 1, rfl⟩, by
    simpa [htext] using fun heq => absurd (Json.str.inj (Encoding.pure_injective heq)) (by decide)⟩
  obtain ⟨listed, members, rfl, hperm, hlists, -⟩ := hwritten j hj
  exact ⟨members, hj, hlists.entries.length_eq.symm.trans hperm.length_eq⟩

end Registry

end Typewire
