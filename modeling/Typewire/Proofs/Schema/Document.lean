import Mathlib.Data.Set.Function
import Typewire.Proofs.Catalog.Containers
import Typewire.Proofs.Registry.Outcome
import Typewire.Proofs.Schema.Rendering

/-! # Complete schema documents

A pass over a term that has a codec ends. Unless it comes to a map whose keys cannot name members,
its fragment and its dictionary make up a document in which every reference leads to an entry, and
to every entry a chain of references leads.
-/

namespace Typewire

open Relation Registry

namespace Reference

def Cites (refPrefix : String) (entries : Members Schema) (a b : String) : Prop :=
  ∃ schema, (a, schema) ∈ entries ∧ refPrefix ++ b ∈ schema.refs

/-- References lead from the fragment to the entry. -/
def Leads (refPrefix : String) (entries : Members Schema) (fragment : Schema) (name : String) :
    Prop :=
  ∃ start, refPrefix ++ start ∈ fragment.refs ∧
    ReflTransGen (Cites refPrefix entries) start name

/-- The fragment of a term and the entries of the dictionary, which is complete, make up a
document. -/
structure Document (r : Reference) (root : TypeTerm) (refPrefix : String) (d : Dictionary)
    (fragment : Schema) (entries : Members Schema) : Prop where
  complete : d.complete? = .ok entries
  distinct : (Members.names entries).Nodup
  /-- Each named term that is reached has its entry, and there are no other entries. -/
  named : Set.BijOn (d.nameOf? r.settings) { key | key ∈ r.depicted root ∧ r.Named key }
    (some '' { name | name ∈ Members.names entries })
  resolved : ∀ path, path ∈ fragment.refs ∨ (∃ entry ∈ entries, path ∈ entry.2.refs) →
    ∃ name ∈ Members.names entries, path = refPrefix ++ name
  reached : ∀ name ∈ Members.names entries, Leads refPrefix entries fragment name

variable {r : Reference} {root key m : TypeTerm} {d : Dictionary} {fragment : Schema}
  {entries : Members Schema} {refPrefix : String}

theorem canonical_of_depicted (hroot : r.settings.canonical root = root)
    (h : key ∈ r.depicted root) : r.settings.canonical key = key := by
  induction h with
  | refl => exact hroot
  | tail _ h _ =>
    obtain ⟨-, _, _, target, -, -, -, rfl⟩ := h
    exact r.settings.canonical_canonical target

section Document

variable (hd : r.Partial root d) (hr : r.Renders d (r.spread root) fragment.refs)
  (hentries : ∀ name schema, (name, schema) ∈ entries ↔
    Members.get? name d.entries = some (some schema))
  (hnames : Members.names entries = Members.names d.entries)

include hd hr hentries hnames

theorem exists_rendering (hm : m ∈ r.depicted root) : ∃ terms refs, m ∈ terms ∧
    (∀ a ∈ terms, ¬ r.Named a → ∀ b, r.Depicts a b → b ∈ terms) ∧ r.Renders d terms refs ∧
    ∀ name, d.refPrefix ++ name ∈ refs → Leads d.refPrefix entries fragment name := by
  have hspread : ∀ k, ∀ a ∈ r.spread k, ¬ r.Named a → ∀ b, r.Depicts a b → b ∈ r.spread k :=
    fun k a ha hn b hab => .tail ha ⟨hab, hn⟩
  induction hm with
  | refl => exact ⟨_, _, .refl, hspread root, hr, fun name hname => ⟨name, hname, .refl⟩⟩
  | @tail a b _ hab ih =>
    obtain ⟨terms, refs, ha, hterms, hrenders, hleads⟩ := ih
    by_cases hn : r.Named a
    · -- What renders the term stops at a reference to its entry, which renders the rest.
      obtain ⟨name, hname, href⟩ := hrenders.cites a ha hn
      obtain ⟨start, hstart, hchain⟩ := hleads name href
      have hmem : name ∈ Members.names entries := hnames ▸ (hd.entries name).2 ⟨a, hname⟩
      obtain ⟨⟨_, schema⟩, hentry, rfl⟩ := List.mem_map.1 hmem
      refine ⟨r.inner a, schema.refs, ⟨b, hab, .refl⟩, ?_,
        hd.filled a _ schema hname ((hentries _ _).1 hentry), fun next hnext => ?_⟩
      · rintro c ⟨part, hpart, hc⟩ hn' c' hcc
        exact ⟨part, hpart, hspread part c hc hn' c' hcc⟩
      · exact ⟨start, hstart, hchain.tail ⟨schema, hentry, hnext⟩⟩
    · exact ⟨terms, refs, hterms a ha hn b hab, hterms, hrenders, hleads⟩

theorem stringBacked_of_keys (hm : m ∈ r.depicted root) (hkey : r.Keys m key) :
    r.StringBacked key := by
  obtain ⟨terms, refs, hterm, -, hrenders, -⟩ := exists_rendering hd hr hentries hnames hm
  exact hrenders.keyed m hterm key hkey

theorem document_of_renders (hroot : r.settings.canonical root = root)
    (hcomplete : d.complete? = .ok entries) (hdistinct : (Members.names entries).Nodup) :
    r.Document root d.refPrefix d fragment entries := by
  -- A named term is cited where it is shown, by the fragment or by an entry that is led to.
  have hname : ∀ k, k ∈ r.depicted root → r.Named k → ∃ name, Table.get? k d.names = some name ∧
      Leads d.refPrefix entries fragment name := by
    intro k hk hn
    obtain ⟨terms, refs, hterm, -, hrenders, hleads⟩ := exists_rendering hd hr hentries hnames hk
    obtain ⟨name, hname, href⟩ := hrenders.cites k hterm hn
    exact ⟨name, hname, hleads name href⟩
  have hmem : ∀ k name, Table.get? k d.names = some name → name ∈ Members.names entries :=
    fun k name hk => hnames ▸ (hd.entries name).2 ⟨k, hk⟩
  have hof : ∀ k ∈ r.depicted root, d.nameOf? r.settings k = Table.get? k d.names := by
    intro k hk
    rw [Dictionary.nameOf?, canonical_of_depicted hroot hk]
  have howner : ∀ name ∈ Members.names entries, ∃ k, k ∈ r.depicted root ∧ r.Named k ∧
      Table.get? k d.names = some name := by
    intro name hn
    rw [hnames, hd.entries] at hn
    obtain ⟨k, hk⟩ := hn
    exact ⟨k, (hd.depicted k name hk).1, (hd.depicted k name hk).2, hk⟩
  have hresolved : ∀ terms refs, r.Renders d terms refs → ∀ path ∈ refs,
      ∃ name ∈ Members.names entries, path = d.refPrefix ++ name := by
    intro terms refs h path hp
    obtain ⟨k, -, name, -, hk, he⟩ := h.cited path hp
    exact ⟨name, hmem k name hk, he⟩
  refine ⟨hcomplete, hdistinct, ⟨?_, ?_, ?_⟩, ?_, fun name hn => ?_⟩
  · rintro k ⟨hk, hn⟩
    obtain ⟨name, hk', -⟩ := hname k hk hn
    exact ⟨name, hmem k name hk', by rw [hof k hk, hk']⟩
  · rintro k ⟨hk, hn⟩ k' ⟨hk', -⟩ he
    obtain ⟨name, hget, -⟩ := hname k hk hn
    rw [hof k hk, hof k' hk'] at he
    exact hd.injective k k' name hget (he ▸ hget)
  · rintro _ ⟨name, hn, rfl⟩
    obtain ⟨k, hk, hnamed, hget⟩ := howner name hn
    exact ⟨k, ⟨hk, hnamed⟩, by rw [hof k hk, hget]⟩
  · rintro path (hp | ⟨⟨name, schema⟩, hentry, hp⟩)
    · exact hresolved _ _ hr path hp
    · obtain ⟨k, -, -, hget⟩ := howner name (List.mem_map_of_mem (f := Prod.fst) hentry)
      exact hresolved _ _ (hd.filled k name schema hget ((hentries _ _).1 hentry)) path hp
  · obtain ⟨k, hk, hnamed, hget⟩ := howner name hn
    obtain ⟨name', hget', hleads⟩ := hname k hk hnamed
    cases hget.symm.trans hget'
    exact hleads

end Document

end Reference

namespace Dictionary

variable {r : Reference} {reg base : Registry} {term : TypeTerm} {ref : CodecRef}
  {displayName : TypeName → String} {calls : Nat} {d : Dictionary}

theorem ready_resolve {limit : Nat} (h : Complete r reg) (hs : reg.Sound)
    (hformatted : ∀ key codec, r.customs key = some codec →
      ∃ format accepts, codec = .formatted format accepts)
    (hfound : (resolve limit term reg).1 = .ok (.ok ref))
    (hguarded : r.Guarded (r.settings.canonical term)) :
    r.Ready (r.settings.canonical term) (resolve limit term reg).2 := by
  have hpublished : ∀ key ∈ r.closure (r.settings.canonical term),
      key ∈ Table.keys (resolve limit term reg).2.published :=
    fun key hk => ((h.of_found hfound).2 key).2 (.inr hk)
  refine ⟨(h.lookup limit term).agrees, (hs.resolve limit term).closed, fun key hk => ?_,
    hformatted, ?_, hguarded⟩
  · exact Option.isSome_iff_exists.1 (Table.has_iff.2 (hpublished key hk))
  · exact (List.finite_toSet _).subset hpublished

theorem ready_lookup (h : Plain r.host r.settings r.customs reg)
    (hformatted : ∀ key codec, r.customs key = some codec →
      ∃ format accepts, codec = .formatted format accepts)
    (hfound : (reg.lookup term).1 = .ok (.ok ref))
    (hguarded : r.Guarded (r.settings.canonical term)) :
    r.Ready (r.settings.canonical term) (reg.lookup term).2 := by
  rw [lookup_eq] at hfound ⊢
  exact ready_resolve h.factoryless.complete h.sound hformatted hfound hguarded

/-- A pass over a term that has a codec ends, given enough calls, and changes nothing in the
registry after the lookup but counters. -/
theorem exists_run {limit : Nat} (displayName : TypeName → String) (hi : reg.Idle)
    (hfound : (resolve (limit + 1) term reg).1 = .ok (.ok ref))
    (hready : r.Ready (r.settings.canonical term) (resolve (limit + 1) term reg).2)
    (hsettings : reg.settings = r.settings)
    (hd : r.Partial (r.settings.canonical term) d)
    (hcost : r.cost (r.settings.canonical term) d (r.settings.canonical term) < calls) :
    ∃ result d' stats,
      ((schemaWithin displayName calls term).run.run d).run (resolve (limit + 1)) reg =
        (.ok (result, d'), { (resolve (limit + 1) term reg).2 with stats }) ∧
      Collecting.Fits (r.Unkeyed (r.settings.canonical term)) (fun fragment d' =>
        r.Adds (r.settings.canonical term) d d' (r.spread (r.settings.canonical term))
          fragment.refs) result d' := by
  obtain ⟨hterm, hp⟩ := hi.publishes_resolve hfound
  rw [Registry.canonical, hsettings] at hterm
  rw [← hterm] at hready hd hcost ⊢
  cases calls with
  | zero => exact absurd hcost (Nat.not_lt_zero _)
  | succ calls =>
    have hgives := Reference.gives_fragment displayName hready hp .refl hd
      fun part d' hdepicts hd' hless =>
        Reference.gives_schemaWithin hready displayName (.single hdepicts) hd'
          (hless.trans_le (Nat.le_of_lt_succ hcost))
    obtain ⟨result, d', stats, hrun, hresult⟩ :=
      hgives limit (resolve (limit + 1) term reg).2.stats
    exact ⟨result, d', stats, (run_schemaWithin (Prod.ext hfound rfl)).trans hrun, hresult⟩

theorem exists_pass (displayName : TypeName → String) (hi : reg.Idle)
    (hfound : (reg.lookup term).1 = .ok (.ok ref))
    (hready : r.Ready (r.settings.canonical term) (reg.lookup term).2)
    (hsettings : reg.settings = r.settings)
    (hd : r.Partial (r.settings.canonical term) d)
    (hcost : r.cost (r.settings.canonical term) d (r.settings.canonical term) < calls) :
    ∃ result d' reg',
      reg.ask ((schemaWithin displayName calls term).run.run d) = (.ok (result, d'), reg') ∧
      Collecting.Fits (r.Unkeyed (r.settings.canonical term)) (fun fragment d' =>
        r.Adds (r.settings.canonical term) d d' (r.spread (r.settings.canonical term))
          fragment.refs) result d' := by
  obtain ⟨limit, hlimit⟩ := callLimit_eq
  rw [lookup_eq, hlimit] at hfound hready
  obtain ⟨result, d', stats, hrun, hresult⟩ :=
    exists_run displayName hi hfound hready hsettings hd hcost
  rw [Registry.ask, hlimit]
  exact ⟨result, d', _, hrun, hresult⟩

/-- Take a registry without factories, in which all registered codecs are formats, and a term that
has a codec, where every cycle of parts passes through a record or a union. Then the closure of the
term is finite and a pass over the term, with an empty dictionary and enough calls, ends. It fails
if and only if it would show a map whose keys cannot name members, and the error names such a map.
Else it makes a complete document. Over types from files every cycle is of this kind. -/
theorem schemaFor_complete (h : Plain r.host r.settings r.customs reg)
    (hformatted : ∀ key codec, r.customs key = some codec →
      ∃ format accepts, codec = .formatted format accepts)
    (hfound : ∃ ref, (reg.lookup term).1 = .ok (.ok ref))
    (hguarded : r.Guarded (r.settings.canonical term))
    (hcalls : ((r.closure (r.settings.canonical term)).ncard + 1) ^ 2 ≤ calls)
    (displayName : TypeName → String) (refPrefix : String) :
    (r.closure (r.settings.canonical term)).Finite ∧
    (∃ result d reg',
      reg.ask ((schemaWithin displayName calls term).run.run { refPrefix }) =
        (.ok (result, d), reg') ∧
      ((∃ e, result = .error e) ↔ ∃ map ∈ r.depicted (r.settings.canonical term),
        ∃ key, r.Keys map key ∧ ¬ r.StringBacked key) ∧
      (∀ e, result = .error e → r.Unkeyed (r.settings.canonical term) e) ∧
      ∀ fragment, result = .ok fragment → ∃ entries,
        r.Document (r.settings.canonical term) refPrefix d fragment entries) ∧
    (∀ d, schemaFor displayName d term = (schemaWithin displayName callLimit term).run.run d) ∧
    ∀ files settings customs key,
      Reference.Guarded ⟨(Catalog.ofFiles files).host, settings, customs⟩ key := by
  obtain ⟨ref, hfound⟩ := hfound
  have hready := ready_lookup h hformatted hfound hguarded
  refine ⟨hready.finite, ?_, fun _ => rfl,
    fun files s customs key => (Catalog.shallow_ofFiles files).guarded s customs key⟩
  have hcanonical := r.settings.canonical_canonical term
  obtain ⟨result, d, reg', hrun, hresult⟩ := exists_pass displayName
    h.sound.toIdle hfound hready h.agrees.settings (Reference.partial_empty refPrefix)
    ((Reference.cost_lt hready.finite .refl).trans_le hcalls)
  refine ⟨result, d, reg', hrun, ?_⟩
  cases result with
  | error e =>
    obtain ⟨map, hmap, key, hkeys, hbacked, he⟩ := hresult
    refine ⟨⟨fun _ => ⟨map, hmap, key, hkeys, hbacked⟩, fun _ => ⟨e, rfl⟩⟩, ?_,
      fun _ h => by cases h⟩
    rintro _ ⟨⟩
    exact ⟨map, hmap, key, hkeys, hbacked, he⟩
  | ok fragment =>
    obtain ⟨entries, hcomplete, hdistinct, hnames, hentries⟩ :=
      exists_complete? hresult.inProgress.toSound fun name hn => by
        cases hresult.extended.reserved name hn
    refine ⟨⟨fun ⟨_, h⟩ => (by cases h), ?_⟩, fun _ h => (by cases h), ?_⟩
    · rintro ⟨map, hmap, key, hkeys, hbacked⟩
      -- A pass that succeeds has rendered every map that it came to.
      exact absurd (Reference.stringBacked_of_keys hresult.inProgress hresult.renders hentries
        hnames hmap hkeys) hbacked
    · rintro _ ⟨⟩
      have hprefix : d.refPrefix = refPrefix := hresult.extended.refPrefix
      rw [← hprefix]
      exact ⟨entries, Reference.document_of_renders hresult.inProgress hresult.renders hentries
        hnames hcanonical hcomplete hdistinct⟩

end Dictionary

/-- A file with one record, which has more of its kind under names of a format. -/
def CatalogFile.folder : CatalogFile :=
  { records := [
      { name := "Folder"
        properties := [
          { name := "children", type := "Map<Class, Folder>", binding := .property }] }] }

namespace Reference

def folder : Reference where
  host := (Catalog.ofFiles [.folder]).host
  settings := {}
  customs := Function.update (fun _ => none) ⟨"Class", []⟩
    (some (Codec.formatted "file name" fun _ => true).bare)

theorem layout_folder : folder.host.layout "Folder" = some (.ok (.record
    { constructor := .record "Folder" []
      properties := [
        { name := "children", type := .apply "Map" [.apply "Class" [], .apply "Folder" []],
          binding := .setter, accessor := .field "children" }] })) := rfl

theorem layout_map : folder.host.layout "Map" = some (.ok (.map (.param 0) (.param 1))) := rfl

theorem within_folder : folder.Within 4 ⟨"Folder", []⟩ := by
  let all : Finset TypeTerm :=
    {⟨"Folder", []⟩, ⟨"Map", [⟨"Class", []⟩, ⟨"Folder", []⟩]⟩, ⟨"Class", []⟩}
  have hcanonical : ∀ t ∈ all, folder.settings.canonical t ∈ all := by
    simp [all, folder, Settings.canonical, TypeTerm.isGeneric]
  suffices hparts : ∀ k ∈ all, ∀ part, folder.Needs k part → part ∈ all from
    within_of_closed hparts (hcanonical _ (by simp [all])) (by decide)
  rintro k hk part ⟨hc, layout, scheme, target, hl, hs, hi, rfl⟩
  simp only [all, Finset.mem_insert, Finset.mem_singleton] at hk
  rcases hk with rfl | rfl | rfl
  · cases layout_folder.symm.trans hl
    cases List.mem_singleton.1 hs
    cases hi
    exact hcanonical _ (by simp [all])
  · cases layout_map.symm.trans hl
    rcases List.mem_cons.1 hs with rfl | hs
    · cases hi
      exact hcanonical _ (by simp [all])
    · cases List.mem_singleton.1 hs
      cases hi
      exact hcanonical _ (by simp [all])
  · cases hc

end Reference

theorem Dictionary.schemaFor_complete_folder :
    ∃ reg fragment d entries, Plain Reference.folder.host {} Reference.folder.customs reg ∧
      (reg.ask (schemaFor TypeName.simple { refPrefix := "#/" } ⟨"Folder", []⟩)).1 =
        .ok (.ok fragment, d) ∧
      fragment.refs = ["#/Folder"] ∧ Members.names d.entries = ["Folder"] ∧
      Reference.folder.Document ⟨"Folder", []⟩ "#/" d fragment entries := by
  let reg := ((initial Reference.folder.host {}).override ⟨"Class", []⟩
    (.formatted "file name" fun _ => true)).2
  have hplain : Plain Reference.folder.host {} _ reg :=
    .registered .initial (by simp [Codec.refs]) rfl
  have hformatted : ∀ key codec, Reference.folder.customs key = some codec →
      ∃ format accepts, codec = .formatted format accepts := by
    intro key codec hc
    simp only [Reference.folder, Function.update_apply] at hc
    split at hc <;> cases hc
    exact ⟨_, _, rfl⟩
  have hfound : (reg.lookup ⟨"Folder", []⟩).1 = .ok (.ok ⟨⟨"Folder", []⟩, 1⟩) := by
    decide +kernel
  have hrun : ((reg.ask (schemaFor TypeName.simple { refPrefix := "#/" }
      ⟨"Folder", []⟩)).1.toOption.map fun p =>
        (p.1.toOption.map Schema.refs, Members.names p.2.entries)) =
      some (some ["#/Folder"], ["Folder"]) := by
    decide +kernel
  obtain ⟨hfin, hcard⟩ := Reference.within_folder
  rw [← Set.ncard_eq_toFinset_card _ hfin] at hcard
  have hcalls : ((Reference.folder.closure ⟨"Folder", []⟩).ncard + 1) ^ 2 ≤ callLimit :=
    (Nat.pow_le_pow_left (Nat.succ_le_of_lt hcard) 2).trans (by decide)
  obtain ⟨-, ⟨result, d, reg', hask, -, -, hdocument⟩, -⟩ :=
    schemaFor_complete (r := Reference.folder) hplain hformatted ⟨_, hfound⟩
      ((Catalog.shallow_ofFiles _).guarded _ _ _) hcalls TypeName.simple "#/"
  rw [schemaFor, hask] at hrun
  cases result with
  | error e => cases hrun
  | ok fragment =>
    obtain ⟨entries, hentries⟩ := hdocument fragment rfl
    have hboth : fragment.refs = ["#/Folder"] ∧ Members.names d.entries = ["Folder"] := by
      simpa [Except.toOption] using hrun
    exact ⟨reg, fragment, d, entries, hplain, congrArg Prod.fst hask, hboth.1, hboth.2, hentries⟩

end Typewire
