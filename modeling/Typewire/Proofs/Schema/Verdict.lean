import Typewire.Proofs.Schema.Document

/-! # Terms with schemas

A term has a complete schema document if and only if all terms that it needs are described and the
maps that would be shown have keys that can name members. What a registry without factories was
asked before makes no difference to that.
-/

namespace Typewire

open Registry

namespace Registry

variable {r : Reference} {reg : Registry} {calls : Nat} {term : TypeTerm}

/-- Between requests, in agreement with the reference, and with what is published closed. -/
structure Intact (r : Reference) (reg : Registry) : Prop extends Complete r reg where
  closed : reg.Closed

theorem intact_initial (host : Host) (settings : Settings) :
    Intact ⟨host, settings, fun _ => none⟩ (initial host settings) :=
  ⟨Factoryless.initial.complete, (sound_initial host settings).closed⟩

namespace Intact

variable (h : Intact r reg)

include h

theorem sound : reg.Sound :=
  ⟨h.toIdle, h.closed, fun type factory hf => by
    rw [h.agrees.factories] at hf
    cases hf⟩

theorem resolve (calls : Nat) (term : TypeTerm) : Intact r (resolve calls term reg).2 :=
  ⟨h.lookup calls term, (h.sound.resolve calls term).closed⟩

theorem resolve_again {ref : CodecRef}
    (hfound : (Registry.resolve calls term reg).1 = .ok (.ok ref)) (n : Nat) :
    (Registry.resolve (n + 1) term (Registry.resolve calls term reg).2).1 =
      .ok (.ok ref) := by
  obtain ⟨hterm, hp⟩ := h.publishes_resolve hfound
  have hsettings := (h.resolve calls term).agrees.settings.trans h.agrees.settings.symm
  rw [Registry.canonical, ← hsettings] at hterm
  rw [resolve_of_publishes hp hterm]

theorem withStats (stats : Stats) : Intact r { reg with stats } where
  idle := h.idle
  published_filled := h.published_filled
  staged_lt := h.staged_lt
  staged_new := h.staged_new
  staged_nodup := h.staged_nodup
  canonical := h.toWellFormed.canonical
  depth := h.depth
  agrees := h.agrees.congr rfl rfl rfl rfl rfl rfl h.agrees.layouts
  explored := h.explored
  closed := ⟨h.closed.canonical, h.closed.filled⟩

end Intact

theorem Complete.not_halted (h : Complete r reg) (hhost : ∀ type, r.host.layout type ≠ none)
    (hfin : (r.closure (r.settings.canonical term)).Finite)
    (hcalls : hfin.toFinset.card < calls) (why : Halt) :
    (Registry.resolve calls term reg).1 ≠ .error why := by
  intro he
  have hsearch := h.search calls term
  rw [Reference.survey, he] at hsearch
  rcases Search.blames_visit _ _ _ _ _ _ hsearch.symm with hend | ⟨key, -, hstep⟩
  · exact visit_ends hfin hcalls reg.seen (hsearch.symm.trans (congrArg Except.error hend))
  · unfold Reference.steps at hstep
    split at hstep
    · cases hstep
    · unfold Reference.stepsFor at hstep
      split at hstep
      · exact hhost _ ‹_›
      · simp at hstep
      · obtain ⟨s, -, hs⟩ := List.mem_map.1 hstep
        rcases s with e | part <;> cases hs

end Registry

namespace Reference

structure Presentable (r : Reference) (key : TypeTerm) : Prop where
  described : ∀ k ∈ r.closure key, r.customs k = none → r.Described k
  keyed : ∀ map ∈ r.depicted key, ∀ k, r.Keys map k → r.StringBacked k

/-- The dependencies are finite, and few enough for the bound on calls. -/
structure Affordable (r : Reference) (calls : Nat) (key : TypeTerm) : Prop where
  finite : (r.closure key).Finite
  bound : ((r.closure key).ncard + 1) ^ 2 ≤ calls

variable {r : Reference} {key : TypeTerm} {calls : Nat}

theorem Affordable.card_lt (h : r.Affordable calls key) : h.finite.toFinset.card < calls := by
  rw [← Set.ncard_eq_toFinset_card _ h.finite]
  have hle := Nat.le_self_pow (by decide : 2 ≠ 0) ((r.closure key).ncard + 1)
  have := h.bound
  omega

theorem Affordable.of_within {n : Nat} {term : TypeTerm} (h : r.Within n term)
    (hn : n ^ 2 ≤ calls) : r.Affordable calls (r.settings.canonical term) := by
  obtain ⟨hfin, hcard⟩ := h
  rw [← Set.ncard_eq_toFinset_card _ hfin] at hcard
  exact ⟨hfin, (Nat.pow_le_pow_left (Nat.succ_le_of_lt hcard) 2).trans hn⟩

end Reference

namespace Dictionary

variable {r : Reference} {reg base : Registry} {term : TypeTerm} {ref : CodecRef} {calls : Nat}
  {displayName : TypeName → String} {d : Dictionary}

theorem run_schemaWithin_error {resolve : Lookup} {e : RegistryError}
    (h : resolve term reg = (.ok (.error e), base)) :
    ((schemaWithin displayName (calls + 1) term).run.run d).run resolve reg =
      (.ok (.error (.registry e), d), base) := by
  have hrun := Collecting.run_lookup resolve reg term d
  rw [h] at hrun
  rw [schemaWithin, Collecting.run_bind, Query.run_bind, hrun]
  rfl

def Completes (result : Except SchemaError Schema) (d : Dictionary) : Prop :=
  ∃ fragment entries, result = .ok fragment ∧ d.complete? = .ok entries

theorem completes_iff {root : TypeTerm} {refPrefix : String} {result : Except SchemaError Schema}
    (h : Collecting.Fits (r.Unkeyed root)
      (fun fragment d' => r.Adds root { refPrefix } d' (r.spread root) fragment.refs) result d) :
    Completes result d ↔ ∀ map ∈ r.depicted root, ∀ k, r.Keys map k → r.StringBacked k := by
  cases result with
  | error e =>
    obtain ⟨map, hmap, key, hkeys, hbacked, -⟩ := h
    refine ⟨?_, fun hall => absurd (hall map hmap key hkeys) hbacked⟩
    rintro ⟨fragment, entries, hok, -⟩
    cases hok
  | ok fragment =>
    obtain ⟨entries, hcomplete, -, hnames, hentries⟩ :=
      exists_complete? h.inProgress.toSound fun name hn => by
        cases h.extended.reserved name hn
    refine ⟨fun _ map hmap k hk => ?_, fun _ => ⟨fragment, entries, rfl, hcomplete⟩⟩
    exact Reference.stringBacked_of_keys h.inProgress h.renders hentries hnames hmap hk

section Pass

variable (h : Intact r reg) (hcalls : r.Affordable calls (r.settings.canonical term))

include h hcalls

theorem found_or_refused (hhost : ∀ type, r.host.layout type ≠ none) :
    (∃ ref, (resolve calls term reg).1 = .ok (.ok ref)) ∨
      ∃ e, (resolve calls term reg).1 = .ok (.error e) ∧
        ¬ r.Presentable (r.settings.canonical term) := by
  rcases hres : (resolve calls term reg).1 with why | e | ref
  · exact absurd hres (h.not_halted hhost hcalls.finite hcalls.card_lt why)
  · refine .inr ⟨e, rfl, fun hp => ?_⟩
    obtain ⟨ref, hok⟩ :=
      (h.toComplete.found_iff hcalls.finite hcalls.card_lt).2.2 hp.described
    cases hres.symm.trans hok
  · exact .inl ⟨ref, rfl⟩

variable (hformatted : ∀ key codec, r.customs key = some codec →
    ∃ format accepts, codec = .formatted format accepts)
  (hguarded : r.Guarded (r.settings.canonical term))

include hformatted hguarded

theorem exists_run_of_found (hfound : (resolve calls term reg).1 = .ok (.ok ref))
    (displayName : TypeName → String) (refPrefix : String) :
    ∃ result d stats,
      ((schemaWithin displayName calls term).run.run { refPrefix }).run (resolve calls) reg =
        (.ok (result, d), { (resolve calls term reg).2 with stats }) ∧
      (Completes result d ↔ r.Presentable (r.settings.canonical term)) := by
  have hready := ready_resolve h.toComplete h.sound hformatted hfound hguarded
  have hcost := (Reference.cost_lt (d := { refPrefix }) hcalls.finite .refl).trans_le hcalls.bound
  have hdescribed := (h.toComplete.of_found hfound).1
  obtain ⟨limit, rfl⟩ : ∃ limit, calls = limit + 1 :=
    Nat.exists_eq_succ_of_ne_zero (Nat.ne_zero_of_lt hcost)
  obtain ⟨result, d, stats, hrun, hresult⟩ := exists_run displayName h.toIdle hfound hready
    h.agrees.settings (Reference.partial_empty refPrefix) hcost
  refine ⟨result, d, stats, hrun, (completes_iff hresult).trans ⟨fun hkeyed => ?_, fun hp => ?_⟩⟩
  · exact ⟨hdescribed, hkeyed⟩
  · exact hp.keyed

/-- A pass ends, whether there is a codec or not, and says whether there is a document. -/
theorem exists_run_presentable (hhost : ∀ type, r.host.layout type ≠ none)
    (displayName : TypeName → String) (refPrefix : String) :
    ∃ result d reg',
      ((schemaWithin displayName calls term).run.run { refPrefix }).run (resolve calls) reg =
        (.ok (result, d), reg') ∧
      (Completes result d ↔ r.Presentable (r.settings.canonical term)) := by
  rcases found_or_refused h hcalls hhost with ⟨ref, hfound⟩ | ⟨e, hfail, hnot⟩
  · obtain ⟨result, d, stats, hrun, hiff⟩ :=
      exists_run_of_found h hcalls hformatted hguarded hfound displayName refPrefix
    exact ⟨result, d, _, hrun, hiff⟩
  · obtain ⟨limit, rfl⟩ : ∃ limit, calls = limit + 1 :=
      Nat.exists_eq_succ_of_ne_zero (Nat.ne_zero_of_lt hcalls.card_lt)
    refine ⟨_, _, _, run_schemaWithin_error (Prod.ext hfail rfl), iff_of_false ?_ hnot⟩
    rintro ⟨_, _, hok, -⟩
    cases hok

end Pass

end Dictionary

end Typewire
