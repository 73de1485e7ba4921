import Typewire.Proofs.Schema.Sketch
import Typewire.Proofs.Schema.Verdict

/-! # Passes in any order

Schemas that are asked for one after the other with one dictionary. To ask again changes nothing,
and if no two terms have the same base for their names, the order makes no difference.
-/

namespace Typewire

open Relation Registry Collecting

theorem Registry.Factoryless.intact {host : Host} {settings : Settings}
    {customs : TypeTerm → Option Codec} {reg : Registry}
    (h : Factoryless host settings customs reg)
    (hflat : Reference.Flat ⟨host, settings, customs⟩) :
    Intact ⟨host, settings, customs⟩ reg := by
  induction h with
  | initial => exact ⟨Factoryless.initial.complete, (sound_initial host settings).closed⟩
  | lookup calls term _ ih => exact (ih hflat).resolve calls term
  | @registered customs reg term codec h ho ih =>
    have hnone : customs (reg.canonical term) = none := by
      refine Option.eq_none_iff_forall_ne_some.2 fun custom hc => ?_
      obtain ⟨slot, hslot⟩ := h.complete.agrees.customs _ custom hc
      rcases override_cases reg term codec with ⟨-, he⟩ | ⟨hn, -⟩
      · rw [he] at ho
        cases ho
      · rw [slot?, hslot, Option.some_or] at hn
        cases hn
    have hbefore : Reference.Flat ⟨host, settings, customs⟩ := fun key custom hc => by
      have hne : key ≠ reg.canonical term := by
        rintro rfl
        cases hnone.symm.trans hc
      exact hflat key custom ((Function.update_of_ne hne ..).trans hc)
    have hrefs : codec.refs = [] := by
      have hbare : codec.bare.refs = [] := by
        rcases hflat _ codec.bare (Function.update_self ..) with ⟨_, _, he⟩ | ⟨_, he⟩ <;>
          rw [he] <;> rfl
      rwa [Codec.bare, Codec.refs_mapRefs, List.map_eq_nil_iff] at hbare
    refine ⟨(Factoryless.registered term codec h ho).complete, ?_⟩
    exact ((ih hbefore).sound.override term fun ref href => by simp [hrefs] at href).closed
  | refused term codec _ hn ih =>
    rw [override_of_ne hn]
    exact ih hflat

namespace Collecting

variable {α β : Type} {P : Registry → Prop} {limit : Nat}

def Preserves (P : Registry → Prop) (limit : Nat) (x : Collecting α) : Prop :=
  ∀ d reg, P reg → P ((x.run.run d).run (resolve limit) reg).2

theorem preserves_pure (a : α) : Preserves P limit (pure a) := fun _ _ h => h

theorem preserves_throw (e : SchemaError) : Preserves P limit (throw e : Collecting α) :=
  fun _ _ h => h

theorem Preserves.bind {x : Collecting α} {f : α → Collecting β} (hx : Preserves P limit x)
    (hf : ∀ a, Preserves P limit (f a)) : Preserves P limit (x >>= f) := by
  intro d reg h
  have hreg := hx d reg h
  rw [run_bind, Query.run_bind]
  rcases hrun : (x.run.run d).run (resolve limit) reg with ⟨why | ⟨e | a, d'⟩, reg'⟩ <;>
    rw [hrun] at hreg
  · exact hreg
  · exact hreg
  · exact hf a d' reg' hreg

theorem sequential_preserves : Sequential (Preserves P limit) :=
  ⟨preserves_pure, preserves_throw, Preserves.bind⟩

theorem preserves_lookup (hP : ∀ term reg, P reg → P (resolve limit term reg).2)
    (term : TypeTerm) : Preserves P limit (Collecting.ask (Ask.lookup term)) := by
  intro d reg h
  rw [run_lookup]
  exact hP term reg h

theorem preserves_fragment {nested : TypeTerm → Collecting Schema}
    (hn : ∀ term, Preserves P limit (nested term)) (displayName : TypeName → String)
    (ref : CodecRef) : Preserves P limit (fragment nested displayName ref) := by
  have hstore : Preserves P limit (Collecting.ask Ask.store) := fun _ _ h => h
  have hget : Preserves P limit (getThe Dictionary) := fun _ _ h => h
  have hset (d : Dictionary) : Preserves P limit (set d : Collecting PUnit) := fun _ _ h => h
  have hmodify (f : Dictionary → Dictionary) :
      Preserves P limit (modifyThe Dictionary f : Collecting PUnit) := fun _ _ h => h
  refine hstore.bind fun store => ?_
  split
  · exact preserves_throw _
  · rename_i codec _
    have hbody : Preserves P limit (body nested store codec) :=
      sequential_preserves.body (fun term _ => hn term) store
    split
    · exact hbody
    · refine hget.bind fun d => ?_
      split
      · exact preserves_pure _
      · exact (hset _).bind fun _ => hbody.bind fun _ => (hmodify _).bind fun _ =>
          preserves_pure _

end Collecting

namespace Dictionary

def collect (displayName : TypeName → String) (calls : Nat) (terms : List TypeTerm) :
    Collecting (List Schema) :=
  terms.mapM (schemaWithin displayName calls)

/-- The dictionaries differ at most in the order in which names were given. -/
structure Same (d d' : Dictionary) : Prop where
  refPrefix : d'.refPrefix = d.refPrefix
  entries : d'.entries = d.entries
  names : ∀ key, Table.get? key d'.names = Table.get? key d.names
  taken : ∀ name, name ∈ d'.taken ↔ name ∈ d.taken

section Preserves

variable {P : Registry → Prop} {limit : Nat}
  (hP : ∀ term reg, P reg → P (resolve limit term reg).2) (displayName : TypeName → String)
  (calls : Nat)

include hP

theorem preserves_schemaWithin (term : TypeTerm) :
    Preserves P limit (schemaWithin displayName calls term) := by
  induction calls generalizing term with
  | zero => exact fun _ _ h => h
  | succ calls ih =>
    refine (preserves_lookup hP term).bind fun found => ?_
    split
    · exact preserves_throw _
    · exact preserves_fragment ih displayName _

theorem preserves_collect (terms : List TypeTerm) :
    Preserves P limit (collect displayName calls terms) := by
  induction terms with
  | nil => exact preserves_pure _
  | cons term terms ih =>
    rw [collect, List.mapM_cons]
    exact (preserves_schemaWithin hP displayName calls term).bind fun _ =>
      Preserves.bind ih fun _ => preserves_pure _

end Preserves

end Dictionary

namespace Reference

/-- The lookup of the term ends with a codec, given enough calls. -/
structure Resolvable (r : Reference) (key : TypeTerm) : Prop where
  finite : (r.closure key).Finite
  described : ∀ k ∈ r.closure key, r.customs k = none → r.Described k

structure Gained (r : Reference) (reg : Registry) (d : Dictionary) (depth : Nat) (term : TypeTerm)
    (schema : Schema) : Prop where
  resolvable : r.Resolvable (r.settings.canonical term)
  published : ∃ ref, reg.Publishes ref ∧ r.settings.canonical term = ref.term
  picture : r.Pictures d depth (r.settings.canonical term) schema

variable {r : Reference} {reg reg' : Registry} {displayName : TypeName → String}
  {scope : Set TypeTerm} {depth calls limit : Nat} {d d' sketch : Dictionary} {term : TypeTerm}
  {terms : List TypeTerm} {fragment : Schema} {fragments : List Schema}

theorem basis_of_intact (h : Intact r reg) (hflat : r.Flat) : r.Basis reg :=
  ⟨h.agrees, h.closed, hflat⟩

theorem intact_resolve (limit : Nat) (term : TypeTerm) (reg : Registry) (h : Intact r reg) :
    Intact r (resolve limit term reg).2 := h.resolve limit term

section Runs

variable (h : Intact r reg) (hflat : r.Flat)
  (hscope : ∀ a ∈ scope, ∀ b, r.Depicts a b → b ∈ scope)

include h hflat hscope

theorem gained_of_run (hn : calls ≤ depth) (hmem : r.settings.canonical term ∈ scope)
    (hd : r.Sketched displayName scope depth d)
    (hrun : ((Dictionary.schemaWithin displayName calls term).run.run d).run (resolve limit) reg =
      (.ok (.ok fragment, d'), reg')) :
    r.Continues displayName scope depth d d' ∧ r.Gained reg' d' calls term fragment := by
  cases calls with
  | zero => cases hrun
  | succ calls =>
    have hlookup := Collecting.run_lookup (resolve limit) reg term d
    rcases hfound : (resolve limit term reg).1 with why | e | ref <;> rw [hfound] at hlookup
    · rw [Dictionary.schemaWithin, Collecting.run_bind, Query.run_bind, hlookup] at hrun
      cases hrun
    · rw [Dictionary.schemaWithin, Collecting.run_bind, Query.run_bind, hlookup] at hrun
      cases hrun
    · obtain ⟨hterm, hp⟩ := h.publishes_resolve hfound
      rw [Registry.canonical, h.agrees.settings] at hterm
      rw [Dictionary.run_schemaWithin (Prod.ext hfound rfl)] at hrun
      have hbasis := basis_of_intact (h.resolve limit term) hflat
      obtain ⟨hdescribed, hpublished⟩ := h.toComplete.of_found hfound
      obtain ⟨limit, rfl⟩ : ∃ limit', limit = limit' + 1 := by
        cases limit with
        | zero => cases hfound
        | succ limit => exact ⟨limit, rfl⟩
      have hle : calls ≤ depth := Nat.le_of_succ_le hn
      obtain ⟨⟨hcontinues, hpicture⟩, stats, rfl⟩ :=
        hbasis.allows_fragment hscope hle hp (hterm ▸ hmem)
          (fun _ _ _ hp hterm hmem hd => hbasis.allows_schemaWithin hscope hle hp hterm hmem hd)
          hd limit (resolve (limit + 1) term reg).2.stats fragment d' reg' hrun
      refine ⟨hcontinues, ⟨?_, hdescribed⟩, ⟨ref, hp, hterm.symm⟩, hterm ▸ hpicture⟩
      exact (List.finite_toSet _).subset fun key hk => (hpublished key).2 (.inr hk)

theorem gained_of_collect (hn : calls ≤ depth)
    (hmem : ∀ term ∈ terms, r.settings.canonical term ∈ scope)
    (hd : r.Sketched displayName scope depth d)
    (hrun : ((Dictionary.collect displayName calls terms).run.run d).run (resolve limit) reg =
      (.ok (.ok fragments, d'), reg')) :
    r.Continues displayName scope depth d d' ∧
      List.Forall₂ (r.Gained reg' d' calls) terms fragments := by
  induction terms generalizing reg d fragments with
  | nil =>
    cases hrun
    exact ⟨course_continues.refl hd, .nil⟩
  | cons term terms ih =>
    obtain ⟨hterm, hmem⟩ := List.forall_mem_cons.1 hmem
    rw [Dictionary.collect, List.mapM_cons, Collecting.run_bind, Query.run_bind] at hrun
    rcases hfirst : ((Dictionary.schemaWithin displayName calls term).run.run d).run
      (resolve limit) reg with ⟨why | ⟨e | fragment, d₁⟩, reg₁⟩ <;> rw [hfirst] at hrun
    · cases hrun
    · cases hrun
    dsimp only at hrun
    rw [Collecting.run_bind, Query.run_bind] at hrun
    rcases hrest : ((Dictionary.collect displayName calls terms).run.run d₁).run
      (resolve limit) reg₁ with ⟨why | ⟨e | rest, d₂⟩, reg₂⟩ <;>
      rw [Dictionary.collect] at hrest <;> rw [hrest] at hrun
    · cases hrun
    · cases hrun
    cases hrun
    obtain ⟨hcontinues, hgained⟩ := gained_of_run h hflat hscope hn hterm hd hfirst
    have hintact : Intact r reg₁ := by
      have hkept := Dictionary.preserves_schemaWithin (intact_resolve limit) displayName calls term
        d reg h
      rwa [hfirst] at hkept
    obtain ⟨hcontinues', hall⟩ := ih hintact hmem hcontinues.sketched hrest
    refine ⟨course_continues.trans hcontinues hcontinues', .cons ⟨hgained.resolvable, ?_, ?_⟩ hall⟩
    · -- What is published stays so.
      obtain ⟨ref, hp, hterm⟩ := hgained.published
      have hresolve : ∀ term reg, reg.WellFormed ∧ Extends reg₁ reg →
          (resolve limit term reg).2.WellFormed ∧ Extends reg₁ (resolve limit term reg).2 :=
        fun term reg h => (keeps_resolve limit term reg h.1).imp_right h.2.trans
      have hextends := Dictionary.preserves_collect hresolve displayName calls terms d₁ reg₁
        ⟨hintact.toWellFormed, .refl reg₁⟩
      rw [Dictionary.collect, hrest] at hextends
      exact ⟨ref, hp.extends hextends.2, hterm⟩
    · exact hgained.picture.mono hcontinues'.extended.toRetains le_rfl

variable {known : Finset TypeTerm} (hknown : ∀ key ∈ scope, r.Named key → key ∈ known)
  (hpictures : ∀ key ∈ scope, ∃ s, r.Pictures sketch depth key s)

include hknown hpictures

theorem exists_run (displayName : TypeName → String) (d : Dictionary)
    (hmem : r.settings.canonical term ∈ scope)
    (hresolvable : r.Resolvable (r.settings.canonical term))
    (hlimit : (r.closure (r.settings.canonical term)).ncard < limit)
    (hcalls : missing known d * (depth + 1) + depth < calls) :
    ∃ fragment d' reg', ((Dictionary.schemaWithin displayName calls term).run.run d).run
      (resolve limit) reg = (.ok (.ok fragment, d'), reg') := by
  rw [Set.ncard_eq_toFinset_card _ hresolvable.finite] at hlimit
  obtain ⟨ref, hfound⟩ :=
    (h.toComplete.found_iff hresolvable.finite hlimit).2.2 hresolvable.described
  obtain ⟨hterm, hp⟩ := h.publishes_resolve hfound
  rw [Registry.canonical, h.agrees.settings] at hterm
  obtain ⟨limit, rfl⟩ : ∃ limit', limit = limit' + 1 := ⟨limit - 1, by omega⟩
  obtain ⟨calls, rfl⟩ : ∃ calls', calls = calls' + 1 := ⟨calls - 1, by omega⟩
  have hbasis := basis_of_intact (intact_resolve (limit + 1) term reg h) hflat
  obtain ⟨s, hs⟩ := hpictures _ hmem
  rw [← hterm] at hmem hs
  obtain ⟨result, d', stats, hrun, hresult⟩ :=
    hbasis.gives_fragment hscope hknown hpictures displayName d le_rfl hp hmem hs
      (fun term ref d' m s hp hterm hmem hm hs hless =>
        hbasis.gives_schemaWithin hscope hknown hpictures displayName hm hp hterm hmem hs
          (Nat.le_of_lt_succ (hless.trans hcalls)))
      limit (resolve (limit + 1) term reg).2.stats
  rw [Dictionary.run_schemaWithin (Prod.ext hfound rfl)]
  cases result with
  | error e => exact hresult.elim
  | ok fragment => exact ⟨fragment, d', _, hrun⟩

theorem exists_collect (displayName : TypeName → String) (d : Dictionary)
    (hmem : ∀ term ∈ terms, r.settings.canonical term ∈ scope)
    (hresolvable : ∀ term ∈ terms, r.Resolvable (r.settings.canonical term))
    (hlimit : ∀ term ∈ terms, (r.closure (r.settings.canonical term)).ncard < limit)
    (hcalls : known.card * (depth + 1) + depth < calls) :
    ∃ fragments d' reg', ((Dictionary.collect displayName calls terms).run.run d).run
      (resolve limit) reg = (.ok (.ok fragments, d'), reg') := by
  induction terms generalizing reg d with
  | nil => exact ⟨[], d, reg, rfl⟩
  | cons term terms ih =>
    obtain ⟨hterm, hmem⟩ := List.forall_mem_cons.1 hmem
    obtain ⟨hfirst, hresolvable⟩ := List.forall_mem_cons.1 hresolvable
    obtain ⟨hlimit', hlimit⟩ := List.forall_mem_cons.1 hlimit
    have hle : missing known d ≤ known.card := Finset.card_filter_le _ _
    obtain ⟨fragment, d₁, reg₁, hrun⟩ :=
      exists_run h hflat hscope hknown hpictures displayName d hterm hfirst hlimit'
        ((Nat.add_le_add_right (Nat.mul_le_mul_right _ hle) _).trans_lt hcalls)
    have hkept := Dictionary.preserves_schemaWithin (intact_resolve limit) displayName calls term
      d reg h
    rw [hrun] at hkept
    obtain ⟨fragments, d₂, reg₂, hrest⟩ := ih hkept d₁ hmem hresolvable hlimit
    refine ⟨fragment :: fragments, d₂, reg₂, ?_⟩
    rw [Dictionary.collect] at hrest ⊢
    rw [List.mapM_cons, Collecting.run_bind, Query.run_bind, hrun]
    dsimp only
    rw [Collecting.run_bind, Query.run_bind, hrest]
    rfl

end Runs

/-- Nothing is only reserved, and all terms in the scope have pictures. -/
structure Finished (r : Reference) (displayName : TypeName → String) (scope : Set TypeTerm)
    (depth : Nat) (d : Dictionary) : Prop extends r.Sketched displayName scope depth d where
  made : ∀ name, Members.get? name d.entries ≠ some none
  pictures : ∀ key ∈ scope, ∃ s, r.Pictures d depth key s

theorem reached_closed (terms : List TypeTerm) :
    ∀ a ∈ r.reached terms, ∀ b, r.Depicts a b → b ∈ r.reached terms :=
  fun _ ⟨term, ht, ha⟩ _ hab => ⟨term, ht, ha.tail hab⟩

theorem reached_of_mem (ht : term ∈ terms) : r.settings.canonical term ∈ r.reached terms :=
  ⟨term, ht, .refl⟩

theorem reached_eq_of_perm {terms' : List TypeTerm} (h : terms'.Perm terms) :
    r.reached terms' = r.reached terms := by
  ext key
  simp only [reached, h.mem_iff]

theorem finished_of_collect {refPrefix : String} (h : Intact r reg) (hflat : r.Flat)
    (hrun : ((Dictionary.collect displayName calls terms).run.run { refPrefix }).run
      (resolve limit) reg = (.ok (.ok fragments, d), reg')) :
    d.refPrefix = refPrefix ∧ r.Finished displayName (r.reached terms) calls d ∧
      List.Forall₂ (r.Gained reg' d calls) terms fragments := by
  obtain ⟨⟨hextended, hsketched⟩, hgained⟩ := gained_of_collect h hflat (reached_closed terms)
    le_rfl (fun _ => reached_of_mem) (sketched_empty refPrefix) hrun
  have hmade : ∀ name, Members.get? name d.entries ≠ some none := fun name hn => by
    cases hextended.reserved name hn
  refine ⟨hextended.refPrefix, ⟨hsketched, hmade, ?_⟩, hgained⟩
  rintro key ⟨term, ht, hkey⟩
  obtain ⟨s, -, hs⟩ := exists_right_of_forall₂ hgained ht
  exact hsketched.exists_picture hflat hmade hs.picture key hkey

namespace Finished

variable {depth' : Nat} (hd : r.Finished displayName scope depth d)
  (hd' : r.Finished displayName scope depth' d')

include hd

theorem exists_name (hflat : r.Flat) {key : TypeTerm} (hkey : key ∈ scope) (hn : r.Named key) :
    ∃ name, Table.get? key d.names = some name := by
  obtain ⟨s, hs⟩ := hd.pictures key hkey
  cases depth with
  | zero => exact hs.elim
  | succ depth =>
    obtain ⟨codec, hc, ⟨-, name, hname, -⟩ | ⟨hnot, -⟩⟩ := hs
    · exact ⟨name, hname⟩
    · cases hnot.symm.trans ((hflat.isNamed_iff hc).2 hn)

theorem get?_names (hflat : r.Flat) (hdistinct : r.Distinct displayName scope) (key : TypeTerm)
    (name : String) : Table.get? key d.names = some name ↔
      key ∈ scope ∧ r.Named key ∧ name = Dictionary.baseName displayName key := by
  refine ⟨fun hname => ⟨(hd.named key name hname).1, (hd.named key name hname).2,
    hd.base hdistinct key name hname⟩, ?_⟩
  rintro ⟨hkey, hn, rfl⟩
  obtain ⟨name, hname⟩ := hd.exists_name hflat hkey hn
  rw [hname, hd.base hdistinct key name hname]

include hd'

theorem get?_entries (href : d'.refPrefix = d.refPrefix)
    (hnames : ∀ key, Table.get? key d'.names = Table.get? key d.names) (name : String) :
    Members.get? name d'.entries = Members.get? name d.entries := by
  have hmem : name ∈ Members.names d'.entries ↔ name ∈ Members.names d.entries := by
    simp only [hd.entries, hd'.entries, hnames]
  by_cases hname : name ∈ Members.names d.entries
  · obtain ⟨key, hkey⟩ := (hd.entries name).1 hname
    have hkey' := (hnames key).trans hkey
    obtain ⟨schema, hs⟩ := hd.exists_entry (hd.made name) hkey
    obtain ⟨schema', hs'⟩ := hd'.exists_entry (hd'.made name) hkey'
    -- Both entries are put together for the term that has the name.
    obtain ⟨codec, hc, hparts⟩ := hd.filled key name schema hkey hs
    obtain ⟨codec', hc', hparts'⟩ := hd'.filled key name schema' hkey' hs'
    cases hc.symm.trans hc'
    rw [hs, hs', hparts'.unique hparts fun _ _ _ => Pictures.unique href
      fun key _ _ hn hn' => Option.some.inj (hn.symm.trans ((hnames key).trans hn'))]
  · have hname' := hmem.not.2 hname
    rw [← Members.has_iff, Members.has, Option.isSome_iff_ne_none, not_not] at hname hname'
    rw [hname, hname']

theorem same (hflat : r.Flat) (hdistinct : r.Distinct displayName scope)
    (href : d'.refPrefix = d.refPrefix) : d.Same d' := by
  have hnames : ∀ key, Table.get? key d'.names = Table.get? key d.names := fun key =>
    Option.ext fun name => (hd'.get?_names hflat hdistinct key name).trans
      (hd.get?_names hflat hdistinct key name).symm
  refine ⟨href, hd'.sorted.ext hd.sorted (hd.get?_entries hd' href hnames), hnames,
    fun name => ?_⟩
  simp only [hd.taken, hd'.taken, hd.entries, hd'.entries, hnames]

end Finished

theorem Gained.unique {depth' : Nat} {schema schema' : Schema} (hsame : d.Same d')
    (h : r.Gained reg d depth term schema) (h' : r.Gained reg' d' depth' term schema') :
    schema' = schema :=
  h'.picture.unique hsame.refPrefix (fun key _ _ hn hn' =>
    Option.some.inj (hn.symm.trans ((hsame.names key).trans hn'))) h.picture

/-- There are bounds with which passes over the terms succeed in any order. -/
theorem Finished.exists_bound (hd : r.Finished displayName (r.reached terms) depth d)
    (hflat : r.Flat) (hresolvable : ∀ term ∈ terms, r.Resolvable (r.settings.canonical term)) :
    ∃ bound, ∀ calls ≥ bound, ∀ limit ≥ bound, ∀ terms', terms'.Perm terms →
      ∀ base, Intact r base → ∀ start, ∃ fragments d' base',
        ((Dictionary.collect displayName calls terms').run.run start).run (resolve limit) base =
          (.ok (.ok fragments, d'), base') := by
  let known : Finset TypeTerm := (Table.keys d.names).toFinset
  let size (term : TypeTerm) : Nat := (r.closure (r.settings.canonical term)).ncard
  have hknown : ∀ key ∈ r.reached terms, r.Named key → key ∈ known := by
    intro key hkey hn
    have hname := Option.isSome_iff_exists.2 (hd.exists_name hflat hkey hn)
    exact List.mem_toFinset.2 (Table.has_iff.1 hname)
  refine ⟨max (terms.toFinset.sup size + 1) (known.card * (depth + 1) + depth + 1),
    fun calls hcalls limit hlimit terms' hperm base hbase start => ?_⟩
  have hsize : ∀ term ∈ terms', size term < limit := by
    intro term ht
    have hle : size term ≤ terms.toFinset.sup size :=
      Finset.le_sup (List.mem_toFinset.2 (hperm.mem_iff.1 ht))
    exact hle.trans_lt ((Nat.lt_succ_self _).trans_le ((le_max_left _ _).trans hlimit))
  exact exists_collect hbase hflat (reached_closed terms) hknown hd.pictures displayName start
    (fun term ht => reached_of_mem (hperm.mem_iff.1 ht))
    (fun term ht => hresolvable term (hperm.mem_iff.1 ht)) hsize
    ((Nat.lt_succ_self _).trans_le ((le_max_right _ _).trans hcalls))

theorem eq_map_of_forall₂ {α β : Type} {R : α → β → Prop} {f : α → β} {as : List α} {bs : List β}
    (h : List.Forall₂ R as bs) (hf : ∀ a ∈ as, ∀ b, R a b → b = f a) : bs = as.map f := by
  induction h with
  | nil => rfl
  | cons hab _ ih =>
    obtain ⟨ha, hf⟩ := List.forall_mem_cons.1 hf
    rw [List.map_cons, ha _ hab, ih hf]

end Reference

namespace Dictionary

variable {r : Reference} {reg reg' : Registry} {displayName : TypeName → String}
  {refPrefix : String} {terms : List TypeTerm} {fragments : List Schema} {d : Dictionary}
  {calls limit : Nat}

theorem Same.refl (d : Dictionary) : d.Same d :=
  ⟨rfl, rfl, fun _ => rfl, fun _ => Iff.rfl⟩

/-- Take a registry without factories, in which the registered codecs are formats and functions, and
terms whose schemas are asked for one after the other with a new dictionary, all with success. Each
term has one fragment, and to ask for it again gives this fragment and leaves the dictionary as it
is. If no two named terms that are reached have the same base, then to ask in any other order, of
this registry or of any other with the same types, settings and registered codecs, gives the same
fragments, the same names and the same entries, given enough calls. -/
theorem collect_stable (h : Factoryless r.host r.settings r.customs reg) (hflat : r.Flat)
    (hrun : ((collect displayName calls terms).run.run { refPrefix }).run (resolve limit) reg =
      (.ok (.ok fragments, d), reg')) :
    Factoryless r.host r.settings r.customs reg' ∧
    (∃ shown : TypeTerm → Schema, fragments = terms.map shown ∧
      (∀ term ∈ terms, ∀ calls' ≥ calls, ∀ limit' > 0, ∃ reg'',
        ((schemaWithin displayName calls' term).run.run d).run (resolve limit') reg' =
          (.ok (.ok (shown term), d), reg'')) ∧
      (r.Distinct displayName (r.reached terms) → ∃ bound, ∀ calls' ≥ bound, ∀ limit' ≥ bound,
        ∀ terms', terms'.Perm terms → ∀ base, Factoryless r.host r.settings r.customs base →
          ∃ d' base',
            ((collect displayName calls' terms').run.run { refPrefix }).run (resolve limit') base =
              (.ok (.ok (terms'.map shown), d'), base') ∧
            d.Same d' ∧ ∀ term, d'.nameOf? r.settings term = d.nameOf? r.settings term)) ∧
    ∀ d term, schemaFor displayName d term =
      (schemaWithin displayName callLimit term).run.run d := by
  have hintact : Intact r reg := h.intact hflat
  obtain ⟨href, hd, hgained⟩ := Reference.finished_of_collect hintact hflat hrun
  have hexists : ∀ term, ∃ s, term ∈ terms → r.Gained reg' d calls term s := by
    intro term
    by_cases ht : term ∈ terms
    · obtain ⟨s, -, hs⟩ := exists_right_of_forall₂ hgained ht
      exact ⟨s, fun _ => hs⟩
    · exact ⟨default, fun ht' => absurd ht' ht⟩
  choose shown hshown using hexists
  refine ⟨?_, ⟨shown, ?_, fun term ht calls' hcalls limit' hlimit => ?_, fun hdistinct => ?_⟩,
    fun _ _ => rfl⟩
  · have hlookup : ∀ term reg, Factoryless r.host r.settings r.customs reg →
        Factoryless r.host r.settings r.customs (resolve limit term reg).2 :=
      fun term _ h => h.lookup limit term
    have hkept := preserves_collect hlookup displayName calls terms { refPrefix } reg h
    rwa [hrun] at hkept
  · exact Reference.eq_map_of_forall₂ hgained fun term ht s hs =>
      (hshown term ht).unique (.refl d) hs
  · -- The dictionary has the picture of the term already.
    obtain ⟨ref, hp, hterm⟩ := (hshown term ht).published
    have hkept := preserves_collect (Reference.intact_resolve limit) displayName calls terms
      { refPrefix } reg hintact
    rw [hrun] at hkept
    obtain ⟨limit', rfl⟩ : ∃ n, limit' = n + 1 := ⟨limit' - 1, by omega⟩
    have hpicture := (hshown term ht).picture.mono (.refl d) hcalls
    obtain ⟨stats, hagain⟩ := (Reference.basis_of_intact hkept hflat).returns_schemaWithin
      displayName hp hterm (hterm ▸ hpicture) limit' reg'.stats
    exact ⟨_, hagain⟩
  · obtain ⟨bound, hbound⟩ := hd.exists_bound hflat fun term ht => (hshown term ht).resolvable
    refine ⟨bound, fun calls' hcalls limit' hlimit terms' hperm base hbase => ?_⟩
    have hbase' : Intact r base := hbase.intact hflat
    -- The other run ends too, and leaves a dictionary with the same scope.
    obtain ⟨fragments', d', base', hrun'⟩ :=
      hbound calls' hcalls limit' hlimit terms' hperm base hbase' { refPrefix }
    obtain ⟨href', hd', hgained'⟩ := Reference.finished_of_collect hbase' hflat hrun'
    rw [Reference.reached_eq_of_perm hperm] at hd'
    have hsame := hd.same hd' hflat hdistinct (href'.trans href.symm)
    have hfragments : fragments' = terms'.map shown :=
      Reference.eq_map_of_forall₂ hgained' fun term ht s hs =>
        (hshown term (hperm.mem_iff.1 ht)).unique hsame hs
    exact ⟨d', base', hfragments ▸ hrun', hsame, fun term => hsame.names _⟩

end Dictionary

def CatalogFile.library : CatalogFile where
  records := [
    { name := "Author"
      properties := [{ name := "books", type := "List<Book>", binding := .property }] },
    { name := "Book"
      properties := [
        { name := "author", type := "Author", binding := .property },
        { name := "mark", type := "Class", binding := .property }] }]

def CustomCodec.mark : CustomCodec where
  encode _ := .ok (.int 0)
  decode _ := .ok .null
  schema := .ofType .integer

namespace Reference

variable {r : Reference} {displayName : TypeName → String} {terms : List TypeTerm}

theorem distinct_of_closed {all : Finset TypeTerm}
    (hparts : ∀ k ∈ all, ∀ part, r.Depicts k part → part ∈ all)
    (hterms : ∀ term ∈ terms, r.settings.canonical term ∈ all)
    (hbases : ∀ a ∈ all, ∀ b ∈ all,
      Dictionary.baseName displayName a = Dictionary.baseName displayName b → a = b) :
    r.Distinct displayName (r.reached terms) := by
  have hsub : r.reached terms ⊆ all := by
    rintro key ⟨term, ht, hkey⟩
    induction hkey with
    | refl => exact hterms term ht
    | tail _ hab ih => exact hparts _ ih _ hab
  exact fun a ha b hb => hbases a (hsub ha.1) b (hsub hb.1)

def library : Reference where
  host := (Catalog.ofFiles [.library]).host
  settings := {}
  customs := Function.update (fun _ => none) ⟨"Class", []⟩ (some (Codec.custom .mark).bare)

theorem layouts_library :
    library.host.layout "Author" = some (.ok (.record
      { constructor := .record "Author" []
        properties := [
          { name := "books", type := .apply "List" [.apply "Book" []], binding := .setter,
            accessor := .field "books" }] })) ∧
    library.host.layout "Book" = some (.ok (.record
      { constructor := .record "Book" []
        properties := [
          { name := "author", type := .apply "Author" [], binding := .setter,
            accessor := .field "author" },
          { name := "mark", type := .apply "Class" [], binding := .setter,
            accessor := .field "mark" }] })) ∧
    library.host.layout "List" = some (.ok (.sequence .list (.param 0))) :=
  ⟨rfl, rfl, rfl⟩

theorem flat_library : library.Flat := by
  intro key codec hc
  simp only [library, Function.update_apply] at hc
  split at hc <;> cases hc
  exact .inr ⟨.mark, rfl⟩

theorem distinct_library :
    library.Distinct TypeName.simple (library.reached [⟨"Author", []⟩, ⟨"Book", []⟩]) := by
  let all : Finset TypeTerm :=
    {⟨"Author", []⟩, ⟨"Book", []⟩, ⟨"List", [⟨"Book", []⟩]⟩, ⟨"Class", []⟩}
  have hcanonical : ∀ t ∈ all, library.settings.canonical t ∈ all := by decide
  suffices hparts : ∀ k ∈ all, ∀ part, library.Depicts k part → part ∈ all from
    distinct_of_closed hparts (by decide) (by decide)
  obtain ⟨hauthor, hbook, hlist⟩ := layouts_library
  rintro k hk part ⟨hc, layout, scheme, target, hl, hs, hi, rfl⟩
  refine hcanonical _ ?_
  simp only [all, Finset.mem_insert, Finset.mem_singleton] at hk
  rcases hk with rfl | rfl | rfl | rfl
  · cases hauthor.symm.trans hl
    cases List.mem_singleton.1 hs
    cases hi
    decide
  · cases hbook.symm.trans hl
    rcases List.mem_pair.1 hs with rfl | rfl <;> cases hi <;> decide
  · cases hlist.symm.trans hl
    cases List.mem_singleton.1 hs
    cases hi
    decide
  · cases hc

end Reference

theorem Dictionary.collect_stable_library :
    ∃ reg fragments d reg',
      Factoryless Reference.library.host {} Reference.library.customs reg ∧
      Reference.library.Flat ∧
      ((collect TypeName.simple 8 [⟨"Author", []⟩, ⟨"Book", []⟩]).run.run
        { refPrefix := "#/" }).run (resolve 8) reg = (.ok (.ok fragments, d), reg') ∧
      Reference.library.Distinct TypeName.simple
        (Reference.library.reached [⟨"Author", []⟩, ⟨"Book", []⟩]) ∧
      d.taken = ["Book", "Author"] ∧
      ∃ bound, ∀ calls ≥ bound, ∀ limit ≥ bound, ∃ d' base,
        ((collect TypeName.simple calls [⟨"Book", []⟩, ⟨"Author", []⟩]).run.run
          { refPrefix := "#/" }).run (resolve limit) reg' =
            (.ok (.ok fragments.reverse, d'), base) ∧
        d.Same d' := by
  obtain ⟨reg, hreg, hrun⟩ : ∃ reg,
      Factoryless Reference.library.host {} Reference.library.customs reg ∧
      ∃ p ∈ (((collect TypeName.simple 8 [⟨"Author", []⟩, ⟨"Book", []⟩]).run.run
        { refPrefix := "#/" }).run (resolve 8) reg).1.toOption,
          p.1.isOk = true ∧ p.2.taken = ["Book", "Author"] :=
    ⟨_, .registered ⟨"Class", []⟩ (.custom .mark) .initial rfl, by decide +kernel⟩
  obtain ⟨⟨outcome, d⟩, hrun, hok, htaken⟩ := hrun
  obtain ⟨fragments, rfl⟩ := Except.exists_of_isOk hok
  obtain ⟨reg', hpass⟩ : ∃ reg', ((collect TypeName.simple 8 [⟨"Author", []⟩, ⟨"Book", []⟩]).run.run
      { refPrefix := "#/" }).run (resolve 8) reg = (.ok (.ok fragments, d), reg') :=
    ⟨_, Prod.ext (Except.eq_ok_of_toOption hrun) rfl⟩
  obtain ⟨hreg', ⟨shown, hshown, -, horder⟩, -⟩ :=
    collect_stable (r := Reference.library) hreg Reference.flat_library hpass
  obtain ⟨bound, hbound⟩ := horder Reference.distinct_library
  subst hshown
  refine ⟨reg, _, d, reg', hreg, Reference.flat_library, hpass, Reference.distinct_library, htaken,
    bound, fun calls hcalls limit hlimit => ?_⟩
  obtain ⟨d', base, hrun', hsame, -⟩ := hbound calls hcalls limit hlimit
    [⟨"Book", []⟩, ⟨"Author", []⟩] (.swap _ _ _) _ hreg'
  exact ⟨d', base, hrun', hsame⟩

end Typewire
