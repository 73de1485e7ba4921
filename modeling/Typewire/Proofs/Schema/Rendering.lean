import Typewire.Proofs.Schema.Pass
import Typewire.Proofs.Schema.Progress

/-! # Rendering terms

What the schema of a term adds to a dictionary in progress, from its parts up. The pass ends because
every call is for a term of lower rank or follows a new name.
-/

namespace Typewire

open Registry Collecting

namespace Reference

/-- The error names a map that the schema would show, with keys that cannot name members. -/
def Unkeyed (r : Reference) (root : TypeTerm) (e : SchemaError) : Prop :=
  ∃ map ∈ r.depicted root, ∃ key, r.Keys map key ∧ ¬ r.StringBacked key ∧
    e = .unsupported ⟨map, keyReason key⟩

/-- All that a term needs is published, with formats as the only registered codecs. -/
structure Ready (r : Reference) (root : TypeTerm) (reg : Registry) : Prop where
  agrees : r.Agrees reg
  closed : reg.Closed
  published : ∀ key ∈ r.closure root, ∃ slot, Table.get? key reg.published = some slot
  formatted : ∀ key codec, r.customs key = some codec →
    ∃ format accepts, codec = .formatted format accepts
  finite : (r.closure root).Finite
  guarded : r.Guarded root

variable {r : Reference} {root key : TypeTerm} {reg : Registry} {ref : CodecRef}
  {d : Dictionary} {codec : Codec}

theorem depicted_subset : r.depicted root ⊆ r.closure root := by
  intro key hk
  induction hk with
  | refl => exact .refl
  | tail _ h ih => exact .tail ih h.needs

theorem Agrees.isStringBacked_iff (h : r.Agrees reg) (hc : reg.Closed) (hp : reg.Publishes ref) :
    reg.store.isStringBacked ref = true ↔ r.StringBacked ref.term := by
  have heq := h.isStringBacked hc hp
  change Option.any _ (r.codec? (r.settings.canonical ref.term)) = reg.store.isStringBacked ref
    at heq
  rw [← heq, h.canonical hc hp, Option.any_eq_true]
  rfl

namespace Ready

variable (h : r.Ready root reg)

include h

theorem codec? (hp : reg.Publishes ref) : ∃ codec, reg.store.codec? ref = some codec ∧
    r.Draws ref.term codec ∧ ∀ nested ∈ codec.refs, reg.Publishes nested := by
  obtain ⟨codec, hs, hr, hrefs⟩ := h.agrees.exists_codec h.closed hp
  exact ⟨codec, hs, draws_of_codec? (h.formatted _) hr, hrefs⟩

theorem isStringBacked_iff (hp : reg.Publishes ref) :
    reg.store.isStringBacked ref = true ↔ r.StringBacked ref.term :=
  h.agrees.isStringBacked_iff h.closed hp

end Ready

/-- The pass for a term renders the terms that are written out in its fragment. -/
def Fragments (r : Reference) (root : TypeTerm) (reg : Registry)
    (nested : TypeTerm → Collecting Schema) (term : TypeTerm) (d : Dictionary) : Prop :=
  Gives reg (r.Unkeyed root) (nested term) d fun schema d' =>
    r.Adds root d d' (r.spread (r.settings.canonical term)) schema.refs

theorem properties_eq_mapM (nested : TypeTerm → Collecting Schema) (fields : List FieldCodec) :
    properties nested fields = fields.mapM fun f => do
      let schema ← nested f.codec.term
      return (f.property.name, { schema with
        readOnly := f.property.serializable && !f.property.deserializable
        writeOnly := f.property.deserializable && !f.property.serializable }) := by
  induction fields with
  | nil => rfl
  | cons f fields ih => simp [properties, ih]

theorem branches_eq_mapM (nested : TypeTerm → Collecting Schema) (bs : List BranchCodec) :
    branches nested bs = bs.mapM fun b => do
      let schema ← nested b.target
      return (b.discriminator, schema) := by
  induction bs with
  | nil => rfl
  | cons b bs ih => simp [branches, ih]

theorem gives_mapM {β : Type} {member : β → Collecting (String × Schema)} {members : List β}
    {free : Nat} (label : β → String) (terms : β → Set TypeTerm) (hfin : (r.closure root).Finite)
    (hmember : ∀ b ∈ members, ∀ d, r.Partial root d → r.unnamed root d ≤ free →
      Gives reg (r.Unkeyed root) (member b) d fun p d' =>
        p.1 = label b ∧ r.Adds root d d' (terms b) p.2.refs)
    (hd : r.Partial root d) (hfree : r.unnamed root d ≤ free) :
    Gives reg (r.Unkeyed root) (members.mapM member) d fun ps d' =>
      ps.map Prod.fst = members.map label ∧
        r.Adds root d d' { m | ∃ b ∈ members, m ∈ terms b } (ps.flatMap fun p => p.2.refs) := by
  induction members generalizing d with
  | nil =>
    refine gives_pure ⟨rfl, .refl hd ?_⟩
    simpa using renders_empty d
  | cons b members ih =>
    obtain ⟨hb, hmember⟩ := List.forall_mem_cons.1 hmember
    rw [List.mapM_cons]
    refine (hb d hd hfree).bind fun p d₁ hfirst => ?_
    obtain ⟨hlabel, hp⟩ := hfirst
    have hfree₁ := (unnamed_anti hfin hp.extended.toRetains).trans hfree
    refine (ih hmember hp.inProgress hfree₁).bind fun ps d₂ hrest => ?_
    obtain ⟨hlabels, hps⟩ := hrest
    refine gives_pure ⟨by rw [List.map_cons, List.map_cons, hlabel, hlabels], ?_⟩
    refine ⟨hp.extended.trans hps.extended, hps.inProgress, ?_⟩
    have hterms : { m | ∃ c ∈ b :: members, m ∈ terms c } =
        terms b ∪ { m | ∃ c ∈ members, m ∈ terms c } := by
      ext m
      simp
    -- The first member stays rendered while the others are made.
    rw [hterms, List.flatMap_cons]
    exact (hp.renders.mono hps.extended.toRetains).union hps.renders

theorem Adds.object {d' : Dictionary} {terms : Set TypeTerm} {ps : List (String × Schema)}
    (hn : (ps.map Prod.fst).Nodup) (h : r.Adds root d d' terms (ps.flatMap fun p => p.2.refs))
    (required : List String) :
    r.Adds root d d' terms (Schema.object (Members.ofList ps) required).refs :=
  ⟨h.extended, h.inProgress, h.renders.congr fun _ =>
    (Schema.mem_refs_object hn).trans List.mem_flatMap.symm⟩

theorem Draws.inner_eq (h : r.Draws key codec) :
    r.inner key = { m | ∃ term ∈ codec.shown, m ∈ r.spread (r.settings.canonical term) } := by
  ext m
  simp only [inner, h.shown, Set.mem_ofPred_eq]
  constructor
  · rintro ⟨_, ⟨term, ht, rfl⟩, hm⟩
    exact ⟨term, ht, hm⟩
  · rintro ⟨term, ht, hm⟩
    exact ⟨_, ⟨term, ht, rfl⟩, hm⟩

theorem gives_body {nested : TypeTerm → Collecting Schema} {free : Nat}
    (h : r.Ready root reg) (hdraws : r.Draws key codec) (hkey : key ∈ r.depicted root)
    (hrefs : ∀ ref ∈ codec.refs, reg.Publishes ref)
    (hnested : ∀ term ∈ codec.shown, ∀ d, r.Partial root d → r.unnamed root d ≤ free →
      r.Fragments root reg nested term d)
    (hd : r.Partial root d) (hfree : r.unnamed root d ≤ free) :
    Gives reg (r.Unkeyed root) (body nested reg.store codec) d fun schema d' =>
      r.Adds root d d' (r.inner key) schema.refs ∧ ∀ k, r.Keys key k → r.StringBacked k := by
  have hnokey : codec.key? = none → ∀ k, r.Keys key k → r.StringBacked k := by
    intro hn k hk
    rw [hdraws.keys, hn] at hk
    cases hk
  -- A codec without nested terms cites nothing.
  have hempty : codec.shown = [] → r.Renders d (r.inner key) [] := by
    intro hs
    rw [hdraws.inner_eq, hs]
    simpa using renders_empty d
  cases codec with
  | atomic kind =>
    refine gives_pure ⟨.refl hd ?_, hnokey rfl⟩
    cases kind <;> simpa [Collecting.atomic] using hempty rfl
  | enumeration type members => exact gives_pure ⟨.refl hd (by simpa using hempty rfl), hnokey rfl⟩
  | formatted format accepts => exact gives_pure ⟨.refl hd (by simpa using hempty rfl), hnokey rfl⟩
  | custom codec => exact absurd rfl (hdraws.custom codec)
  | sequence container element =>
    refine (hnested _ (List.mem_singleton_self _) d hd hfree).bind fun items d₁ hitems => ?_
    refine gives_pure ⟨?_, hnokey rfl⟩
    rw [hdraws.inner_eq]
    simpa [Codec.shown] using hitems
  | map owner k value =>
    obtain rfl := hdraws.owner owner k value rfl
    have hkeys := hdraws.keys k.term
    rw [body]
    split
    · rename_i hbacked
      refine (hnested _ (List.mem_singleton_self _) d hd hfree).bind fun values d₁ hvalues => ?_
      refine gives_pure ⟨?_, fun k' hk' => ?_⟩
      · rw [hdraws.inner_eq]
        simpa [Codec.shown] using hvalues
      · rw [hdraws.keys] at hk'
        cases hk'
        exact (h.isStringBacked_iff (hrefs k List.mem_cons_self)).1 hbacked
    · rename_i hbacked
      -- The pass has come to this map, so the error may name it.
      refine gives_throw ⟨owner, hkey, k.term, hkeys.2 rfl, fun hs => hbacked ?_, rfl⟩
      exact (h.isStringBacked_iff (hrefs k List.mem_cons_self)).2 hs
  | record owner constructor fields strict =>
    rw [body, properties_eq_mapM]
    refine (gives_mapM (fun f => f.property.name)
      (fun f => r.spread (r.settings.canonical f.codec.term)) h.finite
      (fun f hf d hd hfree => ?_) hd hfree).bind fun ps d₁ hfields => ?_
    · refine (hnested _ (List.mem_map_of_mem hf) d hd hfree).bind fun schema d₁ hs => ?_
      exact gives_pure ⟨rfl, by simpa using hs⟩
    · obtain ⟨hlabels, hps⟩ := hfields
      refine gives_pure ⟨Adds.object (hlabels ▸ hdraws.labels) ?_ _, hnokey rfl⟩
      rw [hdraws.inner_eq]
      simpa [Codec.shown] using hps
  | union owner bs =>
    rw [body, branches_eq_mapM]
    refine (gives_mapM BranchCodec.discriminator
      (fun b => r.spread (r.settings.canonical b.target)) h.finite
      (fun b hb d hd hfree => ?_) hd hfree).bind fun ps d₁ hbranches => ?_
    · refine (hnested _ (List.mem_map_of_mem hb) d hd hfree).bind fun schema d₁ hs => ?_
      exact gives_pure ⟨rfl, hs⟩
    · obtain ⟨hlabels, hps⟩ := hbranches
      refine gives_pure ⟨Adds.object (hlabels ▸ hdraws.labels) ?_ _, hnokey rfl⟩
      rw [hdraws.inner_eq]
      simpa [Codec.shown] using hps

theorem gives_fragment {nested : TypeTerm → Collecting Schema} (displayName : TypeName → String)
    (h : r.Ready root reg) (hp : reg.Publishes ref) (hkey : ref.term ∈ r.depicted root)
    (hd : r.Partial root d)
    (hnested : ∀ term d', r.Depicts ref.term (r.settings.canonical term) → r.Partial root d' →
      r.cost root d' (r.settings.canonical term) < r.cost root d ref.term →
      r.Fragments root reg nested term d') :
    Gives reg (r.Unkeyed root) (fragment nested displayName ref) d fun schema d' =>
      r.Adds root d d' (r.spread ref.term) schema.refs := by
  obtain ⟨codec, hcodec, hdraws, hrefs⟩ := h.codec? hp
  have hclosure := depicted_subset hkey
  have hdepicts : ∀ term ∈ codec.shown, r.Depicts ref.term (r.settings.canonical term) :=
    fun term ht => (hdraws.shown _).2 ⟨term, ht, rfl⟩
  rw [fragment]
  refine (returns_store reg d).bind ?_
  rw [hcodec]
  by_cases hn : r.Named ref.term
  · simp only [hdraws.named.2 hn, Bool.not_true, Bool.false_eq_true, if_false]
    rw [spread_of_named hn]
    refine (returns_get reg d).bind ?_
    cases hname : Table.get? ref.term d.names with
    | some name => exact gives_pure (.refl hd (renders_reference hn hname))
    | none =>
      -- The name is reserved before the parts are entered, and so they take fewer calls.
      have hfresh := hd.freshName_not_mem (Dictionary.baseName displayName ref.term)
      refine (returns_set reg d _).bind ?_
      refine (gives_body h hdraws hkey hrefs (fun term ht d' hd' hfree => ?_)
        (hd.reserve hname hfresh hkey hn) le_rfl).bind fun schema d' hbody => ?_
      · refine hnested term d' (hdepicts term ht) hd' (cost_lt_of_unnamed h.finite ?_ ?_)
        · exact .tail hclosure (hdepicts term ht).needs
        · exact hfree.trans_lt (unnamed_reserve h.finite hclosure hname)
      · exact (returns_modify reg d' _).bind (gives_pure (hbody.1.fill hname hn))
  · -- Nothing is reserved here, but the parts are of lower rank.
    simp only [Bool.eq_false_of_not_eq_true (hdraws.named.not.2 hn), Bool.not_false, if_true]
    rw [spread_of_not_named hn]
    refine (gives_body h hdraws hkey hrefs (fun term ht d' hd' hfree => ?_) hd le_rfl).mono
      fun schema d' hbody => ?_
    · refine hnested term d' (hdepicts term ht) hd' ?_
      exact cost_lt_of_nests h.finite h.guarded hclosure ⟨(hdepicts term ht).needs, hn⟩ hfree
    · obtain ⟨hadds, hkeys⟩ := hbody
      exact ⟨hadds.extended, hadds.inProgress, hadds.renders.insert hn hkeys⟩

/-- With enough calls the pass for a term ends, and renders what is written out in its fragment
unless it comes to a map that cannot be shown. -/
theorem gives_schemaWithin (h : r.Ready root reg) (displayName : TypeName → String) {calls : Nat}
    {term : TypeTerm} (hkey : r.settings.canonical term ∈ r.depicted root)
    (hd : r.Partial root d) (hcost : r.cost root d (r.settings.canonical term) < calls) :
    r.Fragments root reg (Dictionary.schemaWithin displayName calls) term d := by
  induction calls generalizing term d with
  | zero => exact absurd hcost (Nat.not_lt_zero _)
  | succ calls ih =>
    have hcanonical : reg.canonical term = r.settings.canonical term := by
      rw [Registry.canonical, h.agrees.settings]
    obtain ⟨slot, hs⟩ := h.published _ (depicted_subset hkey)
    rw [← hcanonical] at hkey hcost hs
    rw [Fragments, Dictionary.schemaWithin, ← hcanonical]
    refine (returns_lookup d (by rw [slot?, hs, Option.some_or])).bind ?_
    have hp : reg.Publishes ⟨reg.canonical term, slot⟩ := hs
    refine gives_fragment displayName h hp hkey hd ?_
    intro part d' hdepicts hd' hless
    exact ih (.tail hkey hdepicts) hd' (hless.trans_le (Nat.le_of_lt_succ hcost))

end Reference

end Typewire
