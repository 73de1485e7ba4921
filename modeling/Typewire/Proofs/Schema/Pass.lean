import Typewire.Proofs.Registry.Request
import Typewire.Proofs.Schema.Parts

/-! # Passes over published codecs

While a pass looks up terms that are published, it changes nothing in the registry but counters. So
a pass is put together from steps on dictionaries. For the steps there are rules of two kinds: that
they end with a result that fits, and what they give if they end. They hold with any bound on
derivations inside one another, since none is begun.
-/

namespace Typewire

open Registry

namespace Collecting

variable {α β : Type} {base : Registry} {blame : SchemaError → Prop} {d : Dictionary}
  {x : Collecting α} {Q Q' : α → Dictionary → Prop} {P : β → Dictionary → Prop}

/-- The result and the dictionary satisfy a condition, or else there is a reason for the error. -/
def Fits (blame : SchemaError → Prop) (Q : α → Dictionary → Prop) :
    Except SchemaError α → Dictionary → Prop
  | .ok a, d => Q a d
  | .error e, _ => blame e

/-- The pass ends with a result that fits, and leaves the registry as it is but for counters. -/
def Gives (base : Registry) (blame : SchemaError → Prop) (x : Collecting α) (d : Dictionary)
    (Q : α → Dictionary → Prop) : Prop :=
  ∀ limit stats, ∃ result d' stats',
    (x.run.run d).run (resolve (limit + 1)) { base with stats } =
      (.ok (result, d'), { base with stats := stats' }) ∧ Fits blame Q result d'

theorem gives_pure {a : α} (h : Q a d) : Gives base blame (pure a) d Q :=
  fun _ stats => ⟨.ok a, d, stats, rfl, h⟩

theorem gives_throw {e : SchemaError} (h : blame e) :
    Gives base blame (throw e : Collecting α) d Q :=
  fun _ stats => ⟨.error e, d, stats, rfl, h⟩

theorem Gives.mono (h : Gives base blame x d Q) (hQ : ∀ a d', Q a d' → Q' a d') :
    Gives base blame x d Q' := by
  intro limit stats
  obtain ⟨result, d', stats', hrun, hresult⟩ := h limit stats
  refine ⟨result, d', stats', hrun, ?_⟩
  cases result with
  | ok a => exact hQ a d' hresult
  | error e => exact hresult

theorem run_bind (x : Collecting α) (f : α → Collecting β) (d : Dictionary) :
    (x >>= f).run.run d = (x.run.run d).bind fun p =>
      match p.1 with
      | .ok a => (f a).run.run p.2
      | .error e => .answer (.error e, p.2) := by
  refine congrArg (Query.bind _) (funext fun p => ?_)
  obtain ⟨_ | _, _⟩ := p <;> rfl

theorem Gives.bind (hx : Gives base blame x d Q) {f : α → Collecting β}
    (hf : ∀ a d', Q a d' → Gives base blame (f a) d' P) : Gives base blame (x >>= f) d P := by
  intro limit stats
  obtain ⟨result, d', stats', hrun, hresult⟩ := hx limit stats
  rw [run_bind, Query.run_bind, hrun]
  cases result with
  | ok a => exact hf a d' hresult limit stats'
  | error e => exact ⟨.error e, d', stats', rfl, hresult⟩

/-- If the pass succeeds, then with a result that satisfies a condition, and the registry is as it
was but for counters. -/
def Allows (base : Registry) (x : Collecting α) (d : Dictionary) (Q : α → Dictionary → Prop) :
    Prop :=
  ∀ limit stats a d' reg,
    (x.run.run d).run (resolve (limit + 1)) { base with stats } = (.ok (.ok a, d'), reg) →
      Q a d' ∧ ∃ stats', reg = { base with stats := stats' }

theorem allows_pure {a : α} (h : Q a d) : Allows base (pure a) d Q := by
  intro limit stats a' d' reg hrun
  cases hrun
  exact ⟨h, stats, rfl⟩

theorem allows_throw (e : SchemaError) : Allows base (throw e : Collecting α) d Q := by
  intro limit stats a d' reg hrun
  cases hrun

theorem Allows.mono (h : Allows base x d Q) (hQ : ∀ a d', Q a d' → Q' a d') :
    Allows base x d Q' := by
  intro limit stats a d' reg hrun
  obtain ⟨hq, hreg⟩ := h limit stats a d' reg hrun
  exact ⟨hQ a d' hq, hreg⟩

theorem Allows.bind (hx : Allows base x d Q) {f : α → Collecting β}
    (hf : ∀ a d', Q a d' → Allows base (f a) d' P) : Allows base (x >>= f) d P := by
  intro limit stats b d'' reg hrun
  rw [run_bind, Query.run_bind] at hrun
  rcases hx' : (x.run.run d).run (resolve (limit + 1)) { base with stats } with
    ⟨why | ⟨e | a, d'⟩, reg'⟩ <;> rw [hx'] at hrun
  · cases hrun
  · cases hrun
  · obtain ⟨hq, stats', rfl⟩ := hx limit stats a d' reg' hx'
    exact hf a d' hq limit stats' b d'' reg hrun

def Returns (base : Registry) (x : Collecting α) (d : Dictionary) (a : α) (d' : Dictionary) :
    Prop :=
  ∀ limit stats, ∃ stats', (x.run.run d).run (resolve (limit + 1)) { base with stats } =
    (.ok (.ok a, d'), { base with stats := stats' })

theorem Returns.bind {a : α} {d' : Dictionary} (hx : Returns base x d a d')
    {f : α → Collecting β} (hf : Gives base blame (f a) d' P) :
    Gives base blame (x >>= f) d P := by
  refine Gives.bind (Q := fun b d₁ => b = a ∧ d₁ = d') (fun limit stats => ?_) ?_
  · obtain ⟨stats', hrun⟩ := hx limit stats
    exact ⟨.ok a, d', stats', hrun, rfl, rfl⟩
  · rintro _ _ ⟨rfl, rfl⟩
    exact hf

theorem Returns.bind_allows {a : α} {d' : Dictionary} (hx : Returns base x d a d')
    {f : α → Collecting β} (hf : Allows base (f a) d' P) : Allows base (x >>= f) d P := by
  refine Allows.bind (Q := fun b d₁ => b = a ∧ d₁ = d') (fun limit stats b d₁ reg hrun => ?_) ?_
  · obtain ⟨stats', hrun'⟩ := hx limit stats
    rw [hrun'] at hrun
    cases hrun
    exact ⟨⟨rfl, rfl⟩, stats', rfl⟩
  · rintro _ _ ⟨rfl, rfl⟩
    exact hf

theorem returns_get (base : Registry) (d : Dictionary) :
    Returns base (getThe Dictionary) d d d := fun _ stats => ⟨stats, rfl⟩

theorem returns_set (base : Registry) (d d' : Dictionary) : Returns base (set d') d ⟨⟩ d' :=
  fun _ stats => ⟨stats, rfl⟩

theorem returns_modify (base : Registry) (d : Dictionary) (f : Dictionary → Dictionary) :
    Returns base (modifyThe Dictionary f) d ⟨⟩ (f d) := fun _ stats => ⟨stats, rfl⟩

theorem returns_store (base : Registry) (d : Dictionary) :
    Returns base (Collecting.ask Ask.store) d base.store d := fun _ stats => ⟨stats, rfl⟩

theorem run_lookup (resolve : Lookup) (reg : Registry) (term : TypeTerm) (d : Dictionary) :
    ((Collecting.ask (Ask.lookup term)).run.run d).run resolve reg =
      ((resolve term reg).1.map fun found => (.ok found, d), (resolve term reg).2) := by
  change Query.run _ (Query.lookup term _) _ = _
  rw [Query.run]
  rcases resolve term reg with ⟨_ | _, _⟩ <;> rfl

theorem ask_lookup (reg : Registry) (term : TypeTerm) (d : Dictionary) :
    reg.ask ((Collecting.ask (Ask.lookup term)).run.run d) =
      ((reg.lookup term).1.map fun found => (.ok found, d), (reg.lookup term).2) := by
  rw [lookup_eq]
  exact run_lookup (resolve callLimit) reg term d

theorem returns_lookup {term : TypeTerm} {slot : Nat} (d : Dictionary)
    (hs : base.slot? (base.canonical term) = some slot) :
    Returns base (Collecting.ask (Ask.lookup term)) d (.ok ⟨base.canonical term, slot⟩) d := by
  intro limit stats
  have hs' : ({ base with stats } : Registry).slot? (base.canonical term) = some slot := hs
  refine ⟨{ stats with hits := stats.hits + 1 }, ?_⟩
  rw [run_lookup, resolve_of_slot? hs']
  rfl

/-- What is kept of dictionaries, step by step. -/
structure Course (I : Dictionary → Prop) (C : Dictionary → Dictionary → Prop) : Prop where
  refl : ∀ {d}, I d → C d d
  trans : ∀ {d d' d''}, C d d' → C d' d'' → C d d''
  kept : ∀ {d d'}, C d d' → I d'

section Course

variable {I : Dictionary → Prop} {C : Dictionary → Dictionary → Prop}
  {R : Dictionary → β → α → Prop} {member : β → Collecting α} {members : List β}

theorem Course.allows_mapM (h : Course I C) (hR : ∀ d d' b a, C d d' → R d b a → R d' b a)
    (hmember : ∀ b ∈ members, ∀ d, I d → Allows base (member b) d fun a d' => C d d' ∧ R d' b a)
    (hd : I d) :
    Allows base (members.mapM member) d fun as d' => C d d' ∧ List.Forall₂ (R d') members as := by
  induction members generalizing d with
  | nil => exact allows_pure ⟨h.refl hd, .nil⟩
  | cons b members ih =>
    obtain ⟨hb, hmember⟩ := List.forall_mem_cons.1 hmember
    rw [List.mapM_cons]
    refine (hb d hd).bind fun a d₁ hfirst => ?_
    obtain ⟨hc, hrel⟩ := hfirst
    refine (ih hmember (h.kept hc)).bind fun as d₂ hrest => ?_
    obtain ⟨hcs, hrels⟩ := hrest
    exact allows_pure ⟨h.trans hc hcs, .cons (hR _ _ _ _ hcs hrel) hrels⟩

theorem Course.gives_mapM (h : Course I C)
    (hmember : ∀ b ∈ members, ∀ d, I d → Gives base blame (member b) d fun _ d' => C d d')
    (hd : I d) : Gives base blame (members.mapM member) d fun _ d' => C d d' := by
  induction members generalizing d with
  | nil => exact gives_pure (h.refl hd)
  | cons b members ih =>
    obtain ⟨hb, hmember⟩ := List.forall_mem_cons.1 hmember
    rw [List.mapM_cons]
    refine (hb d hd).bind fun a d₁ hc => ?_
    refine (ih hmember (h.kept hc)).bind fun as d₂ hcs => ?_
    exact gives_pure (h.trans hc hcs)

end Course

/-- A condition that steps in a row satisfy if each of them does. -/
structure Sequential (P : ∀ {α : Type}, Collecting α → Prop) : Prop where
  pure {α : Type} (a : α) : P (Pure.pure a : Collecting α)
  throw {α : Type} (e : SchemaError) : P (MonadExcept.throw e : Collecting α)
  bind {α β : Type} {x : Collecting α} {f : α → Collecting β} :
    P x → (∀ a, P (f a)) → P (x >>= f)

namespace Sequential

variable {P : ∀ {α : Type}, Collecting α → Prop} {nested : TypeTerm → Collecting Schema}
  (h : Sequential @P)

include h

theorem properties {fields : List FieldCodec} (hn : ∀ f ∈ fields, P (nested f.codec.term)) :
    P (Collecting.properties nested fields) := by
  induction fields with
  | nil => exact h.pure _
  | cons f fields ih =>
    obtain ⟨hf, hn⟩ := List.forall_mem_cons.1 hn
    exact h.bind hf fun _ => h.bind (ih hn) fun _ => h.pure _

theorem branches {bs : List BranchCodec} (hn : ∀ b ∈ bs, P (nested b.target)) :
    P (Collecting.branches nested bs) := by
  induction bs with
  | nil => exact h.pure _
  | cons b bs ih =>
    obtain ⟨hb, hn⟩ := List.forall_mem_cons.1 hn
    exact h.bind hb fun _ => h.bind (ih hn) fun _ => h.pure _

theorem body {codec : Codec} (hn : ∀ term ∈ codec.shown, P (nested term)) (store : Store) :
    P (Collecting.body nested store codec) := by
  cases codec with
  | atomic | enumeration | formatted | custom => exact h.pure _
  | record owner constructor fields strict =>
    refine h.bind (h.properties fun f hf => hn _ ?_) fun _ => h.pure _
    exact List.mem_map_of_mem (f := fun f : FieldCodec => f.codec.term) hf
  | sequence container element =>
    exact h.bind (hn _ (List.mem_singleton_self _)) fun _ => h.pure _
  | map owner key value =>
    rw [Collecting.body]
    split
    · exact h.bind (hn _ (List.mem_singleton_self _)) fun _ => h.pure _
    · exact h.throw _
  | union owner bs =>
    exact h.bind (h.branches fun b hb => hn _ (List.mem_map_of_mem hb)) fun _ => h.pure _

end Sequential

end Collecting

/-- A pass begins with a lookup, which may derive the codec. -/
theorem Dictionary.run_schemaWithin {resolve : Lookup} {reg base : Registry} {term : TypeTerm}
    {ref : CodecRef} {displayName : TypeName → String} {calls : Nat} {d : Dictionary}
    (h : resolve term reg = (.ok (.ok ref), base)) :
    ((schemaWithin displayName (calls + 1) term).run.run d).run resolve reg =
      ((Collecting.fragment (schemaWithin displayName calls) displayName ref).run.run d).run
        resolve base := by
  have hrun := Collecting.run_lookup resolve reg term d
  rw [h] at hrun
  rw [schemaWithin, Collecting.run_bind, Query.run_bind, hrun]
  rfl

theorem Dictionary.ask_schemaWithin {reg base : Registry} {term : TypeTerm} {ref : CodecRef}
    {displayName : TypeName → String} {calls : Nat} {d : Dictionary}
    (h : reg.lookup term = (.ok (.ok ref), base)) :
    reg.ask ((schemaWithin displayName (calls + 1) term).run.run d) =
      base.ask ((Collecting.fragment (schemaWithin displayName calls) displayName ref).run.run
        d) := by
  rw [lookup_eq] at h
  exact run_schemaWithin h

end Typewire
