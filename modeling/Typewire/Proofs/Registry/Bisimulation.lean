import Typewire.Proofs.Registry.Renaming

/-! # Registries that act alike

Two registries that differ in their slots only answer each request alike and differ in their slots
only again. The slots that the first fills from now on must have their counterparts in those that
the second fills; a limit on the slots says how far that has to hold.
-/

namespace Typewire.Registry

variable {f : Nat → Nat} {limit : Nat} {A B : Registry} {key : TypeTerm} {slot : Nat}
  {codec : Codec} {type : TypeName}

/-- The second registry is the first with other slots, and perhaps with more. -/
structure Renamed (f : Nat → Nat) (limit : Nat) (A B : Registry) : Prop where
  host : B.host = A.host
  settings : B.settings = A.settings
  depth : B.depth = A.depth
  fresh : ∀ slot, A.slots.size ≤ slot → slot < limit → f slot + A.slots.size = B.slots.size + slot
  slots : ∀ slot, B.slots[f slot]? = A.slots[slot]?.map (Option.map (Codec.rename f))
  published : B.published = Table.mapValues f A.published
  staged : B.staged = Table.mapValues f A.staged
  factories : List.Forall₂ (fun e e' => e'.1 = e.1 ∧ e.2.Renamed f e'.2) A.factories B.factories
  faithful : A.Faithful
  faithful' : B.Faithful

namespace Renamed

variable (h : A.Renamed f limit B)

include h

theorem slot? : B.slot? key = (A.slot? key).map f := by
  rw [Registry.slot?, Registry.slot?, h.published, h.staged, Table.get?_mapValues,
    Table.get?_mapValues, Option.map_or]

theorem canonical (term : TypeTerm) : B.canonical term = A.canonical term := by
  rw [Registry.canonical, Registry.canonical, h.settings]

theorem store : A.store.Renamed f B.store where
  isInstance := congrArg Host.isInstance h.host
  slots := h.slots

theorem isFilled (slot : Nat) : B.isFilled (f slot) = A.isFilled slot := by
  rw [Registry.isFilled, Registry.isFilled, h.slots]
  rcases A.slots[slot]? with _ | _ | _ <;> rfl

theorem lt_size : f slot < B.slots.size ↔ slot < A.slots.size := by
  rw [← not_le, ← not_le, ← Array.getElem?_eq_none_iff, ← Array.getElem?_eq_none_iff, h.slots,
    Option.map_eq_none_iff]

theorem countHit : A.countHit.Renamed f limit B.countHit :=
  ⟨h.host, h.settings, h.depth, h.fresh, h.slots, h.published, h.staged, h.factories, h.faithful,
    h.faithful'⟩

theorem fresh_size (hlt : A.slots.size < limit) : f A.slots.size = B.slots.size := by
  have := h.fresh A.slots.size le_rfl hlt
  omega

theorem push (hf : f.Injective) (hlt : A.slots.size < limit) (c : Option Codec) (slot : Nat) :
    (B.slots.push (c.map (Codec.rename f)))[f slot]? =
      (A.slots.push c)[slot]?.map (Option.map (Codec.rename f)) := by
  rw [Array.getElem?_push, Array.getElem?_push, ← h.fresh_size hlt]
  by_cases he : slot = A.slots.size
  · simp [he]
  · rw [if_neg he, if_neg fun hs => he (hf hs), h.slots]

theorem fresh_push (slot : Nat) (hs : A.slots.size + 1 ≤ slot)
    (hs' : slot < limit) : f slot + (A.slots.size + 1) = B.slots.size + 1 + slot := by
  have := h.fresh slot (by omega) hs'
  omega

theorem stage (hf : f.Injective) (hlt : A.slots.size < limit) (key : TypeTerm) :
    (A.stage key).Renamed f limit (B.stage key) := by
  refine ⟨h.host, h.settings, congrArg (· + 1) h.depth, ?_, h.push hf hlt none, h.published, ?_,
    h.factories, h.faithful, h.faithful'⟩
  · simpa [Registry.stage] using h.fresh_push
  · simp only [Registry.stage]
    rw [h.staged, ← h.fresh_size hlt, Table.insert_mapValues]

theorem abandon (key : TypeTerm) : (A.abandon key).Renamed f limit (B.abandon key) := by
  refine ⟨h.host, h.settings, congrArg (· - 1) h.depth, h.fresh, h.slots, h.published, ?_,
    h.factories, h.faithful, h.faithful'⟩
  simp only [Registry.abandon]
  rw [h.depth, h.staged, Table.erase_mapValues]
  split <;> rfl

theorem fill (hf : f.Injective) (hs : slot < A.slots.size) (codec : Codec) :
    (A.fill slot codec).Renamed f limit (B.fill (f slot) (codec.rename f)) := by
  refine ⟨h.host, h.settings, congrArg (· - 1) h.depth, ?_, fun s => ?_, h.published, h.staged,
    h.factories, h.faithful, h.faithful'⟩
  · simpa [Registry.fill] using h.fresh
  · have hs' := h.lt_size.2 hs
    rw [Registry.fill, Registry.fill, Array.getElem?_setIfInBounds, Array.getElem?_setIfInBounds,
      if_pos hs', if_pos hs, h.slots]
    by_cases he : slot = s
    · rw [if_pos he, if_pos (congrArg f he)]
      rfl
    · rw [if_neg he, if_neg fun heq => he (hf heq)]

theorem publish : A.publish.Renamed f limit B.publish := by
  refine ⟨h.host, h.settings, h.depth, h.fresh, h.slots, ?_, rfl, h.factories, h.faithful,
    h.faithful'⟩
  have hfilled : B.staged.filter (fun entry => B.isFilled entry.2) =
      Table.mapValues f (A.staged.filter fun entry => A.isFilled entry.2) := by
    rw [h.staged, Table.mapValues, Table.mapValues, List.filter_map]
    refine congrArg _ (List.filter_congr fun entry _ => h.isFilled entry.2)
  simp only [Registry.publish]
  rw [hfilled, h.published, Table.insertAll_mapValues]

theorem complete (hf : f.Injective) (hs : slot < A.slots.size) (codec : Codec) :
    (A.complete slot codec).Renamed f limit (B.complete (f slot) (codec.rename f)) := by
  have hfill := h.fill hf hs codec
  rw [Registry.complete, Registry.complete, hfill.depth]
  split
  · exact hfill.publish
  · exact hfill

theorem layoutOf (type : TypeName) :
    (B.layoutOf type).1 = (A.layoutOf type).1 ∧
      (A.layoutOf type).2.Renamed f limit (B.layoutOf type).2 := by
  refine ⟨?_, ?_⟩
  · rw [h.faithful.layoutOf, h.faithful'.layoutOf, h.host]
  · have hA := h.faithful.learned type
    have hB := h.faithful'.learned type
    rcases layoutOf_cases A type with he | ⟨_, -, -, he⟩ <;>
      rcases layoutOf_cases B type with he' | ⟨_, -, -, he'⟩ <;> rw [he] at hA ⊢ <;>
      rw [he'] at hB ⊢ <;>
      exact ⟨h.host, h.settings, h.depth, h.fresh, h.slots, h.published, h.staged, h.factories,
        hA, hB⟩

theorem override (hf : f.Injective) {term : TypeTerm}
    (hlt : (A.override term codec).2.slots.size ≤ limit) :
    (B.override term (codec.rename f)).1 = (A.override term codec).1 ∧
      (A.override term codec).2.Renamed f limit (B.override term (codec.rename f)).2 := by
  have hslot : B.slot? (B.canonical term) = (A.slot? (A.canonical term)).map f := by
    rw [h.canonical, h.slot?]
  rcases override_cases A term codec with ⟨hn, he⟩ | ⟨hn, he⟩ <;>
    rcases override_cases B term (codec.rename f) with ⟨hn', he'⟩ | ⟨hn', he'⟩
  · rw [he, he', h.canonical]
    exact ⟨rfl, h⟩
  · rw [hslot, Option.map_eq_none_iff] at hn'
    exact absurd hn' hn
  · rw [hslot, hn] at hn'
    exact absurd rfl hn'
  · rw [he] at hlt
    have hlt : A.slots.size < limit := by simpa [Nat.succ_le_iff] using hlt
    rw [he, he', h.canonical]
    refine ⟨rfl, h.host, h.settings, h.depth, ?_, h.push hf hlt (some codec), ?_, h.staged,
      h.factories, h.faithful, h.faithful'⟩
    · simpa using h.fresh_push
    · simp only
      rw [h.published, ← h.fresh_size hlt, Table.insert_mapValues]

theorem factory? (type : TypeName) :
    (Table.get? type A.factories = none ∧ Table.get? type B.factories = none) ∨
      ∃ factory factory', Table.get? type A.factories = some factory ∧
        Table.get? type B.factories = some factory' ∧ factory.Renamed f factory' := by
  have hall := h.factories
  clear h
  generalize A.factories = t, B.factories = t' at hall
  induction hall with
  | nil => exact .inl ⟨rfl, rfl⟩
  | cons he _ ih =>
    rw [Table.get?_cons, Table.get?_cons, he.1]
    split
    · exact .inr ⟨_, _, rfl, rfl, he.2⟩
    · exact ih

theorem isInUse (type : TypeName) : B.isInUse type = A.isInUse type := by
  rw [Registry.isInUse, Registry.isInUse, h.published, h.staged, Table.mapValues, Table.mapValues,
    List.any_map, List.any_map]
  rfl

theorem enlist {factory factory' : Factory} (hr : factory.Renamed f factory') (type : TypeName) :
    (B.enlist type factory').1 = (A.enlist type factory).1 ∧
      (A.enlist type factory).2.Renamed f limit (B.enlist type factory').2 := by
  have hhas : Table.has type B.factories = Table.has type A.factories := by
    rw [Table.has, Table.has]
    rcases h.factory? type with ⟨hA, hB⟩ | ⟨_, _, hA, hB, -⟩ <;> rw [hA, hB]
    rfl
  rw [Registry.enlist, Registry.enlist, h.isInUse, hhas]
  split
  · exact ⟨rfl, h⟩
  · rename_i hn
    rw [not_or, Table.has_iff] at hn
    have hn' := hn.2
    rw [← Table.has_iff, ← hhas, Table.has_iff] at hn'
    refine ⟨rfl, h.host, h.settings, h.depth, h.fresh, h.slots, h.published, h.staged, ?_,
      h.faithful, h.faithful'⟩
    simp only
    rw [Table.insert_of_not_mem hn.2, Table.insert_of_not_mem hn']
    exact .cons ⟨rfl, hr⟩ h.factories

theorem recipe (key : TypeTerm) : Query.Renamed f (A.recipe key) (B.recipe key) := by
  rw [Registry.recipe, Registry.recipe, h.settings]
  rcases h.factory? key.head with ⟨hA, hB⟩ | ⟨factory, factory', hA, hB, hr⟩ <;> rw [hA, hB]
  · exact Deriving.renamed_ofTerm f A.settings key
  · cases hr with | of hr => exact hr key

end Renamed

def renameAnswer {α : Type} (g : α → α) :
    Outcome (Except RegistryError α) → Outcome (Except RegistryError α) :=
  Except.map (Except.map g)

/-- The lookup keeps registries alike, as far as the limit goes. -/
def Tracks (f : Nat → Nat) (limit : Nat) (resolve : Lookup) : Prop :=
  ∀ term A B, A.WellFormed → A.Renamed f limit B → (resolve term A).2.slots.size ≤ limit →
    (resolve term B).1 = renameAnswer (CodecRef.rename f) (resolve term A).1 ∧
      (resolve term A).2.Renamed f limit (resolve term B).2

theorem Tracks.run {resolve : Lookup} (ht : Tracks f limit resolve) (hk : Keeps resolve)
    (hf : f.Injective) {q q' : Ask (Except RegistryError Codec)} (hq : Query.Renamed f q q')
    (hw : A.WellFormed) (h : A.Renamed f limit B) (hlt : (q.run resolve A).2.slots.size ≤ limit) :
    (q'.run resolve B).1 = renameAnswer (Codec.rename f) (q.run resolve A).1 ∧
      (q.run resolve A).2.Renamed f limit (q'.run resolve B).2 := by
  induction q generalizing q' A B with
  | answer r =>
    cases hq with
    | refuse e => exact ⟨rfl, h⟩
    | give codec => exact ⟨rfl, h⟩
  | halt why =>
    cases hq
    exact ⟨rfl, h⟩
  | lookup term next ih =>
    cases hq with | lookup hnext =>
    have hw' := (hk term A hw).1
    have ht := ht term A B hw h
    rw [Query.run] at hlt ⊢
    rw [Query.run]
    rcases hA : resolve term A with ⟨why | r, A'⟩ <;> rw [hA] at hlt ht hw' <;>
      rcases hB : resolve term B with ⟨answer, B'⟩ <;> rw [hB] at ht
    · obtain ⟨rfl, h'⟩ := ht hlt
      exact ⟨rfl, h'⟩
    · -- Slots are only added, so what is within the limit at the end was so after the lookup.
      obtain ⟨rfl, h'⟩ := ht ((hk.run (next r) hw').2.size.trans hlt)
      exact ih r (hnext r) hw' h' hlt
  | layout type next ih =>
    cases hq with | layout hnext =>
    have hw' := hw.layoutOf type
    obtain ⟨hans, h'⟩ := h.layoutOf type
    rw [Query.run] at hlt ⊢
    rw [Query.run]
    rcases hA : A.layoutOf type with ⟨why | r, A'⟩ <;> rw [hA] at hlt hans h' hw' <;>
      rcases hB : B.layoutOf type with ⟨answer, B'⟩ <;> rw [hB] at hans h' <;>
      obtain rfl := hans
    · exact ⟨rfl, h'⟩
    · exact ih r (hnext r) hw' h' hlt
  | override term codec next ih =>
    cases hq with | @override _ _ _ next' hnext =>
    have hw' := hw.override term codec
    have hsize := (hk.run (next (A.override term codec).1) hw').2.size
    obtain ⟨hans, h'⟩ := h.override hf (hsize.trans hlt)
    have hq : Query.Renamed f (next (A.override term codec).1)
        (next' (B.override term (codec.rename f)).1) := by
      rw [hans]
      exact hnext _
    have hrun := ih _ hq hw' h' hlt
    exact hrun
  | enlist type factory next ih =>
    cases hq with | @enlist _ _ factory' _ next' hr hnext =>
    obtain ⟨hans, h'⟩ := h.enlist hr type
    have hq : Query.Renamed f (next (A.enlist type factory).1)
        (next' (B.enlist type factory').1) := by
      rw [hans]
      exact hnext _
    have hrun := ih _ hq (hw.enlist type factory) h' hlt
    exact hrun
  | inspect next ih =>
    cases hq with | inspect hnext =>
    rw [Query.run] at hlt ⊢
    rw [Query.run]
    exact ih _ (hnext _ _ h.store) hw h hlt

theorem Tracks.derive {resolve : Lookup} (ht : Tracks f limit resolve) (hk : Keeps resolve)
    (hf : f.Injective) (hw : A.WellFormed) (hn : A.slot? key = none) (hc : A.canonical key = key)
    (h : A.Renamed f limit B) (hlt : (derive resolve key A).2.slots.size ≤ limit) :
    (derive resolve key B).1 = renameAnswer (Codec.rename f) (derive resolve key A).1 ∧
      (derive resolve key A).2.Renamed f limit (derive resolve key B).2 := by
  have hend := hk.ended hw hn hc
  have hstage := h.stage hf (hend.slot_lt.trans_le hlt) key
  exact ht.run hk hf (hstage.recipe key) (hw.stage hn hc) hstage hlt

/-- Registries that are alike answer lookups alike, with the same bound on calls. -/
theorem tracks_resolve (hf : f.Injective) (limit calls : Nat) : Tracks f limit (resolve calls) := by
  induction calls with
  | zero => exact fun term A B _ h _ => ⟨rfl, h⟩
  | succ calls ih =>
    intro term A B hw h hlt
    have hc := A.settings.canonical_canonical term
    have hslot : B.slot? (A.canonical term) = (A.slot? (A.canonical term)).map f := h.slot?
    rw [resolve] at hlt ⊢
    rw [resolve, h.canonical, hslot]
    cases hs : A.slot? (A.canonical term) with
    | some slot => exact ⟨rfl, h.countHit⟩
    | none =>
      have hend := (keeps_resolve calls).ended hw hs hc
      have hd := ih.derive (keeps_resolve calls) hf hw hs hc h
      rw [hs] at hlt
      simp only [Option.map_none] at hlt ⊢
      rcases hA : derive (resolve calls) (A.canonical term) A with ⟨why | e | codec, mid⟩ <;>
        rw [hA] at hlt hd hend <;>
        rcases hB : derive (resolve calls) (A.canonical term) B with ⟨answer, mid'⟩ <;>
        rw [hB] at hd
      · obtain ⟨rfl, h'⟩ := hd hlt
        exact ⟨rfl, h'.abandon _⟩
      · obtain ⟨rfl, h'⟩ := hd hlt
        exact ⟨rfl, h'.abandon _⟩
      · have hsize : mid.slots.size ≤ limit := by
          have hslots := congrArg Array.size (hend.slots_complete codec)
          rw [hslots] at hlt
          simpa [Registry.fill] using hlt
        obtain ⟨rfl, h'⟩ := hd hsize
        have hfresh := h.fresh_size (hend.slot_lt.trans_le hsize)
        have h' := h'.complete hf hend.slot_lt codec
        rw [hfresh] at h'
        exact ⟨congrArg (fun slot => Except.ok (Except.ok (CodecRef.mk _ slot))) hfresh.symm, h'⟩

end Typewire.Registry
