import Typewire.Proofs.Schema.Dictionary
import Typewire.Proofs.Schema.Fragment
import Typewire.Proofs.Schema.Parts

/-! # Dictionaries in progress

While the schema of one term is made, the dictionary has entries for named terms that are reached
from it. Each entry that is filled refers to the named terms that are written out inside it, and all
of them have their names already, though some are still reserved.
-/

namespace Typewire.Reference

variable (r : Reference)

/-- The references are those to the named terms among some terms, and the maps among them have
keys that can name members. -/
structure Renders (d : Dictionary) (terms : Set TypeTerm) (refs : List String) : Prop where
  keyed : ∀ m ∈ terms, ∀ key, r.Keys m key → r.StringBacked key
  cites : ∀ m ∈ terms, r.Named m →
    ∃ name, Table.get? m d.names = some name ∧ d.refPrefix ++ name ∈ refs
  cited : ∀ path ∈ refs, ∃ m ∈ terms, ∃ name, r.Named m ∧
    Table.get? m d.names = some name ∧ path = d.refPrefix ++ name

/-- A dictionary in progress for a term. -/
structure Partial (root : TypeTerm) (d : Dictionary) : Prop extends Dictionary.Sound d where
  depicted : ∀ key name, Table.get? key d.names = some name →
    key ∈ r.depicted root ∧ r.Named key
  filled : ∀ key name schema, Table.get? key d.names = some name →
    Members.get? name d.entries = some (some schema) → r.Renders d (r.inner key) schema.refs

/-- What a step adds to a dictionary in progress when it renders some terms. -/
structure Adds (root : TypeTerm) (d d' : Dictionary) (terms : Set TypeTerm) (refs : List String) :
    Prop where
  extended : d.Extends d'
  inProgress : r.Partial root d'
  renders : r.Renders d' terms refs

variable {r} {root key m : TypeTerm} {d d' d'' : Dictionary} {terms terms' : Set TypeTerm}
  {refs refs' : List String} {name : String}

theorem Renders.mono (h : r.Renders d terms refs) (hx : d.Retains d') :
    r.Renders d' terms refs where
  keyed := h.keyed
  cites m hm hn := by
    obtain ⟨name, hname, hmem⟩ := h.cites m hm hn
    exact ⟨name, hx.names m name hname, hx.refPrefix ▸ hmem⟩
  cited path hp := by
    obtain ⟨m, hm, name, hn, hname, he⟩ := h.cited path hp
    exact ⟨m, hm, name, hn, hx.names m name hname, hx.refPrefix ▸ he⟩

theorem Renders.congr (h : r.Renders d terms refs) (hmem : ∀ path, path ∈ refs' ↔ path ∈ refs) :
    r.Renders d terms refs' where
  keyed := h.keyed
  cites m hm hn := by
    obtain ⟨name, hname, hp⟩ := h.cites m hm hn
    exact ⟨name, hname, (hmem _).2 hp⟩
  cited path hp := h.cited path ((hmem path).1 hp)

theorem renders_empty (d : Dictionary) : r.Renders d ∅ [] :=
  ⟨fun m hm => hm.elim, fun m hm => hm.elim, fun path hp => by cases hp⟩

theorem Renders.union (h : r.Renders d terms refs) (h' : r.Renders d terms' refs') :
    r.Renders d (terms ∪ terms') (refs ++ refs') where
  keyed m hm := hm.elim (h.keyed m) (h'.keyed m)
  cites m hm hn := by
    rcases hm with hm | hm
    · obtain ⟨name, hname, hp⟩ := h.cites m hm hn
      exact ⟨name, hname, List.mem_append_left _ hp⟩
    · obtain ⟨name, hname, hp⟩ := h'.cites m hm hn
      exact ⟨name, hname, List.mem_append_right _ hp⟩
  cited path hp := by
    rcases List.mem_append.1 hp with hp | hp
    · obtain ⟨m, hm, h⟩ := h.cited path hp
      exact ⟨m, .inl hm, h⟩
    · obtain ⟨m, hm, h⟩ := h'.cited path hp
      exact ⟨m, .inr hm, h⟩

theorem Renders.insert (h : r.Renders d terms refs) (hn : ¬ r.Named m)
    (hkeys : ∀ key, r.Keys m key → r.StringBacked key) : r.Renders d (insert m terms) refs where
  keyed := Set.forall_mem_insert.2 ⟨hkeys, h.keyed⟩
  cites := Set.forall_mem_insert.2 ⟨fun hm => absurd hm hn, h.cites⟩
  cited path hp := by
    obtain ⟨k, hk, h⟩ := h.cited path hp
    exact ⟨k, Set.mem_insert_of_mem m hk, h⟩

theorem renders_reference (hn : r.Named m) (hname : Table.get? m d.names = some name) :
    r.Renders d {m} (d.reference name).refs where
  keyed k hk key hkey := by
    cases hk
    exact absurd hkey (not_keys_of_named hn)
  cites k hk _ := by
    cases hk
    exact ⟨name, hname, by simp [Dictionary.reference]⟩
  cited path hp :=
    ⟨m, rfl, name, hn, hname, by simpa [Dictionary.reference] using hp⟩

theorem partial_empty (refPrefix : String) : r.Partial root { refPrefix } :=
  ⟨Dictionary.sound_empty refPrefix, fun _ _ h => (by cases h), fun _ _ _ h => (by cases h)⟩

theorem Adds.refl (h : r.Partial root d) (hr : r.Renders d terms refs) :
    r.Adds root d d terms refs := ⟨.refl d, h, hr⟩

theorem Partial.reserve (h : r.Partial root d) (hkey : Table.get? key d.names = none)
    (hname : name ∉ Members.names d.entries) (hd : key ∈ r.depicted root) (hn : r.Named key) :
    r.Partial root (d.reserve key name) := by
  refine ⟨h.toSound.reserve hkey hname, fun k n hk => ?_, fun k n schema hk hs => ?_⟩
  · rw [Dictionary.get?_names_reserve] at hk
    split at hk
    · subst_vars
      exact ⟨hd, hn⟩
    · exact h.depicted k n hk
  · rw [Dictionary.reserve, Members.get?_insert] at hs
    rw [Dictionary.get?_names_reserve] at hk
    split at hs
    · cases hs
    · split at hk
      · exact absurd (Option.some.inj hk).symm ‹_›
      · exact (h.filled k n schema hk hs).mono (Dictionary.retains_reserve hkey)

theorem Adds.fill {schema : Schema}
    (h : r.Adds root (d.reserve key name) d' (r.inner key) schema.refs)
    (hkey : Table.get? key d.names = none) (hn : r.Named key) :
    r.Adds root d (d'.fill name schema) {key} (d.reference name).refs := by
  have hname : Table.get? key d'.names = some name :=
    h.extended.names key name (by rw [Dictionary.get?_names_reserve, if_pos rfl])
  have hfill : d'.Retains (d'.fill name schema) := ⟨rfl, fun _ _ h => h⟩
  have hp := h.inProgress
  refine ⟨h.extended.fill hkey schema, ⟨hp.toSound.fill hname schema, hp.depicted, ?_⟩, ?_⟩
  · intro k n s hk hs
    rw [Dictionary.fill, Members.get?_insert] at hs
    split at hs
    · subst_vars
      cases hs
      rw [hp.injective k key n hk hname]
      exact h.renders.mono hfill
    · exact (hp.filled k n s hk hs).mono hfill
  · have href : d.reference name = d'.reference name :=
      congrArg (fun p => Schema.reference (p ++ name)) h.extended.refPrefix.symm
    rw [href]
    exact (renders_reference hn hname).mono hfill

noncomputable def unnamed (r : Reference) (root : TypeTerm) (d : Dictionary) : Nat :=
  { key ∈ r.closure root | Table.get? key d.names = none }.ncard

section Unnamed

variable (hfin : (r.closure root).Finite)

include hfin

theorem unnamed_le : r.unnamed root d ≤ (r.closure root).ncard :=
  Set.ncard_le_ncard (fun _ h => h.1) hfin

theorem unnamed_anti (h : d.Retains d') : r.unnamed root d' ≤ r.unnamed root d := by
  refine Set.ncard_le_ncard (fun key hk => ⟨hk.1, ?_⟩) (hfin.subset fun _ h => h.1)
  rw [Option.eq_none_iff_forall_ne_some]
  intro name hn
  exact absurd ((h.names key name hn).symm.trans hk.2) (by simp)

theorem unnamed_reserve (hd : key ∈ r.closure root) (hkey : Table.get? key d.names = none) :
    r.unnamed root (d.reserve key name) < r.unnamed root d := by
  refine Set.ncard_lt_ncard ⟨fun k hk => ⟨hk.1, ?_⟩, fun hsub => ?_⟩
    (hfin.subset fun _ h => h.1)
  · have hnone := hk.2
    rw [Dictionary.get?_names_reserve] at hnone
    split at hnone
    · cases hnone
    · exact hnone
  · have hnone := (hsub ⟨hd, hkey⟩).2
    rw [Dictionary.get?_names_reserve, if_pos rfl] at hnone
    cases hnone

end Unnamed

/-- A bound on the calls inside one another that the schema of a term takes: those for terms that
are written out in place, and as many again for each term that gets a name on the way. -/
noncomputable def cost (r : Reference) (root : TypeTerm) (d : Dictionary) (key : TypeTerm) : Nat :=
  r.unnamed root d * ((r.closure root).ncard + 1) + r.rank key

section Cost

variable {part : TypeTerm} (hfin : (r.closure root).Finite)

include hfin

theorem cost_lt (hk : key ∈ r.closure root) :
    r.cost root d key < ((r.closure root).ncard + 1) ^ 2 := by
  have hu := unnamed_le (r := r) (d := d) hfin
  have hr := rank_le hfin hk
  calc r.cost root d key
      ≤ (r.closure root).ncard * ((r.closure root).ncard + 1) + (r.closure root).ncard :=
        Nat.add_le_add (Nat.mul_le_mul_right _ hu) hr
    _ < ((r.closure root).ncard + 1) ^ 2 := by
        rw [sq, Nat.add_one_mul]
        omega

theorem cost_lt_of_nests (hg : r.Guarded root) (hk : key ∈ r.closure root)
    (h : r.Nests key part) (hd : r.unnamed root d' ≤ r.unnamed root d) :
    r.cost root d' part < r.cost root d key :=
  Nat.add_lt_add_of_le_of_lt (Nat.mul_le_mul_right _ hd) (rank_lt hfin hg hk h)

/-- A term that has got a name may have parts of any rank. -/
theorem cost_lt_of_unnamed (hp : part ∈ r.closure root)
    (hd : r.unnamed root d' < r.unnamed root d) : r.cost root d' part < r.cost root d key := by
  have hr := rank_le hfin hp
  calc r.cost root d' part
      < (r.unnamed root d' + 1) * ((r.closure root).ncard + 1) := by
        rw [cost, Nat.add_one_mul]
        omega
    _ ≤ r.unnamed root d * ((r.closure root).ncard + 1) := Nat.mul_le_mul_right _ hd
    _ ≤ r.cost root d key := Nat.le_add_right _ _

end Cost

end Typewire.Reference
