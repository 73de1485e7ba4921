import Mathlib.Data.List.Perm.Basic
import Typewire.Catalog.File
import Typewire.Proofs.Codec.Inversion

/-! # Declared types

The types of a catalogue that are not built in are those that its file declares, each under its name
and with its parameters, and they are listed in the order of names.
-/

namespace Typewire

namespace CatalogFile

def Entry.params : Entry → List String
  | .record r => r.params
  | .enumeration _ => []
  | .union u => u.params

theorem Entry.define_eq {e : Entry} {d : TypeDefinition} (h : e.define = .ok d) :
    d.name = e.name ∧ d.params = e.params := by
  cases e with
  | record r =>
    rw [Entry.define, RecordEntry.define] at h
    split at h
    · cases h
    · obtain ⟨_, -, h⟩ := Except.exists_of_bind h
      cases h
      exact ⟨rfl, rfl⟩
  | enumeration e =>
    cases h
    exact ⟨rfl, rfl⟩
  | union u =>
    rw [Entry.define, UnionEntry.define, UnionDeclaration.define] at h
    obtain ⟨_, -, h⟩ := Except.exists_of_bind h
    cases h
    exact ⟨rfl, rfl⟩

end CatalogFile

namespace Catalog

open CatalogFile

variable {c c' : Catalog} {e : Entry} {es : List Entry}

theorem types_declareSubtypes (c : Catalog) (sub : TypeName) (sups : List TypeName) :
    (sups.foldl (fun c sup => c.declareSubtype sub sup) c).types = c.types := by
  induction sups generalizing c with
  | nil => rfl
  | cons sup sups ih => exact ih _

theorem types_addTo (h : e.addTo c = .ok c') :
    ∃ d, d.params = e.params ∧ e.name ∉ Table.keys c.types ∧
      c'.types = (e.name, d) :: c.types := by
  rw [Entry.addTo] at h
  obtain ⟨d, hd, h⟩ := Except.exists_of_bind h
  obtain ⟨c'', hc, h⟩ := Except.exists_of_bind h
  cases h
  obtain ⟨hname, hparams⟩ := Entry.define_eq hd
  rw [Catalog.define] at hc
  split at hc
  · cases hc
  · rename_i hfree
    cases hc
    rw [Table.has_iff] at hfree
    refine ⟨d, hparams, hname ▸ hfree, ?_⟩
    rw [types_declareSubtypes, Table.insert_of_not_mem hfree, hname]

theorem types_addEntries (hn : (Table.keys c.types).Nodup)
    (h : addEntries c es = (.ok (), c')) :
    (Table.keys c'.types).Nodup ∧
      (Table.keys c'.types).Perm (es.map Entry.name ++ Table.keys c.types) ∧
      (∀ entry ∈ c.types, entry ∈ c'.types) ∧
      ∀ e ∈ es, ∃ d, d.params = e.params ∧ (e.name, d) ∈ c'.types := by
  induction es generalizing c with
  | nil =>
    cases h
    exact ⟨hn, .refl _, fun _ he => he, fun _ he => by cases he⟩
  | cons e es ih =>
    rw [addEntries] at h
    split at h
    · rename_i c₁ hc
      obtain ⟨d, hparams, hfree, htypes⟩ := types_addTo hc
      have hkeys : Table.keys c₁.types = e.name :: Table.keys c.types := by
        rw [htypes]
        rfl
      obtain ⟨hn', hperm, hkept, hall⟩ := ih (hkeys ▸ List.nodup_cons.2 ⟨hfree, hn⟩) h
      refine ⟨hn', ?_, fun entry he => hkept entry (htypes ▸ List.mem_cons_of_mem _ he),
        List.forall_mem_cons.2 ⟨⟨d, hparams, ?_⟩, hall⟩⟩
      · rw [hkeys] at hperm
        exact hperm.trans List.perm_middle
      · exact hkept _ (htypes ▸ List.mem_cons_self)
    · cases h

theorem nodup_initial : (Table.keys initial.types).Nodup := by decide

theorem isBuiltin_iff {type : TypeName} :
    isBuiltin type = true ↔ type ∈ Table.keys initial.types := by
  simp [isBuiltin, initial, Table.keys, List.any_eq_true]

variable {f : CatalogFile}

theorem perm_userTypes (h : f.registerInto .initial = (.ok (), c)) :
    c.userTypes.Perm f.typeNames := by
  obtain ⟨hn, hperm, -⟩ := types_addEntries nodup_initial h
  rw [userTypes]
  refine (List.mergeSort_perm _ _).trans ((hperm.filter _).trans ?_)
  have hdisjoint := List.disjoint_of_nodup_append (hperm.nodup_iff.1 hn)
  rw [List.filter_append, List.filter_eq_self.2, List.filter_eq_nil_iff.2, List.append_nil]
  · rfl
  · intro type ht
    simp [isBuiltin_iff.2 ht]
  · intro type ht
    rw [Bool.not_eq_true', Bool.eq_false_iff, ne_eq, isBuiltin_iff]
    exact hdisjoint ht

/-- The types of the file are listed once each, in the order of names. -/
theorem pairwise_userTypes (h : f.registerInto .initial = (.ok (), c)) :
    c.userTypes.Pairwise (· < ·) := by
  obtain ⟨hn, -⟩ := types_addEntries nodup_initial h
  have hnodup : c.userTypes.Nodup :=
    (List.mergeSort_perm _ _).nodup_iff.2 (hn.filter _)
  have hsorted : c.userTypes.Pairwise (· ≤ ·) := by
    have htrans : ∀ a b c : TypeName, decide (a ≤ b) = true → decide (b ≤ c) = true →
        decide (a ≤ c) = true := by
      simpa only [decide_eq_true_eq] using fun a b c => String.le_trans
    have htotal : ∀ a b : TypeName, (decide (a ≤ b) || decide (b ≤ a)) = true := by
      simpa only [Bool.or_eq_true, decide_eq_true_eq] using String.le_total
    exact (List.pairwise_mergeSort htrans htotal _).imp fun h => of_decide_eq_true h
  exact (hsorted.and hnodup).imp fun h =>
    String.not_le.1 fun hge => h.2 (String.le_antisymm h.1 hge)

theorem definition?_of_mem (h : f.registerInto .initial = (.ok (), c)) (he : e ∈ f.entries) :
    ∃ d, c.definition? e.name = some d ∧ d.params = e.params := by
  obtain ⟨hn, -, -, hall⟩ := types_addEntries nodup_initial h
  obtain ⟨d, hparams, hd⟩ := hall e he
  exact ⟨d, (Table.get?_eq_some_iff hn).2 hd, hparams⟩

end Catalog

end Typewire
