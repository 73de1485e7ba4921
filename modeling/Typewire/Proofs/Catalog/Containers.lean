import Typewire.Proofs.Catalog.Standard
import Typewire.Proofs.Schema.Parts

/-! # Containers in catalogues

In a catalogue that comes from files only the built-in containers have parts without being records
or unions. Their parts are their arguments, so every cycle of parts passes through a record or a
union.
-/

namespace Typewire

open Relation

/-- The catalogue after files were added to the built-in types. Of a file that fails, the types
before the failure stay. -/
def Catalog.ofFiles (files : List CatalogFile) : Catalog :=
  files.foldl (fun c file => (file.registerInto c).2) .initial

def Layout.Contains (layout : Layout) : Prop :=
  ∀ scheme ∈ layout.parts, ∃ index, scheme = .param index

namespace Catalog

/-- Types whose schemas have no entry of their own are containers. -/
def Shallow (c : Catalog) : Prop :=
  c.Every fun _ d => d.layout.isNamed = false → d.layout.Contains

theorem shallow_initial : initial.Shallow := by
  refine every_initial fun d hd _ => ?_
  simp only [builtins, AtomicKind.all, List.mem_append, List.mem_map, List.mem_cons,
    List.not_mem_nil, or_false] at hd
  rcases hd with ⟨kind, -, rfl⟩ | rfl | rfl | rfl | rfl <;> simp [Layout.Contains, Layout.parts]

end Catalog

namespace CatalogFile

theorem contains_define {e : Entry} {d : TypeDefinition} (h : e.define = .ok d)
    (hn : d.layout.isNamed = false) : d.layout.Contains := by
  cases e with
  | record r =>
    rw [Entry.define, RecordEntry.define] at h
    split at h
    · cases h
    · obtain ⟨_, -, h⟩ := Except.exists_of_bind h
      cases h
      cases hn
  | enumeration e =>
    cases h
    exact fun scheme hs => by cases hs
  | union u =>
    rw [Entry.define, UnionEntry.define, UnionDeclaration.define] at h
    obtain ⟨variants, -, h⟩ := Except.exists_of_bind h
    cases h
    cases hn

end CatalogFile

namespace Catalog

theorem shallow_ofFiles (files : List CatalogFile) : (ofFiles files).Shallow := by
  suffices hfold : ∀ c : Catalog, c.Shallow →
      (files.foldl (fun c file => (file.registerInto c).2) c).Shallow from
    hfold _ shallow_initial
  induction files with
  | nil => exact fun c h => h
  | cons file files ih =>
    intro c h
    have hfile : (file.registerInto c).2.Shallow :=
      h.addEntries (fun _ _ hd => CatalogFile.contains_define hd) file.entries
    exact ih _ hfile

theorem sizeOf_canonical_le (s : Settings) (t : TypeTerm) : sizeOf (s.canonical t) ≤ sizeOf t := by
  unfold Settings.canonical
  split
  · obtain ⟨head, args⟩ := t
    cases args with
    | nil => exact le_rfl
    | cons arg args =>
      simp [TypeTerm.erased]
      omega
  · exact le_rfl

section Guarded

variable {c : Catalog} (h : c.Shallow) (s : Settings) (customs : TypeTerm → Option Codec)

include h

/-- Terms that are written out in place are greater than their parts. -/
theorem Shallow.sizeOf_lt {key part : TypeTerm}
    (hn : Reference.Nests ⟨c.host, s, customs⟩ key part) : sizeOf part < sizeOf key := by
  obtain ⟨head, args⟩ := key
  obtain ⟨⟨hc, layout, scheme, target, hl, hs, hi, rfl⟩, hn⟩ := hn
  have hname : layout.isNamed = false :=
    Bool.eq_false_of_not_eq_true fun he => hn ⟨hc, layout, hl, he⟩
  obtain ⟨d, hd, rfl⟩ : ∃ d, c.definition? head = some d ∧ d.layout = layout := by
    change some (c.layout head) = _ at hl
    rw [Catalog.layout] at hl
    split at hl <;> cases hl
    exact ⟨_, ‹_›, rfl⟩
  obtain ⟨index, rfl⟩ := h head d hd hname scheme hs
  rw [TypeScheme.instantiate] at hi
  split at hi <;> cases hi
  rename_i harg
  have hmem : target ∈ args := List.mem_of_getElem? harg
  have hsize := List.sizeOf_lt_of_mem hmem
  have hle := sizeOf_canonical_le s target
  simp only [TypeTerm.mk.sizeOf_spec]
  omega

theorem Shallow.guarded (key : TypeTerm) : Reference.Guarded ⟨c.host, s, customs⟩ key := by
  intro k _ hcycle
  have hless : ∀ b, TransGen (Reference.Nests ⟨c.host, s, customs⟩) k b → sizeOf b < sizeOf k := by
    intro b hb
    induction hb with
    | single hn => exact h.sizeOf_lt s customs hn
    | tail _ hn ih => exact (h.sizeOf_lt s customs hn).trans ih
  exact Nat.lt_irrefl _ (hless k hcycle)

end Guarded

end Catalog

end Typewire
