import Mathlib.Data.Finset.Card
import Mathlib.Tactic.Common
import Typewire.Schema.Dictionary

/-! # Names and entries of dictionaries

Every name that is given stands for one term and has an entry, and an entry that is reserved stays
so until it is filled.
-/

namespace Typewire.Dictionary

variable {d d' d'' : Dictionary} {key : TypeTerm} {name : String}

theorem candidate_injective (base : String) : Function.Injective (candidate base) := by
  have hne : ∀ n : Nat, base ≠ base ++ "_" ++ toString n := by
    intro n h
    have hlen := congrArg String.length h
    simp only [String.length_append] at hlen
    have : ("_" : String).length = 1 := rfl
    omega
  intro m n h
  unfold candidate at h
  split at h <;> split at h
  · omega
  · exact absurd h (hne _)
  · exact absurd h.symm (hne _)
  · have hdigits : Nat.toDigits 10 (m + 1) = Nat.toDigits 10 (n + 1) := by
      rw [← Nat.toList_repr, ← Nat.toList_repr]
      exact congrArg String.toList ((String.append_right_inj _).1 h)
    have hsucc := congrArg (Nat.ofDigitChars 10 · 0) hdigits
    simp only [Nat.ofDigitChars_ten_toDigits] at hsucc
    omega

theorem exists_candidate_not_mem (d : Dictionary) (base : String) :
    ∃ n ≤ d.taken.length, candidate base n ∉ d.taken := by
  by_contra hall
  push Not at hall
  have hnodup : ((List.range (d.taken.length + 1)).map (candidate base)).Nodup :=
    List.nodup_range.map (candidate_injective base)
  have hsub : (List.range (d.taken.length + 1)).map (candidate base) ⊆ d.taken := by
    intro name hname
    obtain ⟨n, hn, rfl⟩ := List.mem_map.1 hname
    exact hall n (Nat.le_of_lt_succ (List.mem_range.1 hn))
  have hle := (hnodup.subperm hsub).length_le
  simp only [List.length_map, List.length_range] at hle
  omega

/-- The search for a name stops at the first candidate that is free, after no more steps than there
are names taken. -/
theorem exists_freshName_eq (d : Dictionary) (base : String) :
    ∃ n ≤ d.taken.length, d.freshName base = candidate base n ∧ candidate base n ∉ d.taken ∧
      ∀ m < n, candidate base m ∈ d.taken := by
  obtain ⟨k, hk, hfree⟩ := d.exists_candidate_not_mem base
  cases hfind : (List.range (d.taken.length + 1)).find? fun n =>
      !d.taken.contains (candidate base n) with
  | none =>
    have hused := List.find?_eq_none.1 hfind k (List.mem_range.2 (Nat.lt_succ_of_le hk))
    simp [hfree] at hused
  | some n =>
    obtain ⟨hn, hmem, hleast⟩ := List.find?_range_eq_some.1 hfind
    refine ⟨n, Nat.le_of_lt_succ (List.mem_range.1 hmem), ?_, by simpa using hn, fun m hm => ?_⟩
    · rw [freshName, List.find?_map, Function.comp_def, hfind]
      rfl
    · simpa using hleast m hm

/-- Names are given once, and those that are given are those with an entry and those taken. -/
structure Sound (d : Dictionary) : Prop where
  injective : ∀ key key' name, Table.get? key d.names = some name →
    Table.get? key' d.names = some name → key = key'
  entries : ∀ name, name ∈ Members.names d.entries ↔ ∃ key, Table.get? key d.names = some name
  taken : ∀ name, name ∈ d.taken ↔ name ∈ Members.names d.entries
  sorted : Members.Sorted d.entries

/-- The second dictionary has the names of the first. -/
structure Retains (d d' : Dictionary) : Prop where
  refPrefix : d'.refPrefix = d.refPrefix
  names : ∀ key name, Table.get? key d.names = some name → Table.get? key d'.names = some name

/-- Besides, it has no more entries that are only reserved. -/
structure Extends (d d' : Dictionary) : Prop extends Retains d d' where
  reserved : ∀ name, Members.get? name d'.entries = some none →
    Members.get? name d.entries = some none

theorem Retains.refl (d : Dictionary) : Retains d d := ⟨rfl, fun _ _ h => h⟩

theorem Retains.trans (h : Retains d d') (h' : Retains d' d'') : Retains d d'' :=
  ⟨h'.refPrefix.trans h.refPrefix, fun k n hk => h'.names k n (h.names k n hk)⟩

theorem Extends.refl (d : Dictionary) : Extends d d := ⟨.refl d, fun _ h => h⟩

theorem Extends.trans (h : Extends d d') (h' : Extends d' d'') : Extends d d'' :=
  ⟨h.toRetains.trans h'.toRetains, fun n hn => h.reserved n (h'.reserved n hn)⟩

theorem sound_empty (refPrefix : String) : Sound { refPrefix } :=
  ⟨fun _ _ _ h => (by cases h), fun name => by simp [Members.names, Table.get?_nil],
    fun name => by simp [Members.names], Members.sorted_nil⟩

theorem Sound.freshName_not_mem (h : d.Sound) (base : String) :
    d.freshName base ∉ Members.names d.entries := by
  obtain ⟨n, -, heq, hfree, -⟩ := d.exists_freshName_eq base
  rw [heq, ← h.taken]
  exact hfree

theorem Sound.exists_entry (h : d.Sound) (hmade : Members.get? name d.entries ≠ some none)
    (hkey : Table.get? key d.names = some name) :
    ∃ schema, Members.get? name d.entries = some (some schema) := by
  have hmem : name ∈ Members.names d.entries := (h.entries name).2 ⟨key, hkey⟩
  rw [← Members.has_iff, Members.has, Option.isSome_iff_exists] at hmem
  obtain ⟨_ | schema, hs⟩ := hmem
  · exact absurd hs hmade
  · exact ⟨schema, hs⟩

theorem get?_names_reserve (d : Dictionary) (key k : TypeTerm) (name : String) :
    Table.get? k (d.reserve key name).names =
      if k = key then some name else Table.get? k d.names :=
  Table.get?_insert k key name d.names

theorem retains_reserve (hkey : Table.get? key d.names = none) :
    Retains d (d.reserve key name) := by
  refine ⟨rfl, fun k n hk => ?_⟩
  rw [get?_names_reserve, if_neg (by rintro rfl; simp [hkey] at hk), hk]

theorem Sound.reserve (h : d.Sound) (hkey : Table.get? key d.names = none)
    (hname : name ∉ Members.names d.entries) : (d.reserve key name).Sound where
  injective k k' n hk hk' := by
    have hused : ∀ k, Table.get? k d.names ≠ some name :=
      fun k hk => hname ((h.entries name).2 ⟨k, hk⟩)
    rw [get?_names_reserve] at hk hk'
    split at hk <;> split at hk'
    · simp_all
    · cases hk
      exact absurd hk' (hused k')
    · cases hk'
      exact absurd hk (hused k)
    · exact h.injective k k' n hk hk'
  entries n := by
    simp only [get?_names_reserve]
    rw [Dictionary.reserve, Members.mem_names_insert, h.entries]
    constructor
    · rintro (rfl | ⟨k, hk⟩)
      · exact ⟨key, if_pos rfl⟩
      · exact ⟨k, get?_names_reserve d key k name ▸ (retains_reserve hkey).names k n hk⟩
    · rintro ⟨k, hk⟩
      split at hk
      · exact .inl (Option.some.inj hk).symm
      · exact .inr ⟨k, hk⟩
  taken n := by
    rw [Dictionary.reserve, Members.mem_names_insert, List.mem_cons, h.taken]
  sorted := h.sorted.insert name none

theorem Sound.fill (h : d.Sound) (hkey : Table.get? key d.names = some name) (schema : Schema) :
    (d.fill name schema).Sound where
  injective := h.injective
  entries n := by
    rw [Dictionary.fill, Members.mem_names_insert, h.entries]
    refine ⟨?_, .inr⟩
    rintro (rfl | hn)
    · exact ⟨key, hkey⟩
    · exact hn
  taken n := by
    rw [Dictionary.fill, Members.mem_names_insert, h.taken]
    refine ⟨.inr, ?_⟩
    rintro (rfl | hn)
    · exact (h.entries _).2 ⟨key, hkey⟩
    · exact hn
  sorted := h.sorted.insert name (some schema)

theorem Extends.fill (hkey : Table.get? key d.names = none)
    (h : Extends (d.reserve key name) d') (schema : Schema) :
    Extends d (d'.fill name schema) := by
  refine ⟨(retains_reserve hkey).trans ⟨h.refPrefix, h.names⟩, fun n hn => ?_⟩
  rw [Dictionary.fill, Members.get?_insert] at hn
  split at hn
  · cases hn
  · have hr := h.reserved n hn
    rwa [reserve, Members.get?_insert, if_neg ‹_›] at hr

theorem exists_complete?_of_filled (h : ∀ entry ∈ d.entries, ∃ schema, entry.2 = some schema) :
    ∃ entries, d.complete? = .ok entries ∧ d.entries = entries.map fun e => (e.1, some e.2) := by
  obtain ⟨refPrefix, names, l, taken⟩ := d
  induction l with
  | nil => exact ⟨[], rfl, rfl⟩
  | cons entry l ih =>
    obtain ⟨⟨schema, hs⟩, h⟩ := List.forall_mem_cons.1 h
    obtain ⟨entries, hok, heq⟩ := ih h
    obtain ⟨name, _⟩ := entry
    cases hs
    rw [complete?] at hok ⊢
    exact ⟨(name, schema) :: entries, by rw [List.mapM_cons, hok]; rfl,
      congrArg (List.cons (name, some schema)) heq⟩

theorem exists_complete? (h : d.Sound) (hall : ∀ name, Members.get? name d.entries ≠ some none) :
    ∃ entries, d.complete? = .ok entries ∧ (Members.names entries).Nodup ∧
      Members.names entries = Members.names d.entries ∧
      ∀ name schema, (name, schema) ∈ entries ↔
        Members.get? name d.entries = some (some schema) := by
  obtain ⟨entries, hok, heq⟩ := exists_complete?_of_filled (d := d) <| by
    rintro ⟨name, _ | schema⟩ he
    · exact absurd (h.sorted.get?_eq_some_iff.2 he) (hall name)
    · exact ⟨schema, rfl⟩
  have hnames : Members.names entries = Members.names d.entries := by
    rw [heq, Members.names, Members.names, List.map_map]
    rfl
  refine ⟨entries, hok, hnames ▸ h.sorted.nodup, hnames, fun name schema => ?_⟩
  rw [h.sorted.get?_eq_some_iff, heq]
  simp

end Typewire.Dictionary
