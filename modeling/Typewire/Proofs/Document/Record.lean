import Mathlib.Tactic.Common
import Typewire.Document.Record

/-! # Reading the members of records

A reader finds every member of an object whose names are all known, and what it takes for a member
that is left out is what is left out.
-/

namespace Typewire.Document

theorem ofJsonItems_eq_map (js : List Json) : ofJsonItems js = js.map ofJson := by
  induction js with
  | nil => rfl
  | cons j js ih => rw [ofJsonItems, ih, List.map_cons]

theorem ofJsonMembers_eq_map (ms : List (String × Json)) :
    ofJsonMembers ms = ms.map fun m => (m.1, ofJson m.2) := by
  induction ms with
  | nil => rfl
  | cons m ms ih => rw [ofJsonMembers, ih, List.map_cons]

theorem repeated_eq_false_iff {names : List String} : repeated names = false ↔ names.Nodup := by
  induction names with
  | nil => simp [repeated]
  | cons name names ih => simp [repeated, ih]

theorem members?_ofJson {rule : RecordRule} {known : List String} {ms : Members Json}
    (hknown : ∀ name ∈ Members.names ms, name ∈ known) (hnodup : (Members.names ms).Nodup) :
    (ofJson (.obj ms)).members? rule known = some (ms.map fun m => (m.1, ofJson m.2)) := by
  rw [ofJson, ofJsonMembers_eq_map, members?]
  have hown : ((ms.map fun m => (m.1, ofJson m.2)).filter fun m => known.contains m.1) =
      ms.map fun m => (m.1, ofJson m.2) := by
    rw [List.filter_eq_self]
    intro m hm
    obtain ⟨n, hn, rfl⟩ := List.mem_map.1 hm
    exact List.contains_iff_mem.2 (hknown _ (List.mem_map_of_mem hn))
  have hrepeated : repeated ((ms.map fun m => (m.1, ofJson m.2)).map Prod.fst) = false := by
    rw [repeated_eq_false_iff, List.map_map]
    exact hnodup
  simp only [hown, hrepeated]
  simp

variable {α : Type}

theorem mapM_map {β : Type} {read : β → Option α} {write : α → β} {as : List α}
    (h : ∀ a ∈ as, read (write a) = some a) : (as.map write).mapM read = some as := by
  induction as with
  | nil => rfl
  | cons a as ih =>
    rw [List.map_cons, List.mapM_cons, h a List.mem_cons_self,
      ih fun b hb => h b (List.mem_cons_of_mem a hb)]
    rfl

theorem exists_of_mem_mapM {β : Type} {read : β → Option α} {bs : List β} {as : List α}
    (h : bs.mapM read = some as) {a : α} (ha : a ∈ as) : ∃ b ∈ bs, read b = some a := by
  induction bs generalizing as with
  | nil =>
    cases h
    cases ha
  | cons b bs ih =>
    simp only [List.mapM_cons, Option.bind_eq_bind, Option.bind_eq_some_iff, Option.pure_def,
      Option.some.injEq] at h
    obtain ⟨a', hb, as', hbs, rfl⟩ := h
    rcases List.mem_cons.1 ha with rfl | ha
    · exact ⟨b, List.mem_cons_self, hb⟩
    · obtain ⟨b', hb', h⟩ := ih hbs ha
      exact ⟨b', List.mem_cons_of_mem b hb', h⟩

theorem exists_of_optional? {read : Document → Option α} {d? : Option Document} {a? : Option α}
    (h : optional? read d? = some a?) {a : α} (ha : a? = some a) : ∃ d, read d = some a := by
  subst ha
  unfold optional? at h
  split at h
  · cases h
  · cases h
  · rename_i d _
    obtain ⟨a', hread, h⟩ := Option.map_eq_some_iff.1 h
    cases h
    exact ⟨d, hread⟩

theorem optional?_write {read : Document → Option α} {write : α → Json} {a? : Option α}
    (h : ∀ a, a? = some a → write a ≠ .null ∧ read (ofJson (write a)) = some a) :
    optional? read ((a?.map write).map ofJson) = some a? := by
  cases a? with
  | none => rfl
  | some a =>
    obtain ⟨hnull, hread⟩ := h a rfl
    have hne : ofJson (write a) ≠ null := by
      intro he
      cases hw : write a <;> simp_all [ofJson]
    simp [optional?, hread]

theorem withDefault?_write [DecidableEq α] {default a : α} {read : Document → Option α}
    {write : α → Json} (h : a ≠ default → read (ofJson (write a)) = some a) :
    withDefault? default read ((if a = default then none else some (write a)).map ofJson) =
      some a := by
  split
  · subst_vars
    rfl
  · rename_i hne
    exact h hne

end Typewire.Document
