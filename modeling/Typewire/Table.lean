/-! # Finite tables

Lists of keyed entries in no particular order, with at most one entry that counts for each key.
-/

namespace Typewire

abbrev Table (κ α : Type) := List (κ × α)

namespace Table

variable {κ α : Type} [DecidableEq κ]

def get? (key : κ) (t : Table κ α) : Option α := List.lookup key t

def has (key : κ) (t : Table κ α) : Bool := (get? key t).isSome

def erase (key : κ) (t : Table κ α) : Table κ α := t.filter fun entry => entry.1 ≠ key

/-- Put an entry in the place of every entry with the same key. -/
def insert (key : κ) (a : α) (t : Table κ α) : Table κ α := (key, a) :: erase key t

def keys (t : Table κ α) : List κ := t.map Prod.fst

theorem get?_nil (key : κ) : get? key ([] : Table κ α) = none := rfl

theorem get?_cons (key k : κ) (a : α) (t : Table κ α) :
    get? key ((k, a) :: t) = if key = k then some a else get? key t := by
  rw [get?, List.lookup_cons]
  by_cases h : key = k
  · simp [h]
  · rw [beq_false_of_ne h, if_neg h, get?]

theorem has_iff {key : κ} {t : Table κ α} : has key t = true ↔ key ∈ keys t := by
  induction t with
  | nil => simp [has, get?_nil, keys]
  | cons e t ih =>
    obtain ⟨k, a⟩ := e
    simp only [has, get?_cons, keys, List.map_cons, List.mem_cons] at ih ⊢
    by_cases h : key = k <;> simp [h, ih]

theorem get?_erase (key k : κ) (t : Table κ α) :
    get? key (erase k t) = if key = k then none else get? key t := by
  induction t with
  | nil => simp [erase, get?_nil]
  | cons e t ih =>
    obtain ⟨k', a⟩ := e
    simp only [erase] at ih ⊢
    by_cases h : k' = k <;> simp [h, get?_cons] <;> grind

theorem get?_insert (key k : κ) (a : α) (t : Table κ α) :
    get? key (insert k a t) = if key = k then some a else get? key t := by
  rw [insert, get?_cons, get?_erase]
  split <;> rfl

theorem get?_eq_none_iff {key : κ} {t : Table κ α} : get? key t = none ↔ key ∉ keys t := by
  rw [← has_iff, has, Bool.not_eq_true, Option.isSome_eq_false_iff, Option.isNone_iff_eq_none]

omit [DecidableEq κ] in
theorem mem_keys_of_mem {entry : κ × α} {t : Table κ α} (h : entry ∈ t) : entry.1 ∈ keys t :=
  List.mem_map_of_mem h

theorem mem_of_get? {key : κ} {a : α} {t : Table κ α} (h : get? key t = some a) :
    (key, a) ∈ t := by
  induction t with
  | nil => simp [get?_nil] at h
  | cons e t ih =>
    obtain ⟨k, b⟩ := e
    rw [get?_cons] at h
    split at h
    · cases h
      subst_vars
      exact List.mem_cons_self
    · exact List.mem_cons_of_mem _ (ih h)

theorem get?_eq_some_iff {key : κ} {a : α} {t : Table κ α} (hn : (keys t).Nodup) :
    get? key t = some a ↔ (key, a) ∈ t := by
  refine ⟨mem_of_get?, fun h => ?_⟩
  induction t with
  | nil => cases h
  | cons e t ih =>
    obtain ⟨k, b⟩ := e
    obtain ⟨hk, hn⟩ := List.nodup_cons.1 hn
    rcases List.mem_cons.1 h with h | h
    · cases h
      rw [get?_cons, if_pos rfl]
    · have hm : key ∈ keys t := mem_keys_of_mem h
      have hne : key ≠ k := fun he => hk (he ▸ hm)
      rw [get?_cons, if_neg hne, ih hn h]

theorem mem_erase {entry : κ × α} {key : κ} {t : Table κ α} :
    entry ∈ erase key t ↔ entry ∈ t ∧ entry.1 ≠ key := by
  simp [erase]

theorem mem_insert {entry : κ × α} {key : κ} {a : α} {t : Table κ α} :
    entry ∈ insert key a t ↔ entry = (key, a) ∨ entry ∈ t ∧ entry.1 ≠ key := by
  rw [insert, List.mem_cons, mem_erase]

theorem nodup_keys_erase {key : κ} {t : Table κ α} (h : (keys t).Nodup) :
    (keys (erase key t)).Nodup :=
  h.sublist (List.filter_sublist.map _)

theorem nodup_keys_insert {key : κ} {a : α} {t : Table κ α} (h : (keys t).Nodup) :
    (keys (insert key a t)).Nodup := by
  refine List.nodup_cons.2 ⟨fun hk => ?_, nodup_keys_erase h⟩
  obtain ⟨entry, he, rfl⟩ := List.mem_map.1 hk
  exact (mem_erase.1 he).2 rfl

theorem insert_of_not_mem {key : κ} {a : α} {t : Table κ α} (h : key ∉ keys t) :
    insert key a t = (key, a) :: t := by
  have he : erase key t = t := by
    refine List.filter_eq_self.2 fun entry he => decide_eq_true ?_
    rintro rfl
    exact h (mem_keys_of_mem he)
  rw [insert, he]

theorem keys_insert {key : κ} {a : α} {t : Table κ α} (h : key ∉ keys t) :
    keys (insert key a t) = key :: keys t := by
  rw [insert_of_not_mem h]
  rfl

def insertAll (entries : List (κ × α)) (t : Table κ α) : Table κ α :=
  entries.foldl (fun t entry => insert entry.1 entry.2 t) t

theorem get?_insertAll {entries : Table κ α} (hn : (keys entries).Nodup) (key : κ)
    (t : Table κ α) : get? key (insertAll entries t) = (get? key entries).or (get? key t) := by
  induction entries generalizing t with
  | nil => rfl
  | cons e entries ih =>
    obtain ⟨k, a⟩ := e
    obtain ⟨hk, hn⟩ := List.nodup_cons.1 hn
    have ih := ih hn (insert k a t)
    rw [insertAll, List.foldl_cons, ← insertAll, ih, get?_insert, get?_cons]
    by_cases he : key = k
    · subst he
      simp [get?_eq_none_iff.2 hk]
    · simp [he]

theorem perm_keys_insertAll {entries t : Table κ α} (hn : (keys entries).Nodup)
    (hd : ∀ key ∈ keys entries, key ∉ keys t) :
    (keys (insertAll entries t)).Perm (keys entries ++ keys t) := by
  induction entries generalizing t with
  | nil => exact .refl _
  | cons e entries ih =>
    obtain ⟨hk, hn⟩ := List.nodup_cons.1 hn
    have hi : keys (insert e.1 e.2 t) = e.1 :: keys t := keys_insert (hd _ List.mem_cons_self)
    refine (ih hn fun key he => ?_).trans (hi ▸ List.perm_middle)
    rw [hi, List.mem_cons, not_or]
    exact ⟨fun heq => hk (heq ▸ he), hd key (List.mem_cons_of_mem _ he)⟩

end Table

end Typewire
