/-! # Named members

Lists of named entries in strictly increasing order of names, the form in which documents, instances
and dictionaries keep their members. Names are compared by code points.
-/

namespace Typewire

abbrev Members (α : Type) := List (String × α)

namespace Members

variable {α : Type}

def get? (name : String) (m : Members α) : Option α := List.lookup name m

def has (name : String) (m : Members α) : Bool := (get? name m).isSome

/-- Put an entry in its place, or in the place of the entry with the same name. -/
def insert (name : String) (a : α) : Members α → Members α
  | [] => [(name, a)]
  | (n, b) :: m =>
    if name = n then (name, a) :: m
    else if name < n then (name, a) :: (n, b) :: m
    else (n, b) :: insert name a m

def erase (name : String) (m : Members α) : Members α := m.filter fun entry => entry.1 ≠ name

def names (m : Members α) : List String := m.map Prod.fst

/-- Insert entries one after the other, so that the last of several with one name stays. -/
def ofList (entries : List (String × α)) : Members α :=
  entries.foldl (fun m entry => insert entry.1 entry.2 m) []

def Sorted (m : Members α) : Prop := (names m).Pairwise (· < ·)

theorem get?_nil (name : String) : get? name ([] : Members α) = none := rfl

theorem get?_cons (name n : String) (a : α) (m : Members α) :
    get? name ((n, a) :: m) = if name = n then some a else get? name m := by
  rw [get?, List.lookup_cons]
  by_cases h : name = n
  · simp [h]
  · rw [beq_false_of_ne h, if_neg h, get?]

theorem has_iff {name : String} {m : Members α} : has name m = true ↔ name ∈ names m := by
  induction m with
  | nil => simp [has, get?_nil, names]
  | cons e m ih =>
    obtain ⟨n, a⟩ := e
    simp only [has, get?_cons, names, List.map_cons, List.mem_cons] at ih ⊢
    by_cases h : name = n <;> simp [h, ih]

theorem get?_eq_none_iff {name : String} {m : Members α} : get? name m = none ↔ name ∉ names m := by
  rw [← has_iff, has, Bool.not_eq_true, Option.isSome_eq_false_iff, Option.isNone_iff_eq_none]

theorem mem_of_get? {name : String} {a : α} {m : Members α} (h : get? name m = some a) :
    (name, a) ∈ m := by
  induction m with
  | nil => cases h
  | cons e m ih =>
    obtain ⟨n, b⟩ := e
    rw [get?_cons] at h
    split at h
    · cases h
      subst_vars
      exact List.mem_cons_self
    · exact List.mem_cons_of_mem _ (ih h)

theorem get?_eq_ite (value : String → α) {m : Members α} (h : ∀ entry ∈ m, entry.2 = value entry.1)
    (name : String) : get? name m = if name ∈ names m then some (value name) else none := by
  split
  · rename_i hm
    rw [← has_iff, has, Option.isSome_iff_exists] at hm
    obtain ⟨a, ha⟩ := hm
    rw [ha, ← h _ (mem_of_get? ha)]
  · rename_i hm
    exact get?_eq_none_iff.2 hm

theorem get?_insert (name n : String) (a : α) (m : Members α) :
    get? name (insert n a m) = if name = n then some a else get? name m := by
  induction m with
  | nil => simp [insert, get?_cons, get?_nil]
  | cons e m ih =>
    obtain ⟨k, b⟩ := e
    unfold insert
    split
    · subst_vars
      grind [get?_cons]
    · split <;> grind [get?_cons]

theorem get?_erase (name n : String) (m : Members α) :
    get? name (erase n m) = if name = n then none else get? name m := by
  induction m with
  | nil => simp [erase, get?_nil]
  | cons e m ih =>
    obtain ⟨k, b⟩ := e
    simp only [erase] at ih ⊢
    by_cases h : k = n <;> simp [h, get?_cons] <;> grind

theorem mem_names_insert {name n : String} {a : α} {m : Members α} :
    name ∈ names (insert n a m) ↔ name = n ∨ name ∈ names m := by
  rw [← has_iff, ← has_iff, has, has, get?_insert]
  split <;> simp [*]

theorem sorted_nil : Sorted ([] : Members α) := List.Pairwise.nil

theorem sorted_cons {n : String} {a : α} {m : Members α} :
    Sorted ((n, a) :: m) ↔ (∀ k ∈ names m, n < k) ∧ Sorted m := List.pairwise_cons

theorem Sorted.insert {m : Members α} (h : Sorted m) (n : String) (a : α) :
    Sorted (insert n a m) := by
  induction m with
  | nil => simp [Members.insert, sorted_cons, sorted_nil, names]
  | cons e m ih =>
    obtain ⟨k, b⟩ := e
    rw [sorted_cons] at h
    unfold Members.insert
    split
    · subst_vars
      exact sorted_cons.2 h
    · rename_i hne
      split
      · rename_i hlt
        refine sorted_cons.2 ⟨fun x hx => ?_, sorted_cons.2 h⟩
        rcases List.mem_cons.1 hx with rfl | hx
        · exact hlt
        · exact String.lt_trans hlt (h.1 x hx)
      · rename_i hlt
        refine sorted_cons.2 ⟨fun x hx => ?_, ih h.2⟩
        rcases mem_names_insert.1 hx with rfl | hx
        · grind
        · exact h.1 x hx

theorem Sorted.erase {m : Members α} (h : Sorted m) (n : String) : Sorted (erase n m) :=
  List.Pairwise.sublist (List.filter_sublist.map _) h

theorem sorted_ofList (entries : List (String × α)) : Sorted (ofList entries) := by
  suffices ∀ m : Members α, Sorted m →
      Sorted (entries.foldl (fun m e => Members.insert e.1 e.2 m) m) from this [] sorted_nil
  induction entries with
  | nil => exact fun m h => h
  | cons e es ih => exact fun m h => ih _ (h.insert e.1 e.2)

theorem mem_insert {entry : String × α} {n : String} {a : α} {m : Members α}
    (h : entry ∈ insert n a m) : entry = (n, a) ∨ entry ∈ m := by
  induction m with
  | nil => simpa [insert] using h
  | cons e m ih =>
    unfold insert at h
    split at h
    · rcases List.mem_cons.1 h with h | h
      · exact .inl h
      · exact .inr (List.mem_cons_of_mem _ h)
    · split at h
      · simpa using h
      · rcases List.mem_cons.1 h with h | h
        · exact .inr (h ▸ List.mem_cons_self)
        · exact (ih h).imp_right (List.mem_cons_of_mem _)

theorem mem_ofList {entry : String × α} {entries : List (String × α)}
    (h : entry ∈ ofList entries) : entry ∈ entries := by
  suffices ∀ m : Members α, entry ∈ entries.foldl (fun m e => Members.insert e.1 e.2 m) m →
      entry ∈ m ∨ entry ∈ entries by simpa using this [] h
  clear h
  induction entries with
  | nil => exact fun m h => .inl h
  | cons e es ih =>
    intro m h
    rcases ih _ h with h | h
    · rcases mem_insert h with h | h
      · exact .inr (h ▸ List.mem_cons_self)
      · exact .inl h
    · exact .inr (List.mem_cons_of_mem _ h)

theorem get?_ofList {entries : List (String × α)} (h : (names entries).Nodup) (name : String) :
    get? name (ofList entries) = get? name entries := by
  suffices ∀ m : Members α, (∀ n ∈ names entries, n ∉ names m) →
      get? name (entries.foldl (fun m e => Members.insert e.1 e.2 m) m) =
        (get? name entries).or (get? name m) by
    have := this [] (by simp [names])
    rwa [get?_nil, Option.or_none] at this
  induction entries with
  | nil => exact fun m _ => rfl
  | cons e es ih =>
    obtain ⟨n, a⟩ := e
    obtain ⟨hn, h⟩ := List.nodup_cons.1 h
    intro m hm
    rw [List.foldl_cons, ih h, get?_insert, get?_cons]
    · by_cases he : name = n
      · subst he
        rw [if_pos rfl, if_pos rfl, get?_eq_none_iff.2 hn]
        rfl
      · rw [if_neg he, if_neg he]
    · intro k hk hm'
      rcases mem_names_insert.1 hm' with rfl | hm'
      · exact hn hk
      · exact hm k (List.mem_cons_of_mem _ hk) hm'

theorem insert_map {β : Type} (f : α → β) (n : String) (a : α) (m : Members α) :
    insert n (f a) (m.map fun e => (e.1, f e.2)) = (insert n a m).map fun e => (e.1, f e.2) := by
  induction m with
  | nil => rfl
  | cons e m ih =>
    obtain ⟨k, b⟩ := e
    simp only [List.map_cons, insert]
    split
    · rfl
    · split
      · rfl
      · rw [ih]
        rfl

theorem ofList_map {β : Type} (f : α → β) (entries : List (String × α)) :
    ofList (entries.map fun e => (e.1, f e.2)) = (ofList entries).map fun e => (e.1, f e.2) := by
  suffices ∀ m : Members α,
      (entries.map fun e => (e.1, f e.2)).foldl (fun m e => Members.insert e.1 e.2 m)
        (m.map fun e => (e.1, f e.2)) =
      (entries.foldl (fun m e => Members.insert e.1 e.2 m) m).map fun e => (e.1, f e.2)
    from this []
  induction entries with
  | nil => exact fun m => rfl
  | cons e es ih =>
    intro m
    obtain ⟨n, a⟩ := e
    rw [List.map_cons, List.foldl_cons, List.foldl_cons]
    change List.foldl _ (Members.insert n (f a) _) _ = _
    rw [insert_map, ih]

theorem get?_map {β : Type} (f : α → β) (name : String) (m : Members α) :
    get? name (m.map fun e => (e.1, f e.2)) = (get? name m).map f := by
  induction m with
  | nil => rfl
  | cons e m ih =>
    obtain ⟨n, a⟩ := e
    rw [List.map_cons, get?_cons, get?_cons, ih, apply_ite (Option.map f), Option.map_some]

theorem get?_eq_none_of_lt {name : String} {m : Members α} (h : ∀ k ∈ names m, name < k) :
    get? name m = none := by
  induction m with
  | nil => rfl
  | cons e m ih =>
    obtain ⟨n, a⟩ := e
    have hn : name < n := h n List.mem_cons_self
    have hne : name ≠ n := fun he => String.lt_irrefl n (he ▸ hn)
    rw [get?_cons, if_neg hne]
    exact ih fun k hk => h k (List.mem_cons_of_mem _ hk)

/-- A sorted list is determined by its entries. -/
theorem Sorted.ext {m m' : Members α} (h : Sorted m) (h' : Sorted m')
    (heq : ∀ name, get? name m = get? name m') : m = m' := by
  induction m generalizing m' with
  | nil =>
    cases m' with
    | nil => rfl
    | cons e _ =>
      obtain ⟨n, a⟩ := e
      simpa [get?_nil, get?_cons] using heq n
  | cons e m ih =>
    obtain ⟨n, a⟩ := e
    rw [sorted_cons] at h
    cases m' with
    | nil => simpa [get?_nil, get?_cons] using heq n
    | cons e' m' =>
      obtain ⟨n', a'⟩ := e'
      rw [sorted_cons] at h'
      have hn : n = n' := by
        by_cases hlt : n < n'
        · have h1 : get? n ((n', a') :: m') = none := get?_eq_none_of_lt fun k hk => by
            rcases List.mem_cons.1 hk with rfl | hk
            · exact hlt
            · exact String.lt_trans hlt (h'.1 k hk)
          simpa [get?_cons, h1] using heq n
        by_cases hgt : n' < n
        · have h1 : get? n' ((n, a) :: m) = none := get?_eq_none_of_lt fun k hk => by
            rcases List.mem_cons.1 hk with rfl | hk
            · exact hgt
            · exact String.lt_trans hgt (h.1 k hk)
          simpa [get?_cons, h1] using heq n'
        · exact String.le_antisymm (String.not_lt.1 hgt) (String.not_lt.1 hlt)
      subst hn
      have ha : a = a' := by simpa [get?_cons] using heq n
      have hm : m = m' := ih h.2 h'.2 fun name => by
        by_cases hname : name = n
        · subst hname
          rw [get?_eq_none_of_lt h.1, get?_eq_none_of_lt h'.1]
        · simpa [get?_cons, hname] using heq name
      rw [ha, hm]

theorem get?_eq_some_iff {m : Members α} (h : (names m).Nodup) {name : String} {a : α} :
    get? name m = some a ↔ (name, a) ∈ m := by
  refine ⟨mem_of_get?, fun hm => ?_⟩
  induction m with
  | nil => cases hm
  | cons e m ih =>
    obtain ⟨n, b⟩ := e
    obtain ⟨hn, h⟩ := List.nodup_cons.1 h
    rcases List.mem_cons.1 hm with hm | hm
    · cases hm
      rw [get?_cons, if_pos rfl]
    · have hmem : name ∈ names m := List.mem_map_of_mem (f := Prod.fst) hm
      have hne : name ≠ n := fun he => hn (he ▸ hmem)
      rw [get?_cons, if_neg hne]
      exact ih h hm

theorem Sorted.nodup {m : Members α} (h : Sorted m) : (names m).Nodup := by
  refine h.imp ?_
  rintro n _ hlt rfl
  exact String.lt_irrefl n hlt

theorem Sorted.get?_eq_some_iff {m : Members α} (h : Sorted m) {name : String} {a : α} :
    get? name m = some a ↔ (name, a) ∈ m :=
  Members.get?_eq_some_iff h.nodup

theorem mem_ofList_iff {entry : String × α} {entries : List (String × α)}
    (h : (names entries).Nodup) : entry ∈ ofList entries ↔ entry ∈ entries := by
  refine ⟨mem_ofList, fun he => mem_of_get? ?_⟩
  rw [get?_ofList h, get?_eq_some_iff h]
  exact he

theorem ofList_of_sorted {m : Members α} (h : Sorted m) : ofList m = m :=
  (sorted_ofList m).ext h fun name => get?_ofList h.nodup name

end Members

end Typewire
