import Mathlib.Order.Nat
import Mathlib.Tactic.Common
import Typewire.Registry

/-! # What requests leave alone

Whatever factories do while a codec is made, the tables of a registry stay in step, no codec and no
published entry is ever lost, and every term that is staged on the way has its codec by the end.
These facts hold of all runs, so they are proved once, for each kind of request.
-/

namespace Typewire

namespace Registry

variable {reg mid reg' reg'' : Registry} {key : TypeTerm} {slot : Nat} {codec : Codec}

def Holds (reg : Registry) (slot : Nat) (codec : Codec) : Prop :=
  reg.slots[slot]? = some (some codec)

/-- The tables of a registry are in step. -/
structure WellFormed (reg : Registry) : Prop where
  idle : reg.depth = 0 → reg.staged = []
  published_filled : ∀ key slot, Table.get? key reg.published = some slot →
    ∃ codec, reg.Holds slot codec
  staged_lt : ∀ entry ∈ reg.staged, entry.2 < reg.slots.size
  staged_new : ∀ entry ∈ reg.staged, Table.get? entry.1 reg.published = none
  staged_nodup : (Table.keys reg.staged).Nodup
  canonical : ∀ key slot, reg.slot? key = some slot → reg.canonical key = key

/-- What is left of a registry by requests inside a derivation. -/
structure Extends (reg reg' : Registry) : Prop where
  host : reg'.host = reg.host
  settings : reg'.settings = reg.settings
  depth : reg'.depth = reg.depth
  size : reg.slots.size ≤ reg'.slots.size
  slots : ∀ slot < reg.slots.size, reg'.slots[slot]? = reg.slots[slot]?
  published : ∀ key slot, Table.get? key reg.published = some slot →
    Table.get? key reg'.published = some slot
  staged : ∀ entry ∈ reg.staged, entry ∈ reg'.staged
  staged_filled : ∀ entry ∈ reg'.staged, entry ∈ reg.staged ∨ ∃ codec, reg'.Holds entry.2 codec
  factories : ∀ type factory, Table.get? type reg.factories = some factory →
    Table.get? type reg'.factories = some factory

theorem Holds.lt_size (h : reg.Holds slot codec) : slot < reg.slots.size :=
  (Array.getElem?_eq_some_iff.1 h).1

theorem isFilled_iff : reg.isFilled slot = true ↔ ∃ codec, reg.Holds slot codec := by
  unfold isFilled Holds
  rcases reg.slots[slot]? with _ | _ | codec <;> simp

theorem Extends.refl (reg : Registry) : Extends reg reg where
  host := rfl
  settings := rfl
  depth := rfl
  size := le_rfl
  slots _ _ := rfl
  published _ _ h := h
  staged _ h := h
  staged_filled _ h := .inl h
  factories _ _ h := h

theorem Extends.holds (h : Extends reg reg') (hs : reg.Holds slot codec) :
    reg'.Holds slot codec :=
  (h.slots slot hs.lt_size).trans hs

theorem Extends.trans (h : Extends reg reg') (h' : Extends reg' reg'') : Extends reg reg'' where
  host := h'.host.trans h.host
  settings := h'.settings.trans h.settings
  depth := h'.depth.trans h.depth
  size := h.size.trans h'.size
  slots slot hs := (h'.slots slot (hs.trans_le h.size)).trans (h.slots slot hs)
  published key slot hp := h'.published key slot (h.published key slot hp)
  staged entry he := h'.staged entry (h.staged entry he)
  staged_filled entry he := by
    rcases h'.staged_filled entry he with he | hf
    · rcases h.staged_filled entry he with he | ⟨codec, hc⟩
      · exact .inl he
      · exact .inr ⟨codec, h'.holds hc⟩
    · exact .inr hf
  factories type factory hf := h'.factories type factory (h.factories type factory hf)

theorem slot?_eq_some_iff (hw : reg.WellFormed) :
    reg.slot? key = some slot ↔
      Table.get? key reg.published = some slot ∨ (key, slot) ∈ reg.staged := by
  rw [slot?, Option.or_eq_some_iff, Table.get?_eq_some_iff hw.staged_nodup]
  constructor
  · rintro (h | ⟨-, h⟩)
    · exact .inl h
    · exact .inr h
  · rintro (h | h)
    · exact .inl h
    · exact .inr ⟨hw.staged_new _ h, h⟩

theorem slot?_eq_none_iff :
    reg.slot? key = none ↔ Table.get? key reg.published = none ∧ key ∉ Table.keys reg.staged := by
  rw [slot?, Option.or_eq_none_iff, Table.get?_eq_none_iff (t := reg.staged)]

theorem slot?_lt_size (hw : reg.WellFormed) (h : reg.slot? key = some slot) :
    slot < reg.slots.size := by
  rcases (slot?_eq_some_iff hw).1 h with h | h
  · obtain ⟨codec, hc⟩ := hw.published_filled key slot h
    exact hc.lt_size
  · exact hw.staged_lt _ h

theorem Extends.slot? (h : Extends reg reg') (hw : reg.WellFormed) (hw' : reg'.WellFormed)
    (hs : reg.slot? key = some slot) : reg'.slot? key = some slot := by
  rw [slot?_eq_some_iff hw] at hs
  rw [slot?_eq_some_iff hw']
  exact hs.imp (h.published key slot) (h.staged (key, slot))

section SingleRequests

theorem WellFormed.countHit (hw : reg.WellFormed) : reg.countHit.WellFormed :=
  ⟨hw.idle, hw.published_filled, hw.staged_lt, hw.staged_new, hw.staged_nodup, hw.canonical⟩

theorem extends_countHit (reg : Registry) : Extends reg reg.countHit :=
  ⟨rfl, rfl, rfl, le_rfl, fun _ _ => rfl, fun _ _ h => h, fun _ h => h, fun _ h => .inl h,
    fun _ _ h => h⟩

theorem layoutOf_cases (reg : Registry) (type : TypeName) :
    (reg.layoutOf type).2 = reg ∨
      ∃ layout, reg.host.layout type = some (.ok layout) ∧ Table.get? type reg.layouts = none ∧
        (reg.layoutOf type).2 = { reg with
          layouts := Table.insert type layout reg.layouts
          stats := { reg.stats with layouts := reg.stats.layouts + 1 } } := by
  unfold layoutOf
  split
  · exact .inl rfl
  · rename_i hn
    split
    · exact .inl rfl
    · exact .inl rfl
    · rename_i layout hl
      exact .inr ⟨layout, hl, hn, rfl⟩

theorem WellFormed.layoutOf (hw : reg.WellFormed) (type : TypeName) :
    (reg.layoutOf type).2.WellFormed := by
  rcases layoutOf_cases reg type with h | ⟨layout, -, -, h⟩
  · rwa [h]
  · rw [h]
    exact ⟨hw.idle, hw.published_filled, hw.staged_lt, hw.staged_new, hw.staged_nodup,
      hw.canonical⟩

theorem extends_layoutOf (reg : Registry) (type : TypeName) :
    Extends reg (reg.layoutOf type).2 := by
  rcases layoutOf_cases reg type with h | ⟨layout, -, -, h⟩
  · rw [h]
    exact .refl reg
  · rw [h]
    exact ⟨rfl, rfl, rfl, le_rfl, fun _ _ => rfl, fun _ _ h => h, fun _ h => h,
      fun _ h => .inl h, fun _ _ h => h⟩

/-- The layouts that the registry holds are those that the host tells. -/
def Faithful (reg : Registry) : Prop :=
  ∀ type layout, Table.get? type reg.layouts = some layout →
    reg.host.layout type = some (.ok layout)

theorem Faithful.layoutOf (h : reg.Faithful) (type : TypeName) :
    (reg.layoutOf type).1 = match reg.host.layout type with
      | none => .error .crashed
      | some (.error e) => .ok (.error (.host e))
      | some (.ok layout) => .ok (.ok layout) := by
  rw [Registry.layoutOf]
  cases hg : Table.get? type reg.layouts with
  | some layout => rw [h type _ hg]
  | none =>
    rcases reg.host.layout type with _ | _ | _
    all_goals rfl

theorem Faithful.learned (h : reg.Faithful) (type : TypeName) : (reg.layoutOf type).2.Faithful := by
  rcases layoutOf_cases reg type with he | ⟨layout, hl, -, he⟩ <;> rw [he]
  · exact h
  · intro t l ht
    rw [Table.get?_insert] at ht
    split at ht
    · cases ht
      subst_vars
      exact hl
    · exact h t l ht

theorem isKnown_iff : reg.isKnown key = true ↔ reg.slot? key ≠ none := by
  rw [ne_eq, slot?_eq_none_iff, isKnown, Bool.or_eq_true, Table.has_iff, Table.has_iff,
    Table.get?_eq_none_iff]
  tauto

theorem override_cases (reg : Registry) (term : TypeTerm) (codec : Codec) :
    (reg.slot? (reg.canonical term) ≠ none ∧
      reg.override term codec = (.error (.alreadyResolved (reg.canonical term)), reg)) ∨
    (reg.slot? (reg.canonical term) = none ∧
      reg.override term codec = (.ok (), { reg with
        slots := reg.slots.push (some codec)
        published := Table.insert (reg.canonical term) reg.slots.size reg.published })) := by
  unfold override
  by_cases h : reg.slot? (reg.canonical term) = none
  · exact .inr ⟨h, if_neg (by rw [isKnown_iff]; exact not_not.2 h)⟩
  · exact .inl ⟨h, if_pos (isKnown_iff.2 h)⟩

theorem getElem?_push_iff {c : Option Codec} :
    (reg.slots.push c)[slot]? = some (some codec) ↔
      reg.Holds slot codec ∨ slot = reg.slots.size ∧ c = some codec := by
  unfold Holds
  rw [Array.getElem?_push]
  split
  · subst_vars
    simp
  · simp [*]

theorem Holds.push (h : reg.Holds slot codec) (c : Option Codec) :
    (reg.slots.push c)[slot]? = some (some codec) :=
  getElem?_push_iff.2 (.inl h)

theorem of_override_ok {term : TypeTerm} (h : (reg.override term codec).1 = .ok ()) :
    reg.slot? (reg.canonical term) = none ∧ (reg.override term codec).2 = { reg with
      slots := reg.slots.push (some codec)
      published := Table.insert (reg.canonical term) reg.slots.size reg.published } := by
  rcases override_cases reg term codec with ⟨-, he⟩ | ⟨hn, he⟩
  · rw [he] at h
    cases h
  · exact ⟨hn, by rw [he]⟩

theorem override_published {term : TypeTerm} (h : (reg.override term codec).1 = .ok ()) :
    Table.get? (reg.canonical term) (reg.override term codec).2.published =
        some reg.slots.size ∧
      (reg.override term codec).2.Holds reg.slots.size codec := by
  rw [(of_override_ok h).2, Table.get?_insert, if_pos rfl]
  exact ⟨rfl, getElem?_push_iff.2 (.inr ⟨rfl, rfl⟩)⟩

theorem WellFormed.override (hw : reg.WellFormed) (term : TypeTerm) (codec : Codec) :
    (reg.override term codec).2.WellFormed := by
  rcases override_cases reg term codec with ⟨-, h⟩ | ⟨hn, h⟩
  · rwa [h]
  · rw [h]
    rw [slot?_eq_none_iff] at hn
    refine ⟨hw.idle, ?_, ?_, ?_, hw.staged_nodup, ?_⟩
    · intro key slot hp
      rw [Table.get?_insert] at hp
      split at hp
      · cases hp
        exact ⟨codec, by simp [Holds]⟩
      · obtain ⟨c, hc⟩ := hw.published_filled key slot hp
        exact ⟨c, hc.push _⟩
    · intro entry he
      have := hw.staged_lt entry he
      simp only [Array.size_push]
      omega
    · intro entry he
      have hne : entry.1 ≠ reg.canonical term := fun heq => hn.2 (heq ▸ Table.mem_keys_of_mem he)
      rw [Table.get?_insert, if_neg hne]
      exact hw.staged_new entry he
    · intro key slot hs
      by_cases he : key = reg.canonical term
      · subst he
        exact reg.settings.canonical_canonical term
      · refine hw.canonical key slot ?_
        simpa [slot?, Table.get?_insert, he] using hs

theorem extends_override (reg : Registry) (term : TypeTerm) (codec : Codec) :
    Extends reg (reg.override term codec).2 := by
  rcases override_cases reg term codec with ⟨-, h⟩ | ⟨hn, h⟩
  · rw [h]
    exact .refl reg
  · rw [h]
    rw [slot?_eq_none_iff] at hn
    refine ⟨rfl, rfl, rfl, ?_, ?_, ?_, fun _ h => h, fun _ h => .inl h, fun _ _ h => h⟩
    · simp
    · intro slot hs
      exact Array.getElem?_push_lt hs |>.trans (Array.getElem?_eq_getElem hs).symm
    · intro key slot hp
      have hne : key ≠ reg.canonical term := fun heq => by simp [heq, hn.1] at hp
      rw [Table.get?_insert, if_neg hne]
      exact hp

theorem enlist_cases (reg : Registry) (type : TypeName) (factory : Factory) :
    reg.enlist type factory = (.error (.factoryConflict type), reg) ∨
    (reg.isInUse type = false ∧ Table.get? type reg.factories = none ∧
      reg.enlist type factory = (.ok (), { reg with
        factories := Table.insert type factory reg.factories })) := by
  unfold enlist
  split
  · exact .inl rfl
  · rename_i h
    rw [not_or, Bool.not_eq_true, Bool.not_eq_true, Table.has, Option.isSome_eq_false_iff,
      Option.isNone_iff_eq_none] at h
    exact .inr ⟨h.1, h.2, rfl⟩

theorem of_enlist_ok {type : TypeName} {factory : Factory}
    (h : (reg.enlist type factory).1 = .ok ()) : Table.get? type reg.factories = none ∧
      (reg.enlist type factory).2 =
        { reg with factories := Table.insert type factory reg.factories } := by
  rcases enlist_cases reg type factory with he | ⟨-, hn, he⟩
  · rw [he] at h
    cases h
  · exact ⟨hn, by rw [he]⟩

theorem WellFormed.enlist (hw : reg.WellFormed) (type : TypeName) (factory : Factory) :
    (reg.enlist type factory).2.WellFormed := by
  rcases enlist_cases reg type factory with h | ⟨-, -, h⟩
  · rwa [h]
  · rw [h]
    exact ⟨hw.idle, hw.published_filled, hw.staged_lt, hw.staged_new, hw.staged_nodup,
      hw.canonical⟩

theorem extends_enlist (reg : Registry) (type : TypeName) (factory : Factory) :
    Extends reg (reg.enlist type factory).2 := by
  rcases enlist_cases reg type factory with h | ⟨-, hn, h⟩
  · rw [h]
    exact .refl reg
  · rw [h]
    refine ⟨rfl, rfl, rfl, le_rfl, fun _ _ => rfl, fun _ _ h => h, fun _ h => h,
      fun _ h => .inl h, ?_⟩
    intro t f hf
    have hne : t ≠ type := fun heq => by simp [heq, hn] at hf
    rw [Table.get?_insert, if_neg hne]
    exact hf

end SingleRequests

section Derivations

theorem mem_staged_stage {entry : TypeTerm × Nat} (hn : reg.slot? key = none) :
    entry ∈ (reg.stage key).staged ↔ entry = (key, reg.slots.size) ∨ entry ∈ reg.staged := by
  rw [slot?_eq_none_iff] at hn
  rw [stage, Table.mem_insert]
  constructor
  · rintro (h | h)
    · exact .inl h
    · exact .inr h.1
  · rintro (h | h)
    · exact .inl h
    · exact .inr ⟨h, fun he => hn.2 (he ▸ Table.mem_keys_of_mem h)⟩

theorem WellFormed.stage (hw : reg.WellFormed) (hn : reg.slot? key = none)
    (hc : reg.canonical key = key) : (reg.stage key).WellFormed where
  idle h := by simp [Registry.stage] at h
  published_filled k slot hp := by
    obtain ⟨codec, h⟩ := hw.published_filled k slot hp
    exact ⟨codec, h.push none⟩
  staged_lt entry he := by
    rcases (mem_staged_stage hn).1 he with rfl | he
    · simp [Registry.stage]
    · have := hw.staged_lt entry he
      simp only [Registry.stage, Array.size_push]
      omega
  staged_new entry he := by
    rcases (mem_staged_stage hn).1 he with rfl | he
    · exact (slot?_eq_none_iff.1 hn).1
    · exact hw.staged_new entry he
  staged_nodup := Table.nodup_keys_insert hw.staged_nodup
  canonical k slot hs := by
    by_cases he : k = key
    · exact he ▸ hc
    · refine hw.canonical k slot ?_
      simpa [slot?, Registry.stage, Table.get?_insert, he] using hs

theorem holds_fill_iff {s : Nat} {c : Codec} (hlt : slot < reg.slots.size) :
    (reg.fill slot codec).Holds s c ↔ if s = slot then c = codec else reg.Holds s c := by
  unfold Holds fill
  rw [Array.getElem?_setIfInBounds]
  by_cases he : s = slot
  · subst he
    simp [hlt, eq_comm]
  · simp [he, Ne.symm he]

theorem get?_publish (hw : reg.WellFormed) (slot : Nat) (codec : Codec) (key : TypeTerm)
    (s : Nat) :
    Table.get? key (reg.fill slot codec).publish.published = some s ↔
      Table.get? key reg.published = some s ∨
        (key, s) ∈ reg.staged ∧ (reg.fill slot codec).isFilled s = true := by
  have hn : (Table.keys ((reg.fill slot codec).staged.filter
      fun entry => (reg.fill slot codec).isFilled entry.2)).Nodup :=
    hw.staged_nodup.sublist (List.filter_sublist.map _)
  rw [publish, Table.get?_insertAll hn, Option.or_eq_some_iff, Table.get?_eq_some_iff hn,
    Table.get?_eq_none_iff, List.mem_filter]
  constructor
  · rintro (h | ⟨-, h⟩)
    · exact .inr h
    · exact .inl h
  · rintro (h | h)
    · refine .inr ⟨fun hk => ?_, h⟩
      obtain ⟨entry, he, rfl⟩ := List.mem_map.1 hk
      have := hw.staged_new entry (List.mem_filter.1 he).1
      simp [h] at this
    · exact .inl h

/-- The derivation of a term that has just ended in a registry. -/
structure Ended (reg : Registry) (key : TypeTerm) (mid : Registry) : Prop where
  before : reg.WellFormed
  new : reg.slot? key = none
  canonical : reg.canonical key = key
  after : mid.WellFormed
  extends_stage : Extends (reg.stage key) mid

namespace Ended

variable (h : Ended reg key mid)

include h

theorem depth : mid.depth = reg.depth + 1 := h.extends_stage.depth

theorem mem_staged : (key, reg.slots.size) ∈ mid.staged :=
  h.extends_stage.staged _ ((mem_staged_stage h.new).2 (.inl rfl))

theorem slot_empty : mid.slots[reg.slots.size]? = some none := by
  rw [h.extends_stage.slots _ (by simp [Registry.stage])]
  simp [Registry.stage]

theorem slot_lt : reg.slots.size < mid.slots.size := h.after.staged_lt _ h.mem_staged

theorem slots_of_lt (hs : slot < reg.slots.size) : mid.slots[slot]? = reg.slots[slot]? := by
  rw [h.extends_stage.slots slot (by simp only [Registry.stage, Array.size_push]; omega)]
  simp only [Registry.stage, Array.getElem?_push_lt hs, Array.getElem?_eq_getElem hs]

theorem staged_cases {entry : TypeTerm × Nat} (he : entry ∈ mid.staged) :
    entry ∈ reg.staged ∨ entry = (key, reg.slots.size) ∨ ∃ codec, mid.Holds entry.2 codec := by
  rcases h.extends_stage.staged_filled entry he with he | hf
  · rcases (mem_staged_stage h.new).1 he with he | he
    · exact .inr (.inl he)
    · exact .inl he
  · exact .inr (.inr hf)

theorem holds_fill {s : Nat} {c : Codec} (hs : mid.Holds s c) (codec : Codec) :
    (mid.fill reg.slots.size codec).Holds s c := by
  refine (holds_fill_iff h.slot_lt).2 ?_
  rw [if_neg]
  · exact hs
  · rintro rfl
    rw [Holds, h.slot_empty] at hs
    cases hs

theorem holds_fill_self (codec : Codec) :
    (mid.fill reg.slots.size codec).Holds reg.slots.size codec :=
  (holds_fill_iff h.slot_lt).2 (by simp)

theorem filled_of_outermost (hd : reg.depth = 0) {entry : TypeTerm × Nat}
    (he : entry ∈ mid.staged) (codec : Codec) :
    (mid.fill reg.slots.size codec).isFilled entry.2 = true := by
  rw [isFilled_iff]
  rcases h.staged_cases he with he | rfl | ⟨c, hc⟩
  · rw [h.before.idle hd] at he
    cases he
  · exact ⟨codec, h.holds_fill_self codec⟩
  · exact ⟨c, h.holds_fill hc codec⟩

theorem complete_eq (codec : Codec) :
    mid.complete reg.slots.size codec =
      if reg.depth = 0 then (mid.fill reg.slots.size codec).publish
      else mid.fill reg.slots.size codec := by
  have hd : (mid.fill reg.slots.size codec).depth = reg.depth := by
    simp [fill, h.depth]
  rw [complete, hd]

theorem get?_complete (codec : Codec) {k : TypeTerm} {s : Nat} :
    Table.get? k (mid.complete reg.slots.size codec).published = some s ↔
      Table.get? k mid.published = some s ∨ reg.depth = 0 ∧ (k, s) ∈ mid.staged := by
  rw [h.complete_eq]
  split
  · rename_i hd
    rw [get?_publish h.after]
    refine or_congr_right ⟨fun he => ⟨hd, he.1⟩, fun he => ⟨he.2, ?_⟩⟩
    exact h.filled_of_outermost hd he.2 codec
  · rename_i hd
    simp [hd, fill]

theorem mem_staged_complete (codec : Codec) {entry : TypeTerm × Nat} :
    entry ∈ (mid.complete reg.slots.size codec).staged ↔ reg.depth ≠ 0 ∧ entry ∈ mid.staged := by
  rw [h.complete_eq]
  split <;> rename_i hd <;> simp [hd, fill, publish]

theorem slots_complete (codec : Codec) :
    (mid.complete reg.slots.size codec).slots = (mid.fill reg.slots.size codec).slots := by
  rw [h.complete_eq]
  split <;> rfl

theorem holds_complete_iff {codec : Codec} {s : Nat} {c : Codec} :
    (mid.complete reg.slots.size codec).Holds s c ↔
      (mid.fill reg.slots.size codec).Holds s c := by
  rw [Holds, Holds, h.slots_complete]

theorem slot?_complete (codec : Codec) {k : TypeTerm} {s : Nat} :
    (mid.complete reg.slots.size codec).slot? k = some s ↔ mid.slot? k = some s := by
  rw [slot?_eq_some_iff h.after]
  by_cases hd : reg.depth = 0
  · have hs : (mid.complete reg.slots.size codec).staged = [] := by
      rw [h.complete_eq, if_pos hd]
      rfl
    rw [slot?, hs, Table.get?_nil, Option.or_none, h.get?_complete]
    simp [hd]
  · rw [h.complete_eq, if_neg hd, ← slot?_eq_some_iff h.after]
    rfl

theorem wellFormed_complete (codec : Codec) :
    (mid.complete reg.slots.size codec).WellFormed := by
  have hsize : (mid.complete reg.slots.size codec).slots.size = mid.slots.size := by
    rw [h.slots_complete]
    simp [fill]
  have hsettings : (mid.complete reg.slots.size codec).settings = mid.settings := by
    rw [h.complete_eq]
    split <;> rfl
  refine ⟨?_, ?_, ?_, ?_, ?_, ?_⟩
  · intro hd
    rw [h.complete_eq] at hd ⊢
    split
    · rfl
    · rename_i hr
      rw [if_neg hr] at hd
      simp [fill, h.depth] at hd
      exact absurd hd hr
  · intro k s hp
    rw [h.get?_complete] at hp
    simp only [h.holds_complete_iff]
    rcases hp with hp | ⟨hd, he⟩
    · obtain ⟨c, hc⟩ := h.after.published_filled k s hp
      exact ⟨c, h.holds_fill hc codec⟩
    · -- What the outermost derivation publishes has its codec.
      exact isFilled_iff.1 (h.filled_of_outermost hd he codec)
  · intro entry he
    rw [hsize]
    exact h.after.staged_lt entry ((h.mem_staged_complete codec).1 he).2
  · intro entry he
    obtain ⟨hd, he⟩ := (h.mem_staged_complete codec).1 he
    rw [Option.eq_none_iff_forall_ne_some]
    intro s hs
    rcases (h.get?_complete codec).1 hs with hs | hs
    · simp [h.after.staged_new entry he] at hs
    · exact hd hs.1
  · rw [h.complete_eq]
    split
    · exact List.nodup_nil
    · exact h.after.staged_nodup
  · intro k s hs
    rw [Registry.canonical, hsettings]
    exact h.after.canonical k s ((h.slot?_complete codec).1 hs)

theorem extends_complete (codec : Codec) : Extends reg (mid.complete reg.slots.size codec) := by
  have hx := h.extends_stage
  refine ⟨?_, ?_, ?_, ?_, ?_, ?_, ?_, ?_, ?_⟩
  · rw [h.complete_eq]
    split <;> exact hx.host
  · rw [h.complete_eq]
    split <;> exact hx.settings
  · rw [h.complete_eq]
    split <;> simp [fill, publish, h.depth]
  · rw [h.slots_complete]
    simp only [fill, Array.size_setIfInBounds]
    exact h.slot_lt.le
  · intro s hs
    rw [h.slots_complete, fill, Array.getElem?_setIfInBounds_ne (Nat.ne_of_gt hs)]
    exact h.slots_of_lt hs
  · intro k s hp
    exact (h.get?_complete codec).2 (.inl (hx.published k s hp))
  · intro entry he
    refine (h.mem_staged_complete codec).2 ⟨fun hd => ?_, ?_⟩
    · rw [h.before.idle hd] at he
      cases he
    · exact hx.staged entry ((mem_staged_stage h.new).2 (.inr he))
  · intro entry he
    simp only [h.holds_complete_iff]
    rcases h.staged_cases ((h.mem_staged_complete codec).1 he).2 with he | rfl | ⟨c, hc⟩
    · exact .inl he
    · exact .inr ⟨codec, h.holds_fill_self codec⟩
    · exact .inr ⟨c, h.holds_fill hc codec⟩
  · intro type factory hf
    rw [h.complete_eq]
    split <;> exact hx.factories type factory hf

theorem mem_staged_abandon {entry : TypeTerm × Nat} :
    entry ∈ (mid.abandon key).staged ↔
      reg.depth ≠ 0 ∧ entry ∈ mid.staged ∧ entry.1 ≠ key := by
  rw [abandon, h.depth]
  by_cases hd : reg.depth = 0 <;> simp [hd, Table.mem_erase]

theorem slot?_abandon {k : TypeTerm} {s : Nat} (hs : (mid.abandon key).slot? k = some s) :
    mid.slot? k = some s ∧ k ≠ key := by
  rw [slot?, Option.or_eq_some_iff] at hs
  rw [slot?_eq_some_iff h.after]
  rcases hs with hp | ⟨-, hs⟩
  · refine ⟨.inl hp, ?_⟩
    rintro rfl
    have := h.after.staged_new _ h.mem_staged
    rw [show (mid.abandon k).published = mid.published from rfl] at hp
    simp [this] at hp
  · have hm := h.mem_staged_abandon.1 (Table.mem_of_get? hs)
    exact ⟨.inr hm.2.1, hm.2.2⟩

theorem wellFormed_abandon : (mid.abandon key).WellFormed where
  idle hd := by
    have hr : reg.depth = 0 := by simpa [abandon, h.depth] using hd
    simp [abandon, h.depth, hr]
  published_filled k s hp := h.after.published_filled k s hp
  staged_lt entry he := h.after.staged_lt entry (h.mem_staged_abandon.1 he).2.1
  staged_new entry he := h.after.staged_new entry (h.mem_staged_abandon.1 he).2.1
  staged_nodup := by
    rw [abandon]
    split
    · exact List.nodup_nil
    · exact Table.nodup_keys_erase h.after.staged_nodup
  canonical k s hs := h.after.canonical k s (h.slot?_abandon hs).1

theorem extends_abandon : Extends reg (mid.abandon key) := by
  have hx := h.extends_stage
  refine ⟨hx.host, hx.settings, ?_, h.slot_lt.le, fun _ hs => h.slots_of_lt hs, hx.published,
    ?_, ?_, hx.factories⟩
  · simp [abandon, h.depth]
  · intro entry he
    refine h.mem_staged_abandon.2 ⟨fun hd => ?_, ?_, ?_⟩
    · rw [h.before.idle hd] at he
      cases he
    · exact hx.staged entry ((mem_staged_stage h.new).2 (.inr he))
    · intro hk
      exact (slot?_eq_none_iff.1 h.new).2 (hk ▸ Table.mem_keys_of_mem he)
  · intro entry he
    obtain ⟨-, he, hk⟩ := h.mem_staged_abandon.1 he
    rcases h.staged_cases he with he | rfl | hf
    · exact .inl he
    · exact absurd rfl hk
    · exact .inr hf

end Ended

end Derivations

section Runs

/-- The lookup keeps the tables in step and loses nothing. -/
def Keeps (resolve : Lookup) : Prop :=
  ∀ term reg, reg.WellFormed →
    (resolve term reg).2.WellFormed ∧ Extends reg (resolve term reg).2

theorem Keeps.run {ρ : Type} {resolve : Lookup} (hr : Keeps resolve) (q : Ask ρ)
    (hw : reg.WellFormed) :
    (q.run resolve reg).2.WellFormed ∧ Extends reg (q.run resolve reg).2 := by
  induction q generalizing reg with
  | answer | halt => exact ⟨hw, .refl reg⟩
  | lookup term next ih =>
    obtain ⟨hw', hx⟩ := hr term reg hw
    rw [Query.run]
    split <;> rename_i he <;> rw [he] at hw' hx
    · obtain ⟨hw'', hx'⟩ := ih _ hw'
      exact ⟨hw'', hx.trans hx'⟩
    · exact ⟨hw', hx⟩
  | layout type next ih =>
    have hw' := hw.layoutOf type
    have hx := extends_layoutOf reg type
    rw [Query.run]
    split <;> rename_i he <;> rw [he] at hw' hx
    · obtain ⟨hw'', hx'⟩ := ih _ hw'
      exact ⟨hw'', hx.trans hx'⟩
    · exact ⟨hw', hx⟩
  | override term codec next ih =>
    obtain ⟨hw', hx⟩ := ih (reg.override term codec).1 (hw.override term codec)
    exact ⟨hw', (extends_override reg term codec).trans hx⟩
  | enlist type factory next ih =>
    obtain ⟨hw', hx⟩ := ih (reg.enlist type factory).1 (hw.enlist type factory)
    exact ⟨hw', (extends_enlist reg type factory).trans hx⟩
  | inspect next ih => exact ih reg.store hw

theorem Keeps.ended {resolve : Lookup} (hr : Keeps resolve) (hw : reg.WellFormed)
    (hn : reg.slot? key = none) (hc : reg.canonical key = key) :
    Ended reg key (derive resolve key reg).2 := by
  have hs := hw.stage hn hc
  obtain ⟨hw', hx⟩ := hr.run ((reg.stage key).recipe key) hs
  exact ⟨hw, hn, hc, hw', hx⟩

theorem resolve_cases (calls : Nat) (term : TypeTerm) (reg : Registry) :
    (∃ slot, reg.slot? (reg.canonical term) = some slot ∧
      resolve (calls + 1) term reg = (.ok (.ok ⟨reg.canonical term, slot⟩), reg.countHit)) ∨
    (reg.slot? (reg.canonical term) = none ∧
      ((∃ codec mid, derive (resolve calls) (reg.canonical term) reg = (.ok (.ok codec), mid) ∧
        resolve (calls + 1) term reg =
          (.ok (.ok ⟨reg.canonical term, reg.slots.size⟩), mid.complete reg.slots.size codec)) ∨
      (∃ answer mid, derive (resolve calls) (reg.canonical term) reg = (answer, mid) ∧
        (∀ codec, answer ≠ .ok (.ok codec)) ∧
        (∀ ref, (resolve (calls + 1) term reg).1 ≠ .ok (.ok ref)) ∧
        (resolve (calls + 1) term reg).2 = mid.abandon (reg.canonical term)))) := by
  rw [resolve]
  cases hs : reg.slot? (reg.canonical term) with
  | some slot => exact .inl ⟨slot, rfl, rfl⟩
  | none =>
    refine .inr ⟨rfl, ?_⟩
    rcases hd : derive (resolve calls) (reg.canonical term) reg with ⟨why | e | codec, mid⟩
    · exact .inr ⟨_, mid, rfl, by simp, by simp, rfl⟩
    · exact .inr ⟨_, mid, rfl, by simp, by simp, rfl⟩
    · exact .inl ⟨codec, mid, rfl, rfl⟩

/-- Lookups keep the tables in step, whatever the factories are. -/
theorem keeps_resolve (calls : Nat) : Keeps (resolve calls) := by
  induction calls with
  | zero => exact fun term reg hw => ⟨hw, .refl reg⟩
  | succ calls ih =>
    intro term reg hw
    rcases resolve_cases calls term reg with ⟨slot, -, h⟩ | ⟨hn, h⟩
    · rw [h]
      exact ⟨hw.countHit, extends_countHit reg⟩
    · have he := ih.ended hw hn (reg.settings.canonical_canonical term)
      rcases h with ⟨codec, mid, hd, h⟩ | ⟨answer, mid, hd, -, -, h⟩ <;> rw [hd] at he <;> rw [h]
      · exact ⟨he.wellFormed_complete codec, he.extends_complete codec⟩
      · exact ⟨he.wellFormed_abandon, he.extends_abandon⟩

end Runs

end Registry

end Typewire
