import Mathlib.Order.Nat
import Mathlib.Tactic.Common
import Typewire.Codec.Decode
import Typewire.Codec.Encode

/-! # Where errors come from

A step of a codec hands on the errors of the nested codecs and of host code, with longer paths. The
errors that it adds have causes of their own, and none of these is a reference without a codec.
-/

namespace Typewire

variable {α β : Type}

namespace Encoding

variable {P : EncodeCause → Prop} {x : Encoding α}

def FailsOnly (P : EncodeCause → Prop) (x : Encoding α) : Prop :=
  ∀ e, x.run = some (.error e) → P e.cause

theorem failsOnly_pure (a : α) : (pure a : Encoding α).FailsOnly P := by
  intro e he
  cases he

theorem failsOnly_endless : (endless : Encoding α).FailsOnly P := by
  intro e he
  cases he

theorem failsOnly_fail {cause : EncodeCause} (h : P cause) :
    (fail cause : Encoding α).FailsOnly P := by
  intro e he
  cases he
  exact h

theorem failsOnly_ofExcept {r : Except EncodeCause α} (h : ∀ cause, r = .error cause → P cause) :
    (ofExcept r).FailsOnly P := by
  intro e he
  cases r with
  | ok a => cases he
  | error cause =>
    cases he
    exact h cause rfl

theorem FailsOnly.bind {f : α → Encoding β} (h : x.FailsOnly P) (hf : ∀ a, (f a).FailsOnly P) :
    (x >>= f).FailsOnly P := by
  intro e he
  rw [ExceptT.run_bind] at he
  rcases hx : x.run with _ | e' | a
  · rw [hx] at he
    cases he
  · rw [hx] at he
    cases he
    exact h _ hx
  · rw [hx] at he
    exact hf a e he

theorem FailsOnly.under (h : x.FailsOnly P) (step : Step) : (x.under step).FailsOnly P := by
  intro e he
  have hu : (x.under step).run = x.run.map (Except.mapError (Located.under step)) := rfl
  rw [hu] at he
  cases hx : x.run with
  | none =>
    rw [hx] at he
    cases he
  | some r =>
    rw [hx] at he
    cases r with
    | ok a => cases he
    | error e' =>
      cases he
      exact h e' hx

end Encoding

namespace Decoding

variable {P : DecodeCause → Prop} {x : Decoding α}

def FailsOnly (P : DecodeCause → Prop) (x : Decoding α) : Prop := ∀ e, x = .error e → P e.cause

theorem failsOnly_ok (a : α) : FailsOnly P (.ok a : Decoding α) := by
  intro e he
  cases he

theorem failsOnly_fail {cause : DecodeCause} (h : P cause) :
    FailsOnly P (fail cause : Decoding α) := by
  intro e he
  cases he
  exact h

theorem failsOnly_ofExcept {r : Except DecodeCause α} (h : ∀ cause, r = .error cause → P cause) :
    FailsOnly P (ofExcept r) := by
  intro e he
  cases r with
  | ok a => cases he
  | error cause =>
    cases he
    exact h cause rfl

theorem FailsOnly.bind {f : α → Decoding β} (h : FailsOnly P x) (hf : ∀ a, FailsOnly P (f a)) :
    FailsOnly P (x >>= f) := by
  intro e he
  cases x with
  | ok a => exact hf a e he
  | error e' =>
    cases he
    exact h _ rfl

theorem FailsOnly.map (h : FailsOnly P x) (f : α → β) : FailsOnly P (x.map f) := by
  intro e he
  cases x with
  | ok a => cases he
  | error e' =>
    cases he
    exact h _ rfl

theorem FailsOnly.under (h : FailsOnly P x) (step : Step) : FailsOnly P (x.under step) := by
  intro e he
  cases x with
  | ok a => cases he
  | error e' =>
    cases he
    exact h e' rfl

end Decoding

namespace Codec

section Encode

open Encoding

variable {P : EncodeCause → Prop} {nested : CodecRef → Value → Encoding Json} {scope : Scope}

theorem failsOnly_encodeFields (hP : ∀ cause, (∀ term, cause ≠ .unresolved term) → P cause)
    (owner : TypeTerm) (v : Value) {fields : List FieldCodec}
    (hn : ∀ f ∈ fields, ∀ v, (nested f.codec v).FailsOnly P) :
    (encodeFields nested owner v fields).FailsOnly P := by
  induction fields with
  | nil => exact failsOnly_pure _
  | cons f fs ih =>
    have ih := ih fun g hg => hn g (List.mem_cons_of_mem _ hg)
    rw [encodeFields]
    split
    · exact ih
    · split
      · exact failsOnly_fail (hP _ (by simp))
      · split
        · exact failsOnly_fail (hP _ (by simp))
        · exact ih
      · exact ((hn f List.mem_cons_self _).under _).bind fun j =>
          ih.bind fun rest => failsOnly_pure _

theorem failsOnly_encodePart {ref : CodecRef} (hn : ∀ v, (nested ref v).FailsOnly P) (step : Step)
    (v : Value) : (encodePart nested ref step v).FailsOnly P := by
  rw [encodePart]
  split
  · exact failsOnly_pure _
  · exact (hn v).under step

theorem failsOnly_encodeItems {element : CodecRef} (hn : ∀ v, (nested element v).FailsOnly P)
    (index : Nat) (vs : List Value) : (encodeItems nested element index vs).FailsOnly P := by
  induction vs generalizing index with
  | nil => exact failsOnly_pure _
  | cons v vs ih =>
    exact (failsOnly_encodePart hn _ v).bind fun j => (ih _).bind fun js => failsOnly_pure _

theorem failsOnly_encodeKey (hP : ∀ cause, (∀ term, cause ≠ .unresolved term) → P cause)
    (stringBacked : Bool) {key : CodecRef} (hn : ∀ v, (nested key v).FailsOnly P) (v : Value) :
    (encodeKey nested stringBacked key v).FailsOnly P := by
  rw [encodeKey]
  split
  · exact failsOnly_fail (hP _ (by simp))
  · refine (hn v).bind fun j => ?_
    split
    · exact failsOnly_pure _
    · exact failsOnly_fail (hP _ (by simp))

theorem failsOnly_encodeEntries (hP : ∀ cause, (∀ term, cause ≠ .unresolved term) → P cause)
    (stringBacked : Bool) {key value : CodecRef} (hk : ∀ v, (nested key v).FailsOnly P)
    (hv : ∀ v, (nested value v).FailsOnly P) (done : Members Json)
    (entries : List (Value × Value)) :
    (encodeEntries nested stringBacked key value done entries).FailsOnly P := by
  induction entries generalizing done with
  | nil => exact failsOnly_pure _
  | cons entry entries ih =>
    obtain ⟨k, v⟩ := entry
    refine (failsOnly_encodeKey hP stringBacked hk k).bind fun label => ?_
    refine (failsOnly_encodePart hv _ v).bind fun j => ?_
    split
    · exact failsOnly_fail (hP _ (by simp))
    · exact ih _

theorem encodeAtomic_ne_unresolved (kind : AtomicKind) (v : Value) (term : TypeTerm) :
    Scalar.encodeAtomic kind v ≠ .error (.unresolved term) := by
  unfold Scalar.encodeAtomic
  repeat' split
  all_goals simp [EncodeCause.unexpected]

theorem encodeEnum_ne_unresolved (type : TypeName) (members : List (String × String)) (v : Value)
    (term : TypeTerm) : Scalar.encodeEnum type members v ≠ .error (.unresolved term) := by
  unfold Scalar.encodeEnum
  repeat' split
  all_goals simp [EncodeCause.unexpected]

theorem encodeFormatted_ne_unresolved (format : String) (accepts : String → Bool) (v : Value)
    (term : TypeTerm) : Scalar.encodeFormatted format accepts v ≠ .error (.unresolved term) := by
  unfold Scalar.encodeFormatted
  repeat' split
  all_goals simp [EncodeCause.unexpected]

/-- A step fails as the nested codecs or host code do, or with a cause of its own. -/
theorem failsOnly_encodeWith {codec : Codec}
    (hP : ∀ cause, (∀ term, cause ≠ .unresolved term) → P cause)
    (hc : ∀ c, codec = .custom c → ∀ v e, c.encode v = .error e → P e.cause)
    (hn : ∀ ref ∈ codec.refs, ∀ v, (nested ref v).FailsOnly P) (v : Value) :
    (codec.encodeWith nested scope v).FailsOnly P := by
  cases codec with
  | atomic kind =>
    refine failsOnly_ofExcept fun cause h => hP cause ?_
    rintro term rfl
    exact encodeAtomic_ne_unresolved kind v term h
  | record owner constructor fields strict =>
    refine (failsOnly_encodeFields hP owner v fun f hf => hn f.codec ?_).bind
      fun members => failsOnly_pure _
    exact List.mem_map_of_mem hf
  | sequence container element =>
    have hv : ∀ v, (nested element v).FailsOnly P := hn _ (by simp [refs])
    cases v with
    | sequence c items =>
      exact (failsOnly_encodeItems hv 0 items).bind fun js => failsOnly_pure _
    | _ => exact failsOnly_fail (hP _ (by simp [EncodeCause.unexpected]))
  | map owner key value =>
    have hk : ∀ v, (nested key v).FailsOnly P := hn _ (by simp [refs])
    have hv : ∀ v, (nested value v).FailsOnly P := hn _ (by simp [refs])
    cases v with
    | map entries =>
      exact (failsOnly_encodeEntries hP _ hk hv [] entries).bind fun members => failsOnly_pure _
    | _ => exact failsOnly_fail (hP _ (by simp [EncodeCause.unexpected]))
  | enumeration type members =>
    refine failsOnly_ofExcept fun cause h => hP cause ?_
    rintro term rfl
    exact encodeEnum_ne_unresolved type members v term h
  | union owner branches =>
    rw [encodeWith]
    split
    · exact failsOnly_fail (hP _ (by simp))
    · rename_i b hb
      have hm : b.codec ∈ (Codec.union owner branches).refs :=
        List.mem_map_of_mem (List.mem_of_find?_eq_some hb)
      exact ((hn b.codec hm v).under _).bind fun j => failsOnly_pure _
  | formatted format accepts =>
    refine failsOnly_ofExcept fun cause h => hP cause ?_
    rintro term rfl
    exact encodeFormatted_ne_unresolved format accepts v term h
  | custom c =>
    intro e he
    exact hc c rfl v e (Option.some.inj he)

end Encode

section Decode

open Decoding

variable {P : DecodeCause → Prop} {nested : CodecRef → Json → Decoding Value} {scope : Scope}

theorem failsOnly_decodeFields (hP : ∀ cause, (∀ term, cause ≠ .unresolved term) → P cause)
    (owner : TypeTerm) (members : Members Json) {fields : List FieldCodec}
    (hn : ∀ f ∈ fields, ∀ name j, Members.get? name members = some j →
      FailsOnly P (nested f.codec j)) :
    FailsOnly P (decodeFields nested owner members fields) := by
  induction fields with
  | nil => exact failsOnly_ok _
  | cons f fs ih =>
    have ih := ih fun g hg => hn g (List.mem_cons_of_mem _ hg)
    rw [decodeFields]
    split
    · exact ih
    · split
      · split
        · exact failsOnly_fail (hP _ (by simp))
        · exact ih
      · rename_i j hj
        have hj := (Option.filter_eq_some_iff.1 hj).1
        exact ((hn f List.mem_cons_self _ j hj).under _).bind fun v =>
          ih.bind fun rest => failsOnly_ok _

theorem failsOnly_applySetters (hP : ∀ cause, (∀ term, cause ≠ .unresolved term) → P cause)
    (owner : TypeTerm) (v : Value) (values : List (Property × Value)) :
    FailsOnly P (applySetters owner v values) := by
  induction values generalizing v with
  | nil => exact failsOnly_ok _
  | cons entry values ih =>
    obtain ⟨p, field⟩ := entry
    rw [applySetters]
    split
    · split
      · exact ih _
      · exact failsOnly_fail (hP _ (by simp))
    · exact ih _

theorem failsOnly_decodeRecord (hP : ∀ cause, (∀ term, cause ≠ .unresolved term) → P cause)
    (owner : TypeTerm) (constructor : Constructor) {fields : List FieldCodec} (strict : Bool)
    {members : Members Json}
    (hn : ∀ f ∈ fields, ∀ name j, Members.get? name members = some j →
      FailsOnly P (nested f.codec j)) :
    FailsOnly P (decodeRecord nested owner constructor fields strict members) := by
  rw [decodeRecord]
  split
  · exact failsOnly_fail (hP _ (by simp))
  · refine (failsOnly_decodeFields hP owner members hn).bind fun values => ?_
    split
    · exact failsOnly_applySetters hP owner _ values
    · exact failsOnly_fail (hP _ (by simp))

theorem failsOnly_decodePart {ref : CodecRef} {j : Json} (hn : FailsOnly P (nested ref j))
    (step : Step) : FailsOnly P (decodePart nested ref step j) := by
  rw [decodePart]
  split
  · exact failsOnly_ok _
  · exact hn.under step

theorem failsOnly_decodeItems {element : CodecRef} (index : Nat) {items : List Json}
    (hn : ∀ j ∈ items, FailsOnly P (nested element j)) :
    FailsOnly P (decodeItems nested element index items) := by
  induction items generalizing index with
  | nil => exact failsOnly_ok _
  | cons j js ih =>
    have ih := fun index => ih index fun j hj => hn j (List.mem_cons_of_mem _ hj)
    exact (failsOnly_decodePart (hn j List.mem_cons_self) _).bind fun v =>
      (ih _).bind fun vs => failsOnly_ok _

theorem failsOnly_decodeEntries {key value : CodecRef} {members : Members Json}
    (hk : ∀ label, FailsOnly P (nested key (.str label)))
    (hv : ∀ entry ∈ members, FailsOnly P (nested value entry.2)) :
    FailsOnly P (decodeEntries nested key value members) := by
  induction members with
  | nil => exact failsOnly_ok _
  | cons entry members ih =>
    obtain ⟨label, j⟩ := entry
    have ih := ih fun entry he => hv entry (List.mem_cons_of_mem _ he)
    exact ((hk label).under _).bind fun k =>
      (failsOnly_decodePart (hv _ List.mem_cons_self) _).bind fun v =>
        ih.bind fun entries => failsOnly_ok _

theorem decodeWhole_ne_unresolved (j : Json) (term : TypeTerm) :
    Scalar.decodeWhole j ≠ .error (.unresolved term) := by
  unfold Scalar.decodeWhole
  repeat' split
  all_goals simp [DecodeCause.unexpected]

theorem decodeAtomic_ne_unresolved (kind : AtomicKind) (j : Json) (term : TypeTerm) :
    Scalar.decodeAtomic kind j ≠ .error (.unresolved term) := by
  have hw := decodeWhole_ne_unresolved j term
  unfold Scalar.decodeAtomic
  split
  case h_5 =>
    split
    · split <;> simp
    · simp_all
  case h_6 =>
    rcases hr : Scalar.decodeWhole j with cause | i
    · rintro ⟨⟩
      exact hw hr
    · simp [Except.map]
  all_goals simp [DecodeCause.unexpected]

theorem decodeEnum_ne_unresolved (type : TypeName) (members : List (String × String)) (j : Json)
    (term : TypeTerm) : Scalar.decodeEnum type members j ≠ .error (.unresolved term) := by
  unfold Scalar.decodeEnum
  repeat' split
  all_goals simp [DecodeCause.unexpected]

theorem decodeFormatted_ne_unresolved (format : String) (accepts : String → Bool) (j : Json)
    (term : TypeTerm) : Scalar.decodeFormatted format accepts j ≠ .error (.unresolved term) := by
  unfold Scalar.decodeFormatted
  repeat' split
  all_goals simp [DecodeCause.unexpected]

/-- A step fails as the nested codecs do on parts of the document, as host code does, or with a
cause of its own. -/
theorem failsOnly_decodeWith {codec : Codec} {j : Json}
    (hP : ∀ cause, (∀ term, cause ≠ .unresolved term) → P cause)
    (hc : ∀ c, codec = .custom c → ∀ j e, c.decode j = .error e → P e.cause)
    (hn : ∀ ref ∈ codec.refs, ∀ j', j'.depth < j.depth → FailsOnly P (nested ref j')) :
    FailsOnly P (codec.decodeWith nested scope j) := by
  cases codec with
  | atomic kind =>
    refine failsOnly_ofExcept fun cause h => hP cause ?_
    rintro term rfl
    exact decodeAtomic_ne_unresolved kind j term h
  | record owner constructor fields strict =>
    cases j with
    | obj members =>
      refine failsOnly_decodeRecord hP owner constructor strict fun f hf name j hj => ?_
      refine hn f.codec (List.mem_map_of_mem hf) j ?_
      exact Nat.lt_succ_of_le (Json.depth_le_of_mem_members (Members.mem_of_get? hj))
    | _ => exact failsOnly_fail (hP _ (by simp [DecodeCause.unexpected]))
  | sequence container element =>
    cases j with
    | arr items =>
      refine (failsOnly_decodeItems 0 fun j hj => hn element (by simp [refs]) j ?_).map _
      exact Nat.lt_succ_of_le (Json.depth_le_of_mem_items hj)
    | _ => exact failsOnly_fail (hP _ (by simp [DecodeCause.unexpected]))
  | map owner key value =>
    cases j with
    | obj members =>
      rw [decodeWith]
      split
      · refine (failsOnly_decodeEntries (fun label => ?_) fun entry he => ?_).map _
        · exact hn key (by simp [refs]) _ (Nat.succ_pos _)
        · refine hn value (by simp [refs]) _ ?_
          exact Nat.lt_succ_of_le (Json.depth_le_of_mem_members he)
      · exact failsOnly_fail (hP _ (by simp))
    | _ => exact failsOnly_fail (hP _ (by simp [DecodeCause.unexpected]))
  | enumeration type members =>
    refine failsOnly_ofExcept fun cause h => hP cause ?_
    rintro term rfl
    exact decodeEnum_ne_unresolved type members j term h
  | union owner branches =>
    cases j with
    | obj members =>
      rw [decodeWith, decodeUnion]
      split
      · rename_i b hb
        have hm : b ∈ presentBranches branches members := by simp [hb]
        obtain ⟨hb, hp⟩ := List.mem_filter.1 hm
        obtain ⟨i, hi⟩ := Option.isSome_iff_exists.1 hp
        refine FailsOnly.under (hn b.codec (List.mem_map_of_mem hb) _ ?_) _
        rw [hi]
        exact Nat.lt_succ_of_le (Json.depth_le_of_mem_members (Members.mem_of_get? hi))
      · exact failsOnly_fail (hP _ (by simp))
    | _ => exact failsOnly_fail (hP _ (by simp [DecodeCause.unexpected]))
  | formatted format accepts =>
    refine failsOnly_ofExcept fun cause h => hP cause ?_
    rintro term rfl
    exact decodeFormatted_ne_unresolved format accepts j term h
  | custom c =>
    intro e he
    exact hc c rfl j e he

end Decode

end Codec

end Typewire
