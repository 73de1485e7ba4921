import Typewire.Proofs.Codec.Handing

/-! # What the steps of coding go on with

A step of a codec ends if the calls of nested codecs that it makes end, and its result is settled by
theirs. Decoding calls nested codecs on smaller documents alone, so it ends, whatever the codecs
are. Encoding calls them on smaller values, but a union hands on the value itself.
-/

namespace Typewire

namespace Encoding

variable {α β : Type} {x y : Encoding α}

def Coincide (x y : Encoding α) : Prop := ∃ r, x.run = some r ∧ y.run = some r

theorem coincide_mk (r : Except EncodeError α) :
    Coincide (ExceptT.mk (some r)) (ExceptT.mk (some r)) :=
  ⟨r, rfl, rfl⟩

theorem coincide_pure (a : α) : Coincide (pure a) (pure a) := ⟨.ok a, rfl, rfl⟩

theorem coincide_fail (cause : EncodeCause) : Coincide (fail cause : Encoding α) (fail cause) :=
  ⟨.error (.here cause), rfl, rfl⟩

theorem Coincide.bind (h : Coincide x y) {f g : α → Encoding β} (hf : ∀ a, Coincide (f a) (g a)) :
    Coincide (x >>= f) (y >>= g) := by
  obtain ⟨r, hx, hy⟩ := h
  unfold Coincide
  rw [ExceptT.run_bind, ExceptT.run_bind, hx, hy]
  cases r with
  | error e => exact ⟨.error e, rfl, rfl⟩
  | ok a => exact hf a

theorem Coincide.under (h : Coincide x y) (step : Step) :
    Coincide (x.under step) (y.under step) := by
  obtain ⟨r, hx, hy⟩ := h
  cases r with
  | error e =>
    obtain rfl : x = ExceptT.mk (some (.error e)) := hx
    obtain rfl : y = ExceptT.mk (some (.error e)) := hy
    exact coincide_mk _
  | ok a =>
    obtain rfl : x = ExceptT.mk (some (.ok a)) := hx
    obtain rfl : y = ExceptT.mk (some (.ok a)) := hy
    exact coincide_mk _

end Encoding

namespace Codec

/-- Encoding the value encodes a part of it, or the value itself, by a nested codec. -/
inductive Passes (isInstance : Value → TypeTerm → Bool) :
    Codec → Value → CodecRef → Value → Prop
  | field {owner : TypeTerm} {constructor : Constructor} {fields : List FieldCodec} {strict : Bool}
      {f : FieldCodec} {v w : Value} : f ∈ fields → f.property.accessor.get v = .ok w →
      Passes isInstance (.record owner constructor fields strict) v f.codec w
  | item {container container' : Container} {element : CodecRef} {items : List Value} {w : Value} :
      w ∈ items →
      Passes isInstance (.sequence container element) (.sequence container' items) element w
  | key {owner : TypeTerm} {key value : CodecRef} {entries : List (Value × Value)}
      {e : Value × Value} : e ∈ entries →
      Passes isInstance (.map owner key value) (.map entries) key e.1
  | entry {owner : TypeTerm} {key value : CodecRef} {entries : List (Value × Value)}
      {e : Value × Value} : e ∈ entries →
      Passes isInstance (.map owner key value) (.map entries) value e.2
  | branch {owner : TypeTerm} {branches : List BranchCodec} {b : BranchCodec} {v : Value} :
      branchFor? isInstance branches v = some b →
      Passes isInstance (.union owner branches) v b.codec v

section Encode

open Encoding

variable {enc enc' : CodecRef → Value → Encoding Json} {v : Value}

theorem coincide_encodeFields (owner : TypeTerm) {fs : List FieldCodec}
    (h : ∀ f ∈ fs, ∀ w, f.property.accessor.get v = .ok w →
      Coincide (enc f.codec w) (enc' f.codec w)) :
    Coincide (encodeFields enc owner v fs) (encodeFields enc' owner v fs) := by
  induction fs with
  | nil => exact coincide_pure []
  | cons f fs ih =>
    obtain ⟨hf, hfs⟩ := List.forall_mem_cons.1 h
    have ih := ih hfs
    rw [encodeFields, encodeFields]
    split
    · exact ih
    · split
      · exact coincide_fail _
      · split
        · exact coincide_fail _
        · exact ih
      · rename_i w _ hw
        exact ((hf w hw).under _).bind fun j => ih.bind fun rest => coincide_pure _

theorem coincide_encodePart {ref : CodecRef} (h : Coincide (enc ref v) (enc' ref v))
    (step : Step) : Coincide (encodePart enc ref step v) (encodePart enc' ref step v) := by
  rw [encodePart, encodePart]
  split
  · exact coincide_pure _
  · exact h.under step

theorem coincide_encodeItems {element : CodecRef} {vs : List Value}
    (h : ∀ w ∈ vs, Coincide (enc element w) (enc' element w)) (index : Nat) :
    Coincide (encodeItems enc element index vs) (encodeItems enc' element index vs) := by
  induction vs generalizing index with
  | nil => exact coincide_pure []
  | cons w vs ih =>
    obtain ⟨hw, hvs⟩ := List.forall_mem_cons.1 h
    rw [encodeItems, encodeItems]
    exact (coincide_encodePart hw _).bind fun j =>
      (ih hvs (index + 1)).bind fun js => coincide_pure _

theorem coincide_encodeKey {key : CodecRef} (h : Coincide (enc key v) (enc' key v))
    (stringBacked : Bool) :
    Coincide (encodeKey enc stringBacked key v) (encodeKey enc' stringBacked key v) := by
  rw [encodeKey, encodeKey]
  split
  · exact coincide_fail _
  · refine h.bind fun j => ?_
    cases j with
    | str label => exact coincide_pure label
    | _ => exact coincide_fail _

theorem coincide_encodeEntries {key value : CodecRef} {entries : List (Value × Value)}
    (hk : ∀ e ∈ entries, Coincide (enc key e.1) (enc' key e.1))
    (hv : ∀ e ∈ entries, Coincide (enc value e.2) (enc' value e.2)) (stringBacked : Bool)
    (done : Members Json) :
    Coincide (encodeEntries enc stringBacked key value done entries)
      (encodeEntries enc' stringBacked key value done entries) := by
  induction entries generalizing done with
  | nil => exact coincide_pure done
  | cons e entries ih =>
    obtain ⟨hke, hk⟩ := List.forall_mem_cons.1 hk
    obtain ⟨hve, hv⟩ := List.forall_mem_cons.1 hv
    rw [encodeEntries, encodeEntries]
    refine (coincide_encodeKey hke stringBacked).bind fun label =>
      (coincide_encodePart hve _).bind fun j => ?_
    split
    · exact coincide_fail _
    · exact ih hk hv _

theorem coincide_encodeWith {codec : Codec} {scope : Scope}
    (h : ∀ ref w, codec.Passes scope.isInstance v ref w → Coincide (enc ref w) (enc' ref w)) :
    Coincide (codec.encodeWith enc scope v) (codec.encodeWith enc' scope v) := by
  cases codec with
  | atomic | enumeration | formatted | custom => exact coincide_mk _
  | record owner constructor fields strict =>
    have hfields := coincide_encodeFields owner fun f hf w hw => h _ w (.field hf hw)
    exact hfields.bind fun members => coincide_pure _
  | sequence container element =>
    cases v with
    | sequence container' items =>
      have hitems := coincide_encodeItems (fun w hw => h _ w (.item hw)) 0
      exact hitems.bind fun js => coincide_pure _
    | _ => exact coincide_fail _
  | map owner key value =>
    cases v with
    | map entries =>
      have hentries := coincide_encodeEntries (fun e he => h _ e.1 (.key he))
        (fun e he => h _ e.2 (.entry he)) (scope.isStringBacked key) []
      exact hentries.bind fun members => coincide_pure _
    | _ => exact coincide_fail _
  | union owner branches =>
    rw [encodeWith, encodeWith]
    cases hb : branchFor? scope.isInstance branches v with
    | none => exact coincide_fail _
    | some b => exact ((h _ v (.branch hb)).under _).bind fun j => coincide_pure _

end Encode

section Decode

variable {dec dec' : CodecRef → Json → Decoding Value} {codec : Codec} {ref : CodecRef} {j i : Json}

theorem Hands.depth_lt (h : codec.Hands j ref i) : i.depth < j.depth := by
  cases h with
  | item hi => exact Nat.lt_succ_of_le (Json.depth_le_of_mem_items hi)
  | key he => exact Nat.succ_pos _
  | entry he => exact Nat.lt_succ_of_le (Json.depth_le_of_mem_members he)
  | field _ _ hi => exact Nat.lt_succ_of_le (Json.depth_le_of_mem_members (Members.mem_of_get? hi))
  | variant _ hi => exact Nat.lt_succ_of_le (Json.depth_le_of_mem_members (Members.mem_of_get? hi))

theorem decodeFields_agree (owner : TypeTerm) {members : Members Json} {fs : List FieldCodec}
    (h : ∀ f ∈ fs, f.property.deserializable = true → ∀ i,
      Members.get? f.property.name members = some i → i.isNull = false →
        dec f.codec i = dec' f.codec i) :
    decodeFields dec owner members fs = decodeFields dec' owner members fs := by
  induction fs with
  | nil => rfl
  | cons f fs ih =>
    obtain ⟨hf, hfs⟩ := List.forall_mem_cons.1 h
    rw [decodeFields, decodeFields, ih hfs]
    cases hd : f.property.deserializable with
    | false => rfl
    | true =>
      cases hi : (Members.get? f.property.name members).filter fun i => !i.isNull with
      | none => rfl
      | some i =>
        obtain ⟨hget, hnull⟩ := Option.filter_eq_some_iff.1 hi
        simp only [hf hd i hget (by simpa using hnull)]

theorem decodePart_agree (h : i.isNull = false → dec ref i = dec' ref i) (step : Step) :
    decodePart dec ref step i = decodePart dec' ref step i := by
  rw [decodePart, decodePart]
  split
  · rfl
  · rename_i hn
    rw [h (by simpa using hn)]

theorem decodeItems_agree {items : List Json}
    (h : ∀ i ∈ items, i.isNull = false → dec ref i = dec' ref i) (index : Nat) :
    decodeItems dec ref index items = decodeItems dec' ref index items := by
  induction items generalizing index with
  | nil => rfl
  | cons i items ih =>
    obtain ⟨hi, hitems⟩ := List.forall_mem_cons.1 h
    rw [decodeItems, decodeItems, decodePart_agree hi, ih hitems]

theorem decodeEntries_agree {key value : CodecRef} {members : Members Json}
    (hk : ∀ e ∈ members, dec key (.str e.1) = dec' key (.str e.1))
    (hv : ∀ e ∈ members, e.2.isNull = false → dec value e.2 = dec' value e.2) :
    decodeEntries dec key value members = decodeEntries dec' key value members := by
  induction members with
  | nil => rfl
  | cons e members ih =>
    obtain ⟨hke, hk⟩ := List.forall_mem_cons.1 hk
    obtain ⟨hve, hv⟩ := List.forall_mem_cons.1 hv
    rw [decodeEntries, decodeEntries, hke, decodePart_agree hve, ih hk hv]

theorem decodeWith_agree {scope : Scope}
    (h : ∀ ref i, codec.Hands j ref i → dec ref i = dec' ref i) :
    codec.decodeWith dec scope j = codec.decodeWith dec' scope j := by
  cases codec with
  | atomic | enumeration | formatted | custom => rfl
  | record owner constructor fields strict =>
    cases j with
    | obj members =>
      have hfields := decodeFields_agree owner fun f hf hd i hi hn => h _ i (.field hf hd hi hn)
      rw [decodeWith, decodeWith, decodeRecord, decodeRecord, hfields]
    | _ => rfl
  | sequence container element =>
    cases j with
    | arr items =>
      rw [decodeWith, decodeWith, decodeItems_agree fun i hi hn => h _ i (.item hi hn)]
    | _ => rfl
  | map owner key value =>
    cases j with
    | obj members =>
      rw [decodeWith, decodeWith, decodeEntries_agree (fun e he => h _ _ (.key he))
        fun e he hn => h _ _ (.entry he hn)]
    | _ => rfl
  | union owner branches =>
    cases j with
    | obj members =>
      rw [decodeWith, decodeWith, decodeUnion, decodeUnion]
      split
      · rename_i b hb
        obtain ⟨-, i, hi⟩ := exists_get?_of_present hb
        rw [hi, Option.getD_some, h _ i (.variant hb hi)]
      · rfl
    | _ => rfl

end Decode

end Codec

namespace Store

/-- Decode with calls of a store inside one another, and at the bottom with something else. -/
def decodeFrom (store : Store) (deeper : CodecRef → Json → Decoding Value) :
    Nat → CodecRef → Json → Decoding Value
  | 0, ref, j => deeper ref j
  | calls + 1, ref, j =>
    match store.codec? ref with
    | none => .fail (.unresolved ref.term)
    | some codec => codec.decodeWith (store.decodeFrom deeper calls) store.scope j

theorem decodeFrom_eq (store : Store) (deeper deeper' : CodecRef → Json → Decoding Value)
    {calls calls' : Nat} {ref : CodecRef} {j : Json} (h : j.depth < calls)
    (h' : j.depth < calls') :
    store.decodeFrom deeper calls ref j = store.decodeFrom deeper' calls' ref j := by
  induction calls generalizing calls' ref j with
  | zero => exact absurd h (Nat.not_lt_zero _)
  | succ calls ih =>
    obtain ⟨calls', rfl⟩ := Nat.exists_eq_add_one_of_ne_zero (Nat.ne_zero_of_lt h')
    rw [decodeFrom, decodeFrom]
    cases store.codec? ref with
    | none => rfl
    | some codec =>
      exact Codec.decodeWith_agree fun ref i hands =>
        ih (Nat.lt_of_lt_of_le hands.depth_lt (Nat.le_of_lt_succ h))
          (Nat.lt_of_lt_of_le hands.depth_lt (Nat.le_of_lt_succ h'))

theorem decodeWithin_eq_decodeFrom (store : Store) (calls : Nat) :
    store.decodeWithin calls =
      store.decodeFrom (fun ref _ => .fail (.unresolved ref.term)) calls := by
  induction calls with
  | zero => rfl
  | succ calls ih =>
    funext ref j
    cases hc : store.codec? ref <;> simp only [decodeWithin, decodeFrom, hc, ih]

/-- Decoding ends: what would be done below the depth of the document makes no difference. -/
theorem decodeFrom_eq_decode (store : Store) (deeper : CodecRef → Json → Decoding Value)
    {calls : Nat} (ref : CodecRef) {j : Json} (h : j.depth < calls) :
    store.decodeFrom deeper calls ref j = store.decode ref j := by
  rw [decode, decodeWithin_eq_decodeFrom]
  exact store.decodeFrom_eq _ _ h (Nat.lt_succ_self _)

theorem decode_eq {store : Store} {ref : CodecRef} {codec : Codec}
    (h : store.codec? ref = some codec) (j : Json) :
    store.decode ref j = codec.decodeWith store.decode store.scope j := by
  rw [decode, decodeWithin, h]
  refine Codec.decodeWith_agree fun ref i hands => ?_
  rw [decodeWithin_eq_decodeFrom]
  exact store.decodeFrom_eq_decode _ ref hands.depth_lt

end Store

end Typewire
