import Mathlib.Tactic.Common
import Typewire.Codec.Decode
import Typewire.Codec.Encode

/-! # Other references

A step of a codec uses its references only to find the nested codecs and to name their terms. Codecs
that differ in their slots therefore code alike, as long as the nested codecs do.
-/

namespace Typewire

variable {f : CodecRef → CodecRef}

namespace FieldCodec

def mapRef (f : CodecRef → CodecRef) (field : FieldCodec) : FieldCodec :=
  { field with codec := f field.codec }

end FieldCodec

namespace BranchCodec

def mapRef (f : CodecRef → CodecRef) (branch : BranchCodec) : BranchCodec :=
  { branch with codec := f branch.codec }

end BranchCodec

namespace Codec

/-- Put other references in the place of those that a codec holds. -/
def mapRefs (f : CodecRef → CodecRef) : Codec → Codec
  | record owner constructor fields strict =>
    record owner constructor (fields.map (FieldCodec.mapRef f)) strict
  | sequence container element => sequence container (f element)
  | map owner key value => map owner (f key) (f value)
  | union owner branches => union owner (branches.map (BranchCodec.mapRef f))
  | codec => codec

@[simp] theorem refs_mapRefs (codec : Codec) : (codec.mapRefs f).refs = codec.refs.map f := by
  cases codec <;> simp [mapRefs, refs, FieldCodec.mapRef, BranchCodec.mapRef]

theorem mapRefs_eq_self {codec : Codec} (h : ∀ ref ∈ codec.refs, f ref = ref) :
    codec.mapRefs f = codec := by
  cases codec with
  | atomic | enumeration | formatted | custom => rfl
  | record owner constructor fields strict =>
    have hall : ∀ field ∈ fields, field.mapRef f = field := fun field hf => by
      rw [FieldCodec.mapRef, h _ (List.mem_map_of_mem hf)]
    rw [mapRefs, List.map_congr_left hall, List.map_id']
  | sequence container element => rw [mapRefs, h element (by simp [refs])]
  | map owner key value => rw [mapRefs, h key (by simp [refs]), h value (by simp [refs])]
  | union owner branches =>
    have hall : ∀ branch ∈ branches, branch.mapRef f = branch := fun branch hb => by
      rw [BranchCodec.mapRef, h _ (List.mem_map_of_mem hb)]
    rw [mapRefs, List.map_congr_left hall, List.map_id']

@[simp] theorem kind_mapRefs (codec : Codec) : (codec.mapRefs f).kind = codec.kind := by
  cases codec <;> rfl

@[simp] theorem isStringBacked_mapRefs (codec : Codec) :
    (codec.mapRefs f).isStringBacked = codec.isStringBacked := by
  cases codec <;> rfl

section Encode

variable {nested nested' : CodecRef → Value → Encoding Json} {scope scope' : Scope}

theorem encodeFields_map (owner : TypeTerm) (v : Value) {fields : List FieldCodec}
    (hn : ∀ field ∈ fields, nested field.codec = nested' (f field.codec)) :
    encodeFields nested' owner v (fields.map (FieldCodec.mapRef f)) =
      encodeFields nested owner v fields := by
  induction fields with
  | nil => rfl
  | cons field fields ih =>
    have ih := ih fun g hg => hn g (List.mem_cons_of_mem _ hg)
    simp only [List.map_cons, encodeFields, ih, FieldCodec.mapRef, hn field List.mem_cons_self]

theorem encodePart_congr {ref ref' : CodecRef} (hn : nested ref = nested' ref') (step : Step)
    (v : Value) : encodePart nested' ref' step v = encodePart nested ref step v := by
  rw [encodePart, encodePart, hn]

theorem encodeItems_congr {ref ref' : CodecRef} (hn : nested ref = nested' ref') (index : Nat)
    (vs : List Value) : encodeItems nested' ref' index vs = encodeItems nested ref index vs := by
  induction vs generalizing index with
  | nil => rfl
  | cons v vs ih => simp only [encodeItems, encodePart_congr hn, ih]

theorem encodeKey_congr {key key' : CodecRef} (hn : nested key = nested' key')
    (ht : key'.term = key.term) (stringBacked : Bool) (v : Value) :
    encodeKey nested' stringBacked key' v = encodeKey nested stringBacked key v := by
  rw [encodeKey, encodeKey, hn, ht]

theorem encodeEntries_congr {key key' value value' : CodecRef} (hk : nested key = nested' key')
    (ht : key'.term = key.term) (hv : nested value = nested' value') (stringBacked : Bool)
    (done : Members Json) (entries : List (Value × Value)) :
    encodeEntries nested' stringBacked key' value' done entries =
      encodeEntries nested stringBacked key value done entries := by
  induction entries generalizing done with
  | nil => rfl
  | cons entry entries ih =>
    simp only [encodeEntries, encodeKey_congr hk ht, encodePart_congr hv, ih]

theorem branchFor?_map (isInstance : Value → TypeTerm → Bool) (branches : List BranchCodec)
    (v : Value) :
    branchFor? isInstance (branches.map (BranchCodec.mapRef f)) v =
      (branchFor? isInstance branches v).map (BranchCodec.mapRef f) := by
  rw [branchFor?, branchFor?, List.find?_map]
  rfl

theorem encodeWith_mapRefs {codec : Codec} (hn : ∀ ref ∈ codec.refs, nested ref = nested' (f ref))
    (ht : ∀ ref ∈ codec.refs, (f ref).term = ref.term)
    (hi : scope'.isInstance = scope.isInstance)
    (hs : ∀ ref ∈ codec.refs, scope'.isStringBacked (f ref) = scope.isStringBacked ref)
    (v : Value) :
    (codec.mapRefs f).encodeWith nested' scope' v = codec.encodeWith nested scope v := by
  cases codec with
  | record owner constructor fields strict =>
    rw [mapRefs, encodeWith, encodeWith, encodeFields_map owner v fun field hf => hn _ ?_]
    exact List.mem_map_of_mem hf
  | sequence container element =>
    have he := hn element (by simp [refs])
    cases v <;> simp only [mapRefs, encodeWith, encodeItems_congr he]
  | map owner key value =>
    have hk := hn key (by simp [refs])
    have hv := hn value (by simp [refs])
    cases v <;> simp only [mapRefs, encodeWith, hs key (by simp [refs]),
      encodeEntries_congr hk (ht key (by simp [refs])) hv]
  | union owner branches =>
    rw [mapRefs, encodeWith, encodeWith, branchFor?_map, hi]
    cases hb : branchFor? scope.isInstance branches v with
    | none => rfl
    | some b =>
      have hm : b.codec ∈ (union owner branches).refs :=
        List.mem_map_of_mem (List.mem_of_find?_eq_some hb)
      simp only [Option.map_some, BranchCodec.mapRef, hn b.codec hm]
  | atomic | enumeration | formatted | custom => rfl

end Encode

section Decode

variable {nested nested' : CodecRef → Json → Decoding Value} {scope scope' : Scope}

theorem decodeFields_map (owner : TypeTerm) (members : Members Json) {fields : List FieldCodec}
    (hn : ∀ field ∈ fields, nested field.codec = nested' (f field.codec)) :
    decodeFields nested' owner members (fields.map (FieldCodec.mapRef f)) =
      decodeFields nested owner members fields := by
  induction fields with
  | nil => rfl
  | cons field fields ih =>
    have ih := ih fun g hg => hn g (List.mem_cons_of_mem _ hg)
    simp only [List.map_cons, decodeFields, ih, FieldCodec.mapRef, hn field List.mem_cons_self]

theorem reads_map (fields : List FieldCodec) (name : String) :
    reads (fields.map (FieldCodec.mapRef f)) name = reads fields name := by
  rw [reads, reads, List.any_map]
  rfl

theorem decodeRecord_map (owner : TypeTerm) (constructor : Constructor) {fields : List FieldCodec}
    (strict : Bool) (members : Members Json)
    (hn : ∀ field ∈ fields, nested field.codec = nested' (f field.codec)) :
    decodeRecord nested' owner constructor (fields.map (FieldCodec.mapRef f)) strict members =
      decodeRecord nested owner constructor fields strict members := by
  simp only [decodeRecord, decodeFields_map owner members hn, reads_map]

theorem decodePart_congr {ref ref' : CodecRef} (hn : nested ref = nested' ref') (step : Step)
    (j : Json) : decodePart nested' ref' step j = decodePart nested ref step j := by
  rw [decodePart, decodePart, hn]

theorem decodeItems_congr {ref ref' : CodecRef} (hn : nested ref = nested' ref') (index : Nat)
    (js : List Json) : decodeItems nested' ref' index js = decodeItems nested ref index js := by
  induction js generalizing index with
  | nil => rfl
  | cons j js ih => simp only [decodeItems, decodePart_congr hn, ih]

theorem decodeEntries_congr {key key' value value' : CodecRef} (hk : nested key = nested' key')
    (hv : nested value = nested' value') (members : Members Json) :
    decodeEntries nested' key' value' members = decodeEntries nested key value members := by
  induction members with
  | nil => rfl
  | cons entry members ih => simp only [decodeEntries, hk, decodePart_congr hv, ih]

theorem presentBranches_map (branches : List BranchCodec) (members : Members Json) :
    presentBranches (branches.map (BranchCodec.mapRef f)) members =
      (presentBranches branches members).map (BranchCodec.mapRef f) := by
  rw [presentBranches, presentBranches, List.filter_map]
  rfl

theorem decodeUnion_map {branches : List BranchCodec} (members : Members Json)
    (hn : ∀ b ∈ branches, nested b.codec = nested' (f b.codec)) :
    decodeUnion nested' (branches.map (BranchCodec.mapRef f)) members =
      decodeUnion nested branches members := by
  have hd : (BranchCodec.discriminator ∘ BranchCodec.mapRef f) = BranchCodec.discriminator := rfl
  rw [decodeUnion, decodeUnion, presentBranches_map]
  rcases hp : presentBranches branches members with _ | ⟨b, _ | ⟨c, bs⟩⟩
  · simp only [List.map_nil, List.map_map, hd]
  · have hm : b ∈ presentBranches branches members := by simp [hp]
    simp only [List.map_cons, List.map_nil, BranchCodec.mapRef, hn b (List.mem_filter.1 hm).1]
  · simp only [List.map_cons, List.map_map, hd, BranchCodec.mapRef]

theorem decodeWith_mapRefs {codec : Codec} (hn : ∀ ref ∈ codec.refs, nested ref = nested' (f ref))
    (ht : ∀ ref ∈ codec.refs, (f ref).term = ref.term)
    (hs : ∀ ref ∈ codec.refs, scope'.isStringBacked (f ref) = scope.isStringBacked ref)
    (j : Json) :
    (codec.mapRefs f).decodeWith nested' scope' j = codec.decodeWith nested scope j := by
  cases codec with
  | record owner constructor fields strict =>
    have hf : ∀ field ∈ fields, nested field.codec = nested' (f field.codec) := fun field hf =>
      hn _ (List.mem_map_of_mem hf)
    cases j <;> simp only [mapRefs, decodeWith, decodeRecord_map owner constructor strict _ hf]
  | sequence container element =>
    have he := hn element (by simp [refs])
    cases j <;> simp only [mapRefs, decodeWith, decodeItems_congr he]
  | map owner key value =>
    have hk := hn key (by simp [refs])
    have hv := hn value (by simp [refs])
    cases j <;> simp only [mapRefs, decodeWith, hs key (by simp [refs]),
      decodeEntries_congr hk hv, ht key (by simp [refs])]
  | union owner branches =>
    have hb : ∀ b ∈ branches, nested b.codec = nested' (f b.codec) := fun b hb =>
      hn _ (List.mem_map_of_mem hb)
    cases j <;> simp only [mapRefs, decodeWith, decodeUnion_map _ hb]
  | atomic | enumeration | formatted | custom => rfl

end Decode

end Codec

end Typewire
