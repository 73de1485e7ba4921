import Typewire.Proofs.Codec.Termination
import Typewire.Proofs.Json.Parts

/-! # Where decoding fails

The error of a step is one of its own, or one of a nested codec seen from one step further out. Then
the step leads to the part of the document that the nested codec was given, and all that is decoded
before the part is decoded without an error. So the path of an error leads to the codec whose error
it is.
-/

namespace Typewire

namespace Decoding

variable {α : Type} {e : DecodeError}

theorem exists_of_under {x : Decoding α} {step : Step} (h : x.under step = .error e) :
    ∃ inner, x = .error inner ∧ e = inner.under step := by
  cases x with
  | error inner =>
    cases h
    exact ⟨inner, rfl, rfl⟩
  | ok a => cases h

theorem path_of_fail {cause : DecodeCause} (h : (fail cause : Decoding α) = .error e) :
    e.path = [] := by
  cases h
  rfl

theorem path_of_ofExcept {r : Except DecodeCause α} (h : ofExcept r = .error e) : e.path = [] := by
  cases r with
  | error cause => exact path_of_fail h
  | ok a => cases h

end Decoding

namespace Codec

variable {dec : CodecRef → Json → Decoding Value} {scope : Scope} {codec : Codec} {j i : Json}
  {step : Step} {ref key value : CodecRef} {e : DecodeError}

structure EntryDecodes (dec : CodecRef → Json → Decoding Value) (key value : CodecRef)
    (entry : String × Json) : Prop where
  key : ∃ k, dec key (.str entry.1) = .ok k
  value : ∃ v, PartDecodes dec value entry.2 v

structure FieldDecodes (dec : CodecRef → Json → Decoding Value) (members : Members Json)
    (f : FieldCodec) : Prop where
  member : ∀ i, Members.get? f.property.name members = some i → i.isNull = false →
    ∃ v, dec f.codec i = .ok v
  mandatory : f.property.mandatory = true →
    ∃ i, Members.get? f.property.name members = some i ∧ i.isNull = false

/-- Decoding comes to a part of the document and gives it to a nested codec. The items, entries and
properties before the part decode. -/
inductive Enters (dec : CodecRef → Json → Decoding Value) :
    Codec → Json → Step → CodecRef → Json → Prop
  | item {container : Container} {element : CodecRef} {before after : List Json} {i : Json} :
      (∀ x ∈ before, ∃ v, PartDecodes dec element x v) → i.isNull = false →
      Enters dec (.sequence container element) (.arr (before ++ i :: after)) (.index before.length)
        element i
  | entry {owner : TypeTerm} {key value : CodecRef} {before after : Members Json}
      {entry : String × Json} : (∀ x ∈ before, EntryDecodes dec key value x) →
      (∃ k, dec key (.str entry.1) = .ok k) → entry.2.isNull = false →
      Enters dec (.map owner key value) (.obj (before ++ entry :: after)) (.key entry.1) value
        entry.2
  | field {owner : TypeTerm} {constructor : Constructor} {before after : List FieldCodec}
      {f : FieldCodec} {strict : Bool} {members : Members Json} {i : Json} :
      (∀ g ∈ before, g.property.deserializable = true → FieldDecodes dec members g) →
      f.property.deserializable = true → Members.get? f.property.name members = some i →
      i.isNull = false →
      Enters dec (.record owner constructor (before ++ f :: after) strict) (.obj members)
        (.field f.property.name) f.codec i
  | variant {owner : TypeTerm} {branches : List BranchCodec} {members : Members Json}
      {b : BranchCodec} {i : Json} : presentBranches branches members = [b] →
      Members.get? b.discriminator members = some i →
      Enters dec (.union owner branches) (.obj members) (.field b.discriminator) b.codec i

/-- Decoding comes to the label of an entry and gives it to the codec of the keys. The entries
before this one decode. -/
inductive ReadsKey (dec : CodecRef → Json → Decoding Value) :
    Codec → Json → String → CodecRef → Prop
  | entry {owner : TypeTerm} {key value : CodecRef} {before after : Members Json}
      {entry : String × Json} : (∀ x ∈ before, EntryDecodes dec key value x) →
      ReadsKey dec (.map owner key value) (.obj (before ++ entry :: after)) entry.1 key

/-- The error of a step: its own, or that of a nested codec seen from one step further out. -/
inductive Fails (dec : CodecRef → Json → Decoding Value) (codec : Codec) (j : Json) :
    DecodeError → Prop
  | here (cause : DecodeCause) : Fails dec codec j (.here cause)
  | part {step : Step} {ref : CodecRef} {i : Json} {e : DecodeError} :
      codec.Enters dec j step ref i → dec ref i = .error e → Fails dec codec j (e.under step)
  | key {label : String} {ref : CodecRef} {e : DecodeError} : codec.ReadsKey dec j label ref →
      dec ref (.str label) = .error e → Fails dec codec j (e.under (.key label))

theorem fails_of_path (h : e.path = []) : codec.Fails dec j e := by
  obtain ⟨path, cause⟩ := e
  subst h
  exact .here cause

theorem exists_of_decodePart (h : decodePart dec ref step j = .error e) :
    j.isNull = false ∧ ∃ inner, dec ref j = .error inner ∧ e = inner.under step := by
  rw [decodePart] at h
  split at h
  · cases h
  · rename_i hn
    exact ⟨by simpa using hn, Decoding.exists_of_under h⟩

theorem fails_of_decodeItems {container : Container} (before : List Json) {items : List Json}
    (hbefore : ∀ x ∈ before, ∃ v, PartDecodes dec ref x v)
    (h : decodeItems dec ref before.length items = .error e) :
    (sequence container ref).Fails dec (.arr (before ++ items)) e := by
  induction items generalizing before with
  | nil => cases h
  | cons i items ih =>
    rw [decodeItems] at h
    rcases Except.error_of_bind h with h | ⟨v, hv, h⟩
    · obtain ⟨hn, inner, hinner, rfl⟩ := exists_of_decodePart h
      exact .part (.item hbefore hn) hinner
    rcases Except.error_of_bind h with h | ⟨vs, -, h⟩
    · rw [List.append_cons]
      refine ih _ (List.forall_mem_append.2 ⟨hbefore, List.forall_mem_singleton.2 ?_⟩) ?_
      · exact ⟨v, decodePart_eq_ok_iff.1 hv⟩
      · rwa [List.length_append, List.length_singleton]
    · cases h

theorem fails_of_decodeEntries {owner : TypeTerm} (before : Members Json) {members : Members Json}
    (hbefore : ∀ x ∈ before, EntryDecodes dec key value x)
    (h : decodeEntries dec key value members = .error e) :
    (map owner key value).Fails dec (.obj (before ++ members)) e := by
  induction members generalizing before with
  | nil => cases h
  | cons entry members ih =>
    rw [decodeEntries] at h
    rcases Except.error_of_bind h with h | ⟨k, hk, h⟩
    · obtain ⟨inner, hinner, rfl⟩ := Decoding.exists_of_under h
      exact .key (.entry hbefore) hinner
    have hk : ∃ k, dec key (.str entry.1) = .ok k := ⟨k, Decoding.under_eq_ok_iff.1 hk⟩
    rcases Except.error_of_bind h with h | ⟨v, hv, h⟩
    · obtain ⟨hn, inner, hinner, rfl⟩ := exists_of_decodePart h
      exact .part (.entry hbefore hk hn) hinner
    rcases Except.error_of_bind h with h | ⟨entries, -, h⟩
    · rw [List.append_cons]
      refine ih _ (List.forall_mem_append.2 ⟨hbefore, List.forall_mem_singleton.2 ⟨hk, ?_⟩⟩) h
      exact ⟨v, decodePart_eq_ok_iff.1 hv⟩
    · cases h

theorem fails_of_decodeFields {owner : TypeTerm} {constructor : Constructor}
    (before : List FieldCodec) {fs : List FieldCodec} {strict : Bool} {members : Members Json}
    (hbefore : ∀ g ∈ before, g.property.deserializable = true → FieldDecodes dec members g)
    (h : decodeFields dec owner members fs = .error e) :
    (record owner constructor (before ++ fs) strict).Fails dec (.obj members) e := by
  induction fs generalizing before with
  | nil => cases h
  | cons f fs ih =>
    -- Where this property decodes, the error is that of a later one.
    have hlater : (f.property.deserializable = true → FieldDecodes dec members f) →
        decodeFields dec owner members fs = .error e →
        (record owner constructor (before ++ f :: fs) strict).Fails dec (.obj members) e := by
      intro hf h
      rw [List.append_cons]
      exact ih _ (List.forall_mem_append.2 ⟨hbefore, List.forall_mem_singleton.2 hf⟩) h
    rw [decodeFields] at h
    split at h
    · rename_i hd
      exact hlater (fun hd' => by simp [hd'] at hd) h
    · rename_i hd
      split at h
      · rename_i hnone
        split at h
        · exact fails_of_path (Decoding.path_of_fail h)
        · rename_i hm
          refine hlater (fun _ => ⟨fun i hi hn => ?_, fun hm' => absurd hm' hm⟩) h
          rw [hi, Option.filter_eq_none_iff] at hnone
          exact absurd (hnone i rfl) (by simp [hn])
      · rename_i i hi
        obtain ⟨hi, hn⟩ := Option.filter_eq_some_iff.1 hi
        have hn : i.isNull = false := by simpa using hn
        rcases Except.error_of_bind h with h | ⟨v, hv, h⟩
        · obtain ⟨inner, hinner, rfl⟩ := Decoding.exists_of_under h
          exact .part (.field hbefore (by simpa using hd) hi hn) hinner
        rcases Except.error_of_bind h with h | ⟨values, -, h⟩
        · refine hlater (fun _ => ⟨fun i' hi' _ => ?_, fun _ => ⟨i, hi, hn⟩⟩) h
          cases hi.symm.trans hi'
          exact ⟨v, Decoding.under_eq_ok_iff.1 hv⟩
        · cases h

theorem path_of_applySetters {owner : TypeTerm} {v : Value} {values : List (Property × Value)}
    (h : applySetters owner v values = .error e) : e.path = [] := by
  induction values generalizing v with
  | nil => cases h
  | cons entry values ih =>
    rw [applySetters] at h
    split at h
    · split at h
      · exact ih h
      · exact Decoding.path_of_fail h
    · exact ih h

theorem fails_of_decodeRecord {owner : TypeTerm} {constructor : Constructor}
    {fs : List FieldCodec} {strict : Bool} {members : Members Json}
    (h : decodeRecord dec owner constructor fs strict members = .error e) :
    (record owner constructor fs strict).Fails dec (.obj members) e := by
  rw [decodeRecord] at h
  split at h
  · exact fails_of_path (Decoding.path_of_fail h)
  rcases Except.error_of_bind h with h | ⟨values, -, h⟩
  · exact fails_of_decodeFields [] (by simp) h
  · split at h
    · exact fails_of_path (path_of_applySetters h)
    · exact fails_of_path (Decoding.path_of_fail h)

theorem fails_of_decodeUnion {owner : TypeTerm} {branches : List BranchCodec}
    {members : Members Json} (h : decodeUnion dec branches members = .error e) :
    (union owner branches).Fails dec (.obj members) e := by
  rw [decodeUnion] at h
  split at h
  · rename_i b hb
    obtain ⟨-, i, hi⟩ := exists_get?_of_present hb
    rw [hi, Option.getD_some] at h
    obtain ⟨inner, hinner, rfl⟩ := Decoding.exists_of_under h
    exact .part (.variant hb hi) hinner
  · exact fails_of_path (Decoding.path_of_fail h)

/-- How a step fails, unless it is done by host code. -/
theorem fails_of_decodeWith (hk : codec.kind ≠ .custom)
    (h : codec.decodeWith dec scope j = .error e) : codec.Fails dec j e := by
  cases codec with
  | atomic | enumeration => exact fails_of_path (Decoding.path_of_ofExcept h)
  | formatted | custom => exact absurd rfl hk
  | record owner constructor fields strict =>
    cases j with
    | obj members => exact fails_of_decodeRecord h
    | _ => exact fails_of_path (Decoding.path_of_fail h)
  | sequence container element =>
    cases j with
    | arr items => exact fails_of_decodeItems [] (by simp) (Except.error_of_map h)
    | _ => exact fails_of_path (Decoding.path_of_fail h)
  | map owner key value =>
    cases j with
    | obj members =>
      rw [decodeWith] at h
      split at h
      · exact fails_of_decodeEntries [] (by simp) (Except.error_of_map h)
      · exact fails_of_path (Decoding.path_of_fail h)
    | _ => exact fails_of_path (Decoding.path_of_fail h)
  | union owner branches =>
    cases j with
    | obj members => exact fails_of_decodeUnion h
    | _ => exact fails_of_path (Decoding.path_of_fail h)

theorem Fails.path_of_str {s : String} (h : codec.Fails dec (.str s) e) : e.path = [] := by
  cases h with
  | here => rfl
  | part h => cases h
  | key h => cases h

theorem Enters.hands (h : codec.Enters dec j step ref i) : codec.Hands j ref i := by
  cases h with
  | item _ hn => exact .item (List.mem_append_right _ List.mem_cons_self) hn
  | entry _ _ hn => exact .entry (List.mem_append_right _ List.mem_cons_self) hn
  | field _ hd hi hn => exact .field (List.mem_append_right _ List.mem_cons_self) hd hi hn
  | variant hpresent hi => exact .variant hpresent hi

theorem ReadsKey.hands {label : String} (h : codec.ReadsKey dec j label ref) :
    codec.Hands j ref (.str label) := by
  cases h with
  | entry => exact .key (List.mem_append_right _ List.mem_cons_self)

theorem Enters.part? (h : codec.Enters dec j step ref i) (hj : j.Valid) :
    j.part? step.spot = some i := by
  cases h with
  | @item container element before after i => simp [Json.part?, Step.spot]
  | entry => exact hj.part?_member (List.mem_append_right _ List.mem_cons_self)
  | field _ _ hi => exact hi
  | variant _ hi => exact hi

end Codec

namespace Store

variable {store : Store} {ref part : CodecRef} {j i : Json} {path : List Step}

/-- Decoding goes along the path, from the document and its codec to a part and the codec that is
given the part. -/
inductive Follows (store : Store) : CodecRef → Json → List Step → CodecRef → Json → Prop
  | here {ref : CodecRef} {j : Json} : Follows store ref j [] ref j
  | step {ref next part : CodecRef} {j i k : Json} {codec : Codec} {step : Step}
      {path : List Step} : store.codec? ref = some codec →
      codec.Enters store.decode j step next i → Follows store next i path part k →
      Follows store ref j (step :: path) part k

theorem Follows.follow? (h : store.Follows ref j path part i) (hj : j.Valid) :
    j.follow? path = some i := by
  induction h with
  | here => rfl
  | step _ hstep _ ih =>
    have hpart := hstep.part? hj
    rw [Json.follow?, List.map_cons, Json.at?, hpart, Option.bind_some]
    exact ih (hj.of_part? hpart)

/-- An error that decoding ends with is one of the codec that its path leads to, or one of the codec
of the keys if the path ends at the label of an entry. -/
theorem exists_of_decode {Known : CodecRef → Prop}
    (hknown : ∀ ref, Known ref → ∃ codec, store.codec? ref = some codec ∧ codec.kind ≠ .custom ∧
      ∀ nested ∈ codec.refs, Known nested) (href : Known ref) {e : DecodeError}
    (h : store.decode ref j = .error e) :
    (∃ part i, Known part ∧ store.Follows ref j e.path part i ∧
      store.decode part i = .error (.here e.cause)) ∨
    ∃ path label map codec i key, e.path = path ++ [.key label] ∧ Known map ∧
      store.Follows ref j path map i ∧ store.codec? map = some codec ∧
      codec.ReadsKey store.decode i label key ∧
      store.decode key (.str label) = .error (.here e.cause) := by
  generalize hpath : e.path = path
  induction path generalizing ref j e with
  | nil =>
    obtain ⟨path, cause⟩ := e
    cases hpath
    exact .inl ⟨ref, j, href, .here, h⟩
  | cons step path ih =>
    obtain ⟨codec, hc, hkind, hrefs⟩ := hknown ref href
    have hstep := h
    rw [decode_eq hc] at hstep
    cases Codec.fails_of_decodeWith hkind hstep with
    | here => cases hpath
    | part henters hinner =>
      cases hpath
      rcases ih (hrefs _ henters.hands.mem_refs) hinner rfl with ⟨part, i, hpart, hfollows, hi⟩ |
        ⟨path, label, map, codec', i, key, hpath, hmap, hfollows, hrest⟩
      · exact .inl ⟨part, i, hpart, .step hc henters hfollows, hi⟩
      · exact .inr ⟨_ :: path, label, map, codec', i, key, congrArg _ hpath, hmap,
          .step hc henters hfollows, hrest⟩
    | @key label key inner hkey hinner =>
      obtain ⟨codec', hc', hkind', -⟩ := hknown key (hrefs _ hkey.hands.mem_refs)
      -- A label is a text, which has no parts to fail in.
      have hnil : inner.path = [] := by
        rw [decode_eq hc'] at hinner
        exact (Codec.fails_of_decodeWith hkind' hinner).path_of_str
      obtain ⟨_, cause⟩ := inner
      cases hnil
      cases hpath
      exact .inr ⟨[], label, ref, codec, j, key, rfl, href, .here, hc, hkey, hinner⟩

end Store

end Typewire
