import Typewire.Codec.Decode
import Typewire.Codec.Encode
import Typewire.Proofs.Json.RoundTrip
import Typewire.Proofs.Catalog.Describe
import Typewire.Proofs.Registry.Dependencies
import Typewire.Proofs.Codec.RoundTrip

/-! # Values as texts

What codecs write is a valid document, and where no doubles and no codecs of host code are involved
the text determines it. So decoding the text of a value is decoding its document, as long as the
document is not nested deeper than texts are read.
-/

namespace Typewire

structure Json.Exact (j : Json) : Prop where
  valid : j.Valid
  realFree : j.RealFree

namespace Json

theorem exact_null : Exact null := ⟨.null, .leaf rfl (by simp)⟩

theorem exact_str (s : String) : Exact (str s) := ⟨.str s, .leaf rfl (by simp)⟩

theorem exact_int {i : Int} (hmin : -(1 <<< 63) ≤ i) (hmax : i < 1 <<< 64) : Exact (int i) :=
  ⟨.int hmin hmax, .leaf rfl (by simp)⟩

theorem exact_arr {items : List Json} (h : ∀ j ∈ items, j.Exact) : Exact (arr items) :=
  ⟨.arr fun j hj => (h j hj).valid, .arr fun j hj => (h j hj).realFree⟩

theorem exact_obj {members : List (String × Json)} (hs : Members.Sorted members)
    (h : ∀ e ∈ members, e.2.Exact) : Exact (obj members) :=
  ⟨.obj hs fun e he => (h e he).valid, .obj fun e he => (h e he).realFree⟩

end Json

namespace Codec

def Textual (codec : Codec) : Prop := codec ≠ .atomic .double ∧ ∀ c, codec ≠ .custom c

theorem exact_of_encodeAtomic {kind : AtomicKind} {v : Value} {j : Json} (hk : kind ≠ .double)
    (h : Scalar.encodeAtomic kind v = .ok j) : j.Exact := by
  have h63 : (1 : Int) <<< 63 = 9223372036854775808 := rfl
  have h64 : (1 : Int) <<< 64 = 18446744073709551616 := rfl
  have hint : ∀ i : Int32, (Json.int i.toInt).Exact := fun i => by
    have hmin := i.le_toInt
    have hmax := i.toInt_lt
    exact Json.exact_int (by omega) (by omega)
  have hlong : ∀ i : Int64, (Json.int i.toInt).Exact := fun i => by
    have hmin := i.le_toInt
    have hmax := i.toInt_lt
    exact Json.exact_int (by omega) (by omega)
  unfold Scalar.encodeAtomic at h
  split at h
  case h_1 s =>
    cases h
    exact Json.exact_str s
  case h_2 b =>
    cases h
    exact ⟨.bool b, .leaf rfl (by simp)⟩
  case h_3 i =>
    cases h
    exact hint i
  case h_4 i =>
    cases h
    exact hint i
  case h_5 i =>
    cases h
    exact hlong i
  case h_9 => cases h
  all_goals exact absurd rfl hk

theorem exact_of_encodeEnum {type : TypeName} {members : List (String × String)} {v : Value}
    {j : Json} (h : Scalar.encodeEnum type members v = .ok j) : j.Exact := by
  obtain ⟨m, -, -, rfl⟩ := Scalar.exists_of_encodeEnum h
  exact Json.exact_str _

theorem exact_of_encodeFormatted {format : String} {accepts : String → Bool} {v : Value}
    {j : Json} (h : Scalar.encodeFormatted format accepts v = .ok j) : j.Exact := by
  unfold Scalar.encodeFormatted at h
  repeat' split at h
  all_goals cases h
  exact Json.exact_str _

section Step

variable {nested : CodecRef → Value → Encoding Json} {scope : Scope} {v : Value} {j : Json}

theorem sorted_of_encodeEntries {backed : Bool} {key value : CodecRef} {done members : Members Json}
    {entries : List (Value × Value)} (hs : Members.Sorted done)
    (h : encodeEntries nested backed key value done entries = pure members) :
    Members.Sorted members := by
  induction entries generalizing done with
  | nil =>
    cases h
    exact hs
  | cons entry entries ih =>
    rw [encodeEntries] at h
    obtain ⟨label, -, h⟩ := Encoding.exists_of_bind h
    obtain ⟨j, -, h⟩ := Encoding.exists_of_bind h
    split at h
    · cases h
    · exact ih (hs.insert label j) h

theorem PartEncodes.exact {ref : CodecRef} (h : PartEncodes nested ref v j)
    (hn : ∀ v j, nested ref v = pure j → j.Exact) : j.Exact := by
  by_cases hv : v = .null
  · rw [h.null hv]
    exact Json.exact_null
  · exact hn v j (h.encoded hv)

theorem exact_of_encodeWith {codec : Codec} (hc : codec.Textual)
    (hn : ∀ ref ∈ codec.refs, ∀ v j, nested ref v = pure j → j.Exact)
    (h : codec.encodeWith nested scope v = pure j) : j.Exact := by
  cases codec with
  | atomic kind =>
    exact exact_of_encodeAtomic (fun hk => hc.1 (hk ▸ rfl)) (Encoding.eq_of_ofExcept h)
  | record owner constructor fields strict =>
    obtain ⟨members, hm, h⟩ := Encoding.exists_of_bind h
    cases h
    refine Json.exact_obj (Members.sorted_ofList members) fun e he => ?_
    obtain ⟨f, hf, -, -, field, -, hj⟩ :=
      (fieldsEncode_of_encodeFields hm).member e (Members.mem_ofList he)
    exact hn f.codec (List.mem_map_of_mem hf) field e.2 hj
  | sequence container element =>
    cases v with
    | sequence c vs =>
      obtain ⟨js, hjs, h⟩ := Encoding.exists_of_bind h
      cases h
      refine Json.exact_arr fun i hi => ?_
      obtain ⟨w, -, hpart⟩ := exists_left_of_forall₂ (encodeItems_eq_pure_iff.1 hjs) hi
      exact hpart.exact (hn element (List.mem_singleton_self _))
    | _ => cases h
  | map owner key value =>
    cases v with
    | map entries =>
      obtain ⟨members, hm, h⟩ := Encoding.exists_of_bind h
      cases h
      refine Json.exact_obj (sorted_of_encodeEntries Members.sorted_nil hm) fun e he => ?_
      rcases exists_entry_of_encodeEntries hm e he with he | ⟨entry, -, hpart⟩
      · cases he
      · exact hpart.exact (hn value (List.mem_cons_of_mem _ List.mem_cons_self))
    | _ => cases h
  | enumeration type members => exact exact_of_encodeEnum (Encoding.eq_of_ofExcept h)
  | union owner branches =>
    rw [encodeWith] at h
    split at h
    · cases h
    · rename_i b hb
      obtain ⟨i, hi, h⟩ := Encoding.exists_of_bind h
      cases h
      refine Json.exact_obj (List.pairwise_singleton _ _) (List.forall_mem_singleton.2 ?_)
      exact hn b.codec (List.mem_map_of_mem (List.mem_of_find?_eq_some hb)) v i
        (Encoding.under_eq_pure_iff.1 hi)
  | formatted format accepts => exact exact_of_encodeFormatted (Encoding.eq_of_ofExcept h)
  | custom c => exact absurd rfl (hc.2 c)

end Step

end Codec

namespace Reference

variable {r : Reference} {term : TypeTerm} {codec : Codec}

/-- No term that is reached has a codec of its own or is a double. -/
def Textual (r : Reference) (term : TypeTerm) : Prop :=
  ∀ key ∈ r.closure term, r.customs key = none ∧
    r.host.layout key.head ≠ some (.ok (.atomic .double))

theorem textual_describe? {s : Settings} {layout : Layout}
    (h : describe? s term layout = some codec) (hl : layout ≠ .atomic .double) :
    codec.Textual := by
  refine ⟨?_, ?_⟩
  · rintro rfl
    have hkind := kind_of_describe? h
    cases layout with
    | atomic kind =>
      cases h
      exact hl rfl
    | _ => cases hkind
  · rintro custom rfl
    exact kind_ne_custom_of_describe? h rfl

theorem exact_of_encodeWithin {calls : Nat} {v : Value} {j : Json}
    (ht : r.Textual (r.settings.canonical term)) (h : r.encodeWithin calls term v = pure j) :
    j.Exact := by
  induction calls generalizing term v j with
  | zero => cases h
  | succ calls ih =>
    rw [encodeWithin] at h
    split at h
    · cases h
    · rename_i codec hcodec
      obtain ⟨hc, hdouble⟩ := ht _ .refl
      obtain ⟨layout, hl, hd⟩ := exists_layout hcodec hc
      refine Codec.exact_of_encodeWith (textual_describe? hd ?_) (fun ref hr v j hj => ?_) h
      · rintro rfl
        exact hdouble hl
      · obtain ⟨scheme, hs, hp⟩ := exists_part_of_ref hd hr
        obtain ⟨target, hi, hpart⟩ := part?_eq_some.1 hp
        have hneeds : r.Needs (r.settings.canonical term) ref.term :=
          ⟨hc, layout, scheme, target, hl, hs, hi, hpart⟩
        refine ih (fun key hk => ht key (.head hneeds ?_)) hj
        rwa [canonical_of_part? hp] at hk

end Reference

namespace Catalog

variable {c : Catalog} {s : Settings} {term : TypeTerm}

theorem textual_of_reachable
    (h : ∀ key, c.Reachable s term key → c.layout? key ≠ some (.atomic .double)) :
    (c.reference s).Textual term := by
  intro key hk
  have hreach : c.Reachable s term key := by
    refine Relation.ReflTransGen.mono ?_ _ _ hk
    rintro a b ⟨-, layout, scheme, target, hl, hs, hi, hpart⟩
    exact ⟨layout, scheme, layout?_iff.2 hl, hs, Reference.part?_eq_some.2 ⟨target, hi, hpart⟩⟩
  exact ⟨rfl, fun hl => h key hreach (layout?_iff.2 hl)⟩

end Catalog

/-- Items may have one more item in three boxes. Boxes are unions of one variant, so only documents
have them. -/
def CatalogFile.boxes : CatalogFile :=
  { records := [
      { name := "Item", supertypes := ["Box"]
        properties := [
          { name := "label", type := "string", mandatory := true },
          { name := "rest", type := "Box<Box<Box<Item>>>", binding := .property }] }]
    unions := [{ name := "Box", params := ["T"], variants := [⟨"box", "T"⟩] }] }

def Value.items (label : String) : Nat → Value
  | 0 => .object "Item" [("label", .string label)]
  | n + 1 => .object "Item" [("label", .string label), ("rest", items label n)]

def Json.boxed (j : Json) : Nat → Json
  | 0 => j
  | k + 1 => .obj [("box", boxed j k)]

def Json.items (label : String) : Nat → Json
  | 0 => .obj [("label", .str label)]
  | n + 1 => .obj [("label", .str label), ("rest", (items label n).boxed 3)]

theorem Value.exists_items (label : String) (n : Nat) :
    ∃ fields, items label n = .object "Item" fields := by
  cases n <;> exact ⟨_, rfl⟩

theorem Json.depth_items (label : String) (n : Nat) : (items label n).depth = 4 * n + 1 := by
  induction n with
  | zero => rfl
  | succ n ih =>
    simp only [items, boxed, depth, depthMembers, ih]
    omega

theorem Json.Exact.boxed {j : Json} (h : j.Exact) (k : Nat) : (j.boxed k).Exact := by
  induction k with
  | zero => exact h
  | succ k ih => exact exact_obj (List.pairwise_singleton _ _) (List.forall_mem_singleton.2 ih)

theorem Catalog.sorted_item {α : Type} (label rest : α) :
    Members.Sorted [("label", label), ("rest", rest)] :=
  List.pairwise_pair.2 (show "label" < "rest" by decide)

theorem Json.exact_items (label : String) (n : Nat) : (items label n).Exact := by
  induction n with
  | zero => exact exact_obj (List.pairwise_singleton _ _) (by simpa using exact_str label)
  | succ n ih =>
    exact exact_obj (Catalog.sorted_item _ _) (by simpa using ⟨exact_str label, ih.boxed 3⟩)

namespace Catalog

def boxes : Catalog := (CatalogFile.boxes.registerInto .initial).2

def boxed : Nat → TypeTerm
  | 0 => ⟨"Item", []⟩
  | k + 1 => ⟨"Box", [boxed k]⟩

theorem layout?_item : boxes.layout? (boxed 0) = some (.record
    { constructor := .record "Item" ["label"]
      properties := [
        { name := "label", type := .apply "string" [], binding := .slot 0,
          accessor := .field "label", mandatory := true },
        { name := "rest", type := .apply "Box" [.apply "Box" [.apply "Box" [.apply "Item" []]]],
          binding := .setter, accessor := .field "rest" }] }) := rfl

theorem layout?_box (k : Nat) :
    boxes.layout? (boxed (k + 1)) = some (.union { variants := [⟨"box", .param 0⟩] }) := rfl

theorem layout?_label : boxes.layout? ⟨"string", []⟩ = some (.atomic .string) := rfl

theorem canonical_boxed (k : Nat) : ({} : Settings).canonical (boxed k) = boxed k := by
  cases k <;> rfl

theorem isInstance_boxed (label : String) (n k : Nat) :
    boxes.isInstance (.items label n) (boxed k) = true := by
  cases n <;> cases k <;> rfl

theorem exists_boxed_of_reachable {term : TypeTerm}
    (h : boxes.Reachable {} (boxed 0) term) : term = ⟨"string", []⟩ ∨ ∃ k, term = boxed k := by
  induction h with
  | refl => exact .inr ⟨0, rfl⟩
  | tail _ hpart ih =>
    obtain ⟨layout, scheme, hl, hs, hpart⟩ := hpart
    rcases ih with rfl | ⟨_ | k, rfl⟩
    · cases layout?_label.symm.trans hl
      cases hs
    · cases layout?_item.symm.trans hl
      rcases List.mem_cons.1 hs with rfl | hs
      · cases hpart
        exact .inl rfl
      · cases List.mem_singleton.1 hs
        cases hpart
        exact .inr ⟨3, rfl⟩
    · cases (layout?_box k).symm.trans hl
      cases List.mem_singleton.1 hs
      cases hpart
      exact .inr ⟨k, canonical_boxed k⟩

theorem textual_boxed : (boxes.reference {}).Textual (boxed 0) := by
  refine textual_of_reachable fun key hk hl => ?_
  rcases exists_boxed_of_reachable hk with rfl | ⟨_ | k, rfl⟩
  · cases layout?_label.symm.trans hl
  · cases layout?_item.symm.trans hl
  · cases (layout?_box k).symm.trans hl

/-! A step of each codec. -/

def itemFields : List FieldCodec := [
  ⟨{ name := "label", type := .apply "string" [], binding := .slot 0,
     accessor := .field "label", mandatory := true }, ⟨⟨"string", []⟩, 0⟩⟩,
  ⟨{ name := "rest", type := .apply "Box" [.apply "Box" [.apply "Box" [.apply "Item" []]]],
     binding := .setter, accessor := .field "rest" }, ⟨boxed 3, 0⟩⟩]

theorem codec?_item : (boxes.reference {}).codec? ((boxes.reference {}).settings.canonical
    (boxed 0)) = some (.record (boxed 0) (.record "Item" ["label"]) itemFields false) :=
  codec?_reference layout?_item

theorem codec?_box (k : Nat) : (boxes.reference {}).codec? ((boxes.reference {}).settings.canonical
    (boxed (k + 1))) = some (.union (boxed (k + 1)) [⟨"box", boxed k, ⟨boxed k, 0⟩⟩]) := by
  change (boxes.reference {}).codec? (({} : Settings).canonical _) = _
  rw [canonical_boxed, codec?_reference (layout?_box k)]
  change some (Codec.union _ [⟨_, _, ⟨({} : Settings).canonical (boxed k), 0⟩⟩]) = _
  rw [canonical_boxed]

theorem codec?_label : (boxes.reference {}).codec? ((boxes.reference {}).settings.canonical
    ⟨"string", []⟩) = some (.atomic .string) :=
  codec?_reference layout?_label

theorem encodeWithin_label (calls : Nat) (label : String) :
    (boxes.reference {}).encodeWithin (calls + 1) ⟨"string", []⟩ (.string label) =
      pure (.str label) := by
  rw [Reference.encodeWithin, codec?_label]
  rfl

theorem decodeWithin_label (calls : Nat) (label : String) :
    (boxes.reference {}).decodeWithin (calls + 1) ⟨"string", []⟩ (.str label) =
      .ok (.string label) := by
  rw [Reference.decodeWithin, codec?_label]
  rfl

theorem encodeWithin_boxed {label : String} {n calls : Nat} {j : Json}
    (h : (boxes.reference {}).encodeWithin calls (boxed 0) (.items label n) = pure j) (k : Nat) :
    (boxes.reference {}).encodeWithin (calls + k) (boxed k) (.items label n) =
      pure (j.boxed k) := by
  induction k with
  | zero => exact h
  | succ k ih =>
    have hbranch : Codec.branchFor? (boxes.reference {}).scope.isInstance
        [⟨"box", boxed k, ⟨boxed k, 0⟩⟩] (.items label n) = some ⟨"box", boxed k, ⟨boxed k, 0⟩⟩ :=
      List.find?_cons_of_pos (isInstance_boxed label n k)
    rw [← Nat.add_assoc, Reference.encodeWithin, codec?_box]
    dsimp only
    rw [Codec.encodeWith_union hbranch, ih]
    rfl

theorem decodeWithin_boxed {label : String} {n calls : Nat} {j : Json}
    (h : (boxes.reference {}).decodeWithin calls (boxed 0) j = .ok (.items label n)) (k : Nat) :
    (boxes.reference {}).decodeWithin (calls + k) (boxed k) (j.boxed k) =
      .ok (.items label n) := by
  induction k with
  | zero => exact h
  | succ k ih =>
    rw [← Nat.add_assoc, Reference.decodeWithin, codec?_box]
    exact congrArg (Decoding.under (.field "box")) ih

/-- Every item stands in three boxes, so it is four calls further down than the one around it. -/
theorem encodeWithin_items (calls : Nat) (label : String) (n : Nat) :
    (boxes.reference {}).encodeWithin (calls + 4 * n + 2) (boxed 0) (.items label n) =
      pure (.items label n) := by
  induction n with
  | zero =>
    rw [Reference.encodeWithin, codec?_item]
    rfl
  | succ n ih =>
    have hrest := encodeWithin_boxed ih 3
    obtain ⟨fields, hv⟩ := Value.exists_items label n
    rw [hv] at hrest
    rw [show calls + 4 * (n + 1) + 2 = calls + 4 * n + 2 + 3 + 1 by omega, Reference.encodeWithin,
      codec?_item, Value.items, hv]
    change (do
      let members ← (do
        let first ← ((boxes.reference {}).encodeWithin (calls + 4 * n + 4 + 1) ⟨"string", []⟩
          (.string label)).under (.field "label")
        let rest ← (do
          let rest ← ((boxes.reference {}).encodeWithin (calls + 4 * n + 2 + 3) (boxed 3)
            (.object "Item" fields)).under (.field "rest")
          return [("rest", rest)])
        return ("label", first) :: rest)
      return Json.obj (Members.ofList members)) = _
    rw [encodeWithin_label, hrest]
    exact congrArg (fun members => (pure (.obj members) : Encoding Json))
      (Members.ofList_of_sorted (sorted_item _ _))

theorem decodeWithin_items (calls : Nat) (label : String) (n : Nat) :
    (boxes.reference {}).decodeWithin (calls + 4 * n + 2) (boxed 0) (.items label n) =
      .ok (.items label n) := by
  induction n with
  | zero =>
    rw [Reference.decodeWithin, codec?_item]
    rfl
  | succ n ih =>
    have hrest := decodeWithin_boxed ih 3
    obtain ⟨fields, hv⟩ := Value.exists_items label n
    rw [hv] at hrest
    rw [show calls + 4 * (n + 1) + 2 = calls + 4 * n + 2 + 3 + 1 by omega, Reference.decodeWithin,
      codec?_item, Value.items, hv]
    change (do
      let values ← (do
        let first ← ((boxes.reference {}).decodeWithin (calls + 4 * n + 4 + 1) ⟨"string", []⟩
          (.str label)).under (.field "label")
        let rest ← (do
          let rest ← ((boxes.reference {}).decodeWithin (calls + 4 * n + 2 + 3) (boxed 3)
            ((Json.items label n).boxed 3)).under (.field "rest")
          return [(_, rest)])
        return (_, first) :: rest)
      _) = _
    rw [decodeWithin_label, hrest]
    exact congrArg (fun fields => (.ok (.object "Item" fields) : Decoding Value))
      (Members.ofList_of_sorted (sorted_item _ _))

/-! The registry that has looked items up. -/

def boxRegistry : Registry := ((Registry.initial boxes.host {}).lookup ⟨"Item", []⟩).2

theorem plain_boxRegistry : Registry.Plain boxes.host {} (fun _ => none) boxRegistry :=
  .lookup _ .initial

theorem publishes_boxRegistry : boxRegistry.Publishes ⟨boxed 0, 0⟩ := by
  unfold Registry.Publishes
  decide +kernel

theorem encode_items {n : Nat} (hn : 4 * n + 2 ≤ callLimit) (label : String) :
    boxRegistry.store.encode ⟨boxed 0, 0⟩ (.items label n) = pure (.items label n) := by
  have hcalls : callLimit = callLimit - (4 * n + 2) + 4 * n + 2 := by omega
  rw [Store.encode, plain_boxRegistry.agrees.encodeWithin plain_boxRegistry.sound.closed
    publishes_boxRegistry, hcalls]
  exact encodeWithin_items _ label n

theorem decode_items (label : String) (n : Nat) :
    boxRegistry.store.decode ⟨boxed 0, 0⟩ (.items label n) = .ok (.items label n) := by
  rw [Store.decode, plain_boxRegistry.agrees.decodeWithin plain_boxRegistry.sound.closed
    publishes_boxRegistry, Json.depth_items]
  have h := decodeWithin_items 0 label n
  rwa [Nat.zero_add] at h

end Catalog

namespace Registry

variable {host : Host} {settings : Settings} {customs : TypeTerm → Option Codec} {reg : Registry}
  {ref : CodecRef} {v : Value} {text : String}

theorem exists_of_encodeText {store : Store} (h : store.encodeText ref v = pure text) :
    ∃ j, store.encode ref v = pure j ∧ text = j.render := by
  obtain ⟨j, hj, h⟩ := Encoding.exists_of_bind h
  cases h
  exact ⟨j, hj, rfl⟩

theorem encodeText_eq {store : Store} {j : Json} (h : store.encode ref v = pure j) :
    store.encodeText ref v = pure j.render := by
  rw [Store.encodeText, h]
  rfl

/-- In a registry without factories take a term where no double and no registered codec is reached.
The text of a value is read back as the document that the value was encoded to, so decoding the one
is decoding the other, if no more than 127 arrays and objects stand inside one another. A text that
is nested deeper is refused by the reader of texts, whatever the codec would make of the
document. -/
theorem decodeText_encodeText (h : Plain host settings customs reg) (hp : reg.Publishes ref)
    (ht : Reference.Textual ⟨host, settings, customs⟩ ref.term)
    (he : reg.store.encodeText ref v = pure text) :
    ∃ j, reg.store.encode ref v = pure j ∧ text = j.render ∧
      (j.depth ≤ Json.maxDepth → reg.store.decodeText ref text = reg.store.decode ref j) ∧
      (Json.maxDepth < j.depth →
        reg.store.decodeText ref text = .fail (.custom "malformed JSON")) := by
  obtain ⟨j, hj, rfl⟩ := exists_of_encodeText he
  have hclosed := h.sound.closed
  have hexact : j.Exact := by
    rw [Store.encode, h.agrees.encodeWithin hclosed hp] at hj
    rw [← h.agrees.canonical hclosed hp] at ht
    exact Reference.exact_of_encodeWithin ht hj
  have hread := Json.read?_render hexact.valid hexact.realFree
  refine ⟨j, hj, rfl, fun hdepth => ?_, fun hdepth => ?_⟩
  · rw [Store.decodeText, hread, if_pos hdepth]
  · rw [Store.decodeText, hread, if_neg (Nat.not_le.2 hdepth)]

theorem decodeText_encodeText_items : ∃ text,
    Catalog.boxRegistry.store.encodeText ⟨Catalog.boxed 0, 0⟩ (.items "\"\\\n\u2028" 31) =
      pure text ∧
    Catalog.boxRegistry.store.decodeText ⟨Catalog.boxed 0, 0⟩ text =
      .ok (.items "\"\\\n\u2028" 31) := by
  have hcalls : 4 * 31 + 2 ≤ callLimit := by decide
  have he := Catalog.encode_items hcalls "\"\\\n\u2028"
  have htext := encodeText_eq he
  obtain ⟨j, hj, -, hshallow, -⟩ := decodeText_encodeText Catalog.plain_boxRegistry
    Catalog.publishes_boxRegistry Catalog.textual_boxed htext
  cases he.symm.trans hj
  have hdepth : (Json.items "\"\\\n\u2028" 31).depth ≤ Json.maxDepth := by
    rw [Json.depth_items]
    decide
  exact ⟨_, htext, (hshallow hdepth).trans (Catalog.decode_items _ _)⟩

/-- With one more item the text that is written is not read back, though the document is. -/
theorem not_decodeText_items : ∃ text,
    CatalogFile.boxes.registerInto .initial = (.ok (), .boxes) ∧
    Plain Catalog.boxes.host {} (fun _ => none) Catalog.boxRegistry ∧
    Catalog.boxRegistry.Publishes ⟨Catalog.boxed 0, 0⟩ ∧
    (Catalog.boxes.reference {}).Textual (Catalog.boxed 0) ∧
    Catalog.boxRegistry.store.encodeText ⟨Catalog.boxed 0, 0⟩ (.items "a" 32) = pure text ∧
    Catalog.boxRegistry.store.encode ⟨Catalog.boxed 0, 0⟩ (.items "a" 32) =
      pure (.items "a" 32) ∧
    Catalog.boxRegistry.store.decode ⟨Catalog.boxed 0, 0⟩ (.items "a" 32) =
      .ok (.items "a" 32) ∧
    Catalog.boxRegistry.store.decodeText ⟨Catalog.boxed 0, 0⟩ text =
      .fail (.custom "malformed JSON") := by
  have hcalls : 4 * 32 + 2 ≤ callLimit := by decide
  have he := Catalog.encode_items hcalls "a"
  have hexact := Json.exact_items "a" 32
  refine ⟨_, Prod.ext (by rfl) rfl, Catalog.plain_boxRegistry, Catalog.publishes_boxRegistry,
    Catalog.textual_boxed, encodeText_eq he, he, Catalog.decode_items _ _, ?_⟩
  rw [Store.decodeText, Json.read?_render hexact.valid hexact.realFree, Json.depth_items]
  rfl

end Registry

end Typewire
