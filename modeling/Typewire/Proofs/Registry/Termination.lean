import Typewire.Proofs.Codec.Termination
import Typewire.Proofs.Rank
import Typewire.Proofs.Registry.Normalization

/-! # Coding ends

In a registry over a catalogue from a file, without codecs and factories of its own, decoding ends
on every document. Encoding ends on every value if no union hands a value round to itself. Records,
containers and unions may refer to each other in any other way.
-/

namespace Typewire

open Relation

theorem Accessor.depth_lt_of_getField {name : String} {v w : Value}
    (h : getField name v = .ok w) : w.depth < v.depth := by
  unfold getField at h
  split at h
  · rename_i type fields
    cases h
    unfold Fields.get
    cases hg : Members.get? name fields with
    | none => exact Nat.succ_pos _
    | some w => exact Nat.lt_succ_of_le (Value.depth_le_of_mem_fields (Members.mem_of_get? hg))
  · cases h

namespace Catalog

/-- The first term is a union with the second as the target of a variant. -/
def Delegates (c : Catalog) (s : Settings) (term part : TypeTerm) : Prop :=
  ∃ layout variant, c.layout? term = some (.union layout) ∧ variant ∈ layout.variants ∧
    s.part? term variant.target = some part

variable {c : Catalog} {s : Settings} {root term part : TypeTerm}

theorem Delegates.toPart (h : c.Delegates s term part) : c.Part s term part := by
  obtain ⟨layout, variant, hl, hv, hp⟩ := h
  exact .variant hl hv hp

theorem part_of_passes (hm : c.Standard) {codec : Codec}
    (hcodec : (c.reference s).codec? term = some codec)
    {isInstance : Value → TypeTerm → Bool} {v w : Value} {ref : CodecRef}
    (hp : codec.Passes isInstance v ref w) :
    c.Part s term ref.term ∧ (w.depth < v.depth ∨ w = v ∧ c.Delegates s term ref.term) := by
  obtain ⟨layout, hl, hd⟩ := exists_layout_of_codec? hcodec
  cases layout with
  | atomic kind =>
    cases hd
    cases hp
  | record layout =>
    obtain ⟨-, fs, rfl, hps, hparts⟩ := Reference.describe?_record hd
    cases hp with
    | @field _ _ _ _ f _ _ hf hget =>
      have hmem : f.property ∈ layout.properties := hps ▸ List.mem_map_of_mem hf
      rw [(hm.record hl).get _ hmem] at hget
      exact ⟨.field hl hmem (hparts f hf), .inl (Accessor.depth_lt_of_getField hget)⟩
  | sequence container element =>
    obtain ⟨part, hpart, rfl⟩ := Reference.describe?_sequence hd
    cases hp with
    | item hw =>
      exact ⟨.item hl hpart, .inl (Nat.lt_succ_of_le (Value.depth_le_of_mem_items hw))⟩
  | map key value =>
    obtain ⟨k, v, hk, hv, rfl⟩ := Reference.describe?_map hd
    cases hp with
    | key he =>
      exact ⟨.key hl hk, .inl (Nat.lt_succ_of_le (Value.depth_le_of_mem_entries he).1)⟩
    | entry he =>
      exact ⟨.entry hl hv, .inl (Nat.lt_succ_of_le (Value.depth_le_of_mem_entries he).2)⟩
  | enumeration layout =>
    obtain ⟨-, -, rfl⟩ := Reference.describe?_enumeration hd
    cases hp
  | union layout =>
    obtain ⟨-, bs, rfl, hbs⟩ := Reference.describe?_union hd
    cases hp with
    | branch hb =>
      obtain ⟨variant, hv, hvb⟩ := exists_left_of_forall₂ hbs (List.mem_of_find?_eq_some hb)
      exact ⟨.variant hl hv hvb.part, .inr ⟨rfl, layout, variant, hl, hv, hvb.part⟩⟩
  | foreign => cases hd

/-- The calls inside one another for a value: for each container or instance that is entered, any
number of unions may be passed. -/
noncomputable def encodingCost (c : Catalog) (s : Settings) (root term : TypeTerm) (v : Value) :
    Nat :=
  v.depth * ({ part | c.Reachable s root part }.ncard + 1) + rankBy (c.Delegates s) term

section Cost

variable (hfin : { part | c.Reachable s root part }.Finite)

include hfin

theorem encodingCost_lt (hr : c.Reachable s root term) (v : Value) :
    c.encodingCost s root term v <
      (v.depth + 1) * ({ part | c.Reachable s root part }.ncard + 1) := by
  have hrank : rankBy (c.Delegates s) term ≤ { part | c.Reachable s root part }.ncard :=
    rankBy_le (fun _ _ h => h.toPart) hfin hr
  rw [encodingCost, Nat.add_one_mul]
  omega

theorem encodingCost_lt_of_depth_lt (hp : c.Reachable s root part) {v w : Value}
    (h : w.depth < v.depth) : c.encodingCost s root part w < c.encodingCost s root term v :=
  calc c.encodingCost s root part w
      < (w.depth + 1) * ({ part | c.Reachable s root part }.ncard + 1) := encodingCost_lt hfin hp w
    _ ≤ v.depth * ({ part | c.Reachable s root part }.ncard + 1) := Nat.mul_le_mul_right _ h
    _ ≤ c.encodingCost s root term v := Nat.le_add_right _ _

/-- What encodings with enough calls inside one another give does not depend on how many these
are. -/
theorem coincide_encodeWithin (hm : c.Standard)
    (hc : ∀ t, c.Reachable s root t → c.Resolved s t)
    (hg : ∀ t, c.Reachable s root t → ¬ TransGen (c.Delegates s) t t)
    (ht : c.Reachable s root term) {v : Value} {calls calls' : Nat}
    (hcalls : c.encodingCost s root term v < calls)
    (hcalls' : c.encodingCost s root term v < calls') :
    ((c.reference s).encodeWithin calls term v).Coincide
      ((c.reference s).encodeWithin calls' term v) := by
  induction calls generalizing term v calls' with
  | zero => exact absurd hcalls (Nat.not_lt_zero _)
  | succ calls ih =>
    obtain ⟨calls', rfl⟩ := Nat.exists_eq_add_one_of_ne_zero (Nat.ne_zero_of_lt hcalls')
    obtain ⟨codec, hcodec⟩ := (hc term ht).derived
    obtain ⟨layout, hl, hd⟩ := exists_layout_of_codec? hcodec
    rw [(hc term ht).encodeWithin hl hd, (hc term ht).encodeWithin hl hd]
    refine Codec.coincide_encodeWith fun ref w hpasses => ?_
    obtain ⟨hpart, hless⟩ := part_of_passes hm hcodec hpasses
    have hreach : c.Reachable s root ref.term := .tail ht hpart
    have hlt : c.encodingCost s root ref.term w < c.encodingCost s root term v := by
      -- The value is less deep, or a union hands it on to a type of lower rank.
      rcases hless with hdepth | ⟨rfl, hdelegates⟩
      · exact encodingCost_lt_of_depth_lt hfin hreach hdepth
      · exact Nat.add_lt_add_left
          (rankBy_lt (fun _ _ h => h.toPart) hfin ht hdelegates (hg _ hreach)) _
    exact ih hreach (by omega) (by omega)

end Cost

end Catalog

namespace Registry

variable {c : Catalog} {s : Settings} {reg : Registry} {ref : CodecRef}

section Published

variable (h : Plain c.host s (fun _ => none) reg) (hp : reg.Publishes ref)

include h hp

theorem reachable_subset : { part | c.Reachable s ref.term part } ⊆
    ((reg.published.map Prod.fst).toFinset : Set TypeTerm) := by
  intro part hpart
  obtain ⟨slot, hpub⟩ := publishes_of_reachable h hp hpart
  simpa using ⟨slot, Table.mem_of_get? hpub⟩

theorem finite_reachable : { part | c.Reachable s ref.term part }.Finite :=
  (Finset.finite_toSet _).subset (reachable_subset h hp)

theorem ncard_reachable_le : { part | c.Reachable s ref.term part }.ncard ≤ reg.size := by
  calc { part | c.Reachable s ref.term part }.ncard
      ≤ ((reg.published.map Prod.fst).toFinset : Set TypeTerm).ncard :=
        Set.ncard_le_ncard (reachable_subset h hp) (Finset.finite_toSet _)
    _ = (reg.published.map Prod.fst).toFinset.card := Set.ncard_coe_finset _
    _ ≤ (reg.published.map Prod.fst).length := List.toFinset_card_le _
    _ = reg.size := List.length_map _

end Published

/-- Decoding ends on every document: what would be done below its depth makes no difference. If no
union that is reached hands values round to itself, encoding ends on every value, with calls for the
terms that are published at each depth of the value. -/
theorem coding_ends {f : CatalogFile} {r : Except CatalogError Unit}
    (hf : f.registerInto .initial = (r, c)) (h : Plain c.host s (fun _ => none) reg)
    (hp : reg.Publishes ref) :
    (∀ j deeper calls, j.depth < calls →
      reg.store.decodeFrom deeper calls ref j = reg.store.decode ref j) ∧
    ((∀ term, c.Reachable s ref.term term → ¬ TransGen (c.Delegates s) term term) →
      ∀ v, ∃ result, ∀ calls, (v.depth + 1) * (reg.size + 1) ≤ calls →
        (reg.store.encodeWithin calls ref v).run = some result) := by
  refine ⟨fun j deeper calls hj => reg.store.decodeFrom_eq_decode deeper ref hj, fun hg v => ?_⟩
  have hfin := finite_reachable h hp
  have hcost : c.encodingCost s ref.term ref.term v < (v.depth + 1) * (reg.size + 1) :=
    Nat.lt_of_lt_of_le (Catalog.encodingCost_lt hfin .refl v)
      (Nat.mul_le_mul_left _ (Nat.succ_le_succ (ncard_reachable_le h hp)))
  have hends : ∀ calls, (v.depth + 1) * (reg.size + 1) ≤ calls →
      (reg.store.encodeWithin ((v.depth + 1) * (reg.size + 1)) ref v).Coincide
        (reg.store.encodeWithin calls ref v) := by
    intro calls hcalls
    rw [h.agrees.encodeWithin h.sound.closed hp, h.agrees.encodeWithin h.sound.closed hp]
    exact Catalog.coincide_encodeWithin hfin (CatalogFile.standard_of_registerInto hf)
      (fun _ => resolved_of_reachable h hp) hg .refl hcost (Nat.lt_of_lt_of_le hcost hcalls)
  obtain ⟨result, hresult, -⟩ := hends _ (Nat.le_refl _)
  refine ⟨result, fun calls hcalls => ?_⟩
  obtain ⟨result', hresult', hcalls'⟩ := hends calls hcalls
  rw [hcalls', ← hresult', hresult]

end Registry

/-- Trees are leaves or branches, and a branch is a union of its own, with nodes of trees. -/
def CatalogFile.trees : CatalogFile :=
  { records := [
      { name := "Leaf", properties := [{ name := "value", type := "int" }] },
      { name := "Node", supertypes := ["Branch"]
        properties := [
          { name := "left", type := "Tree" }, { name := "right", type := "Tree" }] }]
    unions := [
      { name := "Tree", variants := [⟨"leaf", "Leaf"⟩, ⟨"branch", "Branch"⟩] },
      { name := "Branch", variants := [⟨"node", "Node"⟩] }] }

namespace Catalog

def trees : Catalog := (CatalogFile.trees.registerInto .initial).2

theorem layout?_tree : trees.layout? ⟨"Tree", []⟩ = some (.union
    { variants := [⟨"leaf", .apply "Leaf" []⟩, ⟨"branch", .apply "Branch" []⟩] }) := rfl

theorem layout?_branch : trees.layout? ⟨"Branch", []⟩ = some (.union
    { variants := [⟨"node", .apply "Node" []⟩] }) := rfl

theorem layout?_leaf : trees.layout? ⟨"Leaf", []⟩ = some (.record
    { constructor := .record "Leaf" ["value"]
      properties := [{ name := "value", type := .apply "int" [], binding := .slot 0,
                       accessor := .field "value" }] }) := rfl

theorem layout?_node : trees.layout? ⟨"Node", []⟩ = some (.record
    { constructor := .record "Node" ["left", "right"]
      properties := [
        { name := "left", type := .apply "Tree" [], binding := .slot 0,
          accessor := .field "left" },
        { name := "right", type := .apply "Tree" [], binding := .slot 1,
          accessor := .field "right" }] }) := rfl

theorem layout?_value : trees.layout? ⟨"int", []⟩ = some (.atomic .int) := rfl

def treeLevel : TypeName → Nat
  | "Tree" => 2
  | "Branch" => 1
  | _ => 0

theorem part_tree {term part : TypeTerm}
    (ht : term ∈ ["Tree", "Branch", "Leaf", "Node", "int"].map (⟨·, []⟩))
    (h : trees.Part {} term part) :
    part ∈ ["Tree", "Branch", "Leaf", "Node", "int"].map (⟨·, []⟩) ∧
      (trees.Delegates {} term part → treeLevel part.head < treeLevel term.head) := by
  obtain ⟨layout, scheme, hl, hs, hp⟩ := h
  simp only [List.map_cons, List.map_nil, List.mem_cons, List.not_mem_nil, or_false] at ht
  rcases ht with rfl | rfl | rfl | rfl | rfl
  · cases layout?_tree.symm.trans hl
    simp only [Layout.parts, List.map_cons, List.map_nil, List.mem_cons, List.not_mem_nil,
      or_false] at hs
    rcases hs with rfl | rfl <;> cases hp <;> exact ⟨by decide, fun _ => by decide⟩
  · cases layout?_branch.symm.trans hl
    cases List.mem_singleton.1 hs
    cases hp
    exact ⟨by decide, fun _ => by decide⟩
  · cases layout?_leaf.symm.trans hl
    cases List.mem_singleton.1 hs
    cases hp
    refine ⟨by decide, ?_⟩
    rintro ⟨_, _, hu, -⟩
    cases layout?_leaf.symm.trans hu
  · cases layout?_node.symm.trans hl
    simp only [Layout.parts, List.map_cons, List.map_nil, List.mem_cons, List.not_mem_nil,
      or_false] at hs
    have hnone : ∀ part, ¬ trees.Delegates {} ⟨"Node", []⟩ part := by
      rintro part ⟨_, _, hu, -⟩
      cases layout?_node.symm.trans hu
    rcases hs with rfl | rfl <;> cases hp <;> exact ⟨by decide, fun hd => absurd hd (hnone _)⟩
  · cases layout?_value.symm.trans hl
    cases hs

theorem mem_of_reachable_tree {term : TypeTerm} (h : trees.Reachable {} ⟨"Tree", []⟩ term) :
    term ∈ ["Tree", "Branch", "Leaf", "Node", "int"].map (⟨·, []⟩) := by
  induction h with
  | refl => exact List.mem_cons_self
  | tail _ hpart ih => exact (part_tree ih hpart).1

theorem not_delegates_tree {term : TypeTerm} (h : trees.Reachable {} ⟨"Tree", []⟩ term) :
    ¬ TransGen (trees.Delegates {}) term term := by
  have hlevel : ∀ part, TransGen (trees.Delegates {}) term part →
      part ∈ ["Tree", "Branch", "Leaf", "Node", "int"].map (⟨·, []⟩) ∧
        treeLevel part.head < treeLevel term.head := by
    intro part hpart
    induction hpart with
    | single hd =>
      obtain ⟨hmem, hlt⟩ := part_tree (mem_of_reachable_tree h) hd.toPart
      exact ⟨hmem, hlt hd⟩
    | tail _ hd ih =>
      obtain ⟨hmem, hlt⟩ := part_tree ih.1 hd.toPart
      exact ⟨hmem, (hlt hd).trans ih.2⟩
  exact fun hcycle => Nat.lt_irrefl _ (hlevel term hcycle).2

end Catalog

namespace Registry

def trees : Registry := ((initial Catalog.trees.host {}).lookup ⟨"Tree", []⟩).2

/-- A node is encoded in a branch of a tree, as it is, and its own trees again. -/
theorem coding_ends_tree : ∃ result,
    (trees.store.encodeWithin 18 ⟨⟨"Tree", []⟩, 0⟩ (.object "Node"
      [("left", .object "Leaf" [("value", .int 1)])])).run = some result ∧
    trees.store.decodeFrom (fun _ _ => .ok .null) 4 ⟨⟨"Tree", []⟩, 0⟩
        (.obj [("branch", .obj [("node", .obj [])])]) =
      trees.store.decode ⟨⟨"Tree", []⟩, 0⟩ (.obj [("branch", .obj [("node", .obj [])])]) := by
  have hf : CatalogFile.trees.registerInto .initial = (.ok (), .trees) := Prod.ext (by rfl) rfl
  have hplain : Plain Catalog.trees.host {} (fun _ => none) trees := .lookup _ .initial
  have hp : trees.Publishes ⟨⟨"Tree", []⟩, 0⟩ := by
    unfold Publishes
    decide +kernel
  obtain ⟨hdecode, hencode⟩ := coding_ends hf hplain hp
  have hsize : trees.size = 5 := by decide +kernel
  obtain ⟨result, hresult⟩ := hencode (fun _ => Catalog.not_delegates_tree)
    (.object "Node" [("left", .object "Leaf" [("value", .int 1)])])
  exact ⟨result, hresult 18 (by rw [hsize]; decide), hdecode _ _ 4 (by decide)⟩

end Registry

end Typewire
