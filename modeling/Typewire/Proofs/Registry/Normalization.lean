import Typewire.Proofs.Catalog.Normalization
import Typewire.Proofs.Command.Normalize
import Typewire.Proofs.Registry.RoundTrip

/-! # Decoding and encoding again

In a registry over a catalogue from a file, without codecs and factories of its own, what a document
decodes to is encoded again if nothing that is mandatory is only read and unions take it for what it
was read as. Where that holds of all types that are reached, doing it twice changes nothing.
-/

namespace Typewire

namespace Registry

variable {f : CatalogFile} {c : Catalog} {s : Settings} {reg : Registry} {ref : CodecRef}
  {j : Json} {v : Value}

section Published

variable (h : Plain c.host s (fun _ => none) reg) (hp : reg.Publishes ref)

include h hp

theorem resolved_of_reachable {term : TypeTerm} (ht : c.Reachable s ref.term term) :
    c.Resolved s term := by
  obtain ⟨slot, hpt⟩ := publishes_of_reachable h hp ht
  obtain ⟨hcanonical, codec, -, hc⟩ := h.derived hpt
  exact ⟨hcanonical, _, hc⟩

theorem reads_of_decode (hm : c.Standard) (hd : reg.store.decode ref j = .ok v) :
    c.Reads s ref.term j v := by
  rw [Store.decode, h.agrees.decodeWithin h.sound.closed hp] at hd
  exact Catalog.reads_of_decodeWithin hm (h.derived hp).1 hd

theorem encodeWithin_of_writes {depth : Nat} (hw : c.Writes s ref.term depth v j) {calls : Nat}
    (hcalls : depth < calls) : reg.store.encodeWithin calls ref v = pure j := by
  rw [h.agrees.encodeWithin h.sound.closed hp]
  exact hw calls hcalls

end Published

/-- A document that decodes is encoded again, with calls for its depth, if at every place of it that
is read and written nothing mandatory is only read and a union takes the value for the variant that
is present. The command that normalizes then prints the result. -/
theorem encode_decoded (hf : f.registerInto .initial = (.ok (), c))
    (h : Plain c.host s (fun _ => none) reg) (hp : reg.Publishes ref) (hj : j.Valid)
    (hd : reg.store.decode ref j = .ok v)
    (hr : ∀ place, c.Covers s ⟨ref.term, j⟩ place → c.Returns s place) :
    ∃ j', (∀ calls, j.depth < calls → reg.store.encodeWithin calls ref v = pure j') ∧
      (j.depth < callLimit → reg.store.encode ref v = pure j') ∧
      ∀ path text? type input, Command.Prepared path text? type input s c reg ref j →
        Command.normalize path text? type input s = .ok j'.pretty := by
  have hm := CatalogFile.standard_of_registerInto hf
  obtain ⟨j', hw⟩ := (reads_of_decode h hp hm hd).exists_writes hj hm
    (fun _ => resolved_of_reachable h hp) hr
  have hencode : ∀ calls, j.depth < calls → reg.store.encodeWithin calls ref v = pure j' :=
    fun _ => encodeWithin_of_writes h hp hw
  refine ⟨j', hencode, hencode callLimit, fun path text? type input hprepared => ?_⟩
  have hdepth : j.depth < callLimit :=
    Nat.lt_of_le_of_lt (Json.depth_le_of_read? hprepared.document) (by decide)
  exact hprepared.normalize hd (hencode callLimit hdepth)

/-- Where all types that are reached can be written and read again, what a document decodes to is
encoded as a normal form: that decodes, and what it decodes to is encoded as the same document. If
no property is only written, it is the value itself. -/
theorem normalization_idempotent (hf : f.registerInto .initial = (.ok (), c))
    (h : Plain c.host s (fun _ => none) reg) (hp : reg.Publishes ref)
    (hs : ∀ term, c.Reachable s ref.term term → c.Steady s term) (hj : j.Valid)
    (hd : reg.store.decode ref j = .ok v) :
    ∃ j' v', (∀ calls, j.depth < calls → reg.store.encodeWithin calls ref v = pure j') ∧
      (j.depth < callLimit → reg.store.encode ref v = pure j') ∧
      reg.store.decode ref j' = .ok v' ∧
      (∀ calls, j.depth < calls → reg.store.encodeWithin calls ref v' = pure j') ∧
      (j.depth < callLimit → reg.store.encode ref v' = pure j') ∧
      ((∀ term, c.Reachable s ref.term term → ∀ layout, c.layout? term = some (.record layout) →
        ∀ p ∈ layout.properties, p.serializable = true) → v' = v) := by
  have hm := CatalogFile.standard_of_registerInto hf
  have hc : ∀ term, c.Reachable s ref.term term → c.Resolved s term :=
    fun _ => resolved_of_reachable h hp
  have hread := reads_of_decode h hp hm hd
  obtain ⟨j', hw, hw', hdecode⟩ := hread.exists_normalForm hm hj ⟨hc, hs⟩
  have hencode : ∀ calls, j.depth < calls → reg.store.encodeWithin calls ref v = pure j' :=
    fun _ => encodeWithin_of_writes h hp hw
  have hencode' : ∀ calls, j.depth < calls →
      reg.store.encodeWithin calls ref (c.trim v) = pure j' :=
    fun _ => encodeWithin_of_writes h hp hw'
  refine ⟨j', c.trim v, hencode, hencode callLimit, ?_, hencode', hencode' callLimit,
    hread.trim_eq hj hc⟩
  rw [Store.decode, h.agrees.decodeWithin h.sound.closed hp]
  exact hdecode (j'.depth + 1) (Nat.lt_succ_self _)

end Registry

/-- Shapes of which one is a subtype of the other. Only one of the unions has the subtype first. -/
def CatalogFile.shapes : CatalogFile :=
  { records := [
      { name := "Shape"
        properties := [{ name := "label", type := "string", mandatory := true }] },
      { name := "Square", supertypes := ["Shape"]
        properties := [
          { name := "side", type := "int", mandatory := true },
          { name := "note", type := "string", writeOnly := true }] },
      { name := "Row"
        properties := [{ name := "id", type := "long", binding := .readOnly, mandatory := true }] }]
    unions := [
      { name := "Figure", variants := [⟨"square", "Square"⟩, ⟨"shape", "Shape"⟩] },
      { name := "Outline", variants := [⟨"shape", "Shape"⟩, ⟨"square", "Square"⟩] },
      { name := "Scalar", variants := [⟨"text", "string"⟩, ⟨"number", "int"⟩] }] }

namespace Catalog

def shapes : Catalog := (CatalogFile.shapes.registerInto .initial).2

theorem layout?_figure : shapes.layout? ⟨"Figure", []⟩ = some (.union
    { variants := [⟨"square", .apply "Square" []⟩, ⟨"shape", .apply "Shape" []⟩] }) := rfl

theorem layout?_shape : shapes.layout? ⟨"Shape", []⟩ = some (.record
    { constructor := .record "Shape" ["label"]
      properties := [{ name := "label", type := .apply "string" [], binding := .slot 0,
                       accessor := .field "label", mandatory := true }] }) := rfl

theorem layout?_square : shapes.layout? ⟨"Square", []⟩ = some (.record
    { constructor := .record "Square" ["side", "note"]
      properties := [
        { name := "side", type := .apply "int" [], binding := .slot 0,
          accessor := .field "side", mandatory := true },
        { name := "note", type := .apply "string" [], binding := .slot 1,
          accessor := .field "note", serializable := false }] }) := rfl

theorem layout?_side : shapes.layout? ⟨"int", []⟩ = some (.atomic .int) := rfl

theorem layout?_text : shapes.layout? ⟨"string", []⟩ = some (.atomic .string) := rfl

theorem not_leads_shapes : ¬ Leads shapes.supertypes "Shape" "Square" := by
  have hedges : shapes.supertypes = [("Square", "Shape")] := rfl
  rw [hedges]
  intro h
  rcases Relation.ReflTransGen.cases_head h with heq | ⟨sup, hsup, -⟩
  · exact absurd heq (by decide)
  · exact absurd (congrArg Prod.fst (List.mem_singleton.1 hsup)) (by simp)

theorem mem_of_reachable_figure {term : TypeTerm} (h : shapes.Reachable {} ⟨"Figure", []⟩ term) :
    term ∈ ["Figure", "Square", "Shape", "int", "string"].map (⟨·, []⟩) := by
  induction h with
  | refl => exact List.mem_cons_self
  | tail _ hpart ih =>
    obtain ⟨layout, scheme, hl, hs, hpart⟩ := hpart
    simp only [List.map_cons, List.map_nil, List.mem_cons, List.not_mem_nil, or_false] at ih
    rcases ih with rfl | rfl | rfl | rfl | rfl
    · cases layout?_figure.symm.trans hl
      simp only [Layout.parts, List.map_cons, List.map_nil, List.mem_cons, List.not_mem_nil,
        or_false] at hs
      rcases hs with rfl | rfl <;> cases hpart <;> decide
    · cases layout?_square.symm.trans hl
      simp only [Layout.parts, List.map_cons, List.map_nil, List.mem_cons, List.not_mem_nil,
        or_false] at hs
      rcases hs with rfl | rfl <;> cases hpart <;> decide
    · cases layout?_shape.symm.trans hl
      cases List.mem_singleton.1 hs
      cases hpart
      decide
    · cases layout?_side.symm.trans hl
      cases hs
    · cases layout?_text.symm.trans hl
      cases hs

theorem eq_of_reachable_shape {term : TypeTerm} (h : shapes.Reachable {} ⟨"Shape", []⟩ term) :
    term = ⟨"Shape", []⟩ ∨ term = ⟨"string", []⟩ := by
  induction h with
  | refl => exact .inl rfl
  | tail _ hpart ih =>
    obtain ⟨layout, scheme, hl, hs, hpart⟩ := hpart
    rcases ih with rfl | rfl
    · cases layout?_shape.symm.trans hl
      cases List.mem_singleton.1 hs
      cases hpart
      exact .inr rfl
    · cases layout?_text.symm.trans hl
      cases hs

theorem steady_figure {term : TypeTerm} (h : shapes.Reachable {} ⟨"Figure", []⟩ term) :
    shapes.Steady {} term := by
  have hmem := mem_of_reachable_figure h
  simp only [List.map_cons, List.map_nil, List.mem_cons, List.not_mem_nil, or_false] at hmem
  rcases hmem with rfl | rfl | rfl | rfl | rfl
  · refine ⟨fun _ hl => ?_, fun layout hl v hv part hp => ?_, fun layout hl => ?_⟩ <;>
      cases layout?_figure.symm.trans hl
    · simp only [List.mem_cons, List.not_mem_nil, or_false] at hv
      rcases hv with rfl | rfl <;> cases hp
      · exact .inl ⟨_, layout?_square⟩
      · exact .inl ⟨_, layout?_shape⟩
    · refine List.pairwise_pair.2 fun earlier later he hl => ?_
      cases he
      cases hl
      exact not_leads_shapes
  · refine ⟨fun layout hl p hp hone => ?_, fun _ hl => ?_, fun _ hl => ?_⟩ <;>
      cases layout?_square.symm.trans hl
    simp only [List.mem_cons, List.not_mem_nil, or_false] at hp
    rcases hp with rfl | rfl
    · rcases hone with hone | hone <;> cases hone
    · rfl
  · refine ⟨fun layout hl p hp hone => ?_, fun _ hl => ?_, fun _ hl => ?_⟩ <;>
      cases layout?_shape.symm.trans hl
    cases List.mem_singleton.1 hp
    rcases hone with hone | hone <;> cases hone
  · refine ⟨fun _ hl => ?_, fun _ hl => ?_, fun _ hl => ?_⟩ <;> cases layout?_side.symm.trans hl
  · refine ⟨fun _ hl => ?_, fun _ hl => ?_, fun _ hl => ?_⟩ <;> cases layout?_text.symm.trans hl

end Catalog

namespace Registry

def shapes (name : TypeName) : Registry := ((initial Catalog.shapes.host {}).lookup ⟨name, []⟩).2

theorem registerInto_shapes : CatalogFile.shapes.registerInto .initial = (.ok (), .shapes) :=
  Prod.ext (by rfl) rfl

theorem plain_shapes (name : TypeName) :
    Plain Catalog.shapes.host {} (fun _ => none) (shapes name) :=
  .lookup _ .initial

theorem publishes_figure : (shapes "Figure").Publishes ⟨⟨"Figure", []⟩, 0⟩ := by
  unfold Publishes
  decide +kernel

theorem valid_square :
    (Json.obj [("square", .obj [("note", .str "a"), ("side", .int 3)])]).Valid := by
  refine .obj (List.pairwise_singleton _ _) (List.forall_mem_singleton.2 ?_)
  refine .obj (List.pairwise_pair.2 (by decide)) (List.forall_mem_cons.2 ⟨.str _, ?_⟩)
  exact List.forall_mem_singleton.2 (.int (by decide) (by decide))

theorem encode_decoded_figure :
    ∃ v j', Plain Catalog.shapes.host {} (fun _ => none) (shapes "Figure") ∧
      (shapes "Figure").Publishes ⟨⟨"Figure", []⟩, 0⟩ ∧
      (shapes "Figure").store.decode ⟨⟨"Figure", []⟩, 0⟩
        (.obj [("square", .obj [("note", .str "a"), ("side", .int 3)])]) = .ok v ∧
      (shapes "Figure").store.encodeWithin 3 ⟨⟨"Figure", []⟩, 0⟩ v = pure j' := by
  have h := plain_shapes "Figure"
  have hp := publishes_figure
  have hm := CatalogFile.standard_of_registerInto registerInto_shapes
  obtain ⟨v, hd⟩ : ∃ v, (shapes "Figure").store.decode ⟨⟨"Figure", []⟩, 0⟩
      (.obj [("square", .obj [("note", .str "a"), ("side", .int 3)])]) = .ok v :=
    Except.exists_of_isOk (by decide +kernel)
  obtain ⟨j', he, -⟩ := encode_decoded registerInto_shapes h hp valid_square hd fun place hcover =>
    (Catalog.steady_figure hcover.reachable).returns hm
      (resolved_of_reachable h hp hcover.reachable).canonical place.document
  exact ⟨v, j', h, hp, hd, he 3 (by decide)⟩

theorem exists_refused {store : Store} (h : ((store.decode ref j).toOption.bind fun v =>
    (store.encode ref v).run.map Except.isOk) = some false) :
    ∃ v, store.decode ref j = .ok v ∧ ∀ j', store.encode ref v ≠ pure j' := by
  cases hd : store.decode ref j with
  | error e =>
    rw [hd] at h
    cases h
  | ok v =>
    rw [hd] at h
    refine ⟨v, rfl, fun j' he => ?_⟩
    change ((store.encode ref v).run.map Except.isOk) = some false at h
    rw [he] at h
    cases h

/-- A square is written as a shape, for which it has no label. A scalar is an instance of no
variant, and a row that was read has no id. -/
theorem refuses_decoded :
    CatalogFile.shapes.registerInto .initial = (.ok (), .shapes) ∧
      ∀ e ∈ [("Outline", Json.obj [("square", .obj [("side", .int 3)])]),
          ("Scalar", .obj [("text", .str "a")]), ("Row", .obj [])],
        Plain Catalog.shapes.host {} (fun _ => none) (shapes e.1) ∧
          (shapes e.1).Publishes ⟨⟨e.1, []⟩, 0⟩ ∧ e.2.Valid ∧
          ∃ v, (shapes e.1).store.decode ⟨⟨e.1, []⟩, 0⟩ e.2 = .ok v ∧
            ∀ j', (shapes e.1).store.encode ⟨⟨e.1, []⟩, 0⟩ v ≠ pure j' := by
  refine ⟨registerInto_shapes, fun e he => ?_⟩
  simp only [List.mem_cons, List.not_mem_nil, or_false] at he
  rcases he with rfl | rfl | rfl <;>
    refine ⟨plain_shapes _, by unfold Publishes; decide +kernel, ?_,
      exists_refused (by decide +kernel)⟩
  · refine .obj (List.pairwise_singleton _ _) (List.forall_mem_singleton.2 ?_)
    exact .obj (List.pairwise_singleton _ _)
      (List.forall_mem_singleton.2 (.int (by decide) (by decide)))
  · exact .obj (List.pairwise_singleton _ _) (List.forall_mem_singleton.2 (.str _))
  · exact .obj List.Pairwise.nil fun e he => by cases he

theorem render_of_encodeWithin {store : Store} {calls : Nat} {text : String} {j' : Json}
    (hd : store.decode ref j = .ok v) (he : store.encodeWithin calls ref v = pure j')
    (h : ((store.decode ref j).toOption.bind fun v => (store.encodeWithin calls ref v).run.bind
      fun r => r.toOption.map Json.render) = some text) : j'.render = text := by
  rw [hd] at h
  change ((store.encodeWithin calls ref v).run.bind fun r => r.toOption.map Json.render) = _ at h
  rw [he] at h
  exact Option.some.inj h

theorem normalization_idempotent_figure :
    ∃ v j' v' w i, Plain Catalog.shapes.host {} (fun _ => none) (shapes "Figure") ∧
      (shapes "Figure").store.decode ⟨⟨"Figure", []⟩, 0⟩
        (.obj [("square", .obj [("note", .str "a"), ("side", .int 3)])]) = .ok v ∧
      (shapes "Figure").store.encodeWithin 3 ⟨⟨"Figure", []⟩, 0⟩ v = pure j' ∧
      j'.render = "\x7b\"square\":\x7b\"side\":3\x7d\x7d" ∧
      (shapes "Figure").store.decode ⟨⟨"Figure", []⟩, 0⟩ j' = .ok v' ∧
      (shapes "Figure").store.encodeWithin 3 ⟨⟨"Figure", []⟩, 0⟩ v' = pure j' ∧
      (shapes "Figure").store.decode ⟨⟨"Shape", []⟩, 4⟩
        (.obj [("extra", .null), ("label", .str "a")]) = .ok w ∧
      (shapes "Figure").store.encodeWithin 2 ⟨⟨"Shape", []⟩, 4⟩ w = pure i ∧
      (shapes "Figure").store.decode ⟨⟨"Shape", []⟩, 4⟩ i = .ok w := by
  have h := plain_shapes "Figure"
  obtain ⟨v, hv⟩ : ∃ v, (shapes "Figure").store.decode ⟨⟨"Figure", []⟩, 0⟩
      (.obj [("square", .obj [("note", .str "a"), ("side", .int 3)])]) = .ok v :=
    Except.exists_of_isOk (by decide +kernel)
  obtain ⟨j', v', hj', -, hv', hagain, -⟩ := normalization_idempotent registerInto_shapes h
    publishes_figure (fun _ => Catalog.steady_figure) valid_square hv
  have hrender : j'.render = "\x7b\"square\":\x7b\"side\":3\x7d\x7d" :=
    render_of_encodeWithin hv (hj' 3 (by decide)) (by decide +kernel)
  -- A shape has nothing that is only written, so its value comes back.
  have hpart : Catalog.shapes.Part {} ⟨"Figure", []⟩ ⟨"Shape", []⟩ :=
    .variant Catalog.layout?_figure (List.mem_cons_of_mem _ List.mem_cons_self) rfl
  have hp : (shapes "Figure").Publishes ⟨⟨"Shape", []⟩, 4⟩ := by
    unfold Publishes
    decide +kernel
  have hlabel : (Json.obj [("extra", .null), ("label", .str "a")]).Valid :=
    .obj (List.pairwise_pair.2 (by decide)) (List.forall_mem_cons.2
      ⟨.null, List.forall_mem_singleton.2 (.str _)⟩)
  obtain ⟨w, hw⟩ : ∃ w, (shapes "Figure").store.decode ⟨⟨"Shape", []⟩, 4⟩
      (.obj [("extra", .null), ("label", .str "a")]) = .ok w :=
    Except.exists_of_isOk (by decide +kernel)
  obtain ⟨i, w', hi, -, hw', -, -, hsame⟩ := normalization_idempotent registerInto_shapes h hp
    (fun _ ht => Catalog.steady_figure (.head hpart ht)) hlabel hw
  have hall : ∀ term, Catalog.shapes.Reachable {} ⟨"Shape", []⟩ term → ∀ layout,
      Catalog.shapes.layout? term = some (.record layout) →
        ∀ p ∈ layout.properties, p.serializable = true := by
    intro term ht layout hl p hp
    rcases Catalog.eq_of_reachable_shape ht with rfl | rfl
    · cases Catalog.layout?_shape.symm.trans hl
      cases List.mem_singleton.1 hp
      rfl
    · cases Catalog.layout?_text.symm.trans hl
  obtain rfl := hsame hall
  exact ⟨v, j', v', _, i, h, hv, hj' 3 (by decide), hrender, hv',
    hagain 3 (by decide), hw, hi 2 (by decide), hw'⟩

end Registry

end Typewire
