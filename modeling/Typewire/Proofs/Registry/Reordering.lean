import Typewire.Proofs.Catalog.Registration
import Typewire.Proofs.Codec.Reordering
import Typewire.Proofs.Registry.Strictness

/-! # The order of declarations

Two hosts may declare the properties of a record in different orders, and be alike otherwise. Then
they derive codecs for the same terms, and these give the same documents and values, where they give
any. An error may be another one, as the properties come in another order.
-/

namespace Typewire

theorem Layout.mem_parts_of_reorders {type : TypeName} {layout layout' : RecordLayout}
    (h : layout.Reorders type layout') (scheme : TypeScheme) :
    scheme ∈ (Layout.record layout).parts ↔ scheme ∈ (Layout.record layout').parts := by
  have htypes := (h.perm.map Property.type).mem_iff (a := scheme)
  rwa [List.map_map, List.map_map] at htypes

/-- The hosts are alike, except that the properties of records may come in other orders. -/
structure Host.Reorders (host host' : Host) : Prop where
  isInstance : host.isInstance = host'.isInstance
  layout : ∀ type, host.layout type = host'.layout type ∨ ∃ layout layout',
    host.layout type = some (.ok (.record layout)) ∧
      host'.layout type = some (.ok (.record layout')) ∧ layout.Reorders type layout'

namespace Host.Reorders

variable {host host' : Host}

theorem symm (h : host.Reorders host') : host'.Reorders host := by
  refine ⟨h.isInstance.symm, fun type => ?_⟩
  rcases h.layout type with hsame | ⟨layout, layout', hl, hl', hr⟩
  · exact .inl hsame.symm
  · exact .inr ⟨layout', layout, hl', hl, hr.symm⟩

theorem exists_layout (h : host.Reorders host') {type : TypeName} {layout : Layout}
    (hl : host.layout type = some (.ok layout)) :
    ∃ layout', host'.layout type = some (.ok layout') ∧ (layout.Valid → layout'.Valid) ∧
      ∀ scheme, scheme ∈ layout.parts ↔ scheme ∈ layout'.parts := by
  rcases h.layout type with hsame | ⟨record, record', hr, hr', hreorders⟩
  · exact ⟨layout, hsame ▸ hl, id, fun _ => Iff.rfl⟩
  · cases hl.symm.trans hr
    refine ⟨.record record', hr', fun hv => ?_, Layout.mem_parts_of_reorders hreorders⟩
    exact RecordLayout.check_iff.1 (hreorders.check_iff.1 (RecordLayout.check_iff.2 hv))

end Host.Reorders

namespace Reference

variable {host host' : Host} {s : Settings} {customs : TypeTerm → Option Codec}
  {key part term : TypeTerm} {codec : Codec} {v : Value} {j : Json}

theorem needs_reordered (h : host.Reorders host') (hn : Needs ⟨host, s, customs⟩ key part) :
    Needs ⟨host', s, customs⟩ key part := by
  obtain ⟨hc, layout, scheme, target, hl, hscheme, htarget, hpart⟩ := hn
  obtain ⟨layout', hl', -, hparts⟩ := h.exists_layout hl
  exact ⟨hc, layout', scheme, target, hl', (hparts scheme).1 hscheme, htarget, hpart⟩

theorem described_reordered (h : host.Reorders host') (hd : Described ⟨host, s, customs⟩ key) :
    Described ⟨host', s, customs⟩ key := by
  obtain ⟨layout, hl, hvalid, hall⟩ := hd
  obtain ⟨layout', hl', hvalid', hparts⟩ := h.exists_layout hl
  exact ⟨layout', hl', hvalid' hvalid, fun scheme hs => hall scheme ((hparts scheme).2 hs)⟩

theorem closure_reordered (h : host.Reorders host') (key : TypeTerm) :
    closure ⟨host, s, customs⟩ key = closure ⟨host', s, customs⟩ key := by
  have hneeds : Needs ⟨host, s, customs⟩ = Needs ⟨host', s, customs⟩ := funext₂ fun _ _ =>
    propext ⟨needs_reordered h, needs_reordered h.symm⟩
  rw [closure, closure, hneeds]

def fieldOf (s : Settings) (term : TypeTerm) (p : Property) : FieldCodec :=
  ⟨p, ⟨(s.part? term p.type).getD default, 0⟩⟩

theorem fields?_eq_some_iff {ps : List Property} {fs : List FieldCodec} :
    fields? s term ps = some fs ↔
      (∀ p ∈ ps, (s.part? term p.type).isSome = true) ∧ fs = ps.map (fieldOf s term) := by
  induction ps generalizing fs with
  | nil =>
    constructor
    · rintro ⟨⟩
      exact ⟨fun _ hp => absurd hp List.not_mem_nil, rfl⟩
    · rintro ⟨-, rfl⟩
      rfl
  | cons p ps ih =>
    rw [List.forall_mem_cons]
    constructor
    · intro h
      obtain ⟨part, hpart, h⟩ := Option.bind_eq_some_iff.1 h
      obtain ⟨rest, hrest, h⟩ := Option.bind_eq_some_iff.1 h
      cases h
      obtain ⟨hall, rfl⟩ := ih.1 hrest
      refine ⟨⟨Option.isSome_of_eq_some hpart, hall⟩, ?_⟩
      rw [List.map_cons, fieldOf, hpart]
      rfl
    · rintro ⟨⟨hp, hall⟩, rfl⟩
      obtain ⟨part, hpart⟩ := Option.isSome_iff_exists.1 hp
      rw [fields?, ih.2 ⟨hall, rfl⟩, hpart, List.map_cons, fieldOf, hpart]
      rfl

theorem exists_describe?_reordered {layout layout' : RecordLayout}
    (h : layout.Reorders term.head layout')
    (hd : describe? s term (.record layout) = some codec) :
    ∃ codec', describe? s term (.record layout') = some codec' ∧ codec.Reorders codec' := by
  obtain ⟨⟨⟩, hcheck, hd⟩ := Option.bind_eq_some_iff.1 hd
  obtain ⟨fs, hfs, hd⟩ := Option.bind_eq_some_iff.1 hd
  cases hd
  obtain ⟨hall, rfl⟩ := fields?_eq_some_iff.1 hfs
  have hcheck := Except.eq_ok_of_toOption hcheck
  have hcheck' := h.check_iff.1 hcheck
  have hall' : ∀ p ∈ layout'.properties, (s.part? term p.type).isSome = true := by
    intro p hp
    obtain ⟨q, hq, hsame⟩ := List.mem_map.1 (h.perm.mem_iff.2 (List.mem_map_of_mem hp))
    have htype := congrArg Property.type hsame
    change q.type = p.type at htype
    exact htype ▸ hall q hq
  have hproperties : ∀ ps : List Property, (ps.map (fieldOf s term)).map FieldCodec.property = ps :=
    fun ps => (List.map_map ..).trans (List.map_id _)
  have hunnumbered : ∀ ps : List Property, (ps.map (fieldOf s term)).map FieldCodec.unnumbered =
      (ps.map Property.unnumbered).map (fieldOf s term) := by
    intro ps
    rw [List.map_map, List.map_map]
    rfl
  refine ⟨.record term layout'.constructor (layout'.properties.map (fieldOf s term))
    s.denyUnknownFields, ?_, .record h hcheck (hproperties _) (hproperties _) ?_⟩
  · rw [describe?, hcheck', fields?_eq_some_iff.2 ⟨hall', rfl⟩]
    rfl
  · rw [hunnumbered, hunnumbered]
    exact h.perm.map _

theorem exists_codec?_reordered (h : host.Reorders host')
    (hc : codec? ⟨host, s, customs⟩ key = some codec) :
    ∃ codec', codec? ⟨host', s, customs⟩ key = some codec' ∧ codec.Reorders codec' := by
  cases hcustom : customs key with
  | some custom =>
    simp only [codec?, hcustom] at hc ⊢
    exact ⟨codec, hc, .refl codec⟩
  | none =>
    obtain ⟨layout, hl, hd⟩ := exists_layout hc hcustom
    rcases h.layout key.head with hsame | ⟨record, record', hr, hr', hreorders⟩
    · have hl' : host'.layout key.head = some (.ok layout) := hsame ▸ hl
      exact ⟨codec, by simp only [codec?, hcustom, hl', hd], .refl codec⟩
    · cases hl.symm.trans hr
      obtain ⟨codec', hd', hcodec⟩ := exists_describe?_reordered hreorders hd
      exact ⟨codec', by simp only [codec?, hcustom, hr', hd'], hcodec⟩

theorem codec?_eq_none_reordered (h : host.Reorders host')
    (hc : codec? ⟨host, s, customs⟩ key = none) : codec? ⟨host', s, customs⟩ key = none := by
  by_contra hne
  obtain ⟨codec', hc'⟩ := Option.ne_none_iff_exists'.1 hne
  obtain ⟨codec, hsome, -⟩ := exists_codec?_reordered h.symm hc'
  rw [hc] at hsome
  cases hsome

theorem scope_reordered (h : host.Reorders host') :
    scope ⟨host, s, customs⟩ = scope ⟨host', s, customs⟩ := by
  have hbacked : ∀ ref : CodecRef,
      ((codec? ⟨host, s, customs⟩ (s.canonical ref.term)).any Codec.isStringBacked) =
        (codec? ⟨host', s, customs⟩ (s.canonical ref.term)).any Codec.isStringBacked := by
    intro ref
    cases hc : codec? ⟨host, s, customs⟩ (s.canonical ref.term) with
    | none => rw [codec?_eq_none_reordered h hc]
    | some codec =>
      obtain ⟨codec', hc', hcodec⟩ := exists_codec?_reordered h hc
      rw [hc', Option.any_some, Option.any_some, hcodec.isStringBacked]
  exact congrArg₂ Scope.mk h.isInstance (funext hbacked)

theorem encodeWithin_reordered (h : host.Reorders host') (calls : Nat)
    (he : encodeWithin ⟨host, s, customs⟩ calls term v = pure j) :
    encodeWithin ⟨host', s, customs⟩ calls term v = pure j := by
  induction calls generalizing term v j with
  | zero => cases he
  | succ calls ih =>
    rw [encodeWithin] at he ⊢
    split at he
    · cases he
    · rename_i codec hc
      obtain ⟨codec', hc', hcodec⟩ := exists_codec?_reordered h hc
      simp only [hc']
      rw [scope_reordered h] at he
      exact Codec.encodeWith_below codec' _ v (fun ref v j hj => ih hj) j (hcodec.encodeWith he)

theorem decodeWithin_reordered (h : host.Reorders host') (calls : Nat)
    (hd : decodeWithin ⟨host, s, customs⟩ calls term j = .ok v) :
    decodeWithin ⟨host', s, customs⟩ calls term j = .ok v := by
  induction calls generalizing term j v with
  | zero => cases hd
  | succ calls ih =>
    rw [decodeWithin] at hd ⊢
    split at hd
    · cases hd
    · rename_i codec hc
      obtain ⟨codec', hc', hcodec⟩ := exists_codec?_reordered h hc
      simp only [hc']
      rw [scope_reordered h] at hd
      exact Codec.decodeWith_mono (hcodec.decodeWith hd) fun ref i w _ hw => ih hw

end Reference

def Host.declare (host : Host) (d : TypeDefinition) : Host :=
  { host with
    layout := fun type => if type = d.name then some (.ok d.layout) else host.layout type }

theorem Host.layout_declare (host : Host) (d : TypeDefinition) (type : TypeName) :
    (host.declare d).layout type =
      if type = d.name then some (.ok d.layout) else host.layout type := rfl

theorem Host.reorders_declare (host : Host) {d d' : TypeDefinition} {layout layout' : RecordLayout}
    (hname : d.name = d'.name) (hl : d.layout = .record layout) (hl' : d'.layout = .record layout')
    (h : layout.Reorders d.name layout') : (host.declare d).Reorders (host.declare d') := by
  refine ⟨rfl, fun type => ?_⟩
  rw [Host.layout_declare, Host.layout_declare, ← hname, hl, hl']
  by_cases ht : type = d.name
  · rw [if_pos ht, if_pos ht]
    exact .inr ⟨layout, layout', rfl, rfl, ht ▸ h⟩
  · rw [if_neg ht, if_neg ht]
    exact .inl rfl

theorem Catalog.host_define {c c' : Catalog} {d : TypeDefinition} (h : c.define d = .ok c') :
    c'.host = c.host.declare d := by
  obtain ⟨-, rfl⟩ := Catalog.define_eq_ok_iff.1 h
  have hlayout :
      (fun type => some (layout { c with types := Table.insert d.name d c.types } type)) =
        fun type => if type = d.name then some (.ok d.layout) else some (c.layout type) := by
    funext type
    by_cases ht : type = d.name <;> simp [layout, definition?, Table.get?_insert, ht]
  rw [host, hlayout]
  rfl

namespace Registry

variable {host host' : Host} {s : Settings} {customs : TypeTerm → Option Codec}
  {reg reg' : Registry}

theorem derives_reordered (h : host.Reorders host') (hr : Plain host s customs reg)
    (hr' : Plain host' s customs reg') {term : TypeTerm} (hd : reg.Derives term) :
    reg'.Derives term := by
  obtain ⟨hfin, hall⟩ := hr.factoryless.complete.derives_iff.1 hd
  rw [hr'.factoryless.complete.derives_iff, ← Reference.closure_reordered h]
  exact ⟨hfin, fun key hk hc => Reference.described_reordered h (hall key hk hc)⟩

theorem encodeWithin_reordered (h : host.Reorders host') (hr : Plain host s customs reg)
    (hr' : Plain host' s customs reg') {ref ref' : CodecRef} (hp : reg.Publishes ref)
    (hp' : reg'.Publishes ref') (ht : ref.term = ref'.term) {calls : Nat} {v : Value} {j : Json}
    (he : reg.store.encodeWithin calls ref v = pure j) :
    reg'.store.encodeWithin calls ref' v = pure j := by
  rw [hr.agrees.encodeWithin hr.sound.closed hp] at he
  rw [hr'.agrees.encodeWithin hr'.sound.closed hp', ← ht]
  exact Reference.encodeWithin_reordered h calls he

theorem decode_reordered (h : host.Reorders host') (hr : Plain host s customs reg)
    (hr' : Plain host' s customs reg') {ref ref' : CodecRef} (hp : reg.Publishes ref)
    (hp' : reg'.Publishes ref') (ht : ref.term = ref'.term) {v : Value} {j : Json}
    (hd : reg.store.decode ref j = .ok v) : reg'.store.decode ref' j = .ok v := by
  rw [Store.decode, hr.agrees.decodeWithin hr.sound.closed hp] at hd
  rw [Store.decode, hr'.agrees.decodeWithin hr'.sound.closed hp', ← ht]
  exact Reference.decodeWithin_reordered h _ hd

/-- Take a record that is declared without a constructor of its own, and the same record with its
properties in another order. One of the two is defined if the other is. Registries over hosts that
are alike but for the order have codecs for the same terms. Whatever a codec of the one encodes or
decodes, that of the other encodes or decodes to the same. -/
theorem order_irrelevant (r : RecordDeclaration) (hc : r.constructor? = none)
    (ps : List PropertyDeclaration) (hperm : ps.Perm r.properties) :
    ((∃ d, r.define = .ok d) ↔
      ∃ d, RecordDeclaration.define { r with properties := ps } = .ok d) ∧
    ∀ d d', r.define = .ok d → RecordDeclaration.define { r with properties := ps } = .ok d' →
      ∀ (host : Host) s customs reg reg', Plain (host.declare d) s customs reg →
        Plain (host.declare d') s customs reg' →
        (∀ term, reg.Derives term ↔ reg'.Derives term) ∧
        ∀ term ref ref' base base', reg.lookup term = (.ok (.ok ref), base) →
          reg'.lookup term = (.ok (.ok ref'), base') →
          (∀ calls v j, base.store.encodeWithin calls ref v = pure j ↔
            base'.store.encodeWithin calls ref' v = pure j) ∧
          ∀ j v, base.store.decode ref j = .ok v ↔ base'.store.decode ref' j = .ok v := by
  refine ⟨RecordDeclaration.exists_define_reordered_iff hperm,
    fun d d' h h' host s customs reg reg' hr hr' => ?_⟩
  have hhost : (host.declare d).Reorders (host.declare d') := by
    obtain ⟨hname, layout, hl⟩ := RecordDeclaration.exists_layout_define h
    obtain ⟨hname', layout', hl'⟩ := RecordDeclaration.exists_layout_define h'
    have hreorders := RecordDeclaration.reorders_define hc hperm h h' hl hl'
    exact host.reorders_declare (hname.trans hname'.symm) hl hl' (hname ▸ hreorders)
  refine ⟨fun term => ⟨derives_reordered hhost hr hr', derives_reordered hhost.symm hr' hr⟩,
    fun term ref ref' base base' hlook hlook' => ?_⟩
  obtain ⟨hbase, hterm, hp⟩ := hr.found hlook
  obtain ⟨hbase', hterm', hp'⟩ := hr'.found hlook'
  have ht : ref.term = ref'.term := hterm.trans hterm'.symm
  exact ⟨fun calls v j => ⟨encodeWithin_reordered hhost hbase hbase' hp hp' ht,
      encodeWithin_reordered hhost.symm hbase' hbase hp' hp ht.symm⟩,
    fun j v => ⟨decode_reordered hhost hbase hbase' hp hp' ht,
      decode_reordered hhost.symm hbase' hbase hp' hp ht.symm⟩⟩

/-- Nodes of a list, with a label and tags from the constructor and the next node set after it. -/
def node (ps : List PropertyDeclaration) : RecordDeclaration where
  name := "Node"
  properties := ps

def label : PropertyDeclaration := { name := "label", type := "string", mandatory := true }

def next : PropertyDeclaration := { name := "next", type := "Node", binding := .setter }

def tags : PropertyDeclaration := { name := "tags", type := "List<string>" }

def twoNodes : Json :=
  .obj [("label", .str "a"), ("next", .obj [("label", .str "b")]), ("tags", .arr [.str "x"])]

/-- With nodes defined in a catalogue, the codec of nodes decodes the two. -/
structure ReadsNodes (ps : List PropertyDeclaration) (d : TypeDefinition) (c : Catalog)
    (base : Registry) (ref : CodecRef) (v : Value) : Prop where
  define : (node ps).define = .ok d
  catalog : Catalog.initial.define d = .ok c
  lookup : (initial c.host {}).lookup ⟨"Node", []⟩ = (.ok (.ok ref), base)
  decode : base.store.decode ref twoNodes = .ok v

def readsNodes (ps : List PropertyDeclaration) : Bool :=
  match (node ps).define with
  | .error _ => false
  | .ok d =>
    match Catalog.initial.define d with
    | .error _ => false
    | .ok c =>
      match (initial c.host {}).lookup ⟨"Node", []⟩ with
      | (.ok (.ok ref), base) => (base.store.decode ref twoNodes).isOk
      | _ => false

theorem exists_of_readsNodes (ps : List PropertyDeclaration) (h : readsNodes ps = true) :
    ∃ d c base ref v, ReadsNodes ps d c base ref v := by
  unfold readsNodes at h
  split at h
  · cases h
  · rename_i d hd
    split at h
    · cases h
    · rename_i c hc
      split at h
      · rename_i ref base hl
        obtain ⟨v, hv⟩ := Except.exists_of_isOk h
        exact ⟨d, c, base, ref, v, hd, hc, hl, hv⟩
      · cases h

theorem ReadsNodes.plain {ps : List PropertyDeclaration} {d : TypeDefinition} {c : Catalog}
    {base : Registry} {ref : CodecRef} {v : Value} (h : ReadsNodes ps d c base ref v) :
    Plain (Catalog.initial.host.declare d) {} (fun _ => none) (initial c.host {}) := by
  rw [← Catalog.host_define h.catalog]
  exact .initial

theorem order_irrelevant_node : ∃ d d' c c' base base' ref ref' v,
    ReadsNodes [label, next, tags] d c base ref v ∧
    ReadsNodes [tags, label, next] d' c' base' ref' v ∧
    ∀ calls j, base.store.encodeWithin calls ref v = pure j ↔
      base'.store.encodeWithin calls ref' v = pure j := by
  obtain ⟨d, c, base, ref, v, h⟩ :=
    exists_of_readsNodes [label, next, tags] (by decide +kernel)
  obtain ⟨d', c', base', ref', v', h'⟩ :=
    exists_of_readsNodes [tags, label, next] (by decide +kernel)
  have hperm : [tags, label, next].Perm [label, next, tags] :=
    (List.Perm.swap label tags [next]).trans ((List.Perm.swap next tags []).cons label)
  obtain ⟨-, halike⟩ := order_irrelevant (node [label, next, tags]) rfl [tags, label, next] hperm
  obtain ⟨-, hcodes⟩ := halike d d' h.define h'.define _ _ _ _ _ h.plain h'.plain
  obtain ⟨hencode, hdecode⟩ := hcodes ⟨"Node", []⟩ ref ref' base base' h.lookup h'.lookup
  have hv' : base'.store.decode ref' twoNodes = .ok v := (hdecode _ _).1 h.decode
  exact ⟨d, d', c, c', base, base', ref, ref', v, h,
    ⟨h'.define, h'.catalog, h'.lookup, hv'⟩, fun calls j => hencode calls v j⟩

end Registry

end Typewire
