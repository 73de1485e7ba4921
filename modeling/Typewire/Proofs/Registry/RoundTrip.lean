import Typewire.Proofs.Catalog.RoundTrip
import Typewire.Proofs.Registry.Refinement

/-! # Round trips

In a registry over a catalogue from a file, without codecs and factories of its own, every
well-typed value of a published term has a document, and decoding that gives the value back.
-/

namespace Typewire

namespace Catalog

variable {c : Catalog} {s : Settings} {term part : TypeTerm} {v : Value}

theorem WellTyped.names (h : c.WellTyped s term v) (hc : c.Resolved s term)
    (hk : c.layout? term = some (.atomic .string) ∨
      ∃ layout, c.layout? term = some (.enumeration layout)) : c.Names s term v := by
  rcases hk with hk | ⟨layout, hk⟩
  · cases h with
    | atomic hl hv =>
      cases hk.symm.trans hl
      exact names_string hc hl hv
    | record _ hl => cases hk.symm.trans hl
    | _ hl => cases hk.symm.trans hl
  · cases h with
    | enumeration hl hm => exact names_enumeration hc hl hm
    | record _ hl => cases hk.symm.trans hl
    | _ hl => cases hk.symm.trans hl

theorem WellTyped.runtimeType? (h : c.WellTyped s term v)
    (hk : (∃ layout, c.layout? term = some (.record layout)) ∨
      ∃ layout, c.layout? term = some (.enumeration layout)) :
    v.runtimeType? = some term.head := by
  rcases hk with ⟨layout, hk⟩ | ⟨layout, hk⟩ <;> cases h with
  | enumeration => rfl
  | record => rfl
  | _ hl => cases hk.symm.trans hl

theorem Reversible.survives (hr : c.Reversible s term) {layout : RecordLayout}
    {fields : Members Value} (hl : c.layout? term = some (.record layout))
    (hf : Fields.Proper fields)
    (hmand : ∀ p ∈ layout.properties, p.mandatory = true → p.name ∈ Members.names fields) :
    Survives s layout fields := by
  refine ⟨fun p hp hman => ?_, hr.writeOnly layout hl, (hr.readOnly layout hl).imp_right
    fun hno p hp hb => absurd hb (hno p hp)⟩
  obtain ⟨⟨name, v⟩, he, rfl⟩ := List.mem_map.1 (hmand p hp hman)
  obtain ⟨hne, hv⟩ := hf.mem_iff.1 he
  exact hv ▸ hne

theorem WellTyped.exists_roundTrips (h : c.WellTyped s term v) (hm : c.Standard)
    (hc : ∀ t, c.Reachable s term t → c.Codable s t) : ∃ j, c.RoundTrips s term v j := by
  -- The terms may be cyclic, so the induction is on the typing. What a part reaches is reached.
  induction h with
  | atomic hl hv => exact roundTrips_atomic (hc _ .refl).resolved hl hv
  | sequence hl hp _ ih =>
    have hpart := fun t ht => hc t (.head (.item hl hp) ht)
    obtain ⟨image, himage⟩ := exists_carries fun v hv hne => ih v hv hne hpart
    exact ⟨_, roundTrips_sequence (hc _ .refl).resolved hl hp himage⟩
  | @map _ _ valuePart _ _ entries hl hk hv hn hkeys _ _ ih =>
    have hkeyPart := (hc _ (.single (.key hl hk))).resolved
    have hvaluePart := fun t ht => hc t (.head (.entry hl hv) ht)
    have hkind := (hc _ .refl).reversible.keys _ _ _ hl hk
    have hnames := fun e he => (hkeys e he).names hkeyPart hkind
    have hi : ∀ v ∈ entries.map Prod.snd, v ≠ .null → ∃ j, c.RoundTrips s valuePart v j := by
      intro v hv hne
      obtain ⟨e, he, rfl⟩ := List.mem_map.1 hv
      exact ih e he hne hvaluePart
    obtain ⟨image, himage⟩ := exists_carries hi
    exact ⟨_, roundTrips_map (hc _ .refl).resolved hl hk hv
      (isStringBacked_reference hkeyPart hkind 0) (nodup_labels hn hnames) hnames
      fun e he => himage e.2 (List.mem_map_of_mem he)⟩
  | enumeration hl hm =>
    exact ⟨_, (names_enumeration (hc _ .refl).resolved hl hm).roundTrips (by simp [trim])⟩
  | record part hl hf hparts _ hmand ih =>
    have hc' := hc _ .refl
    refine roundTrips_record hm hc'.resolved hl hf (hc'.reversible.survives hl hf hmand) ?_
    intro p hp hne q hq
    have he := hf.mem_iff.2 ⟨hne, rfl⟩
    obtain ⟨p', hp', hname, hpart⟩ := hparts _ he
    obtain rfl : p' = p := List.inj_on_of_nodup_map (hc'.resolved.nodup hl) hp' hp hname
    obtain rfl : q = part p'.name := Option.some.inj (hq.symm.trans hpart)
    exact ih _ he fun t ht => hc t (.head (.field hl hp hpart) ht)
  | union hl hv hp hw ih =>
    have hpart := fun t ht => hc t (.head (.variant hl hv hp) ht)
    have hr := (hc _ .refl).reversible
    have hkind := hr.targets _ hl _ hv _ hp
    obtain ⟨j, hj⟩ := ih hpart
    refine ⟨_, roundTrips_union (hc _ .refl).resolved hl
      (variantFor?_eq (hr.order _ hl) hv hp (hw.runtimeType? hkind)) hp ?_ hj⟩
    rcases hkind with ⟨layout, hk⟩ | ⟨layout, hk⟩ <;> rw [hops, hk]

end Catalog

namespace Registry

variable {f : CatalogFile} {c : Catalog} {s : Settings} {reg : Registry} {ref : CodecRef}
  {v : Value}

theorem Plain.derived (h : Plain c.host s (fun _ => none) reg) (hp : reg.Publishes ref) :
    s.canonical ref.term = ref.term ∧ ∃ codec : Codec,
      (∀ nested ∈ codec.refs, reg.Publishes nested) ∧
      (c.reference s).codec? ref.term = some codec.bare := by
  obtain ⟨codec, -, hrefs, hc⟩ := h.agrees.published h.sound.closed hp
  have hcanonical := h.agrees.canonical h.sound.closed hp
  refine ⟨hcanonical, codec, hrefs, ?_⟩
  rw [← hc]
  exact (congrArg (c.reference s).codec? hcanonical).symm

theorem publishes_of_reachable (h : Plain c.host s (fun _ => none) reg) (hp : reg.Publishes ref)
    {term : TypeTerm} (ht : c.Reachable s ref.term term) :
    ∃ slot, reg.Publishes ⟨term, slot⟩ := by
  induction ht with
  | refl => exact ⟨ref.slot, hp⟩
  | tail _ hpart ih =>
    obtain ⟨slot, hp⟩ := ih
    obtain ⟨layout, scheme, hl, hs, hpart⟩ := hpart
    obtain ⟨-, codec, hrefs, hc⟩ := h.derived hp
    obtain ⟨nested, hn, rfl⟩ := Reference.exists_ref_of_part
      ((Catalog.codec?_reference hl).symm.trans hc) hs hpart
    rw [Codec.bare, Codec.refs_mapRefs] at hn
    obtain ⟨ref', href, rfl⟩ := List.mem_map.1 hn
    exact ⟨ref'.slot, hrefs ref' href⟩

/-- A published reference encodes a well-typed value, with calls for twice its depth, and decodes it
back, but for the fields that only go one way and the order of map entries. -/
theorem decode_encode (hf : f.registerInto .initial = (.ok (), c))
    (h : Plain c.host s (fun _ => none) reg) (hp : reg.Publishes ref)
    (hr : ∀ term, c.Reachable s ref.term term → c.Reversible s term)
    (hv : c.WellTyped s ref.term v) :
    ∃ j, (∀ calls, 2 * v.depth + 2 ≤ calls → reg.store.encodeWithin calls ref v = pure j) ∧
      (2 * v.depth + 2 ≤ callLimit → reg.store.encode ref v = pure j) ∧
      reg.store.decode ref j = .ok (c.trim v) := by
  have hm : c.Standard := by
    have hm := f.standard_registerInto
    rwa [hf] at hm
  have hc : ∀ term, c.Reachable s ref.term term → c.Codable s term := by
    intro term ht
    obtain ⟨slot, hpt⟩ := publishes_of_reachable h hp ht
    obtain ⟨hcanonical, codec, -, hc⟩ := h.derived hpt
    exact ⟨hcanonical, ⟨_, hc⟩, hr term ht⟩
  obtain ⟨j, hj⟩ := hv.exists_roundTrips hm hc
  have hencode : ∀ calls, 2 * v.depth + 2 ≤ calls →
      reg.store.encodeWithin calls ref v = pure j := by
    intro calls hcalls
    have hhops := c.hops_le ref.term
    rw [h.agrees.encodeWithin h.sound.closed hp]
    exact hj.encode calls (by omega)
  refine ⟨j, hencode, hencode callLimit, ?_⟩
  rw [Store.decode, h.agrees.decodeWithin h.sound.closed hp]
  exact hj.decode (j.depth + 1) (Nat.lt_succ_self _)

end Registry

/-- A file with one record, a text before a record of the same type. -/
def CatalogFile.pair : CatalogFile :=
  { records := [
      { name := "Pair"
        properties := [
          { name := "first", type := "string", mandatory := true },
          { name := "rest", type := "Pair", binding := .property }] }] }

namespace Catalog

def pair : Catalog := (CatalogFile.pair.registerInto .initial).2

theorem layout?_pair : pair.layout? ⟨"Pair", []⟩ = some (.record
    { constructor := .record "Pair" ["first"]
      properties := [
        { name := "first", type := .apply "string" [], binding := .slot 0,
          accessor := .field "first", mandatory := true },
        { name := "rest", type := .apply "Pair" [], binding := .setter,
          accessor := .field "rest" }] }) := rfl

theorem layout?_string : pair.layout? ⟨"string", []⟩ = some (.atomic .string) := rfl

theorem eq_of_reachable_pair {term : TypeTerm} (h : pair.Reachable {} ⟨"Pair", []⟩ term) :
    term = ⟨"Pair", []⟩ ∨ term = ⟨"string", []⟩ := by
  induction h with
  | refl => exact .inl rfl
  | tail _ hpart ih =>
    obtain ⟨layout, scheme, hl, hs, hpart⟩ := hpart
    rcases ih with rfl | rfl
    · cases layout?_pair.symm.trans hl
      rcases List.mem_cons.1 hs with rfl | hs
      · cases hpart
        exact .inr rfl
      · cases List.mem_singleton.1 hs
        cases hpart
        exact .inl rfl
    · cases layout?_string.symm.trans hl
      cases hs

theorem reversible_pair {term : TypeTerm} (h : pair.Reachable {} ⟨"Pair", []⟩ term) :
    pair.Reversible {} term := by
  rcases eq_of_reachable_pair h with rfl | rfl
  · constructor
    · exact fun _ _ _ hl => by cases layout?_pair.symm.trans hl
    · exact fun _ hl => by cases layout?_pair.symm.trans hl
    · exact fun _ hl => by cases layout?_pair.symm.trans hl
    · intro layout hl p hp hser
      cases layout?_pair.symm.trans hl
      simp only [List.mem_cons, List.not_mem_nil, or_false] at hp
      rcases hp with rfl | rfl <;> cases hser
    · exact fun _ _ => .inl rfl
  · refine ⟨fun _ _ _ hl => ?_, fun _ hl => ?_, fun _ hl => ?_, fun _ hl => ?_, fun _ hl => ?_⟩ <;>
      cases layout?_string.symm.trans hl

theorem keeps_pair (name : String) :
    pair.keeps "Pair" name = decide (name = "first" ∨ name = "rest") := by
  rw [Bool.eq_iff_iff, decide_eq_true_iff, pair.keeps_iff layout?_pair]
  constructor
  · rintro ⟨p, hp, rfl, -⟩
    simp only [List.mem_cons, List.not_mem_nil, or_false] at hp
    rcases hp with rfl | rfl
    · exact .inl rfl
    · exact .inr rfl
  · rintro (rfl | rfl)
    · exact ⟨_, List.mem_cons_self, rfl, rfl, rfl⟩
    · exact ⟨_, List.mem_cons_of_mem _ List.mem_cons_self, rfl, rfl, rfl⟩

theorem wellTyped_pair {fields : Members Value} (hf : Fields.Proper fields) {text : String}
    (hfirst : ("first", .string text) ∈ fields)
    (h : ∀ entry ∈ fields, entry = ("first", .string text) ∨
      entry.1 = "rest" ∧ pair.WellTyped {} ⟨"Pair", []⟩ entry.2) :
    pair.WellTyped {} ⟨"Pair", []⟩ (.object "Pair" fields) := by
  refine .record (fun name => if name = "first" then ⟨"string", []⟩ else ⟨"Pair", []⟩)
    layout?_pair hf (fun entry he => ?_) (fun entry he => ?_) fun p hp hman => ?_
  · rcases h entry he with rfl | ⟨hrest, -⟩
    · exact ⟨_, List.mem_cons_self, rfl, rfl⟩
    · rw [hrest]
      exact ⟨_, List.mem_cons_of_mem _ List.mem_cons_self, rfl, rfl⟩
  · rcases h entry he with rfl | ⟨hrest, hv⟩
    · exact .atomic layout?_string trivial
    · rw [hrest]
      exact hv
  · simp only [List.mem_cons, List.not_mem_nil, or_false] at hp
    rcases hp with rfl | rfl
    · exact List.mem_map_of_mem hfirst
    · cases hman

end Catalog

namespace Registry

theorem decode_encode_pair :
    ∃ reg j, CatalogFile.pair.registerInto .initial = (.ok (), .pair) ∧
      Plain Catalog.pair.host {} (fun _ => none) reg ∧ reg.Publishes ⟨⟨"Pair", []⟩, 0⟩ ∧
      reg.store.encodeWithin 6 ⟨⟨"Pair", []⟩, 0⟩ (.object "Pair" [("first", .string "a"),
        ("rest", .object "Pair" [("first", .string "b")])]) = pure j ∧
      reg.store.decode ⟨⟨"Pair", []⟩, 0⟩ j = .ok (.object "Pair" [("first", .string "a"),
        ("rest", .object "Pair" [("first", .string "b")])]) := by
  have hf : CatalogFile.pair.registerInto .initial = (.ok (), .pair) := Prod.ext (by rfl) rfl
  have h : Plain Catalog.pair.host {} (fun _ => none)
    ((initial Catalog.pair.host {}).lookup ⟨"Pair", []⟩).2 := .lookup _ .initial
  have hp : ((initial Catalog.pair.host {}).lookup ⟨"Pair", []⟩).2.Publishes
    ⟨⟨"Pair", []⟩, 0⟩ := by
    unfold Publishes
    decide +kernel
  have hinner : Catalog.pair.WellTyped {} ⟨"Pair", []⟩ (.object "Pair" [("first", .string "b")]) :=
    Catalog.wellTyped_pair ⟨List.pairwise_singleton _ _, by simp⟩ List.mem_cons_self (by simp)
  have hv : Catalog.pair.WellTyped {} ⟨"Pair", []⟩ (.object "Pair" [("first", .string "a"),
      ("rest", .object "Pair" [("first", .string "b")])]) :=
    Catalog.wellTyped_pair ⟨List.pairwise_pair.2 (by decide), by simp⟩ List.mem_cons_self
      (by simp [hinner])
  obtain ⟨j, he, -, hd⟩ := decode_encode hf h hp (fun _ => Catalog.reversible_pair) hv
  refine ⟨_, j, hf, h, hp, he 6 (by decide), hd.trans ?_⟩
  simp [Catalog.trim, Catalog.trimFields, Catalog.keeps_pair]

end Registry

end Typewire
