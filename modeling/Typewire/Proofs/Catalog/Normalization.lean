import Typewire.Proofs.Catalog.Rewriting
import Typewire.Proofs.Catalog.RoundTrip

/-! # Normal forms

Reading a document and writing the value is a normal form of the document: it is read as what was
written, and that is written as the same document again.
-/

namespace Typewire

namespace Catalog

variable {c : Catalog} {s : Settings} {term part : TypeTerm} {v : Value} {j : Json}

/-- Whatever is read at the term can be written and read again. -/
structure Steady (c : Catalog) (s : Settings) (term : TypeTerm) : Prop where
  /-- What is only read or only written is not mandatory. -/
  oneWay : ∀ layout, c.layout? term = some (.record layout) → ∀ p ∈ layout.properties,
    p.binding = .readOnly ∨ p.serializable = false → p.mandatory = false
  /-- Variants of unions are records or enums. -/
  targets : ∀ layout, c.layout? term = some (.union layout) → ∀ v ∈ layout.variants,
    ∀ part, s.part? term v.target = some part →
      (∃ layout, c.layout? part = some (.record layout)) ∨
        ∃ layout, c.layout? part = some (.enumeration layout)
  /-- No variant is the type of an earlier variant or a subtype of it. -/
  order : ∀ layout, c.layout? term = some (.union layout) →
    layout.variants.Pairwise fun v w => ∀ earlier later,
      s.part? term v.target = some earlier → s.part? term w.target = some later →
        ¬ Leads c.supertypes later.head earlier.head

theorem Reads.runtimeType? (h : c.Reads s term j v)
    (hk : (∃ layout, c.layout? term = some (.record layout)) ∨
      ∃ layout, c.layout? term = some (.enumeration layout)) :
    v.runtimeType? = some term.head := by
  rcases hk with ⟨layout, hk⟩ | ⟨layout, hk⟩ <;> cases h with
  | enumeration => rfl
  | record => rfl
  | _ hl => cases hk.symm.trans hl

namespace Steady

variable (h : c.Steady s term)

include h

theorem both (hm : c.Standard) {layout : RecordLayout}
    (hl : c.layout? term = some (.record layout)) {p : Property} (hp : p ∈ layout.properties)
    (hman : p.mandatory = true) : p.serializable = true ∧ p.deserializable = true := by
  have hone := h.oneWay layout hl p hp
  refine ⟨?_, ((hm.record hl).deserializable_iff hp).2 fun hb => ?_⟩
  · cases hser : p.serializable with
    | true => rfl
    | false => exact (hone (.inr hser)).symm.trans hman
  · exact Bool.false_ne_true ((hone (.inl hb)).symm.trans hman)

theorem variantFor? {layout : UnionLayout} {variant : Variant}
    (hl : c.layout? term = some (.union layout)) (hv : variant ∈ layout.variants)
    (hp : s.part? term variant.target = some part) (hr : c.Reads s part j v) :
    c.variantFor? s term layout v = some variant :=
  variantFor?_eq (h.order layout hl) hv hp
    (hr.runtimeType? (h.targets layout hl variant hv part hp))

theorem returns (hm : c.Standard) (hc : s.canonical term = term) (j : Json) :
    c.Returns s ⟨term, j⟩ := by
  refine ⟨fun layout hl p hp hman _ => (h.both hm hl hp hman).2,
    fun layout members v hl hj hd => ?_⟩
  simp only at hj
  subst hj
  generalize hi : Json.obj members = i at hd
  cases reads_of_decodeWithin hm hc hd with
  | union hl' hv hp hget _ hr =>
    cases hl'.symm.trans hl
    cases hi
    refine ⟨_, h.variantFor? hl hv hp hr, ?_⟩
    rw [Members.has, hget]
    rfl
  | record hl' | enumeration hl' => cases hl.symm.trans hl'
  | atomic hl' | sequence hl' | map hl' => cases hl.symm.trans hl'

theorem survives (hm : c.Standard) (hc : c.Resolved s term) {layout : RecordLayout}
    {members : Members Json} {fields : Members Value}
    (hl : c.layout? term = some (.record layout)) (hfills : Fills s layout members fields)
    (hreads : ∀ p ∈ layout.properties, p.deserializable = true → ∀ part j,
      s.part? term p.type = some part → Members.get? p.name members = some j →
        j.isNull = false → c.Reads s part j (Fields.get p.name fields)) :
    Survives s layout fields := by
  refine ⟨fun p hp hman => ?_, fun p hp hser => h.oneWay layout hl p hp (.inr hser),
    .inr fun p hp hb => ?_⟩
  · obtain ⟨-, hdes⟩ := h.both hm hl hp hman
    obtain ⟨i, hi, hnull⟩ := hfills.mandatory p hp hdes hman
    obtain ⟨part, hpart⟩ := hc.exists_part hl hp
    exact (hreads p hp hdes part i hpart hi hnull).ne_null
  · by_contra hne
    exact ((hm.record hl).deserializable_iff hp).1 (hfills.read (hc.nodup hl) hp hne).1 hb

end Steady

@[simp] theorem trim_eq_null_iff : c.trim v = .null ↔ v = .null := by
  refine ⟨fun h => ?_, fun h => by rw [h, trim_null]⟩
  by_contra hne
  exact c.trim_ne_null hne h

@[simp] theorem runtimeType?_trim : (c.trim v).runtimeType? = v.runtimeType? := by
  cases v <;> simp [trim, Value.runtimeType?]

theorem branchFor?_trim (bs : List BranchCodec) :
    Codec.branchFor? c.isInstance bs (c.trim v) = Codec.branchFor? c.isInstance bs v := by
  simp only [Codec.branchFor?, isInstance, runtimeType?_trim]

section Fields

variable {layout : RecordLayout} {members : Members Json} {fields : Members Value} {p : Property}
  (hl : c.layout? term = some (.record layout))
  (hn : (layout.properties.map Property.name).Nodup) (h : Fills s layout members fields)
  (hp : p ∈ layout.properties)

include hl hn h hp

theorem get_trimFields_of_writes (hw : Codec.writes fields p = true) :
    Fields.get p.name (c.trimFields (c.keeps term.head) fields) =
      c.trim (Fields.get p.name fields) := by
  obtain ⟨hser, hne⟩ := Codec.writes_iff.1 hw
  rw [get_trimFields, if_pos ((c.keeps_iff hl).2 ⟨p, hp, rfl, hser, (h.read hn hp hne).1⟩)]

theorem writes_trimFields :
    Codec.writes (c.trimFields (c.keeps term.head) fields) p = Codec.writes fields p := by
  by_cases hw : Codec.writes fields p = true
  · have hget := get_trimFields_of_writes hl hn h hp hw
    obtain ⟨hser, hne⟩ := Codec.writes_iff.1 hw
    rw [hw, Codec.writes_iff, hget]
    exact ⟨hser, c.trim_ne_null hne⟩
  · rw [Bool.eq_false_iff.2 hw, Bool.eq_false_iff]
    intro hw'
    obtain ⟨hser, hne⟩ := Codec.writes_iff.1 hw'
    refine hw (Codec.writes_iff.2 ⟨hser, fun hnull => hne ?_⟩)
    rw [get_trimFields, hnull, trim_null, ite_self]

end Fields

theorem trim_map_of_sorted {entries : List (Value × Value)}
    (h : (entries.map fun e => c.label e.1).Pairwise (· < ·)) :
    c.trim (.map entries) = .map (entries.map fun e => (e.1, c.trim e.2)) := by
  have hsorted : Members.Sorted (c.trimEntries entries) := by
    rwa [Members.Sorted, Members.names, trimEntries_eq, List.map_map]
  rw [trim, Members.ofList_of_sorted hsorted, trimEntries_eq, List.map_map]
  rfl

section Normal

/-- Whatever is reached from the term can be written and read again. -/
structure Settled (c : Catalog) (s : Settings) (term : TypeTerm) : Prop where
  resolved : ∀ t, c.Reachable s term t → c.Resolved s t
  steady : ∀ t, c.Reachable s term t → c.Steady s t

theorem Settled.of_part (h : c.Settled s term) (hp : c.Part s term part) : c.Settled s part :=
  ⟨fun t ht => h.resolved t (.head hp ht), fun t ht => h.steady t (.head hp ht)⟩

variable (hm : c.Standard)

include hm

/-- What was read is written and read back, but for what is only written. -/
theorem Reads.exists_roundTrips (h : c.Reads s term j v) (hj : j.Valid) (hs : c.Settled s term) :
    ∃ j', c.RoundTrips s term v j' := by
  induction h with
  | atomic hl hd =>
    exact roundTrips_atomic (hs.resolved _ .refl) hl (admits_of_decodeAtomic hd hj)
  | enumeration hl hmem =>
    exact ⟨_, (names_enumeration (hs.resolved _ .refl) hl hmem).roundTrips (by simp [trim])⟩
  | @sequence _ part _ _ js vs hl hp hlength hnull _ ih =>
    have hi : ∀ w ∈ vs, w ≠ .null → ∃ j', c.RoundTrips s part w j' := by
      intro w hw hne
      obtain ⟨i, hi, he, hn⟩ := exists_given hlength hw id id hnull hne
      exact ih _ he hn (hj.items i hi) (hs.of_part (.item hl hp))
    obtain ⟨image, himage⟩ := exists_carries hi
    exact ⟨_, roundTrips_sequence (hs.resolved _ .refl) hl hp himage⟩
  | @map _ keyPart valuePart _ _ members entries hl hk hv hkind hlength hreads hnull _ _ ih =>
    have hkeyPart := hs.resolved _ (.single (.key hl hk))
    have hi : ∀ w ∈ entries.map Prod.snd, w ≠ .null → ∃ j', c.RoundTrips s valuePart w j' := by
      intro w hw hne
      obtain ⟨entry, hentry, rfl⟩ := List.mem_map.1 hw
      obtain ⟨e, he, hz, hn⟩ := exists_given hlength hentry Prod.snd Prod.snd hnull hne
      exact ih _ hz hn (hj.members e he) (hs.of_part (.entry hl hv))
    obtain ⟨image, himage⟩ := exists_carries hi
    have hlabels : (entries.map fun e => c.label e.1).Nodup :=
      map_label_of_reads hkeyPart hkind hlength hreads ▸ hj.sorted.nodup
    exact ⟨_, roundTrips_map (hs.resolved _ .refl) hl hk hv
      (isStringBacked_reference hkeyPart hkind 0) hlabels
      (fun _ => names_of_reads hkeyPart hkind hlength hreads)
      fun entry hentry => himage entry.2 (List.mem_map_of_mem hentry)⟩
  | @record _ layout members fields hl hfills hreads ih =>
    have hc := hs.resolved _ .refl
    have hsurvives := (hs.steady _ .refl).survives hm hc hl hfills hreads
    refine roundTrips_record hm hc hl hfills.proper hsurvives fun p hp hne part hpart => ?_
    obtain ⟨hdes, i, hi, hnull⟩ := hfills.read (hc.nodup hl) hp hne
    exact ih p hp hdes part i hpart hi hnull (hj.members _ (Members.mem_of_get? hi))
      (hs.of_part (.field hl hp hpart))
  | @union _ part layout variant members i w hl hv hp hi _ hread ih =>
    obtain ⟨j', hj'⟩ := ih (hj.members _ (Members.mem_of_get? hi)) (hs.of_part (.variant hl hv hp))
    have hsteady := hs.steady _ .refl
    refine ⟨_, roundTrips_union (hs.resolved _ .refl) hl (hsteady.variantFor? hl hv hp hread) hp ?_
      hj'⟩
    rcases hsteady.targets layout hl variant hv part hp with ⟨layout, hk⟩ | ⟨layout, hk⟩ <;>
      rw [hops, hk]

theorem Reads.encodeWithin_trim (h : c.Reads s term j v) (hj : j.Valid) (hs : c.Settled s term)
    (calls : Nat) : (c.reference s).encodeWithin calls term (c.trim v) =
      (c.reference s).encodeWithin calls term v := by
  induction h generalizing calls with
  | atomic hl hd => rw [trim_of_admits (admits_of_decodeAtomic hd hj)]
  | enumeration => simp [trim]
  | @sequence _ part _ _ js vs hl hp hlength hnull _ ih =>
    obtain ⟨codec, hd⟩ := (hs.resolved _ .refl).describe? hl
    obtain ⟨_, hp', rfl⟩ := Reference.describe?_sequence hd
    obtain rfl := Option.some.inj (hp'.symm.trans hp)
    refine encodeWithin_alike (hs.resolved _ .refl) hl hd (fun calls => ?_) calls
    rw [trim, trimItems_eq, Codec.encodeWith, Codec.encodeWith, Codec.encodeItems_alike]
    intro w hw step
    refine Codec.encodePart_alike trim_eq_null_iff (fun hne => ?_) step
    obtain ⟨i, hi, he, hn⟩ := exists_given hlength hw id id hnull hne
    exact ih _ he hn (hj.items i hi) (hs.of_part (.item hl hp)) calls
  | @map _ keyPart valuePart _ _ members entries hl hk hv hkind hlength hreads hnull _ _ ih =>
    have hkeyPart := hs.resolved _ (.single (.key hl hk))
    obtain ⟨codec, hd⟩ := (hs.resolved _ .refl).describe? hl
    obtain ⟨_, _, hk', hv', rfl⟩ := Reference.describe?_map hd
    obtain rfl := Option.some.inj (hv'.symm.trans hv)
    refine encodeWithin_alike (hs.resolved _ .refl) hl hd (fun calls => ?_) calls
    -- The members stand in the order of labels, so no entry is moved.
    rw [trim_map_of_sorted (map_label_of_reads hkeyPart hkind hlength hreads ▸ hj.sorted),
      Codec.encodeWith, Codec.encodeWith, Codec.encodeEntries_alike]
    intro entry hentry step
    refine Codec.encodePart_alike trim_eq_null_iff (fun hne => ?_) step
    obtain ⟨e, he, hz, hn⟩ := exists_given hlength hentry Prod.snd Prod.snd hnull hne
    exact ih _ hz hn (hj.members e he) (hs.of_part (.entry hl hv)) calls
  | @record term layout members fields hl hfills hreads ih =>
    obtain ⟨codec, hd⟩ := (hs.resolved _ .refl).describe? hl
    obtain ⟨hn, fs, rfl, hfs, hparts⟩ := Reference.describe?_record hd
    have hmem : ∀ f ∈ fs, f.property ∈ layout.properties :=
      fun f hf => hfs ▸ List.mem_map_of_mem hf
    refine encodeWithin_alike (hs.resolved _ .refl) hl hd (fun calls => ?_) calls
    rw [trim, Codec.encodeWith, Codec.encodeWith, Codec.encodeFields_alike]
    · exact fun f hf => (hm.record hl).get _ (hmem f hf)
    · exact fun f hf => writes_trimFields hl hn hfills (hmem f hf)
    · intro f hf hw
      obtain ⟨hdes, i, hi, hnull⟩ := hfills.read hn (hmem f hf) (Codec.writes_iff.1 hw).2
      rw [get_trimFields_of_writes hl hn hfills (hmem f hf) hw]
      exact ih _ (hmem f hf) hdes _ i (hparts f hf) hi hnull
        (hj.members _ (Members.mem_of_get? hi))
        (hs.of_part (.field hl (hmem f hf) (hparts f hf))) calls
  | @union _ part layout variant members i w hl hv hp hi _ hread ih =>
    obtain ⟨codec, hd⟩ := (hs.resolved _ .refl).describe? hl
    obtain ⟨-, bs, rfl, hbs⟩ := Reference.describe?_union hd
    obtain ⟨b, -, hfor, hof⟩ :=
      exists_branchFor? hbs ((hs.steady _ .refl).variantFor? hl hv hp hread)
    obtain rfl := Option.some.inj (hof.part.symm.trans hp)
    refine encodeWithin_alike (hs.resolved _ .refl) hl hd (fun calls => ?_) calls
    rw [Codec.encodeWith_union ((branchFor?_trim bs).trans hfor), Codec.encodeWith_union hfor,
      ih (hj.members _ (Members.mem_of_get? hi)) (hs.of_part (.variant hl hv hp))]

/-- What was read and what comes back of it are written as the same document, with calls for the
depth of the document that was read. -/
theorem Reads.exists_normalForm (h : c.Reads s term j v) (hj : j.Valid) (hs : c.Settled s term) :
    ∃ j', c.Writes s term j.depth v j' ∧ c.Writes s term j.depth (c.trim v) j' ∧
      ∀ calls, j'.depth < calls → (c.reference s).decodeWithin calls term j' = .ok (c.trim v) := by
  obtain ⟨j', hround⟩ := h.exists_roundTrips hm hj hs
  obtain ⟨j'', hwrites⟩ := h.exists_writes hj hm hs.resolved fun place hcover =>
    (hs.steady _ hcover.reachable).returns hm (hs.resolved _ hcover.reachable).canonical _
  -- With calls enough for both they are one document.
  have heq : j'' = j' := by
    have hhops := c.hops_le term
    have hboth := (hwrites (j.depth + 2 * v.depth + 2) (by omega)).symm.trans
      (hround.encode (j.depth + 2 * v.depth + 2) (by omega))
    exact Except.ok.inj (Option.some.inj hboth)
  subst heq
  refine ⟨j'', hwrites, fun calls hcalls => ?_, hround.decode⟩
  rw [h.encodeWithin_trim hm hj hs]
  exact hwrites calls hcalls

end Normal

theorem Reads.trim_eq (h : c.Reads s term j v) (hj : j.Valid)
    (hc : ∀ t, c.Reachable s term t → c.Resolved s t)
    (hw : ∀ t, c.Reachable s term t → ∀ layout, c.layout? t = some (.record layout) →
      ∀ p ∈ layout.properties, p.serializable = true) : c.trim v = v := by
  induction h with
  | atomic hl hd => exact trim_of_admits (admits_of_decodeAtomic hd hj)
  | enumeration => simp [trim]
  | @sequence _ part _ _ js vs hl hp hlength hnull _ ih =>
    have hitems : ∀ w ∈ vs, c.trim w = w := by
      intro w hmem
      by_cases hne : w = .null
      · rw [hne, trim_null]
      · obtain ⟨i, hi, he, hn⟩ := exists_given hlength hmem id id hnull hne
        exact ih _ he hn (hj.items i hi) (fun t ht => hc t (.head (.item hl hp) ht))
          fun t ht => hw t (.head (.item hl hp) ht)
    rw [trim, trimItems_eq, List.map_congr_left hitems, List.map_id']
  | @map _ keyPart valuePart _ _ members entries hl hk hv hkind hlength hreads hnull _ _ ih =>
    have hkeyPart := hc _ (.single (.key hl hk))
    have hentries : ∀ entry ∈ entries, (entry.1, c.trim entry.2) = entry := by
      intro entry hmem
      by_cases hne : entry.2 = .null
      · exact Prod.ext rfl (by rw [hne, trim_null])
      · obtain ⟨e, he, hz, hn⟩ := exists_given hlength hmem Prod.snd Prod.snd hnull hne
        exact Prod.ext rfl (ih _ hz hn (hj.members e he)
          (fun t ht => hc t (.head (.entry hl hv) ht)) fun t ht => hw t (.head (.entry hl hv) ht))
    rw [trim_map_of_sorted (map_label_of_reads hkeyPart hkind hlength hreads ▸ hj.sorted),
      List.map_congr_left hentries, List.map_id']
  | @record _ layout members fields hl hfills hreads ih =>
    have hn := (hc _ .refl).nodup hl
    rw [trim, (c.proper_trimFields hfills.proper _).ext hfills.proper fun name => ?_]
    rw [get_trimFields]
    by_cases hne : Fields.get name fields = .null
    · rw [hne, trim_null, ite_self]
    · obtain ⟨p, hp, rfl, hdes, i, hi, hnull⟩ := hfills.member name hne
      obtain ⟨part, hpart⟩ := (hc _ .refl).exists_part hl hp
      rw [if_pos ((c.keeps_iff hl).2 ⟨p, hp, rfl, hw _ .refl layout hl p hp, hdes⟩)]
      exact ih p hp hdes part i hpart hi hnull (hj.members _ (Members.mem_of_get? hi))
        (fun t ht => hc t (.head (.field hl hp hpart) ht))
        fun t ht => hw t (.head (.field hl hp hpart) ht)
  | union hl hv hp hi _ _ ih =>
    exact ih (hj.members _ (Members.mem_of_get? hi))
      (fun t ht => hc t (.head (.variant hl hv hp) ht))
      fun t ht => hw t (.head (.variant hl hv hp) ht)

end Catalog

end Typewire
