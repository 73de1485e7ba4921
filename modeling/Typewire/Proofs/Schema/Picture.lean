import Typewire.Proofs.Schema.Strictness

/-! # Schemas as pictures

The schema of a term is put together from those of the terms that its codec shows, records and
unions are shown by their names, and so the names decide what it is. To ask for it once the names
are given changes nothing.
-/

namespace Typewire

open Registry Collecting

def FieldCodec.member (f : FieldCodec) (s : Schema) : String × Schema :=
  (f.property.name, { s with
    readOnly := f.property.serializable && !f.property.deserializable
    writeOnly := f.property.deserializable && !f.property.serializable })

namespace Codec

def assemble (parts : List Schema) : Codec → Schema
  | atomic kind => Collecting.atomic kind
  | record _ _ fields _ =>
    .object (Members.ofList (List.zipWith FieldCodec.member fields parts)) (mandatoryNames fields)
  | sequence _ _ => .array (parts.headD {})
  | map _ _ _ => .map (parts.headD {})
  | enumeration _ members => .enumeration (members.map Prod.snd)
  | union _ branches =>
    .object (Members.ofList ((branches.map BranchCodec.discriminator).zip parts)) []
  | formatted format _ => .formatted .string format
  | custom codec => codec.schema

variable (codec : Codec)

@[simp] theorem isNamed_bare : codec.bare.isNamed = codec.isNamed := by
  cases codec <;> rfl

@[simp] theorem shown_bare : codec.bare.shown = codec.shown := by
  cases codec <;> simp [bare, mapRefs, shown, FieldCodec.mapRef, BranchCodec.mapRef,
    CodecRef.bare]

@[simp] theorem key?_bare : codec.bare.key? = codec.key? := by
  cases codec <;> rfl

@[simp] theorem assemble_bare (parts : List Schema) :
    codec.bare.assemble parts = codec.assemble parts := by
  cases codec with
  | record owner constructor fields strict =>
    rw [bare, mapRefs, assemble, assemble, mandatoryNames_bare, List.zipWith_map_left]
    rfl
  | union owner branches =>
    rw [bare, mapRefs, assemble, assemble, List.map_map]
    rfl
  | _ => rfl

end Codec

namespace Collecting

variable {nested : TypeTerm → Collecting Schema} {store : Store} {codec : Codec}

theorem properties_eq_zipWith (fields : List FieldCodec) :
    properties nested fields = do
      let parts ← (fields.map fun f => f.codec.term).mapM nested
      return List.zipWith FieldCodec.member fields parts := by
  induction fields with
  | nil => rfl
  | cons f fields ih => simp [properties, ih, FieldCodec.member]

theorem branches_eq_zip (bs : List BranchCodec) :
    branches nested bs = do
      let parts ← (bs.map BranchCodec.target).mapM nested
      return (bs.map BranchCodec.discriminator).zip parts := by
  induction bs with
  | nil => rfl
  | cons b bs ih => simp [branches, ih]

theorem body_eq (hkey : ∀ owner key value, codec = .map owner key value →
      store.isStringBacked key = true) :
    body nested store codec = do
      let parts ← codec.shown.mapM nested
      return codec.assemble parts := by
  cases codec with
  | record owner constructor fields strict =>
    rw [body, properties_eq_zipWith]
    simp [Codec.shown, Codec.assemble]
  | union owner bs =>
    rw [body, branches_eq_zip]
    simp [Codec.shown, Codec.assemble]
  | map owner key value =>
    rw [body, if_pos (hkey owner key value rfl)]
    simp [Codec.shown, Codec.assemble]
  | _ => simp [body, Codec.shown, Codec.assemble]

section Returns

variable {α β : Type} {base : Registry} {d d' d'' : Dictionary}

theorem returns_pure (base : Registry) (d : Dictionary) (a : α) :
    Returns base (pure a) d a d := fun _ stats => ⟨stats, rfl⟩

theorem Returns.trans {x : Collecting α} {f : α → Collecting β} {a : α} {b : β}
    (hx : Returns base x d a d') (hf : Returns base (f a) d' b d'') :
    Returns base (x >>= f) d b d'' := by
  intro limit stats
  obtain ⟨stats', hrun⟩ := hx limit stats
  obtain ⟨stats'', hrun'⟩ := hf limit stats'
  refine ⟨stats'', ?_⟩
  rw [run_bind, Query.run_bind, hrun]
  exact hrun'

theorem returns_mapM {f : α → Collecting β} {as : List α} {bs : List β}
    (h : List.Forall₂ (fun a b => Returns base (f a) d b d) as bs) :
    Returns base (as.mapM f) d bs d := by
  induction h with
  | nil => exact returns_pure base d _
  | cons hfirst _ ih =>
    rw [List.mapM_cons]
    exact hfirst.trans (ih.trans (returns_pure base d _))

end Returns

end Collecting

namespace Reference

variable (r : Reference)

/-- Registered codecs are formats and functions, which have schemas of their own. -/
def Flat : Prop :=
  ∀ key codec, r.customs key = some codec →
    (∃ format accepts, codec = .formatted format accepts) ∨ ∃ custom, codec = .custom custom

/-- The schema is put together from those of the terms that the codec shows, and the keys of a map
can name members. -/
def Assembles (nested : TypeTerm → Schema → Prop) (codec : Codec) (schema : Schema) : Prop :=
  (∀ key, codec.key? = some key → r.StringBacked key) ∧
    ∃ parts, List.Forall₂ (fun term s => nested (r.settings.canonical term) s) codec.shown parts ∧
      schema = codec.assemble parts

/-- The fragment for a canonical term, with the names that the dictionary has and at most `n` codecs
written out inside one another. -/
def Pictures (d : Dictionary) : Nat → TypeTerm → Schema → Prop
  | 0, _, _ => False
  | n + 1, key, schema => ∃ codec, r.codec? key = some codec ∧
      ((codec.isNamed = true ∧ ∃ name, Table.get? key d.names = some name ∧
          schema = d.reference name) ∨
        (codec.isNamed = false ∧ r.Assembles (Pictures d n) codec schema))

variable {r} {key part term : TypeTerm} {codec : Codec} {schema schema' : Schema}
  {nested nested' : TypeTerm → Schema → Prop} {d d' : Dictionary} {m n : Nat}
  {reg : Registry} {ref : CodecRef}

theorem codec?_cases (h : r.codec? key = some codec) :
    r.customs key = some codec ∨
      r.customs key = none ∧ ∃ layout, r.host.layout key.head = some (.ok layout) ∧
        describe? r.settings key layout = some codec := by
  rw [codec?] at h
  split at h
  · cases h
    exact .inl ‹_›
  · split at h
    · exact .inr ⟨‹_›, _, ‹_›, h⟩
    · cases h

namespace Flat

variable (hr : r.Flat)

include hr

theorem isNamed_iff (h : r.codec? key = some codec) : codec.isNamed = true ↔ r.Named key := by
  rcases codec?_cases h with hc | ⟨hc, layout, hl, hd⟩
  · have hnot : ¬ r.Named key := by simp [Named, hc]
    rcases hr key codec hc with ⟨_, _, rfl⟩ | ⟨_, rfl⟩ <;> simp [Codec.isNamed, hnot]
  · exact (draws_describe hc hl hd).named

theorem depicts_iff (h : r.codec? key = some codec) :
    r.Depicts key part ↔ ∃ term ∈ codec.shown, r.settings.canonical term = part := by
  rcases codec?_cases h with hc | ⟨hc, layout, hl, hd⟩
  · have hnot : ¬ r.Depicts key part := by simp [Depicts, hc]
    rcases hr key codec hc with ⟨_, _, rfl⟩ | ⟨_, rfl⟩ <;> simp [Codec.shown, hnot]
  · exact (draws_describe hc hl hd).shown part

end Flat

theorem assembles_bare :
    r.Assembles nested codec.bare schema ↔ r.Assembles nested codec schema := by
  simp only [Assembles, Codec.key?_bare, Codec.shown_bare, Codec.assemble_bare]

theorem Assembles.mono (h : r.Assembles nested codec schema)
    (hn : ∀ term s, nested term s → nested' term s) : r.Assembles nested' codec schema := by
  obtain ⟨hkey, parts, hparts, rfl⟩ := h
  exact ⟨hkey, parts, hparts.imp fun _ _ => hn _ _, rfl⟩

theorem Assembles.unique (h : r.Assembles nested codec schema)
    (h' : r.Assembles nested' codec schema')
    (hn : ∀ term s s', nested term s → nested' term s' → s = s') : schema = schema' := by
  obtain ⟨-, parts, hparts, rfl⟩ := h
  obtain ⟨-, parts', hparts', rfl⟩ := h'
  suffices hall : parts = parts' by rw [hall]
  generalize codec.shown = terms at hparts hparts'
  induction hparts generalizing parts' with
  | nil =>
    cases hparts'
    rfl
  | cons hs _ ih =>
    cases hparts' with
    | cons hs' hrest => rw [hn _ _ _ hs hs', ih _ hrest]

theorem Pictures.mono (hd : d.Retains d') (hm : m ≤ n) (h : r.Pictures d m key schema) :
    r.Pictures d' n key schema := by
  induction m generalizing n key schema with
  | zero => exact h.elim
  | succ m ih =>
    obtain ⟨n, rfl⟩ : ∃ n', n = n' + 1 := ⟨n - 1, by omega⟩
    obtain ⟨codec, hc, ⟨hn, name, hname, rfl⟩ | ⟨hn, hs⟩⟩ := h
    · refine ⟨codec, hc, .inl ⟨hn, name, hd.names key name hname, ?_⟩⟩
      rw [Dictionary.reference, Dictionary.reference, hd.refPrefix]
    · exact ⟨codec, hc, .inr ⟨hn, hs.mono fun _ _ => ih (Nat.le_of_succ_le_succ hm)⟩⟩

/-- Where two dictionaries give the same names, a term has one fragment. -/
theorem Pictures.unique (href : d.refPrefix = d'.refPrefix)
    (hnames : ∀ key name name', Table.get? key d.names = some name →
      Table.get? key d'.names = some name' → name = name')
    (h : r.Pictures d m key schema) (h' : r.Pictures d' n key schema') : schema = schema' := by
  induction m generalizing n key schema schema' with
  | zero => exact h.elim
  | succ m ih =>
    cases n with
    | zero => exact h'.elim
    | succ n =>
      obtain ⟨codec, hc, h⟩ := h
      obtain ⟨codec', hc', h'⟩ := h'
      cases hc.symm.trans hc'
      rcases h with ⟨hn, name, hname, rfl⟩ | ⟨hn, hs⟩ <;>
        rcases h' with ⟨hn', name', hname', rfl⟩ | ⟨hn', hs'⟩
      · rw [Dictionary.reference, Dictionary.reference, href, hnames key name name' hname hname']
      · cases hn.symm.trans hn'
      · cases hn.symm.trans hn'
      · exact hs.unique hs' fun _ _ _ => ih

structure Basis (r : Reference) (reg : Registry) : Prop where
  agrees : r.Agrees reg
  closed : reg.Closed
  flat : r.Flat

namespace Basis

variable (h : r.Basis reg)

include h

theorem mirrors : r.Mirrors r.settings.denyUnknownFields reg where
  agrees := h.agrees
  closed := h.closed
  targets key owner bs hc := by
    rcases h.flat key _ hc with ⟨_, _, hc⟩ | ⟨_, hc⟩ <;> cases hc

theorem exists_shown (hc : r.codec? key = some codec.bare)
    (hrefs : ∀ nested ∈ codec.refs, reg.Publishes nested) (ht : term ∈ codec.shown) :
    ∃ nested, reg.Publishes nested ∧ r.settings.canonical term = nested.term := by
  obtain ⟨nested, hp, hterm⟩ := h.mirrors.exists_shown hc rfl hrefs ht
  exact ⟨nested, hp, hterm.symm⟩

theorem body_eq {member : TypeTerm → Collecting Schema}
    (hrefs : ∀ nested ∈ codec.refs, reg.Publishes nested)
    (hkey : ∀ key, codec.key? = some key → r.StringBacked key) :
    body member reg.store codec = do
      let parts ← codec.shown.mapM member
      return codec.assemble parts := by
  refine Collecting.body_eq ?_
  rintro owner k value rfl
  exact (h.agrees.isStringBacked_iff h.closed (hrefs k List.mem_cons_self)).2 (hkey k.term rfl)

theorem returns_lookup (hp : reg.Publishes ref) (hterm : r.settings.canonical term = ref.term)
    (d : Dictionary) : Returns reg (Collecting.ask (Ask.lookup term)) d (.ok ref) d := by
  have hcanonical : reg.canonical term = ref.term := by
    rw [Registry.canonical, h.agrees.settings, hterm]
  have hslot : reg.slot? (reg.canonical term) = some ref.slot := by
    rw [hcanonical, slot?, hp, Option.some_or]
  have hlookup := Collecting.returns_lookup d hslot
  rwa [hcanonical] at hlookup

/-- A pass over a term whose picture the dictionary has gives the picture and adds nothing. -/
theorem returns_schemaWithin (displayName : TypeName → String) (hp : reg.Publishes ref)
    (hterm : r.settings.canonical term = ref.term) (hs : r.Pictures d n ref.term schema) :
    Returns reg (Dictionary.schemaWithin displayName n term) d schema d := by
  induction n generalizing term ref schema with
  | zero => exact hs.elim
  | succ n ih =>
    obtain ⟨codec, hstore, hc, hrefs⟩ := h.agrees.exists_codec h.closed hp
    obtain ⟨_, hc', hs⟩ := hs
    cases hc.symm.trans hc'
    rw [Codec.isNamed_bare, assembles_bare] at hs
    rw [Dictionary.schemaWithin]
    refine (h.returns_lookup hp hterm d).trans ?_
    simp only [fragment]
    refine (returns_store reg d).trans ?_
    rw [hstore]
    rcases hs with ⟨hn, name, hname, rfl⟩ | ⟨hn, hkey, parts, hparts, rfl⟩
    · simp only [hn, Bool.not_true, Bool.false_eq_true, if_false]
      refine (returns_get reg d).trans ?_
      rw [hname]
      exact returns_pure reg d _
    · simp only [hn, Bool.not_false, if_true]
      rw [h.body_eq hrefs hkey]
      refine (returns_mapM ?_).trans (returns_pure reg d _)
      refine ((List.forall₂_and_left _ _).2 ⟨fun _ ht => ht, hparts⟩).imp ?_
      rintro term s ⟨ht, hs⟩
      obtain ⟨nested, hnested, heq⟩ := h.exists_shown hc hrefs ht
      exact ih hnested heq (heq ▸ hs)

end Basis

end Reference

end Typewire
