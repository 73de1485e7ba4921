import Typewire.Catalog.File
import Typewire.Proofs.Codec.Inversion
import Typewire.Proofs.Schema.Dictionary
import Typewire.Proofs.Schema.Pass

/-! # Sessions with a dictionary

Schemas of many terms are asked for one after the other, with one dictionary. Whatever the registry
answers, and whether a call succeeds or not, a name that was given stays with its term, and only
calls that fail leave entries reserved.
-/

namespace Typewire

open Registry

namespace Dictionary

/-- Names stay with their terms, and a step that succeeds leaves nothing more reserved. -/
structure Advances {α : Type} (d : Dictionary) (outcome : Except SchemaError α) (d' : Dictionary) :
    Prop where
  sound : d'.Sound
  retains : d.Retains d'
  extended : ∀ a, outcome = .ok a → d.Extends d'

variable {α β : Type} {d d' d'' : Dictionary}

theorem Sound.advances (h : d.Sound) (outcome : Except SchemaError α) :
    d.Advances outcome d :=
  ⟨h, .refl d, fun _ _ => .refl d⟩

theorem Advances.error {outcome : Except SchemaError α} (h : d.Advances outcome d')
    (e : SchemaError) : d.Advances (.error e : Except SchemaError β) d' :=
  ⟨h.sound, h.retains, fun _ he => by cases he⟩

theorem Advances.trans {a : α} {outcome : Except SchemaError β} (h : d.Advances (.ok a) d')
    (h' : d'.Advances outcome d'') : d.Advances outcome d'' :=
  ⟨h'.sound, h.retains.trans h'.retains, fun b hb => (h.extended a rfl).trans (h'.extended b hb)⟩

end Dictionary

namespace Collecting

variable {α β : Type} {reg : Registry} {d : Dictionary} {x : Collecting α}
  {Q : Except SchemaError α → Dictionary → Prop} {P : Except SchemaError β → Dictionary → Prop}

def Upholds (reg : Registry) (x : Collecting α) (d : Dictionary)
    (Q : Except SchemaError α → Dictionary → Prop) : Prop :=
  ∀ outcome d' reg', reg.ask (x.run.run d) = (.ok (outcome, d'), reg') → Q outcome d'

theorem upholds_pure {a : α} (h : Q (.ok a) d) : Upholds reg (pure a) d Q := by
  intro outcome d' reg' hrun
  cases hrun
  exact h

theorem upholds_throw {e : SchemaError} (h : Q (.error e) d) : Upholds reg (throw e) d Q := by
  intro outcome d' reg' hrun
  cases hrun
  exact h

theorem Upholds.bind (hx : Upholds reg x d Q) {f : α → Collecting β}
    (hf : ∀ a d' reg', Q (.ok a) d' → Upholds reg' (f a) d' P)
    (he : ∀ e d', Q (.error e) d' → P (.error e) d') : Upholds reg (x >>= f) d P := by
  intro outcome d'' reg'' hrun
  rw [run_bind, Registry.ask, Query.run_bind] at hrun
  rcases hx' : (x.run.run d).run (resolve callLimit) reg with ⟨why | ⟨e | a, d'⟩, reg'⟩ <;>
    rw [hx'] at hrun
  · cases hrun
  · cases hrun
    exact he e d' (hx _ _ _ hx')
  · exact hf a d' reg' (hx _ _ _ hx') outcome d'' reg'' hrun

section Steps

variable {f : Store → Collecting β} {g : Dictionary → Collecting β} {k : PUnit → Collecting β}

theorem upholds_store (h : Upholds reg (f reg.store) d P) :
    Upholds reg (Collecting.ask Ask.store >>= f) d P := h

theorem upholds_get (h : Upholds reg (g d) d P) :
    Upholds reg (getThe Dictionary >>= g) d P := h

theorem upholds_set {d' : Dictionary} (h : Upholds reg (k ⟨⟩) d' P) :
    Upholds reg (set d' >>= k) d P := h

theorem upholds_modify {change : Dictionary → Dictionary} (h : Upholds reg (k ⟨⟩) (change d) P) :
    Upholds reg (modifyThe Dictionary change >>= k) d P := h

end Steps

/-- From any state of the registry, names stay with their terms. -/
def Orderly (x : Collecting α) : Prop :=
  ∀ reg d, d.Sound → Upholds reg x d d.Advances

theorem orderly_pure (a : α) : Orderly (pure a) :=
  fun _ _ hd => upholds_pure (hd.advances _)

theorem orderly_throw (e : SchemaError) : Orderly (throw e : Collecting α) :=
  fun _ _ hd => upholds_throw (hd.advances _)

theorem Orderly.bind (hx : Orderly x) {f : α → Collecting β} (hf : ∀ a, Orderly (f a)) :
    Orderly (x >>= f) := by
  intro reg d hd
  refine (hx reg d hd).bind (fun a d' reg' h => ?_) fun e d' h => h.error e
  intro outcome d'' reg'' hrun
  exact h.trans (hf a reg' d' h.sound outcome d'' reg'' hrun)

theorem orderly_ask (query : Ask α) : Orderly (Collecting.ask query) := by
  intro reg d hd outcome d' reg' hrun
  change Query.run _ ((query.bind fun a => .answer (a, d)).bind
    fun p => .answer (Except.ok p.1, p.2)) _ = _ at hrun
  rw [Query.bind_assoc, Query.run_bind] at hrun
  split at hrun
  · cases hrun
    exact hd.advances _
  · cases hrun

theorem sequential_orderly : Sequential @Orderly :=
  ⟨orderly_pure, orderly_throw, fun hx hf => hx.bind hf⟩

/-- If the schemas of other terms are orderly, so is that of a codec. One of a named kind is shown
by a reference to the name of its term. -/
theorem upholds_fragment {nested : TypeTerm → Collecting Schema}
    (hn : ∀ term, Orderly (nested term)) (displayName : TypeName → String) (ref : CodecRef)
    (hd : d.Sound) :
    Upholds reg (fragment nested displayName ref) d fun outcome d' => d.Advances outcome d' ∧
      ∀ codec, reg.store.codec? ref = some codec → codec.isNamed = true →
        ∀ schema, outcome = .ok schema →
          ∃ name, Table.get? ref.term d'.names = some name ∧ schema = d'.reference name := by
  rw [fragment]
  refine upholds_store ?_
  cases hs : reg.store.codec? ref with
  | none => exact upholds_throw ⟨hd.advances _, fun _ h => by cases h⟩
  | some codec =>
    have hbody : Orderly (body nested reg.store codec) :=
      sequential_orderly.body (fun term _ => hn term) _
    cases hnamed : codec.isNamed with
    | false =>
      simp only [hnamed, Bool.not_false, if_true]
      intro outcome d' reg' hrun
      refine ⟨hbody reg d hd outcome d' reg' hrun, ?_⟩
      rintro _ ⟨⟩ h
      rw [hnamed] at h
      cases h
    | true =>
      simp only [hnamed, Bool.not_true, Bool.false_eq_true, if_false]
      refine upholds_get ?_
      cases hname : Table.get? ref.term d.names with
      | some name =>
        refine upholds_pure ⟨hd.advances _, ?_⟩
        rintro _ - - _ ⟨⟩
        exact ⟨name, hname, rfl⟩
      | none =>
        -- The reservation stays if the body fails, and is filled if it does not.
        have hfresh := hd.freshName_not_mem (Dictionary.baseName displayName ref.term)
        have hreserved : d.Retains
            (d.reserve ref.term (d.freshName (Dictionary.baseName displayName ref.term))) :=
          Dictionary.retains_reserve hname
        refine upholds_set ((hbody reg _ (hd.reserve hname hfresh)).bind
          (fun schema d' reg' h => upholds_modify (upholds_pure ⟨?_, ?_⟩)) fun e d' h => ⟨?_, ?_⟩)
        · have hx := h.extended schema rfl
          have hget := hx.names ref.term _
            ((Dictionary.get?_names_reserve d _ _ _).trans (if_pos rfl))
          exact ⟨h.sound.fill hget schema, (hx.fill hname schema).toRetains,
            fun _ _ => hx.fill hname schema⟩
        · rintro _ - - _ ⟨⟩
          refine ⟨_, h.retains.names ref.term _
            ((Dictionary.get?_names_reserve d _ _ _).trans (if_pos rfl)), ?_⟩
          exact congrArg (fun p => Schema.reference (p ++ _)) h.retains.refPrefix.symm
        · exact ⟨h.sound, hreserved.trans h.retains, fun _ he => by cases he⟩
        · rintro _ - - _ ⟨⟩

theorem orderly_schemaWithin (displayName : TypeName → String) (calls : Nat) (term : TypeTerm) :
    Orderly (Dictionary.schemaWithin displayName calls term) := by
  induction calls generalizing term with
  | zero => exact orderly_ask _
  | succ calls ih =>
    rw [Dictionary.schemaWithin]
    refine (orderly_ask _).bind fun found => ?_
    cases found with
    | error e => exact orderly_throw _
    | ok ref =>
      intro reg d hd outcome d' reg' hrun
      exact (upholds_fragment ih displayName ref hd outcome d' reg' hrun).1

end Collecting

structure Call where
  registry : Registry
  term : TypeTerm
  outcome : Except SchemaError Schema

/-- The term has the codec of a record or a union. -/
def Call.FindsNamed (call : Call) : Prop :=
  ∃ ref base codec, call.registry.lookup call.term = (.ok (.ok ref), base) ∧
    base.store.codec? ref = some codec ∧ codec.isNamed = true

/-- Calls that end, one after the other, lead from a dictionary to another. Whatever happens to the
registry between them, its settings stay. -/
inductive Session (displayName : TypeName → String) (s : Settings) (d : Dictionary) :
    List Call → Dictionary → Prop
  | start : Session displayName s d [] d
  | call {calls : List Call} {call : Call} {d' d'' : Dictionary} {base : Registry} :
      Session displayName s d calls d' → call.registry.settings = s →
      call.registry.ask (Dictionary.schemaFor displayName d' call.term) =
        (.ok (call.outcome, d''), base) →
      Session displayName s d (calls ++ [call]) d''

namespace Dictionary

variable {displayName : TypeName → String} {s : Settings} {d d' d'' : Dictionary}
  {calls calls' : List Call} {call : Call} {base : Registry}

/-- The schema that the call gives is a reference to the name of its term. -/
def Shows (s : Settings) (d : Dictionary) (call : Call) : Prop :=
  call.FindsNamed → ∀ schema, call.outcome = .ok schema →
    ∃ name, d.nameOf? s call.term = some name ∧ schema = d.reference name

theorem Shows.retains (h : d.Shows s call) (hr : d.Retains d') : d'.Shows s call := by
  intro hnamed schema hok
  obtain ⟨name, hname, rfl⟩ := h hnamed schema hok
  refine ⟨name, hr.names _ _ hname, ?_⟩
  rw [reference, reference, hr.refPrefix]

theorem Sound.schemaFor (hd : d.Sound) (hs : call.registry.settings = s)
    (hrun : call.registry.ask (schemaFor displayName d call.term) =
      (.ok (call.outcome, d'), base)) :
    d.Advances call.outcome d' ∧ d'.Shows s call := by
  refine ⟨Collecting.orderly_schemaWithin displayName _ _ _ _ hd _ _ _ hrun, ?_⟩
  rintro ⟨ref, after, codec, hfound, hcodec, hnamed⟩ schema hok
  obtain ⟨limit, hlimit⟩ := callLimit_eq
  rw [Dictionary.schemaFor, hlimit, ask_schemaWithin hfound] at hrun
  obtain ⟨name, hname, rfl⟩ := (Collecting.upholds_fragment
    (Collecting.orderly_schemaWithin displayName limit) displayName ref hd _ _ _ hrun).2
      codec hcodec hnamed schema hok
  refine ⟨name, ?_, rfl⟩
  rw [nameOf?, ← hs, ← hname]
  exact congrArg (Table.get? · d'.names) (term_of_lookup (congrArg Prod.fst hfound)).symm

structure Kept (s : Settings) (d : Dictionary) (calls : List Call) (d' : Dictionary) : Prop where
  sound : d'.Sound
  retains : d.Retains d'
  shows : ∀ call ∈ calls, d'.Shows s call
  extended : (∀ call ∈ calls, ∃ schema, call.outcome = .ok schema) → d.Extends d'

theorem Kept.append (h : Kept s d calls d') (hs : call.registry.settings = s)
    (hrun : call.registry.ask (schemaFor displayName d' call.term) =
      (.ok (call.outcome, d''), base)) : Kept s d (calls ++ [call]) d'' := by
  obtain ⟨hadvances, hshows⟩ := h.sound.schemaFor hs hrun
  refine ⟨hadvances.sound, h.retains.trans hadvances.retains, ?_, fun hok => ?_⟩
  · rw [List.forall_mem_append, List.forall_mem_singleton]
    exact ⟨fun call' hcall => (h.shows call' hcall).retains hadvances.retains, hshows⟩
  · rw [List.forall_mem_append, List.forall_mem_singleton] at hok
    obtain ⟨schema, hschema⟩ := hok.2
    exact (h.extended hok.1).trans (hadvances.extended schema hschema)

theorem Sound.session (hd : d.Sound) (h : Session displayName s d calls d') :
    Kept s d calls d' := by
  induction h with
  | start => exact ⟨hd, .refl d, fun _ hcall => (by cases hcall), fun _ => .refl d⟩
  | call _ hs hrun ih => exact ih.append hs hrun

/-- However many schemas are asked for with one dictionary, and however many of these calls fail,
the names that were given are those of the entries and those taken, they tell terms apart, and they
stay. The search for a name ends. A record or a union is shown by a reference to its name, and the
dictionary is complete unless a call has failed. -/
theorem names_of_session {refPrefix : String}
    (h : Session displayName s { refPrefix } calls d) :
    (∀ term term' name, d.nameOf? s term = some name → d.nameOf? s term' = some name →
      s.canonical term = s.canonical term') ∧
    (∀ name, (∃ key, Table.get? key d.names = some name) ↔ name ∈ Members.names d.entries) ∧
    (∀ name, name ∈ d.taken ↔ name ∈ Members.names d.entries) ∧
    (∀ calls' d', Session displayName s d calls' d' →
      ∀ term name, d.nameOf? s term = some name → d'.nameOf? s term = some name) ∧
    (∀ (d : Dictionary) (base : String), ∃ n ≤ d.taken.length,
      d.freshName base = candidate base n ∧ candidate base n ∉ d.taken ∧
        ∀ m < n, candidate base m ∈ d.taken) ∧
    (∀ call ∈ calls, call.FindsNamed → ∀ schema, call.outcome = .ok schema →
      ∃ name, d.nameOf? s call.term = some name ∧ schema = .reference (refPrefix ++ name)) ∧
    (∀ e, d.complete? = .error e → ∃ call ∈ calls, ∃ e', call.outcome = .error e') := by
  have hkept := (sound_empty refPrefix).session h
  refine ⟨fun term term' name => hkept.sound.injective _ _ name,
    fun name => (hkept.sound.entries name).symm, hkept.sound.taken, fun calls' d' h' term name =>
      (hkept.sound.session h').retains.names _ name, exists_freshName_eq, ?_, fun e he => ?_⟩
  · intro call hcall hnamed schema hok
    obtain ⟨name, hname, rfl⟩ := hkept.shows call hcall hnamed schema hok
    exact ⟨name, hname, congrArg (fun p => Schema.reference (p ++ name)) hkept.retains.refPrefix⟩
  · by_contra! hall
    have hextended := hkept.extended fun call hcall => by
      cases hoc : call.outcome with
      | ok schema => exact ⟨schema, rfl⟩
      | error e' => exact absurd hoc (hall call hcall e')
    obtain ⟨entries, hcomplete, -⟩ := exists_complete? hkept.sound fun name hname => by
      cases hextended.reserved name hname
    cases hcomplete.symm.trans he

end Dictionary

/-- A generic record, two plain ones with the name of an instance of it, and one that has no
schema. -/
def CatalogFile.pages : CatalogFile :=
  { records := [
      { name := "Page", params := ["T"], properties := [{ name := "item", type := "T" }] },
      { name := "Page_int", properties := [{ name := "inner", type := "Page<int>" }] },
      { name := "other.Page_int", properties := [{ name := "inner", type := "Page_int" }] },
      { name := "Ledger",
        properties := [
          { name := "page", type := "other.Page_int" },
          { name := "rows", type := "Map<int, int>" }] }] }

def Registry.pages : Registry := initial (CatalogFile.pages.registerInto .initial).2.host {}

/-- The first call fails midway, and the second still finds the name that was given to its term. -/
theorem Dictionary.names_of_session_pages : ∃ (refused shown : Call) (d : Dictionary),
    Session TypeName.simple {} { refPrefix := "#/" } [refused, shown] d ∧
      (∃ e, refused.outcome = .error e) ∧
      shown.term = ⟨"Page_int", []⟩ ∧ shown.outcome = .ok (.reference "#/Page_int_2") ∧
      d.taken = ["Page_int_3", "Page_int_2", "Page_int", "Ledger"] ∧
      "Ledger" ∈ Members.names d.entries := by
  have hrun : ∃ p ∈ (Registry.pages.ask
        (schemaFor TypeName.simple { refPrefix := "#/" } ⟨"Ledger", []⟩)).1.toOption,
      p.1.isOk = false ∧ ∃ q ∈ (Registry.pages.ask
          (schemaFor TypeName.simple p.2 ⟨"Page_int", []⟩)).1.toOption,
        q.1.isOk = true ∧ q.2.nameOf? {} ⟨"Page_int", []⟩ = some "Page_int_2" ∧
          q.2.taken = ["Page_int_3", "Page_int_2", "Page_int", "Ledger"] := by
    decide +kernel
  have hfound : ∃ found ∈ (Registry.pages.lookup ⟨"Page_int", []⟩).1.toOption,
      ∃ ref ∈ found.toOption, ∃ codec ∈ (Registry.pages.lookup ⟨"Page_int", []⟩).2.store.codec? ref,
        codec.isNamed = true := by
    decide +kernel
  have hs : Registry.pages.settings = {} := rfl
  -- The registry itself need not be looked at any more.
  generalize Registry.pages = reg at hrun hfound hs
  obtain ⟨⟨e | _, d⟩, hrefused, hfails, ⟨outcome, d'⟩, hshown, hshows, hname, htaken⟩ := hrun
  · obtain ⟨schema, rfl⟩ := Except.exists_of_isOk hshows
    obtain ⟨_, hlookup, ref, hok, codec, hcodec, hnamed⟩ := hfound
    cases Except.eq_ok_of_toOption hok
    let refused : Call := ⟨reg, ⟨"Ledger", []⟩, .error e⟩
    let shown : Call := ⟨reg, ⟨"Page_int", []⟩, .ok schema⟩
    have hfirst : Session TypeName.simple {} { refPrefix := "#/" } [refused] d :=
      .call .start hs (Prod.ext (Except.eq_ok_of_toOption hrefused) rfl)
    have h : Session TypeName.simple {} { refPrefix := "#/" } [refused, shown] d' :=
      hfirst.call hs (Prod.ext (Except.eq_ok_of_toOption hshown) rfl)
    obtain ⟨-, -, hentries, -, -, hreferences, -⟩ := names_of_session h
    obtain ⟨name, hname', rfl⟩ := hreferences shown (by simp)
      ⟨ref, _, codec, Prod.ext (Except.eq_ok_of_toOption hlookup) rfl, hcodec, hnamed⟩ schema rfl
    cases hname.symm.trans hname'
    refine ⟨refused, shown, d', h, ⟨e, rfl⟩, rfl, rfl, htaken, (hentries _).1 ?_⟩
    exact htaken ▸ by decide
  · cases hfails

end Typewire
