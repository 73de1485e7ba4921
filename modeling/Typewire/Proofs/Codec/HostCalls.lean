import Typewire.Proofs.Catalog.Record
import Typewire.Proofs.Codec.RoundTrip

/-! # Calls of host code

Decoding a record calls its constructor and its setters. Here the calls are noted down as they are
made, the arguments are written one by one as the values come, and a write outside of them ends the
program. Where every slot is within the arity, the program does not end so and decodes what it
decodes without the notes.
-/

namespace Typewire

/-- A call of host code while a record is decoded. -/
inductive HostCall where
  | construct (args : List Value)
  | set (property : Property) (target value : Value)

/-- The result of decoding, unless the program ended before. -/
abbrev Guarded (α : Type) := ExceptT DecodeError Option α

namespace Guarded

variable {α : Type}

def ofDecoding (x : Decoding α) : Guarded α := ExceptT.mk (some x)

def crash : Guarded α := ExceptT.mk none

end Guarded

namespace Codec

/-- The arguments of the constructor so far, and the values that are kept for setters. -/
structure Gathered where
  args : List Value
  deferred : List (Property × Value)

namespace Gathered

def add (g : Gathered) (p : Property) (v : Value) : Guarded Gathered :=
  match p.binding with
  | .slot index =>
    if index < g.args.length then pure { g with args := g.args.set index v } else .crash
  | .setter => pure { g with deferred := g.deferred ++ [(p, v)] }
  | _ => pure g

end Gathered

variable (nested : CodecRef → Json → Decoding Value)

def gather (owner : TypeTerm) (members : Members Json) :
    Gathered → List FieldCodec → Guarded Gathered
  | g, [] => pure g
  | g, f :: fs =>
    let name := f.property.name
    if !f.property.deserializable then gather owner members g fs
    else
      match (Members.get? name members).filter fun j => !j.isNull with
      | none =>
        if f.property.mandatory then .ofDecoding (.fail (.missingField owner name))
        else gather owner members g fs
      | some j => do
        let v ← Guarded.ofDecoding ((nested f.codec j).under (.field name))
        let g ← g.add f.property v
        gather owner members g fs

def callSetters (owner : TypeTerm) (target : Value) :
    List (Property × Value) → List HostCall × Decoding Value
  | [] => ([], .ok target)
  | (p, v) :: rest =>
    match p.accessor.set target v with
    | .ok next =>
      let (calls, r) := callSetters owner next rest
      (.set p target v :: calls, r)
    | .error cause => ([.set p target v], .fail (.construction ⟨owner, some p.name, cause⟩))

def build (owner : TypeTerm) (constructor : Constructor) (g : Gathered) :
    List HostCall × Decoding Value :=
  match constructor.construct g.args with
  | .ok instance' =>
    let (calls, r) := callSetters owner instance' g.deferred
    (.construct g.args :: calls, r)
  | .error cause => ([.construct g.args], .fail (.construction ⟨owner, none, cause⟩))

/-- Decode a record, with the calls of host code that are made. -/
def decodeCalling (owner : TypeTerm) (constructor : Constructor) (fields : List FieldCodec)
    (strict : Bool) (members : Members Json) : Option (List HostCall × Decoding Value) :=
  match (Members.names members).find? fun name => strict && !reads fields name with
  | some name => some ([], .fail (.unknownField owner name))
  | none =>
    match gather nested owner members ⟨List.replicate constructor.arity .null, []⟩ fields with
    | none => none
    | some (.error e) => some ([], .error e)
    | some (.ok g) => some (build owner constructor g)

variable {nested} {owner : TypeTerm} {constructor : Constructor} {fields fs : List FieldCodec}
  {strict : Bool} {members : Members Json} {g : Gathered} {values : List (Property × Value)}

def Gathered.after (g : Gathered) (values : List (Property × Value)) : Gathered :=
  ⟨values.foldl place g.args, g.deferred ++ values.filter fun e => e.1.binding = .setter⟩

theorem Gathered.add_eq {p : Property} {v : Value}
    (h : ∀ index, p.binding = .slot index → index < g.args.length) :
    g.add p v = pure (g.after [(p, v)]) := by
  unfold add after
  split
  · rename_i index hb
    simp [h index hb, place, hb]
  · rename_i hb
    simp [place, hb]
  · rename_i hslot hset
    have hb : p.binding ≠ .setter := fun he => hset he
    simp [place, hb]

theorem Gathered.after_cons (e : Property × Value) :
    (g.after [e]).after values = g.after (e :: values) := by
  simp [after, ← List.filter_append]

theorem gather_eq (h : ∀ f ∈ fs, ∀ index, f.property.binding = .slot index →
      index < g.args.length) :
    gather nested owner members g fs =
      .ofDecoding ((decodeFields nested owner members fs).map g.after) := by
  induction fs generalizing g with
  | nil =>
    have hafter : g.after [] = g := by simp [Gathered.after]
    rw [gather, decodeFields, Except.map, hafter]
    rfl
  | cons f fs ih =>
    obtain ⟨hf, hfs⟩ := List.forall_mem_cons.1 h
    rw [gather, decodeFields]
    split
    · exact ih hfs
    · cases (Members.get? f.property.name members).filter fun j => !j.isNull with
      | none =>
        simp only
        split
        · rfl
        · exact ih hfs
      | some j =>
        cases hv : (nested f.codec j).under (.field f.property.name) with
        | error e =>
          simp only [hv]
          rfl
        | ok v =>
          have hnext := ih (g := g.after [(f.property, v)]) fun f' hf' => by
            simpa [Gathered.after] using hfs f' hf'
          simp only [hv, Gathered.add_eq hf, pure_bind]
          refine (pure_bind v _).trans (hnext.trans ?_)
          cases decodeFields nested owner members fs with
          | error e => rfl
          | ok values => exact congrArg (pure (f := Guarded)) (Gathered.after_cons _)

/-- The calls of setters: each on what the one before it left, and none after one that fails. -/
inductive Sets : Value → List (Property × Value) → List HostCall → Prop
  | nil {target : Value} : Sets target [] []
  | fail {p : Property} {target v : Value} {cause : String} {rest : List (Property × Value)} :
      p.accessor.set target v = .error cause → Sets target ((p, v) :: rest) [.set p target v]
  | set {p : Property} {target v next : Value} {rest : List (Property × Value)}
      {calls : List HostCall} : p.accessor.set target v = .ok next → Sets next rest calls →
      Sets target ((p, v) :: rest) (.set p target v :: calls)

theorem sets_callSetters (owner : TypeTerm) (target : Value) (values : List (Property × Value)) :
    Sets target values (callSetters owner target values).1 := by
  induction values generalizing target with
  | nil => exact .nil
  | cons e rest ih =>
    obtain ⟨p, v⟩ := e
    rw [callSetters]
    cases hset : p.accessor.set target v with
    | error cause => exact .fail hset
    | ok next => exact .set hset (ih next)

theorem callSetters_snd (owner : TypeTerm) (target : Value) (values : List (Property × Value)) :
    (callSetters owner target (values.filter fun e => e.1.binding = .setter)).2 =
      applySetters owner target values := by
  induction values generalizing target with
  | nil => rfl
  | cons e rest ih =>
    obtain ⟨p, v⟩ := e
    rw [List.filter_cons, applySetters]
    by_cases hb : p.binding = .setter
    · simp only [hb, decide_true, if_true, callSetters]
      cases p.accessor.set target v with
      | error cause => rfl
      | ok next => exact ih next
    · simp only [hb, decide_false]
      exact ih target

/-- Where a record is decoded, no member was unknown, none was missing, and each that is read was
decoded. -/
structure FieldsRead (nested : CodecRef → Json → Decoding Value) (fields : List FieldCodec)
    (strict : Bool) (members : Members Json) : Prop where
  known : strict = true → ∀ name ∈ Members.names members, reads fields name = true
  present : ∀ f ∈ fields, f.property.deserializable = true → f.property.mandatory = true →
    gives members f.property.name = true
  decoded : ∀ f ∈ fields, f.property.deserializable = true → ∀ j,
    Members.get? f.property.name members = some j → j.isNull = false → ∃ v, nested f.codec j = .ok v

/-- What a property has from the members, if it is read and its member is there. -/
def received (nested : CodecRef → Json → Decoding Value) (members : Members Json)
    (f : FieldCodec) : Option Value :=
  if f.property.deserializable then
    ((Members.get? f.property.name members).filter fun j => !j.isNull).bind fun j =>
      (nested f.codec j).toOption
  else none

def valuesOf (nested : CodecRef → Json → Decoding Value) (members : Members Json)
    (fs : List FieldCodec) : List (Property × Value) :=
  fs.filterMap fun f => (received nested members f).map fun v => (f.property, v)

theorem mem_valuesOf {e : Property × Value} : e ∈ valuesOf nested members fs ↔
    ∃ f ∈ fs, received nested members f = some e.2 ∧ f.property = e.1 := by
  simp only [valuesOf, List.mem_filterMap, Option.map_eq_some_iff]
  constructor
  · rintro ⟨f, hf, v, hv, rfl⟩
    exact ⟨f, hf, hv, rfl⟩
  · rintro ⟨f, hf, hv, hp⟩
    exact ⟨f, hf, e.2, hv, by rw [hp]⟩

theorem decodeFields_eq_valuesOf
    (hm : ∀ f ∈ fs, f.property.deserializable = true → f.property.mandatory = true →
      gives members f.property.name = true)
    (hn : ∀ f ∈ fs, f.property.deserializable = true → ∀ j,
      Members.get? f.property.name members = some j → j.isNull = false →
        ∃ v, nested f.codec j = .ok v) :
    decodeFields nested owner members fs = .ok (valuesOf nested members fs) := by
  induction fs with
  | nil => rfl
  | cons f fs ih =>
    obtain ⟨hmf, hm⟩ := List.forall_mem_cons.1 hm
    obtain ⟨hnf, hn⟩ := List.forall_mem_cons.1 hn
    have ih := ih hm hn
    have hcons : valuesOf nested members (f :: fs) =
        ((received nested members f).map fun v => (f.property, v)).toList ++
          valuesOf nested members fs := by
      rw [valuesOf, List.filterMap_cons]
      cases received nested members f <;> rfl
    rw [hcons, decodeFields, ih, received]
    cases hd : f.property.deserializable with
    | false => simp
    | true =>
      cases hfilter : (Members.get? f.property.name members).filter fun j => !j.isNull with
      | none =>
        -- A mandatory member counts, so it would have been found.
        have hmand : f.property.mandatory = false := by
          rw [Bool.eq_false_iff]
          intro hmand
          obtain ⟨j, hj, hnull⟩ := gives_iff.1 (hmf hd hmand)
          simp [hj, hnull] at hfilter
        simp [hmand]
      | some j =>
        obtain ⟨hj, hnull⟩ := Option.filter_eq_some_iff.1 hfilter
        obtain ⟨v, hv⟩ := hnf hd j hj (by simpa using hnull)
        simp only [hv, if_true, Option.bind_some]
        rfl

theorem fieldsRead_iff (owner : TypeTerm) : FieldsRead nested fields strict members ↔
    ((Members.names members).find? fun name => strict && !reads fields name) = none ∧
      ∃ values, decodeFields nested owner members fields = .ok values := by
  have hknown : ((Members.names members).find? fun name => strict && !reads fields name) = none ↔
      (strict = true → ∀ name ∈ Members.names members, reads fields name = true) := by
    cases strict <;> simp
  rw [hknown]
  constructor
  · intro h
    exact ⟨h.known, _, decodeFields_eq_valuesOf h.present h.decoded⟩
  · rintro ⟨hk, values, hvalues⟩
    have hdecode := fieldsDecode_of_decodeFields hvalues
    refine ⟨hk, fun f hf hd hm => gives_iff.2 (hdecode.mandatory f hf hd hm), ?_⟩
    intro f hf hd j hj hn
    obtain ⟨v, -, hv⟩ := hdecode.present f hf hd j hj hn
    exact ⟨v, hv⟩

theorem argument_valuesOf {f : FieldCodec} {index arity : Nat} (hf : f ∈ fs)
    (hb : f.property.binding = .slot index) (hlt : index < arity)
    (huniq : ∀ g ∈ fs, g.property.binding = .slot index → g = f) :
    (arguments arity (valuesOf nested members fs))[index]? =
      some ((received nested members f).getD .null) := by
  have hvalue : ∀ e ∈ valuesOf nested members fs, e.1.binding = .slot index →
      received nested members f = some e.2 := by
    intro e he hbe
    obtain ⟨g, hg, hreceived, hp⟩ := mem_valuesOf.1 he
    rw [← huniq g hg (hp ▸ hbe), hreceived]
  have hagree : ∀ e ∈ valuesOf nested members fs, e.1.binding = .slot index →
      e.2 = (received nested members f).getD .null := by
    intro e he hbe
    rw [hvalue e he hbe, Option.getD_some]
  rw [getElem?_arguments hlt hagree]
  split
  · rfl
  · rename_i hnone
    cases hreceived : received nested members f with
    | none => rfl
    | some v => exact absurd ⟨(f.property, v), mem_valuesOf.2 ⟨f, hf, hreceived, rfl⟩, hb⟩ hnone

def setterValues (nested : CodecRef → Json → Decoding Value) (members : Members Json)
    (fs : List FieldCodec) : List (Property × Value) :=
  (valuesOf nested members fs).filter fun e => e.1.binding = .setter

theorem exists_build (owner : TypeTerm) (constructor : Constructor)
    (values : List (Property × Value)) :
    ∃ sets, (build owner constructor (Gathered.after ⟨List.replicate constructor.arity .null, []⟩
        values)).1 = .construct (arguments constructor.arity values) :: sets ∧
      (∀ cause, constructor.construct (arguments constructor.arity values) = .error cause →
        sets = []) ∧
      ∀ instance', constructor.construct (arguments constructor.arity values) = .ok instance' →
        Sets instance' (values.filter fun e => e.1.binding = .setter) sets := by
  unfold build Gathered.after
  rw [← arguments, List.nil_append]
  cases constructor.construct (arguments constructor.arity values) with
  | error cause =>
    refine ⟨[], rfl, fun _ _ => rfl, ?_⟩
    rintro _ ⟨⟩
  | ok instance' =>
    refine ⟨_, rfl, ?_, ?_⟩
    · rintro _ ⟨⟩
    · rintro _ ⟨⟩
      exact sets_callSetters owner instance' _

theorem build_snd (owner : TypeTerm) (constructor : Constructor)
    (values : List (Property × Value)) :
    (build owner constructor (Gathered.after ⟨List.replicate constructor.arity .null, []⟩
        values)).2 =
      match constructor.construct (arguments constructor.arity values) with
      | .ok v => applySetters owner v values
      | .error cause => .fail (.construction ⟨owner, none, cause⟩) := by
  unfold build Gathered.after
  rw [← arguments, List.nil_append]
  cases constructor.construct (arguments constructor.arity values) with
  | error cause => rfl
  | ok instance' => exact callSetters_snd owner instance' values

/-- The constructor is called with what the properties with its slots received, and if it gives an
instance, the setters are called on that. -/
structure Built (nested : CodecRef → Json → Decoding Value) (constructor : Constructor)
    (fields : List FieldCodec) (members : Members Json) (calls : List HostCall) (args : List Value)
    (sets : List HostCall) : Prop where
  calls : calls = .construct args :: sets
  length : args.length = constructor.arity
  argument : ∀ f ∈ fields, ∀ index, f.property.binding = .slot index →
    args[index]? = some ((received nested members f).getD .null)
  failed : ∀ cause, constructor.construct args = .error cause → sets = []
  constructed : ∀ instance', constructor.construct args = .ok instance' →
    Sets instance' (setterValues nested members fields) sets

/-- No slot is bound twice, and none lies beyond the arity. -/
structure SlotsBound (arity : Nat) (fields : List FieldCodec) : Prop where
  lt : ∀ f ∈ fields, ∀ index, f.property.binding = .slot index → index < arity
  unique : ∀ f ∈ fields, ∀ g ∈ fields, ∀ index, f.property.binding = .slot index →
    g.property.binding = .slot index → g = f

/-- The program does not end before its result, which is that of the decoding. If no field fails, it
has built an instance as it should, and otherwise it has called nothing. -/
theorem exists_decodeCalling (h : SlotsBound constructor.arity fields) :
    ∃ calls, decodeCalling nested owner constructor fields strict members =
        some (calls, decodeRecord nested owner constructor fields strict members) ∧
      (FieldsRead nested fields strict members →
        ∃ args sets, Built nested constructor fields members calls args sets) ∧
      (¬ FieldsRead nested fields strict members → calls = []) := by
  rw [decodeCalling, decodeRecord]
  cases hfind : (Members.names members).find? fun name => strict && !reads fields name with
  | some name =>
    refine ⟨[], rfl, fun hread => ?_, fun _ => rfl⟩
    rw [fieldsRead_iff owner, hfind] at hread
    cases hread.1
  | none =>
    -- Slots lie below the arity, so gathering does not end the program.
    have hgather : gather nested owner members ⟨List.replicate constructor.arity .null, []⟩ fields =
        .ofDecoding ((decodeFields nested owner members fields).map
          (Gathered.after ⟨List.replicate constructor.arity .null, []⟩)) :=
      gather_eq fun f hf index hb => List.length_replicate.symm ▸ h.lt f hf index hb
    simp only [hgather]
    cases hvalues : decodeFields nested owner members fields with
    | error e =>
      refine ⟨[], rfl, fun hread => ?_, fun _ => rfl⟩
      rw [decodeFields_eq_valuesOf hread.present hread.decoded] at hvalues
      cases hvalues
    | ok values =>
      obtain ⟨sets, hcalls, hfailed, hconstructed⟩ := exists_build owner constructor values
      have hread : FieldsRead nested fields strict members :=
        (fieldsRead_iff owner).2 ⟨hfind, values, hvalues⟩
      refine ⟨_, congrArg some (Prod.ext rfl (build_snd owner constructor values)), fun _ => ?_,
        fun hno => absurd hread hno⟩
      rw [decodeFields_eq_valuesOf hread.present hread.decoded] at hvalues
      cases hvalues
      refine ⟨_, sets, hcalls, length_arguments _ _, fun f hf index hb => ?_, hfailed, hconstructed⟩
      exact argument_valuesOf hf hb (h.lt f hf index hb)
        fun g hg hb' => h.unique f hf g hg index hb hb'

end Codec

end Typewire
