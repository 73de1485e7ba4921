import Typewire.Proofs.Registry.Closure

/-! # Factories that recover

A factory may see a lookup fail and still answer with a codec. The derivation that failed is undone
by itself: codecs that were completed inside it and took its slot stay staged and are published
later. Such a codec refers to a slot that is empty for good.
-/

namespace Typewire

/-- Arrays of a target, or another codec if the target has none. -/
def Factory.fallback (target : TypeTerm) (codec : Codec) : Factory :=
  .of fun _ => Query.lookup target fun
    | .ok ref => .answer (.ok (.sequence .array ref))
    | .error _ => .answer (.ok codec)

theorem Factory.honest_fallback (target : TypeTerm) {codec : Codec} (h : codec.refs = []) :
    (Factory.fallback target codec).Honest true := by
  refine .of fun term => .lookup (fun e => ?_) fun ref => ?_
  · exact .give (.inr rfl) (by simp [h])
  · exact .give (.inr rfl) (by simp [Codec.refs])

/-- A host with two records that refer to each other, one of which has a part without a codec. -/
def Host.tangled : Host where
  layout type :=
    if type = "Holder" then
      some (.ok (.record
        { constructor := .record "Holder" ["inner", "handle"]
          properties := [
            { name := "inner"
              type := .apply "Inner" []
              binding := .slot 0
              accessor := .field "inner" },
            { name := "handle"
              type := .apply "Class" []
              binding := .slot 1
              accessor := .field "handle" }] }))
    else if type = "Inner" then
      some (.ok (.record
        { constructor := .record "Inner" ["back"]
          properties := [
            { name := "back"
              type := .apply "Holder" []
              binding := .slot 0
              accessor := .field "back" }] }))
    else some (.ok .foreign)

namespace Registry

variable {recovers : Bool} {reg reg' : Registry} {ref : CodecRef}

theorem Linked.lookup (h : Linked recovers 0 0 reg) (hi : reg.Idle) (term : TypeTerm) :
    Linked recovers 0 0 (reg.lookup term).2 := by
  obtain ⟨hfail, hok⟩ := hi.linked_lookup h (Nat.zero_le _) term
  by_cases hr : ∃ ref, (reg.lookup term).1 = .ok (.ok ref)
  · obtain ⟨ref, hr⟩ := hr
    exact (hok ref hr).1
  · exact hfail (not_exists.1 hr)

theorem Reaches.linked {host : Host} {settings : Settings}
    (h : Reaches recovers (initial host settings) reg) : reg.Idle ∧ Linked recovers 0 0 reg := by
  refine h.invariant (P := fun r => r.Idle ∧ Linked recovers 0 0 r) ?_ ?_ ?_ ?_
  · refine ⟨idle_initial host settings, ?_, ?_, ?_⟩
    · exact fun _ _ h => by cases h
    · exact fun _ _ _ h => by cases h
    · exact fun _ h => by cases h
  · exact fun r term ⟨hi, hl⟩ => ⟨(hi.lookup term).1, hl.lookup hi term⟩
  · exact fun r term codec ⟨hi, hl⟩ hc =>
      ⟨hi.override term codec, hl.override hi.toWellFormed term hc⟩
  · exact fun r type factory ⟨hi, hl⟩ hf => ⟨hi.enlist type factory, hl.enlist type hf⟩

theorem Lost.encode (h : reg.Lost ref.slot) (v : Value) :
    reg.store.encode ref v = .fail (.unresolved ref.term) := by
  obtain ⟨calls, hcalls⟩ := callLimit_eq
  have hc : reg.store.codec? ref = none := by rw [Store.codec?, store, h.1]; rfl
  rw [Store.encode, hcalls, Store.encodeWithin, hc]

theorem Lost.decode (h : reg.Lost ref.slot) (j : Json) :
    reg.store.decode ref j = Decoding.fail (.unresolved ref.term) := by
  have hc : reg.store.codec? ref = none := by rw [Store.codec?, store, h.1]; rfl
  rw [Store.decode, Store.decodeWithin, hc]

/-- With factories that recover, a published codec refers to published codecs and to lost slots,
and coding by a lost slot fails for good. The registry is closed if and only if no published codec
refers to a lost slot. A lookup keeps it closed unless it publishes a codec that refers to the slot
of a derivation that failed on the way. -/
theorem closed_iff_of_reaches {host : Host} {settings : Settings}
    (h : Reaches true (initial host settings) reg) :
    (∀ ref, reg.Refers ref → reg.Publishes ref ∨ reg.Lost ref.slot) ∧
    (reg.Closed ↔ ∀ ref, reg.Refers ref → ¬ reg.Lost ref.slot) ∧
    (reg.Closed → ∀ ref, reg.Publishes ref → reg.Resolves ref) ∧
    (reg.Closed → ∀ term,
      ((reg.lookup term).2.Closed ↔ ∀ ref, (reg.lookup term).2.Refers ref →
        reg.slots.size ≤ ref.slot → ¬ (reg.lookup term).2.Lost ref.slot) ∧
      ((∀ ref, (reg.lookup term).1 ≠ .ok (.ok ref)) → (reg.lookup term).2.Closed) ∧
      (Whole reg (reg.lookup term).2 → (reg.lookup term).2.Closed)) ∧
    (∀ ref, reg.Refers ref → reg.Lost ref.slot → ∀ reg', Reaches true reg reg' →
      reg'.Refers ref ∧ (∀ v, reg'.store.encode ref v = .fail (.unresolved ref.term)) ∧
      ∀ j, reg'.store.decode ref j = Decoding.fail (.unresolved ref.term)) := by
  obtain ⟨hi, hl⟩ := h.linked
  refine ⟨fun ref hr => (hl.refers hr).imp_right And.right, ?_, fun hc ref hp => hc.resolves hp,
    ?_, ?_⟩
  · rw [hl.closed_iff hi.toWellFormed]
    exact forall₂_congr fun ref _ => ⟨fun hn => hn (Nat.zero_le _), fun hn _ => hn⟩
  · intro hc term
    obtain ⟨hi', -⟩ := hi.lookup term
    have hiff : (reg.lookup term).2.Closed ↔ ∀ ref, (reg.lookup term).2.Refers ref →
        reg.slots.size ≤ ref.slot → ¬ (reg.lookup term).2.Lost ref.slot := by
      obtain ⟨hfail, hok⟩ := hi.linked_lookup
        (hc.linked hi hl.factories reg.slots.size reg.slots.size) le_rfl term
      by_cases hr : ∃ ref, (reg.lookup term).1 = .ok (.ok ref)
      · obtain ⟨ref, hr⟩ := hr
        have hlinked := (hok ref hr).1
        rw [min_self] at hlinked
        exact hlinked.closed_iff hi'.toWellFormed
      · exact (hfail (not_exists.1 hr)).closed_iff hi'.toWellFormed
    refine ⟨hiff, fun hfail => ?_, fun hw => hiff.2 fun ref _ hs => hw.not_lost hi' hs⟩
    have hlinked := (hi.linked_lookup
      (hc.linked hi hl.factories (reg.lookup term).2.slots.size _) le_rfl term).1 hfail
    -- Beyond the slots that are there none is lost.
    refine (hlinked.closed_iff hi'.toWellFormed).2 fun ref _ hs hlost => ?_
    exact absurd hlost.lt_size (Nat.not_lt.2 hs)
  · intro ref hr hlost reg' hreach
    obtain ⟨-, hx⟩ := hreach.frame hi
    exact ⟨hr.extends hx, (hlost.extends hx).encode, (hlost.extends hx).decode⟩

theorem closed_iff_of_reaches_fallback :
    ∃ reg, Reaches true (initial .tangled {}) reg ∧ reg.size = 2 ∧ ¬ reg.Closed ∧
      ∀ reg', Reaches true reg reg' → ∀ v, reg'.store.encode ⟨⟨"Holder", []⟩, 1⟩ v =
        .fail (.unresolved ⟨"Holder", []⟩) := by
  have hf : (Factory.fallback ⟨"Holder", []⟩ (.formatted "soft" fun _ => true)).Honest true :=
    Factory.honest_fallback _ rfl
  have h : Reaches true (initial .tangled {}) (((initial .tangled {}).perform
      (.enlist "Soft" (.fallback ⟨"Holder", []⟩ (.formatted "soft" fun _ => true)))).perform
      (.lookup ⟨"Soft", []⟩)) := .step _ (.step _ .refl hf) trivial
  obtain ⟨-, hiff, -, -, hlasting⟩ := closed_iff_of_reaches h
  refine ⟨_, h, by rfl, fun hc => ?_, fun reg' hr => (hlasting ⟨⟨"Holder", []⟩, 1⟩ ?_ ?_ _ hr).2.1⟩
  · refine hiff.1 hc ⟨⟨"Holder", []⟩, 1⟩ ?_ ⟨by rfl, by decide +kernel⟩
    exact ⟨⟨"Inner", []⟩, 2, _, by rfl, by rfl, List.mem_singleton_self _⟩
  · exact ⟨⟨"Inner", []⟩, 2, _, by rfl, by rfl, List.mem_singleton_self _⟩
  · exact ⟨by rfl, by decide +kernel⟩

/-- A fallback for a record that fails after a nested record has taken its slot. -/
theorem not_closed_of_fallback :
    ∃ reg ref, Reaches true (initial .tangled {}) reg ∧
      (reg.lookup ⟨"Soft", []⟩).1 = .ok (.ok ref) ∧ ¬ (reg.lookup ⟨"Soft", []⟩).2.Closed ∧
      (reg.lookup ⟨"Soft", []⟩).2.Publishes ⟨⟨"Inner", []⟩, 2⟩ ∧
      (reg.lookup ⟨"Soft", []⟩).2.store.decode ⟨⟨"Inner", []⟩, 2⟩ (.obj [("back", .obj [])]) =
        .error ⟨[.field "back"], .unresolved ⟨"Holder", []⟩⟩ := by
  have hf : (Factory.fallback ⟨"Holder", []⟩ (.formatted "soft" fun _ => true)).Honest true :=
    Factory.honest_fallback _ rfl
  refine ⟨_, _, .step (.enlist "Soft" _) .refl hf, by rfl, fun hc => ?_, by rfl, by rfl⟩
  have hr : Table.get? _ _ = some _ :=
    hc.publishes ⟨⟨"Inner", []⟩, 2, _, by rfl, by rfl, List.mem_singleton_self _⟩
  revert hr
  decide +kernel

end Registry

end Typewire
