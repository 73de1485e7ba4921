import Typewire.Proofs.Registry.Dependencies
import Typewire.Proofs.Registry.Rollback

/-! # What lookups find

Without factories the outcome of a lookup depends on the host, the settings and the registered
codecs alone: it finds a codec if and only if every term in the closure of dependencies is
described, and then it publishes the closure.
-/

namespace Typewire.Registry

/-- A run of lookups with any bounds on calls, and of registrations of codecs, without factories. -/
inductive Factoryless (host : Host) (settings : Settings) :
    (TypeTerm → Option Codec) → Registry → Prop
  | initial : Factoryless host settings (fun _ => none) (initial host settings)
  | lookup {customs : TypeTerm → Option Codec} {reg : Registry} (calls : Nat) (term : TypeTerm) :
      Factoryless host settings customs reg →
      Factoryless host settings customs (resolve calls term reg).2
  | registered {customs : TypeTerm → Option Codec} {reg : Registry} (term : TypeTerm)
      (codec : Codec) : Factoryless host settings customs reg →
      (reg.override term codec).1 = .ok () →
      Factoryless host settings
        (Function.update customs (reg.canonical term) (some codec.bare))
        (reg.override term codec).2
  | refused {customs : TypeTerm → Option Codec} {reg : Registry} (term : TypeTerm)
      (codec : Codec) : Factoryless host settings customs reg →
      (reg.override term codec).1 ≠ .ok () →
      Factoryless host settings customs (reg.override term codec).2

variable {host : Host} {settings : Settings} {customs : TypeTerm → Option Codec} {reg : Registry}
  {r : Reference} {calls : Nat} {term : TypeTerm}

/-- Between requests, in agreement with the reference, and with all dependencies of what is
published published. -/
structure Complete (r : Reference) (reg : Registry) : Prop extends Idle reg where
  agrees : Reference.Agrees r reg
  explored : Search.Explored r.steps reg.seen reg.seen

theorem Complete.mem_seen_iff (h : Complete r reg) {key : TypeTerm} :
    key ∈ reg.seen ↔ key ∈ Table.keys reg.published := by
  rw [seen, known, h.staged, List.mem_toFinset]
  rfl

theorem Complete.published_of_failure (h : Complete r reg)
    (hfail : ∀ ref, (resolve calls term reg).1 ≠ .ok (.ok ref)) :
    (resolve calls term reg).2.published = reg.published ∧
      (resolve calls term reg).2.staged = reg.staged := by
  have hq : reg.Quiet := by
    intro type factory _ hf
    rw [h.agrees.factories] at hf
    cases hf
  rcases active_resolve calls term reg h.toWellFormed with he | ⟨events, hl, hquiet⟩
  · rw [he]
    exact ⟨rfl, rfl⟩
  · rw [hl.rolled_back h.toIdle (hquiet hq) hfail]
    exact ⟨rfl, rfl⟩

theorem Complete.search (h : Complete r reg) (calls : Nat) (term : TypeTerm) :
    Reference.survey (resolve calls term reg) =
      Search.visit r.steps (.halted .endless) calls (r.settings.canonical term) reg.seen :=
  Reference.shows_resolve r calls term reg h.toWellFormed h.agrees

theorem Complete.lookup (h : Complete r reg) (calls : Nat) (term : TypeTerm) :
    Complete r (resolve calls term reg).2 := by
  obtain ⟨hw, hx⟩ := keeps_resolve calls term reg h.toWellFormed
  obtain ⟨hr, -⟩ := Reference.follows_resolve r calls term reg h.toWellFormed h.agrees
  refine ⟨h.of_extends hw hx, hr, ?_⟩
  have hsearch := h.search calls term
  have hfailed : (∀ ref, (resolve calls term reg).1 ≠ .ok (.ok ref)) → _ :=
    h.published_of_failure
  rcases hres : resolve calls term reg with ⟨why | e | ref, reg'⟩ <;> rw [hres] at hsearch hfailed
  · obtain ⟨hp, hs⟩ := hfailed (by simp)
    rw [seen, known, hp, hs]
    exact h.explored
  · obtain ⟨hp, hs⟩ := hfailed (by simp)
    rw [seen, known, hp, hs]
    exact h.explored
  · exact (Search.mem_visit_iff h.explored hsearch.symm).2

theorem Complete.registered {codec : Codec} (h : Complete ⟨host, settings, customs⟩ reg)
    (ho : (reg.override term codec).1 = .ok ()) :
    Complete ⟨host, settings, Function.update customs (reg.canonical term) (some codec.bare)⟩
      (reg.override term codec).2 := by
  refine ⟨h.toIdle.override term codec, agrees_override h.agrees h.toWellFormed ho, ?_⟩
  have hseen : (reg.override term codec).2.seen = insert (reg.canonical term) reg.seen := by
    rw [seen, List.toFinset_eq_of_perm _ _ (perm_known_override ho), List.toFinset_cons]
    rfl
  rw [hseen]
  intro key hk s hs
  by_cases he : key = reg.canonical term
  · simp [Reference.steps, he] at hs
  · have hk := Finset.mem_of_mem_insert_of_ne hk he
    simp only [Reference.steps, Function.update_of_ne he] at hs
    obtain ⟨b, hb, hs⟩ := h.explored key hk s hs
    exact ⟨b, Finset.mem_insert_of_mem hb, hs⟩

theorem Factoryless.complete (h : Factoryless host settings customs reg) :
    Complete ⟨host, settings, customs⟩ reg := by
  induction h with
  | initial =>
    refine ⟨idle_initial host settings, ⟨rfl, rfl, rfl, ?_, ?_, ?_⟩, ?_⟩
    · exact fun _ _ h => by cases h
    · exact fun _ _ _ h => by cases h
    · exact fun _ _ h => by cases h
    · exact fun _ h => by cases h
  | lookup calls term _ ih => exact ih.lookup calls term
  | registered term codec _ ho ih => exact ih.registered ho
  | refused term codec _ hn ih =>
    rw [override_of_ne hn]
    exact ih

theorem Plain.factoryless (h : Plain host settings customs reg) :
    Factoryless host settings customs reg := by
  induction h with
  | initial => exact .initial
  | lookup term _ ih =>
    rw [lookup_eq]
    exact ih.lookup callLimit term
  | registered _ _ ho ih => exact ih.registered _ _ ho
  | refused _ hn ih => exact ih.refused _ _ hn

def outcome (calls : Nat) (term : TypeTerm) (reg : Registry) : Except Failure TypeTerm :=
  (verdict (resolve calls term reg).1).map CodecRef.term

theorem Complete.outcome_eq (h : Complete r reg) (calls : Nat) (term : TypeTerm) :
    outcome calls term reg =
      (Search.visit r.steps (.halted .endless) calls (r.settings.canonical term) reg.seen).map
        fun _ => r.settings.canonical term := by
  rw [← h.search, Reference.survey, outcome]
  have hterm := (Reference.follows_resolve r calls term reg h.toWellFormed h.agrees).2
  rcases hans : (resolve calls term reg).1 with why | e | ref
  · rfl
  · rfl
  · exact congrArg Except.ok (hterm ref hans)

/-- What was looked up before makes no difference to the outcome of a lookup that ends. -/
theorem Complete.outcome_eq_outcome {reg' : Registry} (h : Complete r reg) (h' : Complete r reg')
    (hend : ∀ seen, Search.visit r.steps (.halted .endless) calls (r.settings.canonical term) seen ≠
      .error (.halted .endless)) : outcome calls term reg' = outcome calls term reg := by
  have hunion := Search.ignores_visit h'.explored (.halted .endless) calls _ _ (hend reg.seen)
  have hunion' := Search.ignores_visit h.explored (.halted .endless) calls _ _ (hend reg'.seen)
  rw [Finset.union_comm, hunion] at hunion'
  rw [h.outcome_eq, h'.outcome_eq]
  generalize Search.visit _ _ _ _ reg.seen = x, Search.visit _ _ _ _ reg'.seen = y at hunion' ⊢
  rcases x with e | x <;> rcases y with e' | y
  · cases hunion'
    rfl
  · cases hunion'
  · cases hunion'
  · rfl

theorem visit_ends {key : TypeTerm} (hfin : (r.closure key).Finite)
    (hcalls : hfin.toFinset.card < calls) (seen : Finset TypeTerm) :
    Search.visit r.steps (.halted .endless) calls key seen ≠ .error (.halted .endless) := by
  have hmem : ∀ k, k ∈ hfin.toFinset ↔ k ∈ r.closure key := fun k => Set.Finite.mem_toFinset hfin
  have hends : Search.Ends (Failure.halted .endless) hfin.toFinset calls
      (Search.visit r.steps (.halted .endless) calls) :=
    Search.ends_visit (fun a ha b hb => (hmem b).2 (.tail ((hmem a).1 ha) (.of_leads hb)))
      (fun _ _ => Reference.endless_not_mem_steps) calls
  exact hends key ((hmem key).2 .refl) seen
    ((Finset.card_le_card Finset.sdiff_subset).trans_lt hcalls)

theorem Complete.of_found (h : Complete r reg) {ref : CodecRef}
    (hok : (resolve calls term reg).1 = .ok (.ok ref)) :
    (∀ key ∈ r.closure (r.settings.canonical term), r.customs key = none → r.Described key) ∧
    ∀ key, key ∈ Table.keys (resolve calls term reg).2.published ↔
      key ∈ Table.keys reg.published ∨ key ∈ r.closure (r.settings.canonical term) := by
  have hsearch := h.search calls term
  rw [Reference.survey, hok] at hsearch
  obtain ⟨hmem, hexp⟩ := Search.mem_visit_iff h.explored hsearch.symm
  have hall : ∀ key ∈ r.closure (r.settings.canonical term),
      key ∈ (resolve calls term reg).2.seen := by
    intro key hk
    induction hk with
    | refl => exact (hmem _).2 (.inr .refl)
    | tail _ hn ih =>
      have hd := Reference.steps_ok_iff.1 (fun s hs => (hexp _ ih s hs).imp fun _ => And.right) hn.1
      obtain ⟨b, hb, he⟩ := hexp _ ih _ (hn.leads hd)
      cases he
      exact hb
  refine ⟨fun key hk => ?_, fun key => ?_⟩
  · exact Reference.steps_ok_iff.1 fun s hs => (hexp key (hall key hk) s hs).imp fun _ => And.right
  · rw [← h.mem_seen_iff, ← (h.lookup calls term).mem_seen_iff]
    refine ⟨fun hk => ?_, fun hk => hk.elim (fun hk => (hmem key).2 (.inl hk)) (hall key)⟩
    exact ((hmem key).1 hk).imp_right Reference.mem_closure_of_reaches

theorem Complete.of_not_found (h : Complete r reg)
    (hfail : ∀ ref, (resolve calls term reg).1 ≠ .ok (.ok ref)) :
    (resolve calls term reg).1 = .error .endless ∨
      ∃ key ∈ r.closure (r.settings.canonical term), r.customs key = none ∧ ¬ r.Described key := by
  have hsearch := (h.search calls term).symm
  have hblame : ∀ e, Reference.survey (resolve calls term reg) = .error e →
      e = .halted .endless ∨
        ∃ key ∈ r.closure (r.settings.canonical term),
          r.customs key = none ∧ ¬ r.Described key := by
    intro e he
    refine (Search.blames_visit _ _ _ _ _ e (hsearch.trans he)).imp_right fun ⟨key, hr, hm⟩ => ?_
    refine ⟨key, Reference.mem_closure_of_reaches hr, Classical.not_imp.1 fun hd => ?_⟩
    obtain ⟨_, he⟩ := Reference.steps_ok_iff.2 hd _ hm
    cases he
  rw [Reference.survey] at hblame
  rcases hans : (resolve calls term reg).1 with why | e | ref <;> rw [hans] at hblame
  · refine (hblame _ rfl).imp_left fun he => ?_
    cases he
    rfl
  · exact (hblame _ rfl).imp_left fun he => by cases he
  · exact absurd hans (hfail ref)

theorem Complete.found_iff (h : Complete r reg)
    (hfin : (r.closure (r.settings.canonical term)).Finite)
    (hcalls : hfin.toFinset.card < calls) :
    (resolve calls term reg).1 ≠ .error .endless ∧
    ((∃ ref, (resolve calls term reg).1 = .ok (.ok ref)) ↔
      ∀ key ∈ r.closure (r.settings.canonical term), r.customs key = none → r.Described key) := by
  have hend : (resolve calls term reg).1 ≠ .error .endless := by
    intro he
    have hsearch := h.search calls term
    rw [Reference.survey, he] at hsearch
    exact visit_ends hfin hcalls reg.seen hsearch.symm
  refine ⟨hend, fun ⟨ref, hok⟩ => (h.of_found hok).1, fun hall => ?_⟩
  by_contra hnone
  rcases h.of_not_found (not_exists.1 hnone) with he | ⟨key, hk, hc, hd⟩
  · exact hend he
  · exact hd (hall key hk hc)

def outcomes (calls : Nat) : List TypeTerm → Registry → List (Except Failure TypeTerm)
  | [], _ => []
  | term :: terms, reg =>
    outcome calls term reg :: outcomes calls terms (resolve calls term reg).2

def afterAll (calls : Nat) (terms : List TypeTerm) (reg : Registry) : Registry :=
  terms.foldl (fun reg term => (resolve calls term reg).2) reg

theorem Complete.outcomes_eq {reg' : Registry} (h : Complete r reg) (h' : Complete r reg')
    {terms : List TypeTerm} (hw : ∀ term ∈ terms, r.Within calls term) :
    outcomes calls terms reg' = terms.map fun term => outcome calls term reg := by
  induction terms generalizing reg' with
  | nil => rfl
  | cons term terms ih =>
    obtain ⟨⟨hfin, hcalls⟩, hw⟩ := List.forall_mem_cons.1 hw
    rw [outcomes, List.map_cons, h.outcome_eq_outcome h' (visit_ends hfin hcalls),
      ih (h'.lookup calls term) hw]

theorem Complete.mem_afterAll (h : Complete r reg) {terms : List TypeTerm}
    (hw : ∀ term ∈ terms, r.Within calls term) (key : TypeTerm) :
    key ∈ Table.keys (afterAll calls terms reg).published ↔ key ∈ Table.keys reg.published ∨
      ∃ term ∈ terms, (∀ k ∈ r.closure (r.settings.canonical term), r.customs k = none →
        r.Described k) ∧ key ∈ r.closure (r.settings.canonical term) := by
  induction terms generalizing reg with
  | nil => simp [afterAll]
  | cons term terms ih =>
    obtain ⟨⟨hfin, hcalls⟩, hw⟩ := List.forall_mem_cons.1 hw
    have ih := ih (h.lookup calls term) hw
    have hiff := (h.found_iff hfin hcalls).2
    rw [afterAll, List.foldl_cons, ← afterAll, ih]
    by_cases hok : ∃ ref, (resolve calls term reg).1 = .ok (.ok ref)
    · obtain ⟨ref, hok'⟩ := hok
      obtain ⟨hall, hmem⟩ := h.of_found hok'
      rw [hmem, List.exists_mem_cons_iff, or_assoc, and_iff_right hall]
    · have hnot := (not_congr hiff).1 hok
      rw [(h.published_of_failure (not_exists.1 hok)).1, List.exists_mem_cons_iff]
      simp only [hnot, false_and, false_or]

/-- Without factories, a lookup of a term whose closure of dependencies is finite ends, given more
calls than there are terms in the closure. It finds a codec if and only if every term of the closure
is described or has a registered codec; then it publishes the closure and nothing else, and else it
publishes nothing. The outcome is the same, down to the error, whatever was looked up before, so a
list of terms can be looked up in any order. -/
theorem found_iff_described (h : Factoryless r.host r.settings r.customs reg)
    (hw : r.Within calls term) :
    (resolve calls term reg).1 ≠ .error .endless ∧
    ((∃ ref, (resolve calls term reg).1 = .ok (.ok ref)) ↔
      ∀ key ∈ r.closure (r.settings.canonical term), r.customs key = none → r.Described key) ∧
    ((∃ ref, (resolve calls term reg).1 = .ok (.ok ref)) → ∀ key,
      key ∈ Table.keys (resolve calls term reg).2.published ↔
        key ∈ Table.keys reg.published ∨ key ∈ r.closure (r.settings.canonical term)) ∧
    ((∀ ref, (resolve calls term reg).1 ≠ .ok (.ok ref)) →
      (resolve calls term reg).2.published = reg.published) ∧
    (∀ reg', Factoryless r.host r.settings r.customs reg' →
      outcome calls term reg' = outcome calls term reg) ∧
    (∀ terms terms' : List TypeTerm, (∀ t ∈ terms, r.Within calls t) → terms.Perm terms' →
      outcomes calls terms reg = terms.map (fun t => outcome calls t reg) ∧
      outcomes calls terms' reg = terms'.map (fun t => outcome calls t reg) ∧
      ∀ key, key ∈ Table.keys (afterAll calls terms reg).published ↔
        key ∈ Table.keys (afterAll calls terms' reg).published) ∧
    reg.lookup term = resolve callLimit term reg := by
  have hc : Complete r reg := h.complete
  obtain ⟨hfin, hcalls⟩ := hw
  obtain ⟨hend, hiff⟩ := hc.found_iff hfin hcalls
  refine ⟨hend, hiff, fun ⟨ref, hok⟩ => (hc.of_found hok).2,
    fun hfail => (hc.published_of_failure hfail).1,
    fun reg' h' => hc.outcome_eq_outcome h'.complete (visit_ends hfin hcalls), ?_,
    lookup_eq reg term⟩
  intro terms terms' hw hperm
  have hw' : ∀ t ∈ terms', r.Within calls t := fun t ht => hw t (hperm.mem_iff.2 ht)
  refine ⟨hc.outcomes_eq hc hw, hc.outcomes_eq hc hw', fun key => ?_⟩
  rw [hc.mem_afterAll hw, hc.mem_afterAll hw']
  simp only [hperm.mem_iff]

/-- Records that refer to each other, where the part without a layout has a registered codec. -/
def tangled : Reference where
  host := .tangled
  settings := {}
  customs := Function.update (fun _ => none) ⟨"Class", []⟩ (some (Codec.atomic .string).bare)

theorem within_tangled : tangled.Within 4 ⟨"Holder", []⟩ := by
  have hpart : ∀ k ∈ ({⟨"Holder", []⟩, ⟨"Inner", []⟩, ⟨"Class", []⟩} : Finset TypeTerm), ∀ part,
      tangled.Needs k part →
        part ∈ ({⟨"Holder", []⟩, ⟨"Inner", []⟩, ⟨"Class", []⟩} : Finset TypeTerm) := by
    rintro k hk part ⟨hc, layout, scheme, target, hl, hs, hi, rfl⟩
    simp only [Finset.mem_insert, Finset.mem_singleton] at hk
    rcases hk with rfl | rfl | rfl
    · cases hl
      rcases List.mem_cons.1 hs with rfl | hs
      · cases hi
        decide
      · cases List.mem_singleton.1 hs
        cases hi
        decide
    · cases hl
      cases List.mem_singleton.1 hs
      cases hi
      decide
    · cases hc
  exact Reference.within_of_closed hpart (by decide) (by decide)

theorem found_iff_described_tangled :
    ∃ reg, Factoryless tangled.host tangled.settings tangled.customs reg ∧
      tangled.Within 4 ⟨"Holder", []⟩ ∧
      (∀ key ∈ tangled.closure ⟨"Holder", []⟩, tangled.customs key = none →
        tangled.Described key) ∧
      outcome 4 ⟨"Holder", []⟩ (resolve 4 ⟨"Inner", []⟩ reg).2 = .ok ⟨"Holder", []⟩ := by
  have h : Factoryless .tangled {} _ ((initial .tangled {}).override ⟨"Class", []⟩
      (.atomic .string)).2 := .registered ⟨"Class", []⟩ (.atomic .string) .initial rfl
  obtain ⟨-, hiff, -, -, hsame, -⟩ := found_iff_described (r := tangled) h within_tangled
  refine ⟨_, h, within_tangled, hiff.1 ⟨_, by rfl⟩, ?_⟩
  exact (hsame _ (h.lookup 4 ⟨"Inner", []⟩)).trans (by rfl)

end Typewire.Registry
