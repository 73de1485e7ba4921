import Typewire.Command
import Typewire.Proofs.Catalog.Declared
import Typewire.Proofs.Schema.Verdict

/-! # The command that checks a catalogue

The command looks all types up in one registry, whatever the lookups before have left in it, and
makes a schema pass over each. Its verdict on a type is that of the command that exports the schema
of this type alone.
-/

namespace Typewire

open Registry

namespace Command

section Within

variable (calls : Nat)

def passWithin (term : TypeTerm) (settings : Settings) (catalog : Catalog) :
    Ask (Except SchemaError Schema × Dictionary) :=
  (Dictionary.schemaWithin catalog.host.displayName calls term).run.run
    { refPrefix := settings.refPrefix }

def schemaWithin (path : String) (text? : Option String) (type : String) (settings : Settings) :
    Except CommandError String := do
  let catalog ← openCatalog path text?
  let term ← readType type
  let (root, dictionary) ← settle ((passWithin calls term settings catalog).run (resolve calls)
    (registry catalog settings)).1
  let root ← root.mapError (.schema term)
  let entries ← dictionary.complete?.mapError .dictionary
  return (schemaDocument root entries).pretty

def faultWithin? (catalog : Catalog) (settings : Settings) (reg : Registry) (term : TypeTerm) :
    Outcome (Option String) × Registry :=
  match resolve calls term reg with
  | (.error why, reg) => (.error why, reg)
  | (.ok (.error e), reg) => (.ok (some e.message), reg)
  | (.ok (.ok _), reg) =>
    match (passWithin calls term settings catalog).run (resolve calls) reg with
    | (.error why, reg) => (.error why, reg)
    | (.ok (.error e, _), reg) => (.ok (some e.message), reg)
    | (.ok (.ok _, dictionary), reg) =>
      match dictionary.complete? with
      | .error e => (.ok (some e.message), reg)
      | .ok _ => (.ok none, reg)

def checkTypesWithin (catalog : Catalog) (settings : Settings) (reg : Registry)
    (report : CheckReport) : List TypeName → Outcome CheckReport
  | [] => .ok report
  | name :: names =>
    if isGeneric catalog name then
      checkTypesWithin catalog settings reg (Report.skip name report) names
    else
      match faultWithin? calls catalog settings reg ⟨name, []⟩ with
      | (.error why, _) => .error why
      | (.ok none, reg) => checkTypesWithin catalog settings reg (Report.pass name report) names
      | (.ok (some reason), reg) =>
        checkTypesWithin catalog settings reg (Report.fail name reason report) names

def checkWithin (path : String) (text? : Option String) (settings : Settings) :
    Except CommandError CheckReport := do
  let catalog ← openCatalog path text?
  settle (checkTypesWithin calls catalog settings (registry catalog settings) {} catalog.userTypes)

end Within

theorem schema_eq : schema = schemaWithin callLimit := rfl

theorem fault?_eq (catalog : Catalog) (settings : Settings) (reg : Registry) (term : TypeTerm) :
    fault? catalog settings reg term = faultWithin? callLimit catalog settings reg term := by
  rw [fault?, faultWithin?, lookup_eq]
  rfl

theorem checkTypes_eq (catalog : Catalog) (settings : Settings) (reg : Registry)
    (report : CheckReport) (names : List TypeName) :
    checkTypes catalog settings reg report names =
      checkTypesWithin callLimit catalog settings reg report names := by
  induction names generalizing reg report with
  | nil => rfl
  | cons name names ih =>
    rw [checkTypes, checkTypesWithin, fault?_eq]
    split
    · exact ih ..
    · rcases faultWithin? callLimit catalog settings reg ⟨name, []⟩ with ⟨_ | _ | _, reg'⟩
      · rfl
      · exact ih ..
      · exact ih ..

theorem check_eq : check = checkWithin callLimit := by
  funext path text? settings
  simp only [check, checkWithin, checkTypes_eq]

section Verdict

variable {c : Catalog} {s : Settings} {reg : Registry} {calls : Nat} {term : TypeTerm}
  (hshallow : c.Shallow) (hcalls : (c.reference s).Affordable calls (s.canonical term))

include hshallow hcalls

/-- The check of a type ends, and the registry stays fit for the next one. There is no fault if and
only if there is a schema document. -/
theorem exists_fault? (h : Intact (c.reference s) reg) :
    ∃ fault reg', faultWithin? calls c s reg term = (.ok fault, reg') ∧
      Intact (c.reference s) reg' ∧
      (fault = none ↔ (c.reference s).Presentable (s.canonical term)) := by
  have hhost : ∀ type, (c.reference s).host.layout type ≠ none := fun _ hn => by cases hn
  have hbase := h.resolve calls term
  rcases Dictionary.found_or_refused h hcalls hhost with ⟨ref, hfound⟩ | ⟨e, hfail, hnot⟩
  · obtain ⟨limit, rfl⟩ : ∃ limit, calls = limit + 1 :=
      Nat.exists_eq_succ_of_ne_zero (Nat.ne_zero_of_lt hcalls.card_lt)
    -- The pass looks the type up once more and finds what the first lookup has left.
    obtain ⟨result, d, stats, hrun, hiff⟩ := Dictionary.exists_run_of_found hbase hcalls
      (fun _ _ hc => by cases hc) (hshallow.guarded s _ _) (h.resolve_again hfound limit)
      c.host.displayName s.refPrefix
    have hafter := (hbase.resolve (limit + 1) term).withStats stats
    have hlookup : resolve (limit + 1) term reg =
        (.ok (.ok ref), (resolve (limit + 1) term reg).2) := Prod.ext hfound rfl
    rw [faultWithin?, hlookup]
    simp only [passWithin, hrun]
    rcases result with e | fragment
    · refine ⟨_, _, rfl, hafter, iff_of_false (by simp) fun hp => ?_⟩
      obtain ⟨_, _, hok, -⟩ := hiff.2 hp
      cases hok
    · rcases hcomplete : d.complete? with e | entries <;> simp only [hcomplete]
      · refine ⟨_, _, rfl, hafter, iff_of_false (by simp) fun hp => ?_⟩
        obtain ⟨_, _, -, hok⟩ := hiff.2 hp
        cases hcomplete.symm.trans hok
      · exact ⟨_, _, rfl, hafter, iff_of_true rfl (hiff.1 ⟨fragment, entries, rfl, hcomplete⟩)⟩
  · have hlookup : resolve calls term reg = (.ok (.error e), (resolve calls term reg).2) :=
      Prod.ext hfail rfl
    rw [faultWithin?, hlookup]
    exact ⟨_, _, rfl, hbase, iff_of_false (by simp) hnot⟩

theorem exists_schema_iff {path type : String} {text? : Option String}
    (hcatalog : openCatalog path text? = .ok c) (hterm : readType type = .ok term) :
    (∃ out, schemaWithin calls path text? type s = .ok out) ↔
      (c.reference s).Presentable (s.canonical term) := by
  obtain ⟨result, d, reg', hrun, hiff⟩ := Dictionary.exists_run_presentable
    (intact_initial c.host s) hcalls (fun _ _ hc => by cases hc) (hshallow.guarded s _ _)
    (fun _ hn => by cases hn) c.host.displayName s.refPrefix
  have hpass : ((passWithin calls term s c).run (resolve calls) (registry c s)).1 =
      .ok (result, d) := congrArg Prod.fst hrun
  refine Iff.trans ?_ hiff
  simp only [schemaWithin, hcatalog, hterm, hpass, settle, Except.ok_bind]
  rcases result with e | fragment
  · refine iff_of_false ?_ ?_
    · rintro ⟨_, hok⟩
      cases hok
    · rintro ⟨_, _, hok, -⟩
      cases hok
  · rcases hcomplete : d.complete? with e | entries <;>
      simp only [Except.mapError_ok, Except.ok_bind]
    · refine iff_of_false ?_ ?_
      · rintro ⟨_, hok⟩
        cases hok
      · rintro ⟨_, _, -, hok⟩
        cases hcomplete.symm.trans hok
    · exact iff_of_true ⟨_, rfl⟩ ⟨fragment, entries, rfl, hcomplete⟩

end Verdict

inductive Line (c : Catalog) (s : Settings) (name : TypeName) : String → Prop
  | skipped : isGeneric c name = true → Line c s name ("[SKIP] " ++ name ++ " (generic)")
  | passed : isGeneric c name = false → (c.reference s).Presentable ⟨name, []⟩ →
      Line c s name ("[OK] " ++ name)
  | failed (reason : String) : isGeneric c name = false →
      ¬ (c.reference s).Presentable ⟨name, []⟩ →
      Line c s name ("[FAIL] " ++ name ++ ": " ++ reason)

section Report

variable {c : Catalog} {s : Settings} {calls : Nat} {names : List TypeName}

theorem exists_report {reg : Registry} (hshallow : c.Shallow)
    (hcalls : ∀ name ∈ names, isGeneric c name = false →
      (c.reference s).Affordable calls ⟨name, []⟩)
    (h : Intact (c.reference s) reg) (report : CheckReport) :
    ∃ lines resolved failures,
      checkTypesWithin calls c s reg report names = .ok
        { lines := report.lines ++ lines
          resolved := report.resolved + resolved
          skipped := report.skipped + names.countP (isGeneric c)
          failures := report.failures + failures } ∧
      List.Forall₂ (Line c s) names lines ∧
      resolved + names.countP (isGeneric c) + failures = names.length := by
  induction names generalizing reg report with
  | nil => exact ⟨[], 0, 0, by simp [checkTypesWithin], .nil, rfl⟩
  | cons name names ih =>
    obtain ⟨hname, hcalls⟩ := List.forall_mem_cons.1 hcalls
    rw [checkTypesWithin]
    cases hgeneric : isGeneric c name with
    | true =>
      obtain ⟨lines, resolved, failures, hrun, hlines, hsum⟩ :=
        ih hcalls h (Report.skip name report)
      refine ⟨_ :: lines, resolved, failures, ?_, .cons (.skipped hgeneric) hlines, ?_⟩
      · rw [if_pos rfl, hrun]
        simp [Report.skip, hgeneric]
        omega
      · simp only [List.countP_cons, hgeneric, if_true, List.length_cons]
        omega
    | false =>
      have hcanonical : s.canonical ⟨name, []⟩ = ⟨name, []⟩ := s.canonical_simple name
      -- The check of this type leaves the registry fit for the next.
      obtain ⟨fault, reg', hfault, hreg', hiff⟩ :=
        exists_fault? hshallow (hcanonical.symm ▸ hname hgeneric) h
      rw [hcanonical] at hiff
      rw [if_neg Bool.false_ne_true, hfault]
      cases fault with
      | none =>
        obtain ⟨lines, resolved, failures, hrun, hlines, hsum⟩ :=
          ih hcalls hreg' (Report.pass name report)
        refine ⟨_ :: lines, resolved + 1, failures, ?_,
          .cons (.passed hgeneric (hiff.1 rfl)) hlines, ?_⟩
        · simp only [hrun]
          simp [Report.pass, hgeneric]
          omega
        · simp only [List.countP_cons, hgeneric, Bool.false_eq_true, if_false, List.length_cons]
          omega
      | some reason =>
        obtain ⟨lines, resolved, failures, hrun, hlines, hsum⟩ :=
          ih hcalls hreg' (Report.fail name reason report)
        refine ⟨_ :: lines, resolved, failures + 1, ?_,
          .cons (.failed reason hgeneric fun hp => ?_) hlines, ?_⟩
        · simp only [hrun]
          simp [Report.fail, hgeneric]
          omega
        · cases hiff.2 hp
        · simp only [List.countP_cons, hgeneric, Bool.false_eq_true, if_false, List.length_cons]
          omega

theorem append_ne_append {p q : String} {x y : Char} (hp : p.toList[1]? = some x)
    (hq : q.toList[1]? = some y) (hne : x ≠ y) (a b : String) : p ++ a ≠ q ++ b := by
  intro h
  have hchars := congrArg (fun t => t.toList[1]?) h
  obtain ⟨hlp, -⟩ := List.getElem?_eq_some_iff.1 hp
  obtain ⟨hlq, -⟩ := List.getElem?_eq_some_iff.1 hq
  simp only [String.toList_append, List.getElem?_append_left hlp, List.getElem?_append_left hlq,
    hp, hq, Option.some.injEq] at hchars
  exact hne hchars

end Report

/-- The line for a type says of it what the command that exports the schema of this type says. -/
structure Judged (calls : Nat) (path : String) (text? : Option String) (s : Settings) (c : Catalog)
    (name : TypeName) (line : String) : Prop where
  skipped : line = "[SKIP] " ++ name ++ " (generic)" ↔ isGeneric c name = true
  judged : isGeneric c name = false →
    line = "[OK] " ++ name ∨ ∃ reason, line = "[FAIL] " ++ name ++ ": " ++ reason
  passed : isGeneric c name = false → TypeTerm.read name = .ok ⟨name, []⟩ →
    (line = "[OK] " ++ name ↔ ∃ out, schemaWithin calls path text? name s = .ok out)

section Agreement

variable {c : Catalog} {s : Settings} {calls : Nat} {path : String} {text? : Option String}

theorem Line.judged {name : TypeName} {line : String} (hshallow : c.Shallow)
    (hload : Catalog.load path text? = .ok c)
    (hcalls : isGeneric c name = false → (c.reference s).Affordable calls ⟨name, []⟩)
    (h : Line c s name line) : Judged calls path text? s c name line := by
  have hcatalog : openCatalog path text? = .ok c := by rw [openCatalog, hload, Except.mapError_ok]
  -- Whether there is a document decides what the other command does.
  have hiff (hgeneric : isGeneric c name = false) (hread : TypeTerm.read name = .ok ⟨name, []⟩) :
      (∃ out, schemaWithin calls path text? name s = .ok out) ↔
        (c.reference s).Presentable ⟨name, []⟩ := by
    have hterm : readType name = .ok ⟨name, []⟩ := by rw [readType, hread, Except.mapError_ok]
    have hcanonical := s.canonical_simple name
    have hboth := exists_schema_iff hshallow (hcanonical.symm ▸ hcalls hgeneric) hcatalog hterm
    rwa [hcanonical] at hboth
  cases h with
  | skipped hgeneric =>
    have hnot : isGeneric c name ≠ false := by simp [hgeneric]
    exact ⟨iff_of_true rfl hgeneric, fun hf => absurd hf hnot, fun hf => absurd hf hnot⟩
  | passed hgeneric hp =>
    refine ⟨iff_of_false (fun he => ?_) (by simp [hgeneric]), fun _ => .inl rfl,
      fun _ hread => iff_of_true rfl ((hiff hgeneric hread).2 hp)⟩
    exact append_ne_append (x := 'O') (y := 'S') rfl rfl (by decide) name (name ++ " (generic)")
      (he.trans (String.append_assoc ..))
  | failed reason hgeneric hp =>
    refine ⟨iff_of_false (fun he => ?_) (by simp [hgeneric]), fun _ => .inr ⟨reason, rfl⟩,
      fun _ hread => iff_of_false (fun he => ?_) fun hok => hp ((hiff hgeneric hread).1 hok)⟩
    · exact append_ne_append (x := 'F') (y := 'S') rfl rfl (by decide) (name ++ (": " ++ reason))
        (name ++ " (generic)") (by simpa only [String.append_assoc] using he)
    · exact append_ne_append (x := 'F') (y := 'O') rfl rfl (by decide) (name ++ (": " ++ reason))
        name (by simpa only [String.append_assoc] using he)

theorem exists_file (hload : Catalog.load path text? = .ok c) :
    ∃ f : CatalogFile, CatalogFile.load path text? = .ok f ∧
      f.registerInto .initial = (.ok (), c) := by
  rw [Catalog.load] at hload
  obtain ⟨f, hf, hload⟩ := Except.exists_of_bind hload
  split at hload
  · rename_i hregister
    cases hload
    exact ⟨f, hf, hregister⟩
  · cases hload

/-- The report on a catalogue has a line for each type that the file declares, in the order of
names. It skips the types with parameters and says of any other whether the command that exports
its schema succeeds, as it does of types checked in another order and with others left out. -/
theorem check_agrees (hload : Catalog.load path text? = .ok c)
    (hcalls : ∀ name ∈ c.userTypes, isGeneric c name = false →
      (c.reference s).Affordable calls ⟨name, []⟩) :
    (∃ f, CatalogFile.load path text? = .ok f ∧ c.userTypes.Perm f.typeNames ∧
      ∀ e ∈ f.entries, isGeneric c e.name = true ↔ e.params ≠ []) ∧
    c.userTypes.Pairwise (· < ·) ∧
    (∃ report, checkWithin calls path text? s = .ok report ∧
      List.Forall₂ (Judged calls path text? s c) c.userTypes report.lines ∧
      report.resolved + report.skipped + report.failures = c.userTypes.length ∧
      report.skipped = c.userTypes.countP (isGeneric c)) ∧
    (∀ names, (∀ name ∈ names, name ∈ c.userTypes) →
      ∃ report, checkTypesWithin calls c s (registry c s) {} names = .ok report ∧
        List.Forall₂ (Judged calls path text? s c) names report.lines) ∧
    check = checkWithin callLimit ∧ schema = schemaWithin callLimit := by
  obtain ⟨f, hf, hregister⟩ := exists_file hload
  have hshallow : c.Shallow := by
    have hfile := Catalog.shallow_ofFiles [f]
    rwa [Catalog.ofFiles, List.foldl_cons, hregister] at hfile
  have hcatalog : openCatalog path text? = .ok c := by rw [openCatalog, hload, Except.mapError_ok]
  have hreport (names : List TypeName) (hn : ∀ name ∈ names, name ∈ c.userTypes) :
      ∃ report, checkTypesWithin calls c s (registry c s) {} names = .ok report ∧
        List.Forall₂ (Judged calls path text? s c) names report.lines ∧
        report.resolved + report.skipped + report.failures = names.length ∧
        report.skipped = names.countP (isGeneric c) := by
    obtain ⟨lines, resolved, failures, hrun, hlines, hsum⟩ := exists_report hshallow
      (fun name hname => hcalls name (hn name hname)) (intact_initial c.host s) {}
    refine ⟨_, hrun, ?_, by simpa using hsum, by simp⟩
    rw [List.nil_append]
    refine ((List.forall₂_and_left _ _).2 ⟨fun _ hname => hname, hlines⟩).imp ?_
    rintro name line ⟨hname, hline⟩
    exact hline.judged hshallow hload (hcalls name (hn name hname))
  refine ⟨⟨f, hf, Catalog.perm_userTypes hregister, fun e he => ?_⟩,
    Catalog.pairwise_userTypes hregister, ?_, fun names hn => ?_, check_eq, schema_eq⟩
  · obtain ⟨d, hd, hparams⟩ := Catalog.definition?_of_mem hregister he
    simp [isGeneric, hd, hparams]
  · obtain ⟨report, hrun, hall⟩ := hreport c.userTypes fun _ h => h
    refine ⟨report, ?_, hall⟩
    rw [checkWithin, hcatalog, Except.ok_bind, hrun]
    rfl
  · obtain ⟨report, hrun, hlines, -⟩ := hreport names hn
    exact ⟨report, hrun, hlines⟩

end Agreement

end Command

/-- A catalogue with an enum, a record with a parameter and one whose map has records as keys. -/
def CatalogFile.volume : CatalogFile where
  records := [
    { name := "Page", params := ["T"] },
    { name := "Index", properties := [{ name := "pages", type := "Map<Page<int>, int>" }] }]
  enums := [{ name := "Color", members := [.plain "RED"] }]

def CatalogFile.volumeText : String :=
  "\x7b\"records\":[\x7b\"name\":\"Page\",\"params\":[\"T\"]\x7d," ++
  "\x7b\"name\":\"Index\"," ++
  "\"properties\":[\x7b\"name\":\"pages\",\"type\":\"Map<Page<int>, int>\"\x7d]\x7d]," ++
  "\"enums\":[\x7b\"name\":\"Color\",\"members\":[\"RED\"]\x7d]\x7d"

theorem CatalogFile.load_volume :
    CatalogFile.load "volume.json" (some volumeText) = .ok volume := by decide +kernel

def Catalog.volume : Catalog := .ofFiles [.volume]

theorem Catalog.register_volume : CatalogFile.volume.registerInto .initial = (.ok (), volume) :=
  Prod.ext (by rfl) rfl

theorem Catalog.load_volume :
    Catalog.load "volume.json" (some CatalogFile.volumeText) = .ok volume := by
  rw [Catalog.load, CatalogFile.load_volume, Except.ok_bind, register_volume]

theorem Catalog.layouts_volume :
    volume.layout "Index" = .ok (.record
      { constructor := .record "Index" ["pages"]
        properties := [
          { name := "pages"
            type := .apply "Map" [.apply "Page" [.apply "int" []], .apply "int" []]
            binding := .slot 0, accessor := .field "pages" }] }) ∧
    volume.layout "Page" = .ok (.record { constructor := .record "Page" [], properties := [] }) ∧
    (∃ members, volume.layout "Color" = .ok (.enumeration members)) ∧
    volume.layout "Map" = .ok (.map (.param 0) (.param 1)) ∧
    volume.layout "int" = .ok (.atomic .int) :=
  ⟨rfl, rfl, ⟨_, rfl⟩, rfl, rfl⟩

theorem Reference.within_volume {name : TypeName} (hname : name = "Color" ∨ name = "Index") :
    (Catalog.volume.reference {}).Within 6 ⟨name, []⟩ := by
  let all : Finset TypeTerm :=
    {⟨"Color", []⟩, ⟨"Index", []⟩, ⟨"Map", [⟨"Page", [⟨"int", []⟩]⟩, ⟨"int", []⟩]⟩,
      ⟨"Page", [⟨"int", []⟩]⟩, ⟨"int", []⟩}
  have hcanonical : ∀ t ∈ all, Settings.canonical {} t ∈ all := by
    simp [all, Settings.canonical, TypeTerm.isGeneric]
  have hall : ⟨name, []⟩ ∈ all := by rcases hname with rfl | rfl <;> simp [all]
  suffices hparts : ∀ k ∈ all, ∀ part, (Catalog.volume.reference {}).Needs k part → part ∈ all from
    within_of_closed hparts (hcanonical _ hall) (by decide)
  rintro k hk part ⟨-, layout, scheme, target, hl, hs, hi, rfl⟩
  obtain ⟨hindex, hpage, ⟨members, hcolor⟩, hmap, hint⟩ := Catalog.layouts_volume
  refine hcanonical _ ?_
  replace hl : Catalog.volume.layout k.head = .ok layout := Option.some.inj hl
  simp only [all, Finset.mem_insert, Finset.mem_singleton] at hk
  rcases hk with rfl | rfl | rfl | rfl | rfl
  · cases hcolor.symm.trans hl
    cases hs
  · cases hindex.symm.trans hl
    cases List.mem_singleton.1 hs
    cases hi
    simp [all]
  · cases hmap.symm.trans hl
    rcases List.mem_pair.1 hs with rfl | rfl <;> cases hi <;> simp [all]
  · cases hpage.symm.trans hl
    cases hs
  · cases hint.symm.trans hl
    cases hs

theorem Catalog.userTypes_volume : volume.userTypes = ["Color", "Index", "Page"] := by
  have hperm : volume.userTypes.Perm ["Color", "Index", "Page"] :=
    (perm_userTypes register_volume).trans (by decide +kernel)
  exact List.Perm.eq_of_pairwise (fun _ _ _ _ hab hba => absurd hab (String.lt_asymm hba))
    (pairwise_userTypes register_volume) (by decide) hperm

theorem Command.check_agrees_volume :
    Catalog.load "volume.json" (some CatalogFile.volumeText) = .ok .volume ∧
    (∀ name ∈ Catalog.volume.userTypes, isGeneric .volume name = false →
      (Catalog.volume.reference {}).Affordable callLimit ⟨name, []⟩) ∧
    ∃ report, check "volume.json" (some CatalogFile.volumeText) {} = .ok report ∧
      List.Forall₂ (Judged callLimit "volume.json" (some CatalogFile.volumeText) {} .volume)
        ["Color", "Index", "Page"] report.lines ∧
      report.resolved + report.failures = 2 ∧ report.skipped = 1 := by
  have hgeneric : isGeneric .volume "Page" = true := by decide +kernel
  have hcalls : ∀ name ∈ Catalog.volume.userTypes, isGeneric .volume name = false →
      (Catalog.volume.reference {}).Affordable callLimit ⟨name, []⟩ := by
    intro name hname hplain
    have hin : name = "Color" ∨ name = "Index" := by
      simp only [Catalog.userTypes_volume, List.mem_cons, List.not_mem_nil, or_false] at hname
      rcases hname with rfl | rfl | rfl
      · exact .inl rfl
      · exact .inr rfl
      · cases hgeneric.symm.trans hplain
    have h := Reference.Affordable.of_within (Reference.within_volume hin)
      (by decide : _ ≤ callLimit)
    rwa [Settings.canonical_simple] at h
  obtain ⟨-, -, ⟨report, hrun, hlines, hsum, hskipped⟩, -, hcheck, -⟩ :=
    check_agrees Catalog.load_volume hcalls
  have hcount : ["Color", "Index", "Page"].countP (isGeneric .volume) = 1 := by decide +kernel
  rw [Catalog.userTypes_volume] at hlines hsum hskipped
  rw [hskipped, hcount] at hsum
  refine ⟨Catalog.load_volume, hcalls, report, hcheck ▸ hrun, hlines, ?_, hskipped.trans hcount⟩
  simp only [List.length_cons, List.length_nil] at hsum
  omega

end Typewire
