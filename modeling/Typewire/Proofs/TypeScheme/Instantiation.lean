import Mathlib.Data.List.Forall2
import Mathlib.Order.MinMax
import Mathlib.Tactic.Common
import Typewire.Proofs.Except
import Typewire.TypeScheme

/-! # Instantiation is simultaneous substitution

A text that is read with parameters and given arguments is the term of the text with arguments in
the place of parameters. The parameters of a term are found among its leaves, in the order of the
text, so the first of them that has no argument is the one that is reported.
-/

namespace Typewire

def FirstAt (params : List String) (name : String) (index : Nat) : Prop :=
  params[index]? = some name ∧ ∀ earlier < index, params[earlier]? ≠ some name

theorem firstAt_iff {params : List String} {name : String} {index : Nat} :
    FirstAt params name index ↔ params.idxOf? name = some index := by
  rw [List.idxOf?_eq_some_iff, FirstAt, List.getElem?_eq_some_iff]
  constructor
  · rintro ⟨⟨h, hat⟩, hfirst⟩
    refine ⟨h, hat, fun earlier he hname => hfirst earlier he ?_⟩
    exact List.getElem?_eq_some_iff.2 ⟨Nat.lt_trans he h, hname⟩
  · rintro ⟨h, hat, hfirst⟩
    refine ⟨⟨h, hat⟩, fun earlier he hsome => ?_⟩
    obtain ⟨_, hname⟩ := List.getElem?_eq_some_iff.1 hsome
    exact hfirst earlier he hname

namespace TypeTerm

variable {params : List String} {args : List TypeTerm}

mutual

/-- The names that have no arguments, from left to right. -/
def leaves : TypeTerm → List TypeName
  | ⟨head, []⟩ => [head]
  | ⟨_, arg :: args⟩ => leaves arg ++ leavesAll args

def leavesAll : List TypeTerm → List TypeName
  | [] => []
  | t :: ts => leaves t ++ leavesAll ts

end

/-- Arguments have taken the places of parameters, which are names without arguments, and all else
has stayed. -/
inductive Substituted (params : List String) (args : List TypeTerm) : TypeTerm → TypeTerm → Prop
  | param {name : TypeName} {index : Nat} {arg : TypeTerm} : FirstAt params name index →
      args[index]? = some arg → Substituted params args ⟨name, []⟩ arg
  | name {name : TypeName} : name ∉ params → Substituted params args ⟨name, []⟩ ⟨name, []⟩
  | apply {head : TypeName} {ts us : List TypeTerm} : ts ≠ [] →
      List.Forall₂ (Substituted params args) ts us → Substituted params args ⟨head, ts⟩ ⟨head, us⟩

/-- The leftmost parameter that no argument is given for is the one at the index. -/
def FirstUnbound (params : List String) (args : List TypeTerm) (t : TypeTerm) (index : Nat) :
    Prop :=
  ∃ before name after, t.leaves = before ++ name :: after ∧ FirstAt params name index ∧
    args.length ≤ index ∧ ∀ n ∈ before, ∀ i, FirstAt params n i → i < args.length

mutual

theorem substituted_self : (t : TypeTerm) → (∀ name ∈ t.leaves, name ∉ params) →
    Substituted params args t t
  | ⟨head, []⟩, h => .name (h head (by simp [leaves]))
  | ⟨head, arg :: rest⟩, h => by
    refine .apply (List.cons_ne_nil arg rest) (substitutedAll_self (arg :: rest) ?_)
    simpa [leaves, leavesAll] using h

theorem substitutedAll_self : (ts : List TypeTerm) → (∀ name ∈ leavesAll ts, name ∉ params) →
    List.Forall₂ (Substituted params args) ts ts
  | [], _ => .nil
  | t :: ts, h => by
    rw [leavesAll, List.forall_mem_append] at h
    exact .cons (substituted_self t h.1) (substitutedAll_self ts h.2)

end

end TypeTerm

namespace TypeScheme

open TypeTerm

variable {params : List String} {args : List TypeTerm} {e : UnboundParameter}

mutual

def holes : TypeScheme → List Nat
  | param index => [index]
  | apply _ args => holesAll args

def holesAll : List TypeScheme → List Nat
  | [] => []
  | s :: ss => holes s ++ holesAll ss

end

mutual

theorem maxParam_lt_iff {n : Nat} : (s : TypeScheme) →
    ((∀ index, s.maxParam = some index → index < n) ↔ ∀ index ∈ s.holes, index < n)
  | param index => by simp [maxParam, holes]
  | apply _ args => by
    rw [maxParam, holes]
    exact maxParamAll_lt_iff args

theorem maxParamAll_lt_iff {n : Nat} : (ss : List TypeScheme) →
    ((∀ index, maxParamAll ss = some index → index < n) ↔ ∀ index ∈ holesAll ss, index < n)
  | [] => by simp [maxParamAll, holesAll]
  | s :: ss => by
    rw [maxParamAll, holesAll, List.forall_mem_append, ← maxParam_lt_iff s,
      ← maxParamAll_lt_iff ss]
    cases s.maxParam <;> cases maxParamAll ss <;> simp

end

def unbound? (args : List TypeTerm) (holes : List Nat) : Option Nat :=
  holes.find? fun index => args.length ≤ index

mutual

theorem exists_instantiate (args : List TypeTerm) : (s : TypeScheme) → ∃ t, s.instantiate args =
    (unbound? args s.holes).elim (.ok t) fun index => .error ⟨index, args.length⟩
  | param index => by
    cases hat : args[index]? with
    | none =>
      have hle := List.getElem?_eq_none_iff.1 hat
      exact ⟨default, by simp [instantiate, holes, unbound?, hle]⟩
    | some arg =>
      obtain ⟨hlt, -⟩ := List.getElem?_eq_some_iff.1 hat
      refine ⟨arg, ?_⟩
      simp only [instantiate, hat]
      simp [holes, unbound?, hlt]
  | apply head inner => by
    obtain ⟨ts, hts⟩ := exists_instantiateAll args inner
    refine ⟨⟨head, ts⟩, ?_⟩
    rw [instantiate, holes, hts]
    cases unbound? args (holesAll inner) <;> rfl

theorem exists_instantiateAll (args : List TypeTerm) : (ss : List TypeScheme) →
    ∃ ts, instantiateAll args ss =
      (unbound? args (holesAll ss)).elim (.ok ts) fun index => .error ⟨index, args.length⟩
  | [] => ⟨[], rfl⟩
  | s :: ss => by
    obtain ⟨t, ht⟩ := exists_instantiate args s
    obtain ⟨ts, hts⟩ := exists_instantiateAll args ss
    refine ⟨t :: ts, ?_⟩
    rw [instantiateAll, holesAll, unbound?, List.find?_append, ← unbound?, ← unbound?, ht, hts]
    cases unbound? args s.holes with
    | some index => rfl
    | none => cases unbound? args (holesAll ss) <;> rfl

end

theorem instantiate_eq_error_iff {s : TypeScheme} : s.instantiate args = .error e ↔
    e.arity = args.length ∧ unbound? args s.holes = some e.index := by
  obtain ⟨t, ht⟩ := exists_instantiate args s
  obtain ⟨index, arity⟩ := e
  rw [ht]
  cases unbound? args s.holes <;> simp [and_comm, eq_comm]

theorem exists_instantiate_iff {s : TypeScheme} :
    (∃ t, s.instantiate args = .ok t) ↔ ∀ index ∈ s.holes, index < args.length := by
  obtain ⟨t, ht⟩ := exists_instantiate args s
  have hnone : unbound? args s.holes = none ↔ ∀ index ∈ s.holes, index < args.length := by
    simp [unbound?]
  rw [ht, ← hnone]
  cases unbound? args s.holes <;> simp

mutual

theorem holes_ofTerm (params : List String) : (t : TypeTerm) →
    (ofTerm params t).holes = t.leaves.filterMap params.idxOf?
  | ⟨head, []⟩ => by
    rw [ofTerm, leaves]
    cases hi : params.idxOf? head <;> simp [holes, holesAll, hi]
  | ⟨head, arg :: rest⟩ => by
    rw [ofTerm, leaves, holes, holesAll, holes_ofTerm params arg, holesAll_ofTerms params rest,
      List.filterMap_append]

theorem holesAll_ofTerms (params : List String) : (ts : List TypeTerm) →
    holesAll (ofTerms params ts) = (leavesAll ts).filterMap params.idxOf?
  | [] => rfl
  | t :: ts => by
    rw [ofTerms, holesAll, leavesAll, holes_ofTerm params t, holesAll_ofTerms params ts,
      List.filterMap_append]

end

theorem unbound?_eq_some_iff {t : TypeTerm} {index : Nat} :
    unbound? args (ofTerm params t).holes = some index ↔ FirstUnbound params args t index := by
  have hbound : ∀ name, (params.idxOf? name).any (fun index => args.length ≤ index) = false ↔
      ∀ i, FirstAt params name i → i < args.length := by
    intro name
    simp only [firstAt_iff]
    cases params.idxOf? name <;> simp
  rw [unbound?, holes_ofTerm, List.find?_filterMap, Option.bind_eq_some_iff]
  constructor
  · rintro ⟨name, hfind, hindex⟩
    obtain ⟨hany, before, after, hleaves, hbefore⟩ := List.find?_eq_some_iff_append.1 hfind
    rw [hindex] at hany
    refine ⟨before, name, after, hleaves, firstAt_iff.2 hindex, by simpa using hany, ?_⟩
    exact fun n hn => (hbound n).1 (by simpa using hbefore n hn)
  · rintro ⟨before, name, after, hleaves, hfirst, hle, hbefore⟩
    have hindex := firstAt_iff.1 hfirst
    refine ⟨name, List.find?_eq_some_iff_append.2 ⟨?_, before, after, hleaves, fun n hn => ?_⟩,
      hindex⟩
    · simp [hindex, hle]
    · simpa using (hbound n).2 (hbefore n hn)

mutual

theorem instantiate_ofTerm_iff {u : TypeTerm} : (t : TypeTerm) →
    ((ofTerm params t).instantiate args = .ok u ↔ Substituted params args t u)
  | ⟨head, []⟩ => by
    rw [ofTerm]
    cases hi : params.idxOf? head with
    | none =>
      have hnot := List.idxOf?_eq_none_iff.1 hi
      constructor
      · rintro ⟨⟩
        exact .name hnot
      · intro h
        cases h with
        | param hfirst _ =>
          rw [firstAt_iff.1 hfirst] at hi
          cases hi
        | name _ => rfl
        | apply hne _ => exact absurd rfl hne
    | some index =>
      -- The name is a parameter, so the other ways of substitution do not apply.
      have hfirst := firstAt_iff.2 hi
      constructor
      · intro h
        refine .param hfirst ?_
        simp only [instantiate] at h
        split at h
        · cases h
          assumption
        · cases h
      · intro h
        cases h with
        | param hfirst' hat =>
          obtain rfl := Option.some.inj (hi.symm.trans (firstAt_iff.1 hfirst'))
          simp only [instantiate, hat]
        | name hnot => exact absurd (List.mem_of_getElem? hfirst.1) hnot
        | apply hne _ => exact absurd rfl hne
  | ⟨head, arg :: rest⟩ => by
    have hall : ∀ us, instantiateAll args (ofTerms params (arg :: rest)) = .ok us ↔
        List.Forall₂ (Substituted params args) (arg :: rest) us :=
      fun _ => instantiateAll_ofTerms_iff (arg :: rest)
    rw [ofTerms] at hall
    rw [ofTerm, instantiate]
    constructor
    · intro h
      obtain ⟨us, hus, rfl⟩ := Except.exists_of_map h
      exact .apply (List.cons_ne_nil arg rest) ((hall us).1 hus)
    · intro h
      cases h with
      | apply _ hus =>
        rw [(hall _).2 hus]
        rfl

theorem instantiateAll_ofTerms_iff {us : List TypeTerm} : (ts : List TypeTerm) →
    (instantiateAll args (ofTerms params ts) = .ok us ↔
      List.Forall₂ (Substituted params args) ts us)
  | [] => by
    rw [List.forall₂_nil_left_iff]
    constructor
    · rintro ⟨⟩
      rfl
    · rintro rfl
      rfl
  | t :: ts => by
    rw [List.forall₂_cons_left_iff, ofTerms, instantiateAll]
    constructor
    · intro h
      obtain ⟨u, hu, h⟩ := Except.exists_of_bind h
      obtain ⟨us, hus, ⟨⟩⟩ := Except.exists_of_bind h
      exact ⟨u, us, (instantiate_ofTerm_iff t).1 hu, (instantiateAll_ofTerms_iff ts).1 hus, rfl⟩
    · rintro ⟨u, us, hu, hus, rfl⟩
      rw [(instantiate_ofTerm_iff t).2 hu, (instantiateAll_ofTerms_iff ts).2 hus]
      rfl

end

/-- The term of a text with parameters is filled with arguments just if the greatest parameter has
one. What comes out is the term of the text with the arguments in the place of the parameters. If
it cannot be filled, the leftmost parameter without an argument is reported, with the number of
arguments. Without parameters the term comes out as it is. -/
theorem instantiate_exact {s : String} {t : TypeTerm} (h : TypeTerm.read s = .ok t)
    (params : List String) (args : List TypeTerm) :
    ∃ scheme, TypeScheme.read params s = .ok scheme ∧
      (∀ u, scheme.instantiate args = .ok u ↔ Substituted params args t u) ∧
      ((∃ u, scheme.instantiate args = .ok u) ↔
        ∀ index, scheme.maxParam = some index → index < args.length) ∧
      (∀ e, scheme.instantiate args = .error e ↔
        e.arity = args.length ∧ FirstUnbound params args t e.index) ∧
      (params = [] → scheme.instantiate args = .ok t) := by
  refine ⟨ofTerm params t, ?_, fun u => instantiate_ofTerm_iff t, ?_, fun e => ?_, ?_⟩
  · rw [TypeScheme.read, h]
    rfl
  · rw [exists_instantiate_iff, maxParam_lt_iff]
  · rw [instantiate_eq_error_iff, unbound?_eq_some_iff]
  · rintro rfl
    exact (instantiate_ofTerm_iff t).2 (substituted_self t fun _ _ => List.not_mem_nil)

/-- The first of two parameters of one name counts, also where it stands before arguments, which it
keeps. Nothing is replaced in what was put in. -/
theorem instantiate_exact_pair :
    ∃ scheme, TypeScheme.read ["K", "V", "K"] "Pair<K, K<V, W>, List<V>>" = .ok scheme ∧
      scheme.instantiate [⟨"Box", [⟨"V", []⟩]⟩, ⟨"K", []⟩] =
        .ok ⟨"Pair", [⟨"Box", [⟨"V", []⟩]⟩, ⟨"K", [⟨"K", []⟩, ⟨"W", []⟩]⟩, ⟨"List", [⟨"K", []⟩]⟩]⟩ ∧
      scheme.instantiate [⟨"Box", [⟨"V", []⟩]⟩] = .error ⟨1, 1⟩ := by
  have hread : TypeTerm.read "Pair<K, K<V, W>, List<V>>" =
      .ok ⟨"Pair", [⟨"K", []⟩, ⟨"K", [⟨"V", []⟩, ⟨"W", []⟩]⟩, ⟨"List", [⟨"V", []⟩]⟩]⟩ := by
    decide +kernel
  have hk : FirstAt ["K", "V", "K"] "K" 0 := ⟨rfl, nofun⟩
  have hv : FirstAt ["K", "V", "K"] "V" 1 := ⟨rfl, by decide⟩
  obtain ⟨scheme, hscheme, hsub, -⟩ := instantiate_exact hread ["K", "V", "K"]
    [⟨"Box", [⟨"V", []⟩]⟩, ⟨"K", []⟩]
  obtain ⟨scheme', hscheme', -, -, herror, -⟩ := instantiate_exact hread ["K", "V", "K"]
    [⟨"Box", [⟨"V", []⟩]⟩]
  obtain rfl : scheme = scheme' := Except.ok.inj (hscheme.symm.trans hscheme')
  refine ⟨scheme, hscheme, (hsub _).2 ?_, (herror _).2 ⟨rfl, ?_⟩⟩
  · refine .apply nofun
      (.cons (.param hk rfl) (.cons (.apply nofun ?_) (.cons (.apply nofun ?_) .nil)))
    · exact .cons (.param hv rfl) (.cons (.name (by decide)) .nil)
    · exact .cons (.param hv rfl) .nil
  · refine ⟨["K"], "V", ["W", "V"], rfl, hv, Nat.le_refl 1, fun n hn i hi => ?_⟩
    obtain rfl := List.mem_singleton.1 hn
    exact Nat.lt_of_not_le fun hle => hi.2 0 hle rfl

end TypeScheme

end Typewire
