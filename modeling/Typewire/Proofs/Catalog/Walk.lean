import Typewire.Proofs.Catalog.Subtype

/-! # Walks along declared supertypes

A walk looks at one type after the other and puts the supertypes of a type that it has not seen
before on a stack. Each declared edge is taken from its type once, so a walk ends even where edges
lead in circles. It then knows whether edges lead from its first type to the type it looks for.
-/

namespace Typewire

theorem Value.runtimeType?_eq_some_iff {v : Value} {type : TypeName} :
    v.runtimeType? = some type ↔
      (∃ member, v = .enum type member) ∨ ∃ fields, v = .object type fields := by
  cases v <;> simp [runtimeType?]

namespace Catalog

/-- The types to look at, the next one first, and the types that were looked at. -/
structure Walk where
  stack : List TypeName
  seen : List TypeName
  deriving DecidableEq, Repr

variable {edges : List (TypeName × TypeName)} {sub sup type next : TypeName}

def parents (edges : List (TypeName × TypeName)) (type : TypeName) : List TypeName :=
  (edges.filter fun e => e.1 = type).map Prod.snd

theorem mem_parents : next ∈ parents edges type ↔ (type, next) ∈ edges := by
  simp [parents]

namespace Walk

variable {w w' : Walk}

def start (type : TypeName) : Walk := ⟨[type], []⟩

/-- Look at the next type: the answer, or where the walk stands then. -/
def step (edges : List (TypeName × TypeName)) (sup : TypeName) : Walk → Bool ⊕ Walk
  | ⟨[], _⟩ => .inl false
  | ⟨type :: stack, seen⟩ =>
    if type = sup then .inl true
    else if seen.contains type then .inr ⟨stack, seen⟩
    else .inr ⟨parents edges type ++ stack, type :: seen⟩

def run (edges : List (TypeName × TypeName)) (sup : TypeName) : Nat → Walk → Option Bool
  | 0, _ => none
  | looks + 1, w =>
    match w.step edges sup with
    | .inl answer => some answer
    | .inr w => run edges sup looks w

theorem cases_of_answer {answer : Bool} (h : w.step edges sup = .inl answer) :
    (w.stack = [] ∧ answer = false) ∨ ∃ stack, w.stack = sup :: stack ∧ answer = true := by
  rcases w with ⟨_ | ⟨type, stack⟩, seen⟩
  · exact .inl ⟨rfl, (Sum.inl.inj h).symm⟩
  · rw [step] at h
    split at h
    · subst type
      exact .inr ⟨stack, rfl, (Sum.inl.inj h).symm⟩
    · split at h <;> cases h

theorem cases_of_step (h : w.step edges sup = .inr w') :
    ∃ type stack, w.stack = type :: stack ∧ type ≠ sup ∧
      (type ∈ w.seen ∧ w' = ⟨stack, w.seen⟩ ∨
        type ∉ w.seen ∧ w' = ⟨parents edges type ++ stack, type :: w.seen⟩) := by
  rcases w with ⟨_ | ⟨type, stack⟩, seen⟩
  · cases h
  · rw [step] at h
    split at h
    · cases h
    · rename_i hne
      refine ⟨type, stack, rfl, hne, ?_⟩
      split at h
      · rename_i hseen
        exact .inl ⟨List.contains_iff_mem.1 hseen, (Sum.inr.inj h).symm⟩
      · rename_i hnew
        exact .inr ⟨fun hm => hnew (List.contains_iff_mem.2 hm), (Sum.inr.inj h).symm⟩

/-- The types on the stack, and the edges from types that were not looked at. -/
def cost (edges : List (TypeName × TypeName)) (w : Walk) : Nat :=
  w.stack.length + (edges.filter fun e => !w.seen.contains e.1).length

theorem length_filter_cons (edges : List (TypeName × TypeName)) {seen : List TypeName}
    (h : type ∉ seen) :
    (parents edges type).length + (edges.filter fun e => !(type :: seen).contains e.1).length =
      (edges.filter fun e => !seen.contains e.1).length := by
  have hfrom : ((edges.filter fun e => !seen.contains e.1).filter fun e => e.1 = type) =
      edges.filter fun e => e.1 = type := by
    rw [List.filter_filter]
    refine List.filter_congr fun e _ => ?_
    by_cases he : e.1 = type <;> simp [he, h]
  have hother : ((edges.filter fun e => !seen.contains e.1).filter fun e => !decide (e.1 = type)) =
      edges.filter fun e => !(type :: seen).contains e.1 := by
    rw [List.filter_filter]
    refine List.filter_congr fun e _ => ?_
    by_cases he : e.1 = type <;> simp [he]
  rw [@List.length_eq_length_filter_add _ (edges.filter fun e => !seen.contains e.1)
    fun e => decide (e.1 = type), hfrom, hother, parents, List.length_map]

theorem cost_step (h : w.step edges sup = .inr w') : w'.cost edges + 1 = w.cost edges := by
  obtain ⟨type, stack, hstack, -, ⟨-, rfl⟩ | ⟨hnew, rfl⟩⟩ := cases_of_step h
  · simp only [cost, hstack, List.length_cons]
    omega
  · have hedges := length_filter_cons edges hnew
    simp only [cost, hstack, List.length_append, List.length_cons]
    omega

/-- What holds wherever a walk stands that looks for a type: edges from its first type lead to all
that is on the stack, and edges from what was looked at lead to what was or will be looked at. -/
structure Searches (edges : List (TypeName × TypeName)) (sub sup : TypeName) (w : Walk) : Prop where
  led : ∀ type ∈ w.stack, Leads edges sub type
  first : sub ∈ w.seen ∨ sub ∈ w.stack
  onward : ∀ type ∈ w.seen, ∀ next, (type, next) ∈ edges → next ∈ w.seen ∨ next ∈ w.stack
  missed : sup ∉ w.seen

theorem searches_start (edges : List (TypeName × TypeName)) (sub sup : TypeName) :
    Searches edges sub sup (start sub) where
  led type h := by
    obtain rfl := List.mem_singleton.1 h
    exact .refl
  first := .inr (List.mem_singleton_self sub)
  onward type h := by cases h
  missed := List.not_mem_nil

theorem known_of_step (h : w.step edges sup = .inr w') (hk : type ∈ w.seen ∨ type ∈ w.stack) :
    type ∈ w'.seen ∨ type ∈ w'.stack := by
  obtain ⟨t, stack, hstack, -, ⟨hseen, rfl⟩ | ⟨-, rfl⟩⟩ := cases_of_step h
  · rw [hstack, List.mem_cons] at hk
    rcases hk with hk | rfl | hk
    · exact .inl hk
    · exact .inl hseen
    · exact .inr hk
  · rw [hstack, List.mem_cons] at hk
    rcases hk with hk | rfl | hk
    · exact .inl (List.mem_cons_of_mem _ hk)
    · exact .inl List.mem_cons_self
    · exact .inr (List.mem_append_right _ hk)

theorem Searches.step (hw : Searches edges sub sup w) (h : w.step edges sup = .inr w') :
    Searches edges sub sup w' := by
  have hfirst := known_of_step h hw.first
  have honward : ∀ t ∈ w.seen, ∀ n, (t, n) ∈ edges → n ∈ w'.seen ∨ n ∈ w'.stack :=
    fun t ht n he => known_of_step h (hw.onward t ht n he)
  obtain ⟨t, stack, hstack, hne, ⟨-, rfl⟩ | ⟨-, rfl⟩⟩ := cases_of_step h
  · refine ⟨fun type ht => ?_, hfirst, honward, hw.missed⟩
    exact hw.led type (hstack ▸ List.mem_cons_of_mem _ ht)
  · refine ⟨fun type ht => ?_, hfirst, fun type ht n he => ?_, fun hm => ?_⟩
    · rcases List.mem_append.1 ht with ht | ht
      · exact .tail (hw.led t (hstack ▸ List.mem_cons_self)) (mem_parents.1 ht)
      · exact hw.led type (hstack ▸ List.mem_cons_of_mem _ ht)
    · rcases List.mem_cons.1 ht with rfl | ht
      · exact .inr (List.mem_append_left _ (mem_parents.2 he))
      · exact honward type ht n he
    · rcases List.mem_cons.1 hm with rfl | hm
      · exact hne rfl
      · exact hw.missed hm

theorem Searches.mem_seen (hw : Searches edges sub sup w) (hstack : w.stack = [])
    (h : Leads edges sub type) : type ∈ w.seen := by
  have hnone : ∀ t, t ∈ w.seen ∨ t ∈ w.stack → t ∈ w.seen := by
    rintro t (ht | ht)
    · exact ht
    · rw [hstack] at ht
      cases ht
  induction h with
  | refl => exact hnone _ hw.first
  | tail _ he ih => exact hnone _ (hw.onward _ ih _ he)

theorem Searches.answer {answer : Bool} (hw : Searches edges sub sup w)
    (h : w.step edges sup = .inl answer) : answer = true ↔ Leads edges sub sup := by
  rcases cases_of_answer h with ⟨hstack, rfl⟩ | ⟨stack, hstack, rfl⟩
  · exact iff_of_false nofun fun hl => hw.missed (hw.mem_seen hstack hl)
  · exact iff_of_true rfl (hw.led sup (hstack ▸ List.mem_cons_self))

theorem Searches.exists_run {looks : Nat} (hw : Searches edges sub sup w)
    (h : w.cost edges < looks) :
    ∃ answer, w.run edges sup looks = some answer ∧ (answer = true ↔ Leads edges sub sup) := by
  induction looks generalizing w with
  | zero => omega
  | succ looks ih =>
    cases hstep : w.step edges sup with
    | inl answer => exact ⟨answer, by rw [run, hstep], hw.answer hstep⟩
    | inr w' =>
      have := cost_step hstep
      obtain ⟨answer, hrun, hiff⟩ := ih (hw.step hstep) (by omega)
      exact ⟨answer, by rw [run, hstep]; exact hrun, hiff⟩

/-- A walk needs one look for each declared edge, one for its first type and one to find that
nothing is left. -/
theorem run_start (c : Catalog) (sub sup : TypeName) {looks : Nat}
    (h : c.supertypes.length + 2 ≤ looks) :
    (start sub).run c.supertypes sup looks = some (c.isSubtype sub sup) := by
  have hcost : (start sub).cost c.supertypes = 1 + c.supertypes.length := by
    simp [cost, start]
  have henough : (start sub).cost c.supertypes < looks := by omega
  obtain ⟨answer, hrun, hiff⟩ := (searches_start c.supertypes sub sup).exists_run henough
  rw [hrun, Option.some_inj, Bool.eq_iff_iff, hiff, isSubtype_iff]

end Walk

/-- A value is an instance of a type just if it is an enum member or an instance of a record and
declared edges lead from its own type there, whatever these edges are. A walk from its type comes to
an end and says so. A value whose type has no declared supertype is an instance of that type alone,
as for a host that declares none. -/
theorem isInstance_exact (c : Catalog) (v : Value) (t : TypeTerm) :
    (c.host.isInstance v t = true ↔
      ∃ type, ((∃ member, v = .enum type member) ∨ ∃ fields, v = .object type fields) ∧
        Leads c.supertypes type t.head) ∧
    (∀ type, v.runtimeType? = some type → ∀ looks, c.supertypes.length + 2 ≤ looks →
      (Walk.start type).run c.supertypes t.head looks = some (c.host.isInstance v t)) ∧
    ((∀ type, v.runtimeType? = some type → ∀ sup, (type, sup) ∉ c.supertypes) →
      c.host.isInstance v t = ({ layout := c.host.layout } : Host).isInstance v t) := by
  have hinstance : c.host.isInstance v t = true ↔
      ∃ type, v.runtimeType? = some type ∧ Leads c.supertypes type t.head := by
    simp only [host, isInstance, Option.any_eq_true, isSubtype_iff]
  refine ⟨?_, fun type hv looks hlooks => ?_, fun hnone => ?_⟩
  · simp only [hinstance, Value.runtimeType?_eq_some_iff]
  · rw [Walk.run_start c type t.head hlooks]
    simp only [host, isInstance, hv, Option.any_some]
  · rw [Bool.eq_iff_iff, hinstance, decide_eq_true_iff]
    constructor
    · rintro ⟨type, hv, hl⟩
      -- The first of several edges would start at the type of the value.
      rcases hl.cases_head with rfl | ⟨sup, hedge, -⟩
      · exact hv
      · exact absurd hedge (hnone type hv sup)
    · exact fun hv => ⟨t.head, hv, .refl⟩

/-- Squares are shapes in two ways, and shapes and polygons are each other's supertypes. -/
def tiled : Catalog :=
  { Catalog.initial with
    supertypes := [("Square", "Rhombus"), ("Shape", "Polygon"), ("Polygon", "Shape"),
      ("Rhombus", "Polygon"), ("Rectangle", "Polygon"), ("Square", "Rhombus"),
      ("Square", "Rectangle")] }

/-- A square is a shape and no circle. A circle is a circle alone, as nothing else is declared. -/
theorem isInstance_exact_tiled :
    tiled.host.isInstance (.object "Square" []) ⟨"Shape", []⟩ = true ∧
    tiled.host.isInstance (.object "Square" []) ⟨"Circle", []⟩ = false ∧
    (∀ type, Value.runtimeType? (.object "Circle" []) = some type →
      ∀ sup, (type, sup) ∉ tiled.supertypes) ∧
    tiled.host.isInstance (.object "Circle" []) ⟨"Shape", []⟩ = false := by
  have hcircle : ∀ type, Value.runtimeType? (.object "Circle" []) = some type →
      ∀ sup, (type, sup) ∉ tiled.supertypes := by
    rintro type ⟨⟩ sup hedge
    simp [tiled] at hedge
  refine ⟨?_, ?_, hcircle, ?_⟩
  · refine (isInstance_exact tiled (.object "Square" []) ⟨"Shape", []⟩).1.2
      ⟨"Square", .inr ⟨[], rfl⟩, ?_⟩
    have hrhombus : ("Square", "Rhombus") ∈ tiled.supertypes := by simp [tiled]
    have hpolygon : ("Rhombus", "Polygon") ∈ tiled.supertypes := by simp [tiled]
    have hshape : ("Polygon", "Shape") ∈ tiled.supertypes := by simp [tiled]
    exact .head hrhombus (.head hpolygon (.single hshape))
  · have hrun := (isInstance_exact tiled (.object "Square" []) ⟨"Circle", []⟩).2.1 "Square" rfl 9
      (Nat.le_refl _)
    have hanswer : (Walk.start "Square").run tiled.supertypes "Circle" 9 = some false := by
      decide
    rw [hanswer] at hrun
    exact (Option.some.inj hrun).symm
  · exact (isInstance_exact tiled (.object "Circle" []) ⟨"Shape", []⟩).2.2 hcircle

end Catalog

end Typewire
