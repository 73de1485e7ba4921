import Typewire.Proofs.Registry.Request

/-! # Derivations from layouts

The queries by which codecs are derived from layouts are honest, and they do not recover.
-/

namespace Typewire.Deriving

variable {recovers : Bool} {held : List CodecRef} {term : TypeTerm}

def proceed {α : Type} (next : α → Deriving Codec) :
    Except RegistryError α → Ask (Except RegistryError Codec)
  | .ok a => (next a).run
  | .error e => .answer (.error e)

def HonestAfter (recovers : Bool) (held : List CodecRef) {α : Type} (refs : α → List CodecRef)
    (next : α → Deriving Codec) : Prop :=
  ∀ a held', (∀ ref ∈ held, ref ∈ held') → (∀ ref ∈ refs a, ref ∈ held') →
    Query.Honest recovers true held' (next a).run

theorem run_lookup_bind (target : TypeTerm) (next : CodecRef → Deriving Codec) :
    ((ExceptT.mk (Ask.lookup target) : Deriving CodecRef) >>= next).run =
      Query.lookup target (proceed next) := by
  change Query.lookup target _ = _
  congr 1
  funext r
  cases r <;> rfl

theorem honest_lookup_bind {target : TypeTerm} {next : CodecRef → Deriving Codec}
    (h : HonestAfter recovers held (fun ref => [ref]) next) :
    Query.Honest recovers true held
      ((ExceptT.mk (Ask.lookup target) : Deriving CodecRef) >>= next).run := by
  rw [run_lookup_bind]
  refine .lookup (fun e => .refuse e) fun ref => ?_
  exact h ref (ref :: held) (fun _ hr => List.mem_cons_of_mem _ hr) (by simp)

theorem run_nested_bind (scheme : TypeScheme) (next : CodecRef → Deriving Codec) :
    (nested term scheme >>= next).run =
      match scheme.instantiate term.args with
      | .ok target => ((ExceptT.mk (Ask.lookup target) : Deriving CodecRef) >>= next).run
      | .error e => .answer (.error (.unbound e)) := by
  unfold nested
  cases scheme.instantiate term.args <;> rfl

theorem honest_nested_bind {scheme : TypeScheme} {next : CodecRef → Deriving Codec}
    (h : HonestAfter recovers held (fun ref => [ref]) next) :
    Query.Honest recovers true held (nested term scheme >>= next).run := by
  rw [run_nested_bind]
  split
  · exact honest_lookup_bind h
  · exact .refuse _

theorem honest_ofFault_bind {α : Type} {r : Except LayoutFault α} {next : α → Deriving Codec}
    (h : ∀ a, Query.Honest recovers true held (next a).run) :
    Query.Honest recovers true held (ofFault term r >>= next).run := by
  cases r with
  | ok a => exact h a
  | error fault => exact .refuse _

theorem honest_fields_bind (ps : List Property) {next : List FieldCodec → Deriving Codec}
    (h : HonestAfter recovers held (fun fs => fs.map FieldCodec.codec) next) :
    Query.Honest recovers true held (fields term ps >>= next).run := by
  induction ps generalizing held next with
  | nil => exact h [] held (fun _ hr => hr) (by simp)
  | cons p ps ih =>
    rw [fields, bind_assoc]
    refine honest_nested_bind fun ref held' hsub href => ?_
    rw [bind_assoc]
    refine ih fun fs held'' hsub' hfs => ?_
    rw [pure_bind]
    refine h _ held'' (fun r hr => hsub' r (hsub r hr)) fun r hr => ?_
    rcases List.mem_cons.1 hr with rfl | hr
    · exact hsub' _ (href _ (by simp))
    · exact hfs r hr

theorem honest_branches_bind (vs : List Variant) (seen : List String)
    {next : List BranchCodec → Deriving Codec}
    (h : HonestAfter recovers held (fun bs => bs.map BranchCodec.codec) next) :
    Query.Honest recovers true held (branches term seen vs >>= next).run := by
  induction vs generalizing seen held next with
  | nil => exact h [] held (fun _ hr => hr) (by simp)
  | cons v vs ih =>
    rw [branches]
    split
    · exact .refuse _
    · split
      · exact .refuse _
      · rw [bind_assoc]
        refine honest_lookup_bind fun ref held' hsub href => ?_
        rw [bind_assoc]
        refine ih _ fun bs held'' hsub' hbs => ?_
        rw [pure_bind]
        refine h _ held'' (fun r hr => hsub' r (hsub r hr)) fun r hr => ?_
        rcases List.mem_cons.1 hr with rfl | hr
        · exact hsub' _ (href _ (by simp))
        · exact hbs r hr

theorem honest_ofLayout (settings : Settings) (term : TypeTerm) (layout : Layout) :
    Query.Honest recovers true held (ofLayout settings term layout).run := by
  cases layout with
  | atomic kind => exact .give (.inl rfl) (by simp [Codec.refs])
  | record layout =>
    refine honest_ofFault_bind fun _ => ?_
    refine honest_fields_bind _ fun fs held' _ hfs => ?_
    exact .give (.inl rfl) hfs
  | sequence container element =>
    refine honest_nested_bind fun ref held' _ href => ?_
    exact .give (.inl rfl) href
  | map key value =>
    refine honest_nested_bind fun k held' _ hk => ?_
    refine honest_nested_bind fun v held'' hsub hv => ?_
    refine .give (.inl rfl) fun r hr => ?_
    rcases List.mem_cons.1 hr with rfl | hr
    · exact hsub _ (hk _ (by simp))
    · exact hv r hr
  | enumeration layout =>
    refine honest_ofFault_bind fun _ => ?_
    exact .give (.inl rfl) (by simp [Codec.refs])
  | union layout =>
    rw [ofLayout]
    split
    · exact .refuse _
    · refine honest_branches_bind _ _ fun bs held' _ hbs => ?_
      exact .give (.inl rfl) hbs
  | foreign => exact .refuse _

/-- What is derived from a layout holds only references that the derivation looked up. -/
theorem honest_ofTerm (settings : Settings) (term : TypeTerm) :
    Query.Honest recovers true [] (ofTerm settings term).run := by
  change Query.Honest recovers true [] (Query.layout term.head _)
  refine .layout fun r => ?_
  cases r with
  | error e => exact .refuse e
  | ok layout => exact honest_ofLayout settings term layout

end Typewire.Deriving
