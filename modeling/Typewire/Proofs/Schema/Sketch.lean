import Typewire.Proofs.Schema.Picture

/-! # Dictionaries of pictures

A pass that succeeds gives the picture of its term, and each entry that it makes is put together
from pictures. Where all terms have pictures, a pass ends whatever the dictionary has already.
-/

namespace Typewire

open Relation Registry Collecting

namespace Reference

/-- The canonical terms that are reached from some terms by parts other than map keys. -/
def reached (r : Reference) (terms : List TypeTerm) : Set TypeTerm :=
  { key | ∃ term ∈ terms, key ∈ r.depicted (r.settings.canonical term) }

/-- No two of the terms that get names have the same base. -/
def Distinct (r : Reference) (displayName : TypeName → String) (scope : Set TypeTerm) : Prop :=
  Set.InjOn (Dictionary.baseName displayName) { key | key ∈ scope ∧ r.Named key }

/-- Names are those of named terms in the scope, and are their bases if these are distinct. Entries
that are made are put together from pictures, with at most `depth` codecs inside one another. -/
structure Sketched (r : Reference) (displayName : TypeName → String) (scope : Set TypeTerm)
    (depth : Nat) (d : Dictionary) : Prop extends d.Sound where
  named : ∀ key name, Table.get? key d.names = some name → key ∈ scope ∧ r.Named key
  base : r.Distinct displayName scope → ∀ key name, Table.get? key d.names = some name →
    name = Dictionary.baseName displayName key
  filled : ∀ key name schema, Table.get? key d.names = some name →
    Members.get? name d.entries = some (some schema) →
      ∃ codec, r.codec? key = some codec ∧ r.Assembles (r.Pictures d depth) codec schema

structure Continues (r : Reference) (displayName : TypeName → String) (scope : Set TypeTerm)
    (depth : Nat) (d d' : Dictionary) : Prop where
  extended : d.Extends d'
  sketched : r.Sketched displayName scope depth d'

variable {r : Reference} {displayName : TypeName → String} {scope : Set TypeTerm} {depth n : Nat}
  {d d' : Dictionary} {key term : TypeTerm} {name : String} {codec : Codec} {schema : Schema}
  {reg : Registry} {ref : CodecRef} {nested : TypeTerm → Collecting Schema}

theorem course_continues :
    Course (r.Sketched displayName scope depth) (r.Continues displayName scope depth) where
  refl := fun {d} hd => ⟨.refl d, hd⟩
  trans := fun h h' => ⟨h.extended.trans h'.extended, h'.sketched⟩
  kept := Continues.sketched

theorem sketched_empty (refPrefix : String) :
    r.Sketched displayName scope depth { refPrefix } :=
  ⟨Dictionary.sound_empty refPrefix, fun _ _ h => (by cases h), fun _ _ _ h => (by cases h),
    fun _ _ _ h => (by cases h)⟩

theorem freshName_of_not_mem {base : String} (h : base ∉ d.taken) : d.freshName base = base := by
  obtain ⟨n, -, heq, -, hleast⟩ := d.exists_freshName_eq base
  rcases Nat.eq_zero_or_pos n with rfl | hn
  · exact heq
  · exact absurd (hleast 0 hn) h

theorem Sketched.reserve (h : r.Sketched displayName scope depth d)
    (hkey : Table.get? key d.names = none) (hscope : key ∈ scope) (hn : r.Named key) :
    r.Sketched displayName scope depth
      (d.reserve key (d.freshName (Dictionary.baseName displayName key))) := by
  refine ⟨h.toSound.reserve hkey (h.freshName_not_mem _), fun k name hk => ?_,
    fun hdistinct k name hk => ?_, fun k name schema hk hs => ?_⟩
  · rw [Dictionary.get?_names_reserve] at hk
    split at hk
    · subst_vars
      exact ⟨hscope, hn⟩
    · exact h.named k name hk
  · rw [Dictionary.get?_names_reserve] at hk
    split at hk
    · subst_vars
      cases hk
      -- A name that was given before is the base of another term.
      refine freshName_of_not_mem fun htaken => ?_
      obtain ⟨k', hk'⟩ := (h.entries _).1 ((h.taken _).1 htaken)
      have heq := hdistinct (h.named k' _ hk') ⟨hscope, hn⟩ (h.base hdistinct k' _ hk').symm
      subst heq
      cases hkey.symm.trans hk'
    · exact h.base hdistinct k name hk
  · rw [Dictionary.reserve, Members.get?_insert] at hs
    split at hs
    · cases hs
    · rw [Dictionary.get?_names_reserve] at hk
      split at hk
      · cases hk
        exact absurd rfl ‹_›
      · obtain ⟨codec, hc, hschema⟩ := h.filled k name schema hk hs
        exact ⟨codec, hc, hschema.mono fun _ _ hp =>
          hp.mono (Dictionary.retains_reserve hkey) le_rfl⟩

theorem Sketched.fill (h : r.Sketched displayName scope depth d)
    (hkey : Table.get? key d.names = some name) (hc : r.codec? key = some codec)
    (hs : r.Assembles (r.Pictures d depth) codec schema) :
    r.Sketched displayName scope depth (d.fill name schema) := by
  have hretains : d.Retains (d.fill name schema) := ⟨rfl, fun _ _ hk => hk⟩
  refine ⟨h.toSound.fill hkey schema, h.named, h.base, fun k name' t hk ht => ?_⟩
  rw [Dictionary.fill, Members.get?_insert] at ht
  split at ht
  · cases ht
    subst_vars
    obtain rfl := h.injective k key _ hk hkey
    exact ⟨codec, hc, hs.mono fun _ _ hp => hp.mono hretains le_rfl⟩
  · obtain ⟨codec', hc', hs'⟩ := h.filled k name' t hk ht
    exact ⟨codec', hc', hs'.mono fun _ _ hp => hp.mono hretains le_rfl⟩

namespace Basis

section Allows

variable (h : r.Basis reg) (hscope : ∀ a ∈ scope, ∀ b, r.Depicts a b → b ∈ scope)

include h hscope

theorem allows_body (hc : r.codec? key = some codec.bare)
    (hrefs : ∀ ref ∈ codec.refs, reg.Publishes ref) (hkey : key ∈ scope)
    (hnested : ∀ term ref d, reg.Publishes ref → r.settings.canonical term = ref.term →
      ref.term ∈ scope → r.Sketched displayName scope depth d →
      Allows reg (nested term) d fun s d' =>
        r.Continues displayName scope depth d d' ∧ r.Pictures d' n ref.term s)
    (hd : r.Sketched displayName scope depth d) :
    Allows reg (body nested reg.store codec) d fun schema d' =>
      r.Continues displayName scope depth d d' ∧ r.Assembles (r.Pictures d' n) codec schema := by
  by_cases hkeyed : ∀ key, codec.key? = some key → r.StringBacked key
  · rw [h.body_eq hrefs hkeyed]
    refine (course_continues.allows_mapM
      (R := fun d term s => r.Pictures d n (r.settings.canonical term) s)
      (fun _ _ _ _ hd hp => hp.mono hd.extended.toRetains le_rfl) (fun term ht d hd => ?_)
      hd).bind fun parts d' hparts => allows_pure ⟨hparts.1, hkeyed, parts, hparts.2, rfl⟩
    obtain ⟨ref, hp, hterm⟩ := h.exists_shown hc hrefs ht
    have hdepicts : r.Depicts key ref.term :=
      (h.flat.depicts_iff hc).2 ⟨term, codec.shown_bare ▸ ht, hterm⟩
    rw [hterm]
    exact hnested term ref d hp hterm (hscope key hkey _ hdepicts) hd
  · -- Only a map has keys, and it is refused.
    cases codec with
    | map owner k value =>
      have hnot : ¬ reg.store.isStringBacked k = true := fun hb => hkeyed <| by
        rintro _ ⟨⟩
        exact (h.agrees.isStringBacked_iff h.closed (hrefs k List.mem_cons_self)).1 hb
      rw [body, if_neg hnot]
      exact allows_throw _
    | _ => exact absurd (fun _ hk => by cases hk) hkeyed

theorem allows_fragment (hn : n ≤ depth) (hp : reg.Publishes ref) (hmem : ref.term ∈ scope)
    (hnested : ∀ term ref d, reg.Publishes ref → r.settings.canonical term = ref.term →
      ref.term ∈ scope → r.Sketched displayName scope depth d →
      Allows reg (nested term) d fun s d' =>
        r.Continues displayName scope depth d d' ∧ r.Pictures d' n ref.term s)
    (hd : r.Sketched displayName scope depth d) :
    Allows reg (fragment nested displayName ref) d fun schema d' =>
      r.Continues displayName scope depth d d' ∧ r.Pictures d' (n + 1) ref.term schema := by
  obtain ⟨codec, hs, hc, hrefs⟩ := h.agrees.exists_codec h.closed hp
  have hbody : ∀ d, r.Sketched displayName scope depth d →
      Allows reg (body nested reg.store codec) d fun schema d' =>
        r.Continues displayName scope depth d d' ∧ r.Assembles (r.Pictures d' n) codec schema :=
    fun d hd => h.allows_body hscope hc hrefs hmem hnested hd
  rw [fragment]
  refine (returns_store reg d).bind_allows ?_
  rw [hs]
  cases hnamed : codec.isNamed with
  | false =>
    simp only [hnamed, Bool.not_false, if_true]
    refine (hbody d hd).mono fun schema d' hmade => ⟨hmade.1, codec.bare, hc, .inr ?_⟩
    exact ⟨codec.isNamed_bare.trans hnamed, assembles_bare.2 hmade.2⟩
  | true =>
    simp only [hnamed, Bool.not_true, Bool.false_eq_true, if_false]
    refine (returns_get reg d).bind_allows ?_
    have hbare := codec.isNamed_bare.trans hnamed
    cases hname : Table.get? ref.term d.names with
    | some name =>
      exact allows_pure ⟨⟨.refl d, hd⟩, codec.bare, hc, .inl ⟨hbare, name, hname, rfl⟩⟩
    | none =>
      refine (returns_set reg d _).bind_allows ?_
      refine (hbody _ (hd.reserve hname hmem ((h.flat.isNamed_iff hc).1 hbare))).bind
        fun schema d' hmade => ?_
      obtain ⟨⟨hextended, hsketched⟩, hschema⟩ := hmade
      refine (returns_modify reg d' _).bind_allows (allows_pure ?_)
      -- What was reserved is still there, now to be filled.
      have hnames := hextended.names ref.term _
        ((Dictionary.get?_names_reserve _ _ _ _).trans (if_pos rfl))
      refine ⟨⟨hextended.fill hname schema, hsketched.fill hnames hc (assembles_bare.2 ?_)⟩,
        codec.bare, hc, .inl ⟨hbare, _, hnames, ?_⟩⟩
      · exact hschema.mono fun _ _ hp => hp.mono (.refl d') hn
      · exact congrArg (fun p => Schema.reference (p ++ _)) hextended.refPrefix.symm

theorem allows_schemaWithin (hn : n ≤ depth) (hp : reg.Publishes ref)
    (hterm : r.settings.canonical term = ref.term) (hmem : ref.term ∈ scope)
    (hd : r.Sketched displayName scope depth d) :
    Allows reg (Dictionary.schemaWithin displayName n term) d fun schema d' =>
      r.Continues displayName scope depth d d' ∧ r.Pictures d' n ref.term schema := by
  induction n generalizing term ref d with
  | zero =>
    intro limit stats a d' reg' hrun
    cases hrun
  | succ n ih =>
    rw [Dictionary.schemaWithin]
    have hle : n ≤ depth := Nat.le_of_succ_le hn
    exact (h.returns_lookup hp hterm d).bind_allows (h.allows_fragment hscope hle hp hmem
      (fun _ _ _ hp hterm hmem hd => ih hle hp hterm hmem hd) hd)

end Allows

end Basis

theorem Assembles.exists_part {pictures : TypeTerm → Schema → Prop}
    (h : r.Assembles pictures codec schema) (ht : term ∈ codec.shown) :
    ∃ s, pictures (r.settings.canonical term) s := by
  obtain ⟨-, parts, hparts, -⟩ := h
  obtain ⟨s, -, hs⟩ := exists_right_of_forall₂ hparts ht
  exact ⟨s, hs⟩

theorem Sketched.exists_picture (hd : r.Sketched displayName scope depth d) (hflat : r.Flat)
    (hmade : ∀ name, Members.get? name d.entries ≠ some none)
    (hpicture : r.Pictures d depth key schema) :
    ∀ k ∈ r.depicted key, ∃ s, r.Pictures d depth k s := by
  intro k hk
  induction hk with
  | refl => exact ⟨schema, hpicture⟩
  | @tail a b _ hab ih =>
    obtain ⟨s, hs⟩ := ih
    cases depth with
    | zero => exact hs.elim
    | succ depth =>
      obtain ⟨codec, hc, ⟨-, name, hname, -⟩ | ⟨-, hparts⟩⟩ := hs
      · obtain ⟨term, ht, rfl⟩ := (hflat.depicts_iff hc).1 hab
        obtain ⟨entry, hentry⟩ := hd.exists_entry (hmade _) hname
        obtain ⟨codec', hc', hparts⟩ := hd.filled a name entry hname hentry
        cases hc.symm.trans hc'
        exact hparts.exists_part ht
      · obtain ⟨term, ht, rfl⟩ := (hflat.depicts_iff hc).1 hab
        obtain ⟨s, hs⟩ := hparts.exists_part ht
        exact ⟨s, hs.mono (.refl d) (Nat.le_succ depth)⟩

def missing (terms : Finset TypeTerm) (d : Dictionary) : Nat :=
  (terms.filter fun key => Table.get? key d.names = none).card

theorem missing_anti (terms : Finset TypeTerm) (h : d.Retains d') :
    missing terms d' ≤ missing terms d := by
  refine Finset.card_le_card fun key hk => ?_
  obtain ⟨hkey, hnone⟩ := Finset.mem_filter.1 hk
  refine Finset.mem_filter.2 ⟨hkey, Option.eq_none_iff_forall_ne_some.2 fun name hname => ?_⟩
  cases hnone.symm.trans (h.names key name hname)

theorem missing_reserve {terms : Finset TypeTerm} (hkey : key ∈ terms)
    (hnone : Table.get? key d.names = none) (name : String) :
    missing terms (d.reserve key name) < missing terms d := by
  refine Finset.card_lt_card (Finset.ssubset_iff_of_subset (fun k hk => ?_) |>.2 ⟨key, ?_, ?_⟩)
  · obtain ⟨hk, hno⟩ := Finset.mem_filter.1 hk
    rw [Dictionary.get?_names_reserve] at hno
    split at hno
    · cases hno
    · exact Finset.mem_filter.2 ⟨hk, hno⟩
  · exact Finset.mem_filter.2 ⟨hkey, hnone⟩
  · simp [Dictionary.get?_names_reserve]

theorem course_retains (d : Dictionary) :
    Course d.Retains fun d' d'' => d.Retains d' ∧ d'.Retains d'' where
  refl := fun hd => ⟨hd, .refl _⟩
  trans := fun h h' => ⟨h.1, h.2.trans h'.2⟩
  kept := fun h => h.1.trans h.2

namespace Basis

section Gives

variable {sketch : Dictionary} {terms : Finset TypeTerm} (h : r.Basis reg)
  (hscope : ∀ a ∈ scope, ∀ b, r.Depicts a b → b ∈ scope)
  (hterms : ∀ key ∈ scope, r.Named key → key ∈ terms)
  (hpictures : ∀ key ∈ scope, ∃ s, r.Pictures sketch depth key s)

include h

theorem gives_body (hc : r.codec? key = some codec.bare)
    (hrefs : ∀ ref ∈ codec.refs, reg.Publishes ref)
    (hkeyed : ∀ key, codec.key? = some key → r.StringBacked key)
    (hnested : ∀ term ∈ codec.shown, ∀ ref d', reg.Publishes ref →
      r.settings.canonical term = ref.term → d.Retains d' →
      Gives reg (fun _ => False) (nested term) d' fun _ d'' => d'.Retains d'') :
    Gives reg (fun _ => False) (body nested reg.store codec) d fun _ d' => d.Retains d' := by
  rw [h.body_eq hrefs hkeyed]
  refine ((course_retains d).gives_mapM (fun term ht d' hd' => ?_) (.refl d)).bind
    fun parts d' hd' => gives_pure hd'.2
  obtain ⟨ref, hp, hterm⟩ := h.exists_shown hc hrefs ht
  exact (hnested term ht ref d' hp hterm hd').mono fun _ _ hd'' => ⟨hd', hd''⟩

include hscope hterms hpictures

theorem gives_fragment (displayName : TypeName → String) (d : Dictionary) (hn : n ≤ depth)
    (hp : reg.Publishes ref) (hmem : ref.term ∈ scope)
    (hpicture : r.Pictures sketch n ref.term schema)
    (hnested : ∀ term ref d' m s, reg.Publishes ref → r.settings.canonical term = ref.term →
      ref.term ∈ scope → m ≤ depth → r.Pictures sketch m ref.term s →
      missing terms d' * (depth + 1) + m < missing terms d * (depth + 1) + n →
      Gives reg (fun _ => False) (nested term) d' fun _ d'' => d'.Retains d'') :
    Gives reg (fun _ => False) (fragment nested displayName ref) d fun _ d' => d.Retains d' := by
  obtain ⟨codec, hs, hc, hrefs⟩ := h.agrees.exists_codec h.closed hp
  have hinside : ∀ term ∈ codec.shown, r.settings.canonical term ∈ scope := fun term ht =>
    hscope _ hmem _ ((h.flat.depicts_iff hc).2 ⟨term, codec.shown_bare ▸ ht, rfl⟩)
  cases n with
  | zero => exact hpicture.elim
  | succ n =>
  rw [fragment]
  refine (returns_store reg d).bind ?_
  rw [hs]
  obtain ⟨codec', hc', hpicture⟩ := hpicture
  cases hc.symm.trans hc'
  rw [Codec.isNamed_bare, assembles_bare] at hpicture
  rcases hpicture with ⟨hnamed, -⟩ | ⟨hnamed, hparts⟩
  · simp only [hnamed, Bool.not_true, Bool.false_eq_true, if_false]
    refine (returns_get reg d).bind ?_
    cases hname : Table.get? ref.term d.names with
    | some name => exact gives_pure (.refl d)
    | none =>
      -- The name is reserved before the parts are entered, and so they may be of any depth.
      have hknown := hterms _ hmem ((h.flat.isNamed_iff hc).1 (codec.isNamed_bare.trans hnamed))
      have hless := missing_reserve hknown hname
        (d.freshName (Dictionary.baseName displayName ref.term))
      have hretains : d.Retains
          (d.reserve ref.term (d.freshName (Dictionary.baseName displayName ref.term))) :=
        Dictionary.retains_reserve hname
      refine (returns_set reg d _).bind ((h.gives_body hc hrefs (fun key hk => ?_)
        fun term ht part d' hpart hterm hd' => ?_).bind fun schema d' hd' =>
          (returns_modify reg d' _).bind (gives_pure ?_))
      · cases codec with
        | map => cases hnamed
        | _ => cases hk
      · obtain ⟨s, hs⟩ := hpictures _ (hinside term ht)
        rw [hterm] at hs
        refine hnested term part d' depth s hpart hterm (hterm ▸ hinside term ht) le_rfl hs ?_
        have hle := (missing_anti terms hd').trans_lt hless
        calc missing terms d' * (depth + 1) + depth
            < (missing terms d' + 1) * (depth + 1) := by
              rw [Nat.add_one_mul]
              omega
          _ ≤ missing terms d * (depth + 1) := Nat.mul_le_mul_right _ hle
          _ ≤ missing terms d * (depth + 1) + (n + 1) := Nat.le_add_right _ _
      · exact hretains.trans ⟨hd'.refPrefix, hd'.names⟩
  · -- Nothing is reserved here, but the parts have pictures of less depth.
    simp only [hnamed, Bool.not_false, if_true]
    refine h.gives_body hc hrefs hparts.1 fun term ht part d' hpart hterm hd' => ?_
    obtain ⟨s, hs⟩ := hparts.exists_part ht
    rw [hterm] at hs
    refine hnested term part d' n s hpart hterm (hterm ▸ hinside term ht) (Nat.le_of_succ_le hn)
      hs ?_
    exact Nat.add_lt_add_of_le_of_lt (Nat.mul_le_mul_right _ (missing_anti terms hd'))
      (Nat.lt_succ_self n)

/-- A pass ends with a fragment, given enough calls for the terms without a name. -/
theorem gives_schemaWithin (displayName : TypeName → String) {calls : Nat} (hn : n ≤ depth)
    (hp : reg.Publishes ref) (hterm : r.settings.canonical term = ref.term)
    (hmem : ref.term ∈ scope) (hpicture : r.Pictures sketch n ref.term schema)
    (hcalls : missing terms d * (depth + 1) + n ≤ calls) :
    Gives reg (fun _ => False) (Dictionary.schemaWithin displayName calls term) d
      fun _ d' => d.Retains d' := by
  induction calls generalizing n term ref schema d with
  | zero =>
    obtain rfl : n = 0 := by omega
    exact hpicture.elim
  | succ calls ih =>
    rw [Dictionary.schemaWithin]
    refine (h.returns_lookup hp hterm d).bind (h.gives_fragment hscope hterms hpictures
      displayName d hn hp hmem hpicture fun term ref d' m s hp hterm hmem hm hs hless => ?_)
    exact ih hm hp hterm hmem hs (by omega)

end Gives

end Basis

end Reference

end Typewire
