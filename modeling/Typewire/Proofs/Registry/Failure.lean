import Typewire.Proofs.Catalog.Describe
import Typewire.Proofs.Codec.Failure
import Typewire.Proofs.Registry.Normalization
import Typewire.Proofs.Registry.Refinement

/-! # Errors lead to where decoding fails

In a registry without registered codecs no step of decoding is done by host code. So the path of an
error says where in the document the codec stood whose error it is.
-/

namespace Typewire

namespace Registry

variable {host : Host} {s : Settings} {reg : Registry} {ref : CodecRef} {j : Json}
  {e : DecodeError}

theorem Plain.exists_kind_ne_custom (h : Plain host s (fun _ => none) reg) (ref : CodecRef)
    (hp : reg.Publishes ref) :
    ∃ codec, reg.store.codec? ref = some codec ∧ codec.kind ≠ .custom ∧
      ∀ nested ∈ codec.refs, reg.Publishes nested := by
  obtain ⟨codec, layout, hs, -, hd, hrefs⟩ := h.described hp rfl
  have hkind := Reference.kind_ne_custom_of_describe? hd
  rw [Codec.bare, Codec.kind_mapRefs] at hkind
  exact ⟨codec, hs, hkind, hrefs⟩

/-- The path of an error goes through the document, from the outside in, along what the codecs hand
on. Either the codec at its end refuses the part there, for the cause of the error and without going
further in, or the path ends at the label of an entry of a map, which the codec of the keys refuses
so. All that stands before a step of the path decodes. -/
theorem error_located (h : Plain host s (fun _ => none) reg) (hp : reg.Publishes ref)
    (hj : j.Valid) (hd : reg.store.decode ref j = .error e) :
    ∃ i, j.follow? e.path = some i ∧
      ((∃ part, reg.Publishes part ∧ reg.store.Follows ref j e.path part i ∧
          reg.store.decode part i = .error (.here e.cause)) ∨
        ∃ path label map owner key value before after, e.path = path ++ [.key label] ∧
          reg.Publishes map ∧
          reg.store.Follows ref j path map (.obj (before ++ (label, i) :: after)) ∧
          reg.store.codec? map = some (.map owner key value) ∧
          (∀ x ∈ before, Codec.EntryDecodes reg.store.decode key value x) ∧
          reg.store.decode key (.str label) = .error (.here e.cause)) := by
  rcases Store.exists_of_decode h.exists_kind_ne_custom hp hd with
    ⟨part, i, hpart, hfollows, hi⟩ |
      ⟨path, label, map, codec, i, key, hpath, hmap, hfollows, hc, hkey, hlabel⟩
  · exact ⟨i, hfollows.follow? hj, .inl ⟨part, hpart, hfollows, hi⟩⟩
  · cases hkey with
    | @entry owner _ value before after entry hbefore =>
      refine ⟨entry.2, ?_, .inr ⟨path, entry.1, map, owner, key, value, before, after, hpath, hmap,
        hfollows, hc, hbefore, hlabel⟩⟩
      have hmap := hfollows.follow? hj
      have hentry := (hj.of_at? hmap).part?_member (List.mem_append_right before List.mem_cons_self)
      rw [hpath, Json.follow?_append, hmap, Option.bind_some]
      exact Option.bind_eq_some_iff.2 ⟨entry.2, hentry, rfl⟩

def shelves : Registry :=
  ((initial Catalog.shapes.host {}).lookup
    ⟨"Map", [⟨"string", []⟩, ⟨"List", [⟨"Square", []⟩]⟩]⟩).2

/-- The second of two squares has a text for its side. -/
def misfit : Json :=
  .obj [("a", .arr [.obj [("side", .int 1)], .obj [("side", .str "x")]])]

theorem valid_misfit : misfit.Valid := by
  refine .obj (List.pairwise_singleton _ _) (List.forall_mem_singleton.2 (.arr ?_))
  refine List.forall_mem_cons.2 ⟨?_, List.forall_mem_singleton.2 ?_⟩
  · exact .obj (List.pairwise_singleton _ _)
      (List.forall_mem_singleton.2 (.int (by decide) (by decide)))
  · exact .obj (List.pairwise_singleton _ _) (List.forall_mem_singleton.2 (.str _))

theorem exists_error {store : Store} {path : List Step}
    (h : (match store.decode ref j with
      | .error e => some e.path
      | .ok _ => none) = some path) : ∃ e, store.decode ref j = .error e ∧ e.path = path := by
  cases hd : store.decode ref j with
  | error e =>
    rw [hd] at h
    exact ⟨e, rfl, Option.some.inj h⟩
  | ok v =>
    rw [hd] at h
    cases h

theorem error_located_misfit : ∃ e part,
    shelves.store.decode ⟨⟨"Map", [⟨"string", []⟩, ⟨"List", [⟨"Square", []⟩]⟩]⟩, 0⟩ misfit =
        .error e ∧
      e.path = [.key "a", .index 1, .field "side"] ∧
      shelves.store.Follows ⟨⟨"Map", [⟨"string", []⟩, ⟨"List", [⟨"Square", []⟩]⟩]⟩, 0⟩ misfit e.path
        part (.str "x") ∧
      shelves.store.decode part (.str "x") = .error (.here e.cause) := by
  have hp : shelves.Publishes ⟨⟨"Map", [⟨"string", []⟩, ⟨"List", [⟨"Square", []⟩]⟩]⟩, 0⟩ := by
    unfold Publishes
    decide +kernel
  obtain ⟨e, hd, hpath⟩ : ∃ e, shelves.store.decode
      ⟨⟨"Map", [⟨"string", []⟩, ⟨"List", [⟨"Square", []⟩]⟩]⟩, 0⟩ misfit = .error e ∧
      e.path = [.key "a", .index 1, .field "side"] := exists_error (by decide +kernel)
  obtain ⟨i, hi, ⟨part, -, hfollows, hpart⟩ | ⟨path, label, -, -, -, -, -, -, hlast, -⟩⟩ :=
    error_located (.lookup _ .initial) hp valid_misfit hd
  · rw [hpath] at hi
    cases hi
    exact ⟨e, part, hd, hpath, hfollows, hpart⟩
  · rw [hpath] at hlast
    have hlast := congrArg List.getLast? hlast
    simp at hlast

end Registry

end Typewire
