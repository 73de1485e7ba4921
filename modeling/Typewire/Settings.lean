import Typewire.Text.Blank
import Typewire.TypeTerm

/-! # Settings of a registry -/

namespace Typewire

structure Settings where
  /-- What stands before the name in a reference to a dictionary entry. -/
  refPrefix : String := "#/components/schemas/"
  /-- Types whose arguments make no difference. -/
  alwaysRaw : List TypeName := ["Class"]
  /-- Refuse members of an object that no property reads. -/
  denyUnknownFields : Bool := false
  logLevel : String := "info"
  deriving DecidableEq, Repr

inductive SettingsFault where
  | emptyPrefix
  | blankRaw (index : Nat)
  | parameterizedRaw (index : Nat) (type : TypeName)
  deriving DecidableEq, Repr

namespace SettingsFault

def message : SettingsFault → String
  | emptyPrefix => "Invalid configuration: schema_ref_prefix is empty"
  | blankRaw index => "Invalid configuration: always_raw entry " ++ toString index ++ " is empty"
  | parameterizedRaw index type =>
    "Invalid configuration: always_raw entry " ++ toString index ++ " (" ++ type ++
      ") must be an unparameterized type"

end SettingsFault

namespace Settings

def checkRaw (index : Nat) : List TypeName → Except SettingsFault Unit
  | [] => .ok ()
  | type :: types =>
    if type.toList.all Text.isBlank then .error (.blankRaw index)
    else if type.toList.any fun c => c = '<' || c = '>' || c = ',' then
      .error (.parameterizedRaw index type)
    else checkRaw (index + 1) types

def check (s : Settings) : Except SettingsFault Unit :=
  if s.refPrefix.isEmpty then .error .emptyPrefix else checkRaw 0 s.alwaysRaw

/-- The term that stands for all terms with one codec. -/
def canonical (s : Settings) (t : TypeTerm) : TypeTerm :=
  if t.isGeneric ∧ s.alwaysRaw.contains t.head then t.erased else t

@[simp] theorem head_canonical (s : Settings) (t : TypeTerm) : (s.canonical t).head = t.head := by
  unfold canonical
  split <;> rfl

theorem canonical_canonical (s : Settings) (t : TypeTerm) :
    s.canonical (s.canonical t) = s.canonical t := by
  unfold canonical
  split <;> simp_all [TypeTerm.isGeneric, TypeTerm.erased]

theorem canonical_simple (s : Settings) (name : TypeName) :
    s.canonical ⟨name, []⟩ = ⟨name, []⟩ := by
  simp [canonical, TypeTerm.isGeneric]

theorem canonical_of_mem_alwaysRaw {s : Settings} {t : TypeTerm} (h : t.head ∈ s.alwaysRaw) :
    s.canonical t = t.erased := by
  unfold canonical
  split
  · rfl
  · obtain ⟨head, args⟩ := t
    have hargs : args = [] := by simp_all [TypeTerm.isGeneric]
    rw [hargs, TypeTerm.erased]

end Settings

end Typewire
