import Typewire.Error.Registry
import Typewire.Layout

/-! # Hosts

What a registry knows of the host's types. Host code that crashes gives no answer at all.
-/

namespace Typewire

structure Host where
  layout : TypeName → Option (Except HostError Layout)
  isInstance : Value → TypeTerm → Bool := fun v t => v.runtimeType? = some t.head
  displayName : TypeName → String := TypeName.simple

end Typewire
