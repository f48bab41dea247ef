import StyleAudit.Failure
import StyleAudit.MessagePack.Value
import StyleAudit.Registry.Basic

/-!
# Snapshots

A snapshot keeps a registry as bytes.  How a registry becomes bytes, and how it
is found in them again, is up to a codec.  What a codec says where it fails is
passed on, with the stage of the work.
-/

namespace StyleAudit

namespace Snapshot

/-- A way to write registries as bytes and to read them again.  Where it fails
it says why. -/
structure Codec where
  write : Registry → Except String Bytes
  read : Bytes → Except String Registry

/-- The failure of a codec in a stage of the work. -/
def failure (stage detail : String) : Failure :=
  { cause := .snapshot detail, context := some { stage := some stage } }

/-- The snapshot of a registry. -/
def save (codec : Codec) (registry : Registry) : Except Failure Bytes :=
  (codec.write registry).mapError (failure "snapshot encode")

/-- The registry that a snapshot keeps. -/
def restore (codec : Codec) (bytes : Bytes) : Except Failure Registry :=
  (codec.read bytes).mapError (failure "snapshot decode")

end Snapshot

end StyleAudit
