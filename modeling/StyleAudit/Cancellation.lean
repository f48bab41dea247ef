import StyleAudit.Failure

/-!
# Cancellation

A run is stopped through a handle.  Handles may be copied, and a handle is
cancelled as soon as any copy of it is.  A pool records, for each handle, the
flag that it shares with its copies.
-/

namespace StyleAudit

/-- Handles and the flags that they share. -/
structure Cancellation where
  /-- The flag of each handle. -/
  flags : List Nat
  /-- The flags that are set. -/
  raised : List Nat
deriving DecidableEq, Repr

namespace Cancellation

/-- One handle, not cancelled. -/
def initial : Cancellation :=
  ⟨[0], []⟩

/-- Adds a handle with a flag of its own. -/
def fresh (pool : Cancellation) : Cancellation :=
  { pool with flags := pool.flags ++ [pool.flags.length] }

/-- Adds a copy of a handle. -/
def copy (pool : Cancellation) (handle : Nat) : Cancellation :=
  { pool with flags := pool.flags ++ pool.flags[handle]?.toList }

/-- Cancels a handle and all its copies. -/
def cancel (pool : Cancellation) (handle : Nat) : Cancellation :=
  { pool with raised := pool.flags[handle]?.toList ++ pool.raised }

/-- For each handle: is it cancelled? -/
def states (pool : Cancellation) : List Bool :=
  pool.flags.map pool.raised.contains

/-- Goes on unless the run is cancelled. -/
def check (cancelled : Bool) : Except Failure Unit :=
  if cancelled then .error .cancelled else .ok ()

end Cancellation

end StyleAudit
