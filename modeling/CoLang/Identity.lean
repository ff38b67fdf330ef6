/-!
# Identities

An instance has an identity of 128 bits, by which it is told from all others wherever it is kept.
Inside a program instances are known by name, and nothing there depends on identities.

How an identity is written as a text is left open. A format is any way of writing identities that
reads back what it writes.
-/

namespace CoLang

/-- What tells an instance from all others. -/
structure Identity where
  bits : BitVec 128
deriving DecidableEq, Repr, Inhabited

/-- A way of writing identities as texts. -/
structure Identity.Format where
  write : Identity → String
  read : String → Option Identity
  read_write : ∀ id, read (write id) = some id

end CoLang
