import Luksbox.Model.Tree

/-!
# Errors and panics (`luksbox-vfs/src/error.rs`)

An operation ends in one of three ways: it returns, it returns `Err`, or it
panics. The last is not an error a caller can handle, so it has a constructor
of its own; `Failure.panic` stands for every out-of-range index, failed
`unwrap`/`expect` and overflowing unchecked arithmetic of the source.
-/

namespace Luksbox

/-- The `luksbox_format::Error` values the VFS passes on. -/
inductive FormatError where
  | io
  | metadataTooLarge
  | metadataCorrupt
  deriving DecidableEq

inductive Error where
  | crypto
  | format (e : FormatError)
  | notFound
  | alreadyExists
  | notADirectory
  | isADirectory
  | notAFile
  | notEmpty
  | metadataSerialize
  | metadataDeserialize
  | invalidPath (path : String)
  | renameCycle
  | offsetOverflow
  | idSpaceExhausted
  | fileSizeExceedsCap
  | metadataBudgetExhausted
  | readOnlyMount
  | vaultSizeLimit (limit : Nat)
  | maxSizeBelowMinimum (requested minimum : Nat)
  | maxSizeNeedsCurrentFormat
  | shrinkDeniable
  deriving DecidableEq

inductive Failure where
  | err (e : Error)
  | panic
  deriving DecidableEq

end Luksbox
