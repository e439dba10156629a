import MessagePack.Tag

/-!
Everything that can go wrong, as a cause. `Error.message` is the only place where causes
are put into words.
-/

namespace MessagePack

inductive IoKind where
  | notFound | permissionDenied | connectionRefused | connectionReset | hostUnreachable
  | networkUnreachable | connectionAborted | notConnected | addrInUse | addrNotAvailable
  | networkDown | brokenPipe | alreadyExists | wouldBlock | notADirectory | isADirectory
  | directoryNotEmpty | readOnlyFilesystem | filesystemLoop | staleNetworkFileHandle
  | invalidInput | invalidData | timedOut | writeZero | storageFull | notSeekable
  | quotaExceeded | fileTooLarge | resourceBusy | executableFileBusy | deadlock
  | crossesDevices | tooManyLinks | invalidFilename | argumentListTooLong | interrupted
  | unsupported | unexpectedEof | outOfMemory | inProgress | other
  deriving DecidableEq

namespace IoKind

def names : List (IoKind × String) :=
  [(.notFound, "NotFound"), (.permissionDenied, "PermissionDenied"),
    (.connectionRefused, "ConnectionRefused"), (.connectionReset, "ConnectionReset"),
    (.hostUnreachable, "HostUnreachable"), (.networkUnreachable, "NetworkUnreachable"),
    (.connectionAborted, "ConnectionAborted"), (.notConnected, "NotConnected"),
    (.addrInUse, "AddrInUse"), (.addrNotAvailable, "AddrNotAvailable"),
    (.networkDown, "NetworkDown"), (.brokenPipe, "BrokenPipe"),
    (.alreadyExists, "AlreadyExists"), (.wouldBlock, "WouldBlock"),
    (.notADirectory, "NotADirectory"), (.isADirectory, "IsADirectory"),
    (.directoryNotEmpty, "DirectoryNotEmpty"), (.readOnlyFilesystem, "ReadOnlyFilesystem"),
    (.filesystemLoop, "FilesystemLoop"), (.staleNetworkFileHandle, "StaleNetworkFileHandle"),
    (.invalidInput, "InvalidInput"), (.invalidData, "InvalidData"), (.timedOut, "TimedOut"),
    (.writeZero, "WriteZero"), (.storageFull, "StorageFull"), (.notSeekable, "NotSeekable"),
    (.quotaExceeded, "QuotaExceeded"), (.fileTooLarge, "FileTooLarge"),
    (.resourceBusy, "ResourceBusy"), (.executableFileBusy, "ExecutableFileBusy"),
    (.deadlock, "Deadlock"), (.crossesDevices, "CrossesDevices"),
    (.tooManyLinks, "TooManyLinks"), (.invalidFilename, "InvalidFilename"),
    (.argumentListTooLong, "ArgumentListTooLong"), (.interrupted, "Interrupted"),
    (.unsupported, "Unsupported"), (.unexpectedEof, "UnexpectedEof"),
    (.outOfMemory, "OutOfMemory"), (.inProgress, "InProgress"), (.other, "Other")]

def name (kind : IoKind) : String :=
  (names.lookup kind).getD "Other"

def ofName? (name : String) : Option IoKind :=
  (names.find? (·.2 == name)).map (·.1)

end IoKind

structure IoFailure where
  kind : IoKind
  text : String
  deriving DecidableEq

inductive Invalid where
  | reservedMarker (marker : UInt8)
  | extensionsDisabled
  | legacyMarker (marker : UInt8)
  | typeMismatch (expected found : Kind)
  | outOfRange
  | invalidUtf8
  | valueMismatch
  | unknownKey
  | duplicateKey
  | keyNotFound
  | indexOutOfBounds (index length : Nat)
  | trailingData (extra : Nat)
  deriving DecidableEq

inductive Feature where
  | reader
  | writer
  | node
  | builder
  | extensions
  | floatingPoint
  deriving DecidableEq

inductive ConfigFault where
  | legacyWithoutCompatibility
  | builderWithoutWriter
  | zeroSize
  | zeroDepthCeiling
  deriving DecidableEq

inductive Usage where
  | tooManyElements (kind : Compound)
  | unfinishedBytes (kind : Compound) (remaining : Nat)
  | bytesOverflow (requested remaining : Nat)
  | prematureClose (kind : Compound) (remaining : Nat)
  | kindMismatch (innermost closing : Compound)
  | nothingOpen
  | unclosedCompounds (depth : Nat)
  | pendingBuild (depth : Nat)
  | buildOutOfOrder
  | danglingMapKey
  | featureDisabled (feature : Feature)
  | notRepresentable (kind : Compound)
  | keySlotsTooShort (keys slots : Nat)
  | invalidConfig (fault : ConfigFault)
  deriving DecidableEq

inductive Error where
  | invalid (reason : Invalid)
  | truncated (needed available : Nat)
  | tooBig (size limit : Nat)
  | tooDeep (depth limit : Nat)
  | usage (misuse : Usage)
  | resource (requested : Nat)
  | io (failure : IoFailure)
  deriving DecidableEq

def Invalid.message : Invalid → String
  | .reservedMarker marker => s!"reserved marker byte 0x{hex 2 marker.toNat}"
  | .extensionsDisabled => "extension type encountered but extensions are disabled"
  | .legacyMarker marker => s!"marker 0x{hex 2 marker.toNat} is not part of the legacy format"
  | .typeMismatch expected found => s!"expected {expected.name}, found {found.name}"
  | .outOfRange => "value out of range"
  | .invalidUtf8 => "string is not valid UTF-8"
  | .valueMismatch => "value does not match the expected value"
  | .unknownKey => "unrecognised key"
  | .duplicateKey => "duplicate key"
  | .keyNotFound => "key not found"
  | .indexOutOfBounds index length => s!"index {index} out of bounds for length {length}"
  | .trailingData extra => s!"{extra} trailing bytes after message"

def Feature.name : Feature → String
  | .reader => "reader"
  | .writer => "writer"
  | .node => "node"
  | .builder => "builder"
  | .extensions => "extensions"
  | .floatingPoint => "floating point"

def ConfigFault.message : ConfigFault → String
  | .legacyWithoutCompatibility => "legacy version requires compatibility"
  | .builderWithoutWriter => "builder requires the writer"
  | .zeroSize => "buffer and page sizes must be non-zero"
  | .zeroDepthCeiling => "depth ceiling must be non-zero"

def Usage.message : Usage → String
  | .tooManyElements kind => s!"too many elements for {kind.name}"
  | .unfinishedBytes kind remaining => s!"{remaining} bytes of {kind.name} not yet consumed"
  | .bytesOverflow requested remaining =>
      s!"{requested} payload bytes requested, {remaining} remaining"
  | .prematureClose kind remaining => s!"{kind.name} closed with {remaining} remaining"
  | .kindMismatch innermost closing => s!"closing {closing.name} but {innermost.name} is open"
  | .nothingOpen => "no compound is open"
  | .unclosedCompounds depth => s!"{depth} compounds still open at finish"
  | .pendingBuild depth => s!"{depth} builds still pending at finish"
  | .buildOutOfOrder => "build completed out of order"
  | .danglingMapKey => "map build completed with a key but no value"
  | .featureDisabled feature => s!"{feature.name} is disabled in the configuration"
  | .notRepresentable kind => s!"{kind.name} cannot be represented in the legacy format"
  | .keySlotsTooShort keys slots => s!"{slots} found slots for {keys} keys"
  | .invalidConfig fault => s!"invalid configuration: {fault.message}"

def Error.message : Error → String
  | .invalid reason => s!"invalid data: {reason.message}"
  | .truncated needed available =>
      s!"truncated input: needed {needed} bytes, {available} available"
  | .tooBig size limit => s!"size {size} exceeds limit {limit}"
  | .tooDeep depth limit => s!"nesting depth {depth} exceeds limit {limit}"
  | .usage misuse => s!"usage error: {misuse.message}"
  | .resource requested => s!"allocation of {requested} bytes failed"
  | .io failure => s!"i/o error ({failure.kind.name}): {failure.text}"

theorem bind_eq_ok {first : Except Error α} {next : α → Except Error β} {result : β}
    (hbind : first >>= next = .ok result) :
    ∃ value, first = .ok value ∧ next value = .ok result := by
  cases first with
  | ok value => exact ⟨value, rfl, hbind⟩
  | error error => cases hbind

end MessagePack
