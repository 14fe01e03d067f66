import WinBlaze.Core.Model

/-!
# Scan events

What a scan sends to the component that consumes it.
-/

namespace WinBlaze

inductive ScanIssueKind
  | permissionDenied | notFound | sharingViolation | transientIo | unsupportedFilesystem
  | unknown | fastScanUnavailable
  deriving DecidableEq, Repr

structure ScanIssueRecord where
  kind : ScanIssueKind
  path : Option String
  message : String
  deriving DecidableEq, Repr

inductive ScanEvent
  | sessionStarted (volume : VolumeRecord)
  | volumeDiscovered (volume : VolumeRecord)
  | directoryFound (directory : DirectoryRecord)
  | fileFound (file : FileRecord)
  | issue (record : ScanIssueRecord)
  | progress (progress : ScanProgress)
  | summary (summary : ScanSummary)
  | completed
  | failed (message : String)
  | cancelled
  deriving DecidableEq, Repr

namespace ScanEvent

def isSummary : ScanEvent → Bool
  | .summary _ => true
  | _ => false

/-- The event ends the session. -/
def isTerminal : ScanEvent → Bool
  | .completed | .cancelled => true
  | _ => false

/-- The catalog records an enumeration backend reports while it runs. -/
def isRecord : ScanEvent → Bool
  | .directoryFound _ | .fileFound _ | .progress _ => true
  | _ => false

end ScanEvent

end WinBlaze
