import BackupAtlas.Quoted

namespace BackupAtlas

/-- The classes of errors, by what a caller can do about them. -/
inductive ErrorKind where
  /-- A malformed snapshot or a mount where none may be. -/
  | structural
  /-- A path, claim or rule that is missing or already there. The request can be corrected. -/
  | lookup
  /-- A payload or a set of patterns that cannot be used. -/
  | decode
  /-- A configuration that is missing or wrong. -/
  | config
  /-- A database or a file that fails. -/
  | storage
  deriving DecidableEq, Repr

/-- Everything that can go wrong, one constructor a cause. -/
inductive Error where
  | invalidConfig (details : String)
  | missingConfig (path : String)
  | unreadableConfig (context details : String)
  | invalidSnapshot (path details : String)
  | invalidRoot (name : String)
  | nestedMount (path : String)
  | notFound (path : String)
  | ruleNotFound (directory pattern : String)
  | ruleExists (directory pattern : String)
  | alreadyClaimed (path : String)
  | notClaimed (path : String)
  | claimHasRules (path : String) (rules : Nat)
  | orphanedRule (rule : Nat) (directory : Int)
  | invalidPattern (pattern reason : String)
  | patternConflict (pattern : String)
  | corrupt (context details : String)
  | unwritable (context details : String)
  | sql (context details : String)
  | fileFailure (path reason : String)
  deriving DecidableEq, Repr

namespace Error

/-- The stable code of an error: thousands by area, the rest by cause. -/
def code : Error → String
  | invalidConfig _ => "BRT-1001"
  | missingConfig _ => "BRT-1002"
  | unreadableConfig _ _ => "BRT-1003"
  | invalidSnapshot _ _ => "BRT-2001"
  | invalidRoot _ => "BRT-2002"
  | nestedMount _ => "BRT-2003"
  | notFound _ => "BRT-2101"
  | ruleNotFound _ _ => "BRT-2102"
  | ruleExists _ _ => "BRT-2103"
  | alreadyClaimed _ => "BRT-2104"
  | notClaimed _ => "BRT-2105"
  | claimHasRules _ _ => "BRT-2106"
  | orphanedRule _ _ => "BRT-2107"
  | invalidPattern _ _ => "BRT-2108"
  | patternConflict _ => "BRT-2201"
  | corrupt _ _ => "BRT-2301"
  | unwritable _ _ => "BRT-2302"
  | sql _ _ => "BRT-3001"
  | fileFailure _ _ => "BRT-3002"

def kind : Error → ErrorKind
  | invalidConfig _ | missingConfig _ | unreadableConfig _ _ => .config
  | invalidSnapshot _ _ | invalidRoot _ | nestedMount _ => .structural
  | notFound _ | ruleNotFound _ _ | ruleExists _ _ | alreadyClaimed _ | notClaimed _
  | claimHasRules _ _ | invalidPattern _ _ => .lookup
  | orphanedRule _ _ | patternConflict _ | corrupt _ _ | unwritable _ _ => .decode
  | sql _ _ | fileFailure _ _ => .storage

/-- Whether the caller can correct the request and try again. -/
def isRecoverable (e : Error) : Bool := e.kind == .lookup

def details : Error → String
  | invalidConfig details => s!"invalid configuration: {details}"
  | missingConfig path => s!"missing configuration file: {path}"
  | unreadableConfig context details => s!"configuration parse failure in {context}: {details}"
  | invalidSnapshot path details => s!"invalid snapshot {path}: {details}"
  | invalidRoot name => s!"snapshot root {quoted name} is not an absolute directory path"
  | nestedMount path => s!"cannot mount {path}: snapshot roots may not nest"
  | notFound path => s!"path not found: {path}"
  | ruleNotFound directory pattern => s!"no rule {quoted pattern} in directory {directory}"
  | ruleExists directory pattern =>
    s!"rule {quoted pattern} already exists in directory {directory}"
  | alreadyClaimed path => s!"directory already claimed: {path}"
  | notClaimed path => s!"directory not claimed: {path}"
  | claimHasRules path rules => s!"directory {path} still has {rules} rule(s)"
  | orphanedRule rule directory => s!"rule {rule} refers to unknown directory {directory}"
  | invalidPattern pattern reason => s!"invalid match {quoted pattern}: {reason}"
  | patternConflict pattern => s!"conflicting pattern {quoted pattern}"
  | corrupt context details => s!"corrupt {context}: {details}"
  | unwritable context details => s!"serialization failure in {context}: {details}"
  | sql context details => s!"SQL failure in {context}: {details}"
  | fileFailure path reason => s!"IO failure at {path}: {reason}"

/-- The whole message: the code in brackets, then what went wrong. -/
def message (e : Error) : String := s!"[{e.code}] {e.details}"

end Error
end BackupAtlas
