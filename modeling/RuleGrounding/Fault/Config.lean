import RuleGrounding.Fault

/-!
# Faults of configurations

Why a configuration is not read or not accepted.
-/

namespace RuleGrounding

/-- Why a configuration is not read or not accepted. -/
inductive ConfigFault where
  /-- The file cannot be read. -/
  | unreadable (path : String)
  /-- The text is no document of the right form. -/
  | malformed (path : String)
  /-- A value is refused. -/
  | invalidValue (key reason : String)
  deriving DecidableEq, Repr

namespace ConfigFault

/-- What is said about a configuration that is not read or not accepted. -/
def diagnosis : ConfigFault → Diagnosis
  | unreadable path => {
      code := "config::read"
      message := s!"failed to read config file {path}"
      help := "Check that the file exists and is readable." }
  | malformed path => {
      code := "config::parse"
      message := s!"invalid config {path}: not a TOML document of the expected form"
      help := "The file must be valid TOML matching the GroundingConfig layout." }
  | invalidValue key reason => {
      code := "config::value"
      message := s!"invalid value for {key}: {reason}"
      help := "See GroundingConfig for the accepted ranges." }

end ConfigFault

end RuleGrounding
