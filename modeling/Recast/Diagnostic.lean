/-
# Diagnostics

A `Diagnostic` is one occurrence of an error or a warning that a compiler reports for a text.  Its
code says what is wrong, its span says where; the start of the span is what a fix looks for.
-/
import Recast.Span

namespace Recast

/-- How serious a diagnostic is. -/
inductive Severity where
  | error
  | warning
  | info
  deriving DecidableEq

/-- The word for a severity. -/
def Severity.text : Severity → String
  | error => "error"
  | warning => "warning"
  | info => "info"

/-- One reported occurrence. -/
structure Diagnostic where
  code : String
  severity : Severity
  span : Span
  message : String
  deriving DecidableEq

namespace Diagnostic

/-- The code of a value that is not converted implicitly to the required type. -/
def invalidConversionCode : String := "CF0029"

/-- An error with a code. -/
def ofError (code : String) (span : Span) (message : String) : Diagnostic :=
  ⟨code, .error, span, message⟩

/-- A value of the type `source` stands where `target` is required. -/
def invalidConversion (span : Span) (source target : String) : Diagnostic :=
  ofError invalidConversionCode span
    ("cannot implicitly convert type '" ++ source ++ "' to '" ++ target ++ "'")

/-- The offset of the first byte concerned. -/
def start (d : Diagnostic) : Nat := d.span.offset

/-- The diagnostic as a compiler prints it. -/
def text (d : Diagnostic) : String :=
  d.span.text ++ ": " ++ d.severity.text ++ " " ++ d.code ++ ": " ++ d.message

end Diagnostic

end Recast
