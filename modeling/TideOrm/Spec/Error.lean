import Mathlib.Data.String.Basic

/-! The kinds of error the modelled functions report (`error.rs`), with their
messages. -/

namespace TideOrm

inductive Error where
  | internal (message : String)
  | query (message : String)
  | transaction (message : String)
  | configuration (message : String)
  | backendNotSupported (message backend : String)
  | tokenization (message : String)
  | invalidToken (message : String)
deriving DecidableEq

end TideOrm
