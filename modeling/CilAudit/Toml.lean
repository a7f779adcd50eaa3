import CilAudit.Binary
import CilAudit.Text

/-!
# Settings documents

What a document in Tom's obvious minimal language says, statement by statement, before the
tables are put together.
-/

set_option autoImplicit false

namespace CilAudit.Toml

/-- A key: the names of tables, one below another, and of a value in the last of them. -/
abbrev Key := List Text

/-- A value. The keys of an inline table may have several parts. -/
inductive Value where
  | string (value : Text)
  | integer (value : Int)
  | float (value : Double)
  | bool (value : Bool)
  | dateTime (literal : Text)
  | array (items : List Value)
  | table (entries : List (Key × Value))
  deriving Repr

/-- A statement: a value for a key, or the heading of a table or of one more table in an array
of tables. -/
inductive Statement where
  | assign (key : Key) (value : Value)
  | table (key : Key)
  | tableItem (key : Key)
  deriving Repr

end CilAudit.Toml
