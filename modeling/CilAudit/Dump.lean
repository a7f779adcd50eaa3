import CilAudit.Datum
import CilAudit.Reference

/-!
# Module dumps

The serialized form of a module, as a document holds it: nothing is resolved or checked
beyond the types of its fields.
-/

set_option autoImplicit false

namespace CilAudit.Dump

/-- The members that tokens stand for, by the text of the token. -/
structure Tokens where
  strings : List (Text × Text) := []
  methods : List (Text × MethodRef) := []
  fields : List (Text × FieldRef) := []
  types : List (Text × Text) := []
  deriving Repr, Inhabited

structure Field where
  name : Text := []
  type : Text := []
  isPublic : Bool := false
  isFamily : Bool := false
  isStatic : Bool := false
  isInitOnly : Bool := false
  deriving Repr, Inhabited

structure Property where
  name : Text := []
  type : Text := []
  deriving Repr, Inhabited

structure Param where
  name : Text := []
  type : Text := []
  deriving Repr, Inhabited

/-- The native function behind a method. -/
structure Import where
  library : Text := []
  entry : Text := []
  deriving Repr, Inhabited

/-- An instruction by mnemonic. A token operand is the text of the token, a branch target an
offset or a label. -/
structure Line where
  offset : Int := 0
  op : Text := []
  operand : Datum := .null
  deriving Repr, Inhabited

/-- An exception handler; offsets are in bytes. -/
structure Handler where
  kind : Text := []
  tryStart : Int := 0
  tryEnd : Int := 0
  handlerStart : Int := 0
  handlerEnd : Int := 0
  filterStart : Int := 0
  catchType : Text := []
  deriving Repr, Inhabited

/-- A method. Its body is given as encoded bytes in hexadecimal, or as a list of lines. -/
structure Method where
  name : Text := []
  returns : Text := []
  params : List Param := []
  genericParams : List Text := []
  isPublic : Bool := false
  isStatic : Bool := false
  isVirtual : Bool := false
  isNewSlot : Bool := false
  isAbstract : Bool := false
  nativeImport : Option Import := none
  code : Text := []
  lines : Option (List Line) := none
  handlers : List Handler := []
  locals : List Text := []
  deriving Repr, Inhabited

structure TypeDef where
  name : Text := []
  base : Text := []
  interfaces : List Text := []
  isPublic : Bool := false
  isSealed : Bool := false
  isAbstract : Bool := false
  isValueType : Bool := false
  isInterface : Bool := false
  isCompilerGenerated : Bool := false
  isExternal : Bool := false
  fields : List Field := []
  properties : List Property := []
  methods : List Method := []
  deriving Repr, Inhabited

end CilAudit.Dump

namespace CilAudit

/-- A module dump. -/
structure Dump where
  name : Text := []
  types : Option (List Dump.TypeDef) := none
  tokens : Dump.Tokens := {}
  deriving Repr, Inhabited

end CilAudit
