import Ia32.C.Locals

/-!
# Complaints about the meaning of a program
-/

namespace Ia32.C

/-- A program that is well formed and yet wrong. -/
inductive Complaint where
  | notVoid (function : String)
  | reservedFunction (name : String)
  | redefinition (function : String)
  | tooManyFunctions (limit : Nat)
  | assignedConstant (name : String)
  | stringForType (name : String) (type : CType)
  | reservedConstant (name : String)
  | constantClash (name : String)
  | redeclaration (name : String)
  | noVariable (cause : LocalError)
  | notAPointer (name : String) (type : CType)
  | takesNoArguments (function : String)
  | undefinedFunction (name : String)
  | tooManyArguments (function : String) (count : Nat)
  deriving DecidableEq, Repr

/-- The text of a complaint. -/
def Complaint.message : Complaint → String
  | .notVoid name => "Function `" ++ name ++ "` must be declared `void`"
  | .reservedFunction name => "`" ++ name ++ "` is reserved and cannot name a function"
  | .redefinition name => "Redefinition of function `" ++ name ++ "`"
  | .tooManyFunctions limit => "Too many functions: limit is " ++ toString limit
  | .assignedConstant name => "Cannot assign to string constant `" ++ name ++ "`"
  | .stringForType name type =>
      "String initializer for `" ++ name ++ "` of type `" ++ type.name ++ "`"
  | .reservedConstant name => "`" ++ name ++ "` is reserved and cannot name a string constant"
  | .constantClash name =>
      "String constant `" ++ name ++ "` clashes with function `" ++ name ++ "`"
  | .redeclaration name => "Redeclaration of `" ++ name ++ "`"
  | .noVariable cause => cause.message
  | .notAPointer name type =>
      "Cannot dereference `" ++ name ++ "` of type `" ++ type.name ++ "`"
  | .takesNoArguments name => "Function `" ++ name ++ "` takes no arguments"
  | .undefinedFunction name => "Undefined function `" ++ name ++ "`"
  | .tooManyArguments name count =>
      "Too many arguments to `" ++ name ++ "`: " ++ toString count ++ ", at most " ++
        toString Abi.maxCallArguments

end Ia32.C
