import EventScript.Store
import EventScript.Json.Reader
import EventScript.Pattern.Syntax
import EventScript.Template.Mustache
import EventScript.Template.Printf
import EventScript.Yaml.Refusal

/-!
# Faults

Everything that can go wrong, each with its cause. Faults of construction, of resolution, of limits and of
cycles, and errors that a script throws, belong to the language; all others come from the functions and hosts
it calls, and name their class when they are reported.
-/

namespace EventScript

/-- Why a path, an expression, an action or a block is malformed. -/
inductive Malformed where
  | rootKey (key : String)
  | negativeCaret
  | emptyPath
  | noRoot
  | notAPath (literal : String)
  | notASetPath (literal : String)
  | notPathLike (typeName : String)
  | quotedKey (text : String) (cause : Json.Cause)
  | unterminatedKey (text : String)
  | rootName (name text : String)
  | pathStart (text : String)
  | identifier (place : Nat) (text : String)
  | indexOrKey (place : Nat) (text : String)
  | bracket (place : Nat) (text : String)
  | character (c : Char) (place : Nat) (text : String)
  | writeOp (name : String)
  | operator (name : String)
  | chooseOperands
  | filter (name : String)
  | callTarget
  | block (typeName : String)
  | action (typeName : String)
  | innerRoot (path : String)
  | unevaluated (path : String)
  | rootless (path : String)
  | mode (name : String)
  | expression (typeName : String)
  /-- A refusal of the host in its own words. -/
  | other (text : String)
  deriving Repr, DecidableEq

def Malformed.message : Malformed → String
  | .rootKey key => "Invalid root path key '" ++ key ++ "'"
  | .negativeCaret => "Root caret must be non-negative"
  | .emptyPath => "Path must have at least a root part"
  | .noRoot => "Path must start with a root part"
  | .notAPath literal => "Invalid path " ++ literal
  | .notASetPath literal => "Invalid set path " ++ literal
  | .notPathLike typeName => "Expected a path, got " ++ typeName
  | .quotedKey text cause => "Bad quoted key in path '" ++ text ++ "': " ++ cause.message
  | .unterminatedKey text => "Unterminated quoted key in path '" ++ text ++ "'"
  | .rootName name text => "Invalid root path '$" ++ name ++ "' in '" ++ text ++ "'"
  | .pathStart text => "Path must start with '$', '@' or '.': '" ++ text ++ "'"
  | .identifier place text =>
    "Expected identifier after '.' at " ++ toString place ++ " in '" ++ text ++ "'"
  | .indexOrKey place text =>
    "Expected index or quoted key at " ++ toString place ++ " in '" ++ text ++ "'"
  | .bracket place text => "Expected ']' at " ++ toString place ++ " in '" ++ text ++ "'"
  | .character c place text =>
    "Unexpected character " ++ Text.quoted c.toString ++ " at " ++ toString place ++ " in '" ++ text ++ "'"
  | .writeOp name => "Invalid set op '" ++ name ++ "'"
  | .operator name => "Invalid operator '" ++ name ++ "'"
  | .chooseOperands => "Ternary operator requires 3 operands"
  | .filter name => "Invalid filter '" ++ name ++ "' (only 'format' is supported)"
  | .callTarget => "callhandler requires a callpath or a url"
  | .block typeName => "Invalid handler block: " ++ typeName
  | .action typeName => "Invalid action type: " ++ typeName
  | .innerRoot path => "Root path part is only valid at level 0 (" ++ path ++ ")"
  | .unevaluated path => "Unevaluated dynamic part in " ++ path
  | .rootless path => "Path must start with a root part (" ++ path ++ ")"
  | .mode name => "Invalid evaluation mode '" ++ name ++ "'"
  | .expression typeName => "Invalid expression node: " ++ typeName
  | .other text => text

/-- Why a path cannot be followed, a place not written, or a function not called. -/
inductive Unresolved where
  | derefDepth (limit : Int)
  | deref (text : String) (cause : Malformed)
  | derefPlace (text : String)
  | noScope (key : String)
  | rootName (key : String)
  | indexOf (index : Int) (kind : Kind)
  | badIndex (index : Int)
  | keyOf (key : String) (kind : Kind)
  | containerRoot (path : String)
  | notWritable (path key : String) (withContext : Bool)
  | notReplaceable (key path : String)
  | badSetIndex (index : Int)
  | setIndexOf (index : Int) (kind : Kind)
  | setKeyOf (key : String) (kind : Kind)
  | opOnHandle (op : WriteOp)
  | appendSize (limit : Int)
  | appendTo (kind : Kind)
  | appendArrayTo (kind : Kind)
  | extendTarget
  | extendData
  | arraySize (limit : Int)
  | refRoot (path : String)
  | nativeFailed (reason : String)
  | infiniteRange
  | rangeSize (limit : Int)
  | noFunction (name : String)
  | functionFailed (name reason : String)
  | handleDepth (limit : Int)
  | dynamicHandle
  | undeclaredRoot (name : String)
  | fixedRoot (name : String)
  | handlerPath (literal : String)
  | pureTarget (path : String)
  | noModule (module path : String)
  | noHandler (path : String)
  | blobArgument (function : String)
  | spliceArgument
  | sliceArgument
  | matchFlag (flag : String)
  /-- A refusal of the host in its own words. -/
  | refused (text : String)
  deriving Repr, DecidableEq

def Unresolved.message : Unresolved → String
  | .derefDepth limit => "Path dereference exceeds max depth (" ++ toString limit ++ ")"
  | .deref text cause => "Cannot dereference '" ++ text ++ "': " ++ cause.message
  | .derefPlace text => "Dereferenced path '" ++ text ++ "' can only appear at the start of a path"
  | .noScope key => "Invalid root path '" ++ key ++ "' (no environment)"
  | .rootName key => "Invalid root path '" ++ key ++ "'"
  | .indexOf index kind =>
    "Cannot resolve array index [" ++ toString index ++ "] on non-array (" ++ kind.name ++ ")"
  | .badIndex index => "Bad array index: " ++ toString index
  | .keyOf key kind => "Cannot resolve map key '" ++ key ++ "' on non-object (" ++ kind.name ++ ")"
  | .containerRoot path => "Container paths must be rooted at '$' (" ++ path ++ ")"
  | .notWritable path key withContext =>
    "Cannot write to " ++ path ++ ": root '" ++ key
      ++ "' is not writable (global/data, state, args, component"
      ++ (if withContext then ", context" else "") ++ ")"
  | .notReplaceable key path => "Cannot replace the '" ++ key ++ "' root (" ++ path ++ ")"
  | .badSetIndex index => "SetPath bad array index: " ++ toString index
  | .setIndexOf index kind =>
    "SetPath cannot set array index [" ++ toString index ++ "] on non-array (" ++ kind.name ++ ")"
  | .setKeyOf key kind =>
    "SetPath cannot set map key '" ++ key ++ "' on non-object (" ++ kind.name ++ ")"
  | .opOnHandle op => "Cannot apply '" ++ op.name ++ "' to an lvalue target"
  | .appendSize limit => "Cannot append, array exceeds max size (" ++ toString limit ++ ")"
  | .appendTo kind => "Cannot append to " ++ kind.name ++ " value"
  | .appendArrayTo kind => "Cannot append-array to " ++ kind.name ++ " value"
  | .extendTarget => "blob-extend requires a blob target"
  | .extendData => "blob-extend requires string data"
  | .arraySize limit => "Array literal exceeds max size (" ++ toString limit ++ ")"
  | .refRoot path => "ref() requires a global or component path, got " ++ path
  | .nativeFailed reason => "Error in native lambda: " ++ reason
  | .infiniteRange => "Array range bounds must be finite"
  | .rangeSize limit => "Array range exceeds max size (" ++ toString limit ++ ")"
  | .noFunction name => "Invalid function: fn:" ++ name
  | .functionFailed name reason => "Error in fn:" ++ name ++ ": " ++ reason
  | .handleDepth limit => "LValue chain exceeds max depth (" ++ toString limit ++ ")"
  | .dynamicHandle => "ObjectLValue paths must be static"
  | .undeclaredRoot name => "No '" ++ name ++ "' root is declared in this environment"
  | .fixedRoot name => "Cannot replace root '" ++ name ++ "'"
  | .handlerPath literal => "Invalid handler path " ++ literal
  | .pureTarget path => "Pure handlers may only assign to context paths, not " ++ path
  | .noModule module path => "No handler module '" ++ module ++ "' (" ++ path ++ ")"
  | .noHandler path => "Local handler not found: " ++ path
  | .blobArgument function => "fn:" ++ function ++ " requires a blob argument"
  | .spliceArgument => "fn:splice requires an array"
  | .sliceArgument => "fn:slice requires a string or array"
  | .matchFlag flag => "fn:match invalid flag '" ++ flag ++ "'"
  | .refused text => text

/-- Whether the index that a message names has too many digits to be written. The ceilings that messages name are
taken to be short. -/
def Unresolved.isLong : Unresolved → Bool
  | .indexOf index _ | .badIndex index | .badSetIndex index | .setIndexOf index _ => Decimal.isLong index
  | _ => false

/-- The ceilings of a run. -/
inductive Ceiling where
  | actions (limit : Int)
  | stack (limit : Int)
  /-- A ceiling of the host in its own words. -/
  | other (text : String)
  deriving Repr, DecidableEq

def Ceiling.message : Ceiling → String
  | .actions limit => "Max action count exceeded (" ++ toString limit ++ ")"
  | .stack limit => "Max stack depth exceeded (" ++ toString limit ++ ")"
  | .other text => text

/-- The classes of errors that a host raises. -/
inductive HostError where
  | value
  | key
  | type
  deriving Repr, DecidableEq

def HostError.typeName : HostError → String
  | .value => "ValueError"
  | .key => "KeyError"
  | .type => "TypeError"

/-- Why a nesting is too deep to go on: where it was noticed. -/
inductive TooDeep where
  | calling
  | comparing
  deriving Repr, DecidableEq

def TooDeep.message : TooDeep → String
  | .calling => "maximum recursion depth exceeded"
  | .comparing => "maximum recursion depth exceeded in comparison"

inductive Fault where
  | malformed (cause : Malformed)
  | unresolved (cause : Unresolved)
  /-- A ceiling is exceeded; the call stack is noted by the innermost event handler on the way out. -/
  | ceiling (cause : Ceiling) (stack : Option CallStack)
  /-- A container holds itself; the trail leads from the root to it. -/
  | cycle (trail : List String)
  /-- An error that a script or a function throws, and its message when it was thrown. -/
  | thrown (error : ErrorId) (message : String)
  | overflow (cause : Number.Overflow)
  | digits (cause : Number.TooLong)
  | notWhole (cause : Number.NotWhole)
  | json (cause : Json.Error)
  | yaml (cause : Yaml.Refusal)
  | base64 (cause : Text.Base64.Malformed)
  | pattern (cause : Pattern.Error)
  | printf (cause : Printf.Error)
  | mustache (cause : Mustache.Error)
  /-- An operator lacks an operand. -/
  | missingOperand
  /-- A key is not there; it is shown as a literal. -/
  | missingKey (literal : String)
  /-- A value lacks what is asked of it. -/
  | attribute (typeName name : String)
  /-- A built-in function gets too few or too many arguments. -/
  | arity
  | notIterable (typeName : String)
  /-- Two values that have no order. -/
  | unordered (left right : String)
  | dataFormat (literal : String)
  | boundary (literal : String)
  | setting (name literal : String)
  | emptyLambda
  /-- A datum that is not in the exchange form. -/
  | notExchange (what : String)
  /-- A command of the console that cannot be carried out. -/
  | command (text : String)
  | host (kind : HostError) (text : String)
  | tooDeep (cause : TooDeep)
  deriving DecidableEq

namespace Fault

/-- The fault where something cannot be followed, written or called; another one takes its place if its message
cannot be written. -/
def refusal (cause : Unresolved) : Fault := if cause.isLong then .digits .writing else .unresolved cause

theorem refusal_of_short {cause : Unresolved} (h : cause.isLong = false) : refusal cause = .unresolved cause := by
  rw [refusal, h]
  rfl

theorem refusal_of_long {cause : Unresolved} (h : cause.isLong = true) : refusal cause = .digits .writing := if_pos h

theorem refusal_cases (cause : Unresolved) :
    refusal cause = .unresolved cause ∨ refusal cause = .digits .writing := by
  cases h : cause.isLong with
  | false => exact .inl (refusal_of_short h)
  | true => exact .inr (refusal_of_long h)

/-- Whether a fault is of the language itself. -/
def isOwn : Fault → Bool
  | .malformed _ | .unresolved _ | .ceiling .. | .cycle _ | .thrown .. => true
  | _ => false

/-- Whether a fault degrades to null where evaluation is asked not to fail. -/
def isSoft : Fault → Bool
  | .unresolved _ | .cycle _ => true
  | _ => false

/-- The class of a fault, as messages name it. -/
def typeName : Fault → String
  | .malformed _ => "ConstructionError"
  | .unresolved _ => "ResolutionError"
  | .ceiling .. => "RuntimeLimitError"
  | .cycle _ => "CycleError"
  | .thrown .. => "UserThrownError"
  | .overflow _ => "OverflowError"
  | .digits _ => "ValueError"
  | .notWhole .ofNan => "ValueError"
  | .notWhole .ofInfinity => "OverflowError"
  | .json e => e.typeName
  | .yaml e => e.typeName
  | .base64 .notAscii => "ValueError"
  | .base64 _ => "Error"
  | .pattern _ => "error"
  | .printf e => e.typeName
  | .mustache e => e.typeName
  | .missingOperand => "IndexError"
  | .missingKey _ => "KeyError"
  | .attribute .. => "AttributeError"
  | .arity | .notIterable _ | .unordered .. => "TypeError"
  | .dataFormat _ | .boundary _ | .setting .. | .emptyLambda | .command _
  | .notExchange _ => "ValueError"
  | .host kind _ => kind.typeName
  | .tooDeep _ => "RecursionError"

/-- What a fault says. -/
def message : Fault → String
  | .malformed e => e.message
  | .unresolved e => e.message
  | .ceiling e _ => e.message
  | .cycle trail => "cycle detected: " ++ String.intercalate " -> " trail
  | .thrown _ message => message
  | .overflow e => e.message
  | .digits e => e.message
  | .notWhole e => e.message
  | .json e => e.message
  | .yaml e => e.message
  | .base64 .notAscii => "string argument should contain only ASCII characters"
  | .base64 (.loneDigit count) =>
    "Invalid base64-encoded string: number of data characters (" ++ toString count
      ++ ") cannot be 1 more than a multiple of 4"
  | .base64 .badPadding => "Incorrect padding"
  | .pattern e => e.message
  | .printf e => e.message
  | .mustache e => e.message
  | .missingOperand => "list index out of range"
  | .missingKey literal => literal
  | .attribute typeName name => "'" ++ typeName ++ "' object has no attribute '" ++ name ++ "'"
  | .arity => "<arity>"
  | .notIterable typeName => "'" ++ typeName ++ "' object is not iterable"
  | .unordered left right =>
    "'<' not supported between instances of '" ++ left ++ "' and '" ++ right ++ "'"
  | .dataFormat literal => "Unsupported data format: " ++ literal
  | .boundary literal => "Invalid event boundary " ++ literal
  | .setting name literal => name ++ " must be an integer, got " ++ literal
  | .emptyLambda => "Lambda requires an expression or a native function"
  | .command text => text
  | .notExchange what => "not in the exchange form: " ++ what
  | .host _ text => text
  | .tooDeep e => e.message

/-- The text of a fault inside an error: one that is not of the language names its class first. -/
def report (f : Fault) : String :=
  if f.isOwn then f.message
  else if f.message.isEmpty then f.typeName
  else f.typeName ++ ": " ++ f.message

/-- The name under which the result of a run reports a fault. -/
def heading (f : Fault) : String :=
  match f with
  | .ceiling .. | .cycle _ | .unresolved _ | .malformed _ => f.typeName
  | .thrown .. => "HibikiError"
  | _ => "InternalError"

end Fault

end EventScript
