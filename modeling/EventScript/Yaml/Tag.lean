import EventScript.Pattern.Match

/-!
# The types of YAML nodes

A node has a type: one that its tag names, or one that its form and its text tell. A plain text tells its type
alone: the words for truth and nothing, whole numbers in four notations and in base sixty, decimals with a point,
and timestamps; anything else is a text.
-/

namespace EventScript.Yaml

inductive Tag where
  | null
  | bool
  | int
  | float
  | binary
  | timestamp
  | str
  | sequence
  | mapping
  | set
  | ordered
  | pairs
  /-- The mark of a key whose value is merged into the mapping. -/
  | merge
  /-- The mark of a key whose value stands for the mapping. -/
  | default
  | other (name : String)
  deriving DecidableEq, Repr, Inhabited

namespace Tag

/-- What a tag of the standard types begins with. -/
def standard : String := "tag:yaml.org,2002:"

/-- The type that a full tag names. -/
def ofName (name : String) : Tag :=
  if !name.startsWith standard then .other name
  else match (name.drop standard.length).toString with
    | "null" => .null
    | "bool" => .bool
    | "int" => .int
    | "float" => .float
    | "binary" => .binary
    | "timestamp" => .timestamp
    | "str" => .str
    | "seq" => .sequence
    | "map" => .mapping
    | "set" => .set
    | "omap" => .ordered
    | "pairs" => .pairs
    | "merge" => .merge
    | "value" => .default
    | _ => .other name

/-- The words for truth values, in lower case. -/
def truthWords : List (String × Bool) :=
  [("yes", true), ("no", false), ("true", true), ("false", false), ("on", true), ("off", false)]

/-- A word in lower case, with a capital, and in capitals. -/
def spellings (word : String) : List String := [word, word.capitalize, word.map Char.toUpper]

def isTruthWord (text : String) : Bool := truthWords.any fun w => (spellings w.1).contains text

def isNullWord (text : String) : Bool := text.isEmpty || text == "~" || (spellings "null").contains text

/-- A pattern that is known to be well formed. -/
def known (pattern : String) : Pattern.Pat :=
  match Pattern.read {} pattern with
  | .ok (p, _) => p
  | .error _ => .alt []

def intPattern : Pattern.Pat := known
  ("^(?:[-+]?0b[0-1_]+|[-+]?0[0-7_]+|[-+]?(?:0|[1-9][0-9_]*)|[-+]?0x[0-9a-fA-F_]+"
    ++ "|[-+]?[1-9][0-9_]*(?::[0-5]?[0-9])+)$")

def floatPattern : Pattern.Pat := known
  ("^(?:[-+]?(?:[0-9][0-9_]*)\\.[0-9_]*(?:[eE][-+][0-9]+)?|\\.[0-9][0-9_]*(?:[eE][-+][0-9]+)?"
    ++ "|[-+]?[0-9][0-9_]*(?::[0-5]?[0-9])+\\.[0-9_]*|[-+]?\\.(?:inf|Inf|INF)|\\.(?:nan|NaN|NAN))$")

def timestampPattern : Pattern.Pat := known
  ("^(?:[0-9][0-9][0-9][0-9]-[0-9][0-9]-[0-9][0-9]|[0-9][0-9][0-9][0-9]-[0-9][0-9]?-[0-9][0-9]?"
    ++ "(?:[Tt]|[ \\t]+)[0-9][0-9]?:[0-9][0-9]:[0-9][0-9](?:\\.[0-9]*)?"
    ++ "(?:[ \\t]*(?:Z|[-+][0-9][0-9]?(?::[0-9][0-9])?))?)$")

/-- The type of a plain text. -/
def ofPlain (text : String) : Tag :=
  let fits (p : Pattern.Pat) : Bool := (Pattern.search p 0 text).isSome
  if isTruthWord text then .bool
  else if isNullWord text then .null
  else if text == "<<" then .merge
  else if text == "=" then .default
  else if !(text.toList.head?.any fun c => c.isDigit || "-+.".contains c) then .str
  else if fits floatPattern then .float
  else if fits intPattern then .int
  else if fits timestampPattern then .timestamp
  else .str

end Tag

end EventScript.Yaml
