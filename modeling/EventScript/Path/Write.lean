import EventScript.Path.Resolve

/-!
# Writing through paths

A write walks its path, makes the containers that are missing on the way, and combines the old and the new value
at the end as its operation says. A handle on the way is followed, and written to if what it leads to was replaced;
a read-only handle takes the write and drops it.
-/

namespace EventScript

/-- How handles are read and written. -/
structure HandleAccess where
  read : HandleId → Exec Value
  write : HandleId → Value → Exec Unit

/-- The roots whose contents can be written. -/
def RootKey.isWritable : RootKey → Bool
  | .global | .data | .state | .args | .component | .c => true
  | _ => false

/-- The roots of the context. -/
def RootKey.isContext : RootKey → Bool
  | .context | .currentContext => true
  | _ => false

/-- The roots that can be replaced as a whole. -/
def RootKey.isReplaceable : RootKey → Bool
  | .global | .data | .state => true
  | _ => false

namespace Path

/-- The value that is stored for a written one: handles are followed and absence becomes null, unless the value is
stored raw. -/
def stored (read : HandleId → Exec Value) (limits : Limits) (op : WriteOp) (v : Value) : Exec Value :=
  match op with
  | .setRaw => pure v
  | _ => do return (← follow read limits.handleDepth v).orNull

/-- Appends one value: to an array, to a text, or in place of null as an array of its own. -/
def appendValue (limits : Limits) (cur v : Value) : Exec Value := do
  match cur, v with
  | .null, _ | .absent, _ => Exec.newArray #[v]
  | .array a, _ =>
    let xs := (← Exec.store).array a
    if limits.arraySize ≤ xs.size then Exec.fail (.appendSize limits.arraySize)
    modify fun w => { w with store := w.store.setArray a (xs.push v) }
    return cur
  | .str _, .null => return cur
  | .str s, .str t => return .str (s ++ t)
  | _, _ => Exec.fail (.appendTo cur.kind)

/-- Appends the elements of an array; any other value is dropped. -/
def appendElements (limits : Limits) (cur v : Value) : Exec Value := do
  match v, cur with
  | .array _, .null | .array _, .absent => return v
  | .array b, .array a =>
    let xs := (← Exec.store).array a
    let ys := (← Exec.store).array b
    if limits.arraySize < xs.size + ys.size then Exec.fail (.appendSize limits.arraySize)
    modify fun w => { w with store := w.store.setArray a (xs ++ ys) }
    return cur
  | .array _, _ => Exec.fail (.appendArrayTo cur.kind)
  | _, _ => return cur

/-- Appends base64 text to the data of a blob. -/
def extendBlob (cur v : Value) : Exec Value := do
  match cur, v with
  | .blob b, .str s =>
    modify fun w =>
      let blob := w.store.blob b
      { w with store := w.store.setBlob b { blob with data := blob.data ++ s } }
    return cur
  | .blob _, _ => Exec.fail .extendData
  | _, _ => Exec.fail .extendTarget

/-- The value at the end of a path after a write. -/
def applyOp (h : HandleAccess) (limits : Limits) (op : WriteOp) (cur v : Value) : Exec Value := do
  match cur with
  | .handle x =>
    if (← Exec.store).isReadOnly x then return cur
    if op == .set || op == .setRaw then
      h.write x (← stored h.read limits op v)
      return cur
    Exec.fail (.opOnHandle op)
  | _ =>
    match op with
    | .set | .setRaw => stored h.read limits op v
    | .setUnless => if cur.isNull then stored h.read limits .set v else return cur
    | .append => do appendValue limits cur (← stored h.read limits .set v)
    | .appendArray => do appendElements limits cur (← stored h.read limits .set v)
    | .blobExtend => do extendBlob cur (← stored h.read limits .set v)

/-- An array long enough for an index. -/
def extendTo (xs : Array Value) (i : Nat) : Array Value := xs ++ Array.replicate (i + 1 - xs.size) .null

/-- Writes an element of a container that is no handle. `inner` writes below the old element and gives the new
one. -/
def writeIndex (limits : Limits) (i : Int) (cur : Value) (inner : Value → Exec Value) : Exec Value := do
  if i < 0 || limits.arraySize ≤ i then Exec.fail (.badSetIndex i)
  let cur ← if cur.isNull then Exec.newArray #[] else pure cur
  match cur with
  | .array a =>
    let n := i.toNat
    modify fun w =>
      let xs := w.store.array a
      if xs.size ≤ n then { w with store := w.store.setArray a (extendTo xs n) } else w
    let old := ((← Exec.store).array a).getD n .null
    let new ← inner old
    modify fun w => { w with store := w.store.setArray a ((w.store.array a).setIfInBounds n new) }
    return cur
  | _ => Exec.fail (.setIndexOf i cur.kind)

/-- Writes an entry of a container that is no handle. The new value is stored unless it is equal to the old one; a copy
of a text or a number with an identity of its own is taken for the original. -/
def writeKey (k : String) (cur : Value) (inner : Value → Exec Value) : Exec Value := do
  let cur ← if cur.isNull then Exec.newObject [] else pure cur
  if cur.kind != .object then Exec.fail (.setKeyOf k cur.kind)
  let old := ((← get).valueAt? cur (.str k)).getD .null
  let new ← inner old
  if new != old || ((← get).valueAt? cur (.str k)).isNone then Exec.setEntry cur (.str k) new
  return cur

/-- Writes one step below a value that is no handle. -/
def writeInto (limits : Limits) (text : String) (part : Part) (cur : Value) (inner : Value → Exec Value) :
    Exec Value :=
  match part with
  | .index i => writeIndex limits i cur inner
  | .key k => writeKey k cur inner
  | .root _ => Exec.reject (.innerRoot text)
  | .dyn _ | .deref _ => Exec.reject (.unevaluated text)

/-- Writes below a value along the parts of a path, and gives what takes the place of the value. -/
def writeParts (h : HandleAccess) (limits : Limits) (text : String) (op : WriteOp) (v : Value) :
    List Part → Value → Exec Value
  | [], cur => applyOp h limits op cur v
  | part :: rest, cur => do
    match cur with
    | .handle x =>
      if (← Exec.store).isReadOnly x then return cur
      let inner ← follow h.read limits.handleDepth cur
      let updated ← writeInto limits text part inner (writeParts h limits text op v rest)
      if updated != inner then h.write x updated
      return cur
    | _ => writeInto limits text part cur (writeParts h limits text op v rest)

/-- Writes through a concrete path. Only a write inside a script may go to the context. -/
def writeStatic (h : HandleAccess) (limits : Limits) (p : Path) (scope : ScopeId) (v : Value)
    (op : WriteOp) (allowContext : Bool) : Exec Unit := do
  match p.root? with
  | none => Exec.reject (.rootless p.text)
  | some r =>
    if !r.key.isWritable && !(allowContext && r.key.isContext) then
      failWith p (.notWritable · r.key.name allowContext)
    if p.length == 1 && !r.key.isReplaceable then failWith p (.notReplaceable r.key.name)
    let cur ← Exec.rootValue scope r.key r.caret
    let updated ← writeParts h limits p.text op v p.rest cur
    if updated != cur then Exec.setRootValue scope r.key updated

/-- Writes through a path. -/
def write (eval : Evaluate) (h : HandleAccess) (limits : Limits) (p : Path) (scope : ScopeId) (v : Value)
    (op : WriteOp) (allowContext : Bool) : Exec Unit := do
  let p ← concrete eval limits (some scope) p
  writeStatic h limits p scope v op allowContext

/-- Writes through a concrete path into a container, which its global root stands for, and gives what takes the
place of the container. -/
def writeIn (h : HandleAccess) (limits : Limits) (p : Path) (container v : Value) : Exec Value :=
  match p.rootKey? with
  | some .global | some .data => writeParts h limits p.text .set v p.rest container
  | _ => failWith p .containerRoot

end Path

end EventScript
