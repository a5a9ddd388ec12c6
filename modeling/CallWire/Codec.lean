import CallWire.Argument
import CallWire.Section
import CallWire.Settings
import CallWire.ValueWire

namespace CallWire

/-- An interface together with settings whose section name a section can carry. -/
structure Codec where
  interface : Interface
  settings : Settings
  fits : settings.Fits

namespace Codec

def ofInterface (interface : Interface) : Codec := ⟨interface, {}, Settings.fits_default⟩

def ofSettings (interface : Interface) (settings : Settings) : Except Fault Codec :=
  match h : settings.validate with
  | .ok () => .ok ⟨interface, settings, Settings.fits_of_validate h⟩
  | .error f => .error f

def limits (c : Codec) : Limits := c.settings.limits

/-- The values that arguments stand for, one type for each. -/
def convert (c : Codec) : List TypeId → List Datum → Except Fault (List Value)
  | id :: ids, d :: ds => do
    let head ← c.interface.value c.limits id d
    return head :: (← convert c ids ds)
  | _, _ => .ok []

/-- Converts and encodes each argument before it looks at the next. -/
def encodeEach (c : Codec) : List TypeId → List Datum → Except Fault Bytes
  | id :: ids, d :: ds => do
    let head ← (← c.interface.value c.limits id d).encode
    return head ++ (← encodeEach c ids ds)
  | _, _ => .ok []

def encodeArguments (c : Codec) (m : Method) (args : List Datum) : Except Fault Bytes := do
  let what := if m.isConstructor then .constructorArguments else .arguments m.name
  Argument.checkArity what m.inputs.length args.length
  encodeEach c m.inputs args

/-- The arguments of a method, or of the constructor under the empty name. -/
def encode (c : Codec) (name : String) (args : List Datum) : Except Fault Bytes := do
  encodeArguments c (← c.interface.methodOrConstructor name) args

def encodeInvocation (c : Codec) (name : String) (args : List Datum) : Except Fault Bytes := do
  let m ← c.interface.method name
  let head ← (Value.text name).encode
  return head ++ (← encodeArguments c m args)

def constructorSection (c : Codec) (args : List Datum) : Except Fault Section := do
  let m ← c.interface.constructor
  let content ← encodeArguments c m args
  Section.ofParts c.settings.header.kind c.settings.header.name content

def encodeConstructor (c : Codec) (args : List Datum) : Except Fault Bytes := do
  (← c.constructorSection args).encode

def encodeDeployment (c : Codec) (code : Bytes) (args : List Datum) : Except Fault Bytes := do
  return code ++ (← (← c.constructorSection args).encode)

def encodeTyped (c : Codec) : List TypeId → List Value → Except Fault Bytes
  | id :: ids, v :: vs => do
    v.requireShape (← c.interface.template c.limits id)
    let head ← v.encode
    return head ++ (← encodeTyped c ids vs)
  | _, _ => .ok []

def encodeValues (c : Codec) (ids : List TypeId) (values : List Value) : Except Fault Bytes := do
  Argument.checkArity .values ids.length values.length
  encodeTyped c ids values

def scanType (c : Codec) (id : TypeId) : Scan Value := do
  (← Scan.ofExcept (c.interface.template c.limits id)).scan

def scanTypes (c : Codec) : List TypeId → Scan (List Value)
  | [] => pure []
  | id :: ids => do
    let head ← c.scanType id
    return head :: (← scanTypes c ids)

/-- Bytes left over are refused unless the settings allow them. -/
def scanWhole (c : Codec) (ids : List TypeId) : Scan (List Value) := do
  let values ← c.scanTypes ids
  if !c.settings.allowTrailing then Scan.finish
  return values

def run (c : Codec) (scan : Scan α) (bytes : Bytes) : Except Fault (α × Cursor) := do
  match scan (← Cursor.start? bytes c.limits) with
  | .ok a cursor => return (a, cursor)
  | .error f _ => throw f

def decodeTypes (c : Codec) (ids : List TypeId) (bytes : Bytes) : Except Fault (List Value) :=
  (c.run (c.scanWhole ids) bytes).map (·.1)

def decode (c : Codec) (name : String) (bytes : Bytes) : Except Fault (List Value) := do
  c.decodeTypes (← c.interface.methodOrConstructor name).outputs bytes

def decodeInputs (c : Codec) (name : String) (bytes : Bytes) : Except Fault (List Value) := do
  c.decodeTypes (← c.interface.methodOrConstructor name).inputs bytes

def decodeInvocation (c : Codec) (bytes : Bytes) : Except Fault (String × List Value) := do
  let (name, cursor) ← c.run Scan.text bytes
  let m ← c.interface.method name
  return (name, ← c.decodeTypes m.inputs cursor.rest)

/-- One value at the front, with the number of bytes it takes. -/
def decodeType (c : Codec) (id : TypeId) (bytes : Bytes) : Except Fault (Value × Nat) := do
  let (value, cursor) ← c.run (c.scanType id) bytes
  return (value, cursor.position)

end Codec

end CallWire
