import CallWire.Settings
import CallWire.Toml

namespace CallWire

namespace Toml

def natural? (bound : Nat) : Toml → Option Nat
  | integer n => if 0 ≤ n ∧ n < bound then some n.toNat else none
  | _ => none

def text? : Toml → Option String
  | string s => some s
  | _ => none

/-- Assigns the parts of a record: a table names them, and an array gives them in declared order,
where what comes after the last is passed over. -/
def assignParts (names : List String) (assign : α → String → Toml → Option α) (a : α) :
    Toml → Option α
  | table entries =>
    entries.foldlM (fun a (path, v) =>
      match path with
      | [name] => assign a name v
      | _ => none) a
  | array items => (names.zip items).foldlM (fun a (name, v) => assign a name v) a
  | _ => none

end Toml

namespace Limits

def partNames : List String :=
  ["max_frame_size", "max_collection_len", "max_depth", "max_expansion"]

def assign (l : Limits) (name : String) (v : Toml) : Option Limits :=
  match name with
  | "max_frame_size" => (v.natural? (2 ^ 64)).map fun n => { l with frame := some n }
  | "max_collection_len" => (v.natural? (2 ^ 64)).map fun n => { l with collection := some n }
  | "max_depth" => (v.natural? (2 ^ 64)).map fun n => { l with depth := some n }
  | "max_expansion" => (v.natural? (2 ^ 64)).map fun n => { l with expansion := some n }
  | _ => none

end Limits

namespace SectionHeader

def partNames : List String := ["kind", "name"]

def assign (h : SectionHeader) (name : String) (v : Toml) : Option SectionHeader :=
  match name with
  | "kind" => (v.natural? 256).map fun n => { h with kind := UInt8.ofNat n }
  | "name" => v.text?.map fun s => { h with name := s }
  | _ => none

end SectionHeader

namespace Settings

/-- Assigns one setting; every other key is refused. -/
def assign (s : Settings) (path : List String) (v : Toml) : Option Settings :=
  match path, v with
  | ["allow_trailing_bytes"], .bool b => some { s with allowTrailing := b }
  | ["limits"], v =>
    (Toml.assignParts Limits.partNames Limits.assign s.limits v).map fun l =>
      { s with limits := l }
  | ["limits", name], v => (s.limits.assign name v).map fun l => { s with limits := l }
  | ["constructor_section"], v =>
    (Toml.assignParts SectionHeader.partNames SectionHeader.assign s.header v).map fun h =>
      { s with header := h }
  | ["constructor_section", name], v =>
    (s.header.assign name v).map fun h => { s with header := h }
  | _, _ => none

def tableNames : List String := ["limits", "constructor_section"]

/-- Assigns the lines of a settings text in turn, each under the table that was opened last. A key
is assigned to once, and a table is opened once and not after a key in it was assigned to. -/
def ofLines (s : Settings) (opened seen : List (List String)) (current : List String) :
    List TomlLine → Option Settings
  | [] => some s
  | .tables _ :: _ => none
  | .table path :: lines =>
    match path with
    | [name] =>
      if tableNames.contains name ∧ !opened.contains path ∧ seen.all (!Toml.related path ·) then
        ofLines s (path :: opened) seen path lines
      else none
    | _ => none
  | .assign path v :: lines =>
    let full := current ++ path
    if seen.all (!Toml.related full ·) then
      match s.assign full v with
      | some s => ofLines s opened (full :: seen) current lines
      | none => none
    else none

/-- Reads a settings text and holds it to what a section can carry. What is said of a text that
gives no settings is left to `words`. -/
def ofText (words : String → String) (text : String) : Except Fault Settings :=
  match (Toml.parse text).bind (ofLines {} [] [] []) with
  | some s => s.validate.map fun _ => s
  | none => .error (.invalidSettings (.malformed (words text)))

end Settings

end CallWire
