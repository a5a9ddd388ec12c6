import CallWire.Width
import CallWire.Form
import CallWire.Utf8

namespace CallWire

abbrev TypeId := Nat

inductive RangeFault where
  | aboveCompact (value max : Nat)
  | longBig (bytes : Nat)
  | zeroHighByte (bytes : Nat)
  | notShortest (value : Nat) (form : Form)
  | decodedAbove (value max : Nat)
  | decodedWide (value : Nat)
  | longLength (length : Nat)
  | aboveUnsigned (value : Nat)
  | outside (value low high : Int)
  | aboveCompactMax (value max : Nat)
  | above (value max : Nat)
  | aboveSigned (value : Nat)
  | negative (numeral : String)
  | overflow (numeral target : String)
  deriving DecidableEq, Repr

namespace RangeFault

def message : RangeFault → String
  | aboveCompact value max => s!"compact value {value} exceeds {max}"
  | longBig bytes => s!"big-int compact declares {bytes} bytes"
  | zeroHighByte bytes => s!"big-int compact with {bytes} bytes has a zero high byte"
  | notShortest value form => s!"{value} is not canonically encoded in {form.name} mode"
  | decodedAbove value max => s!"decoded compact {value} exceeds {max}"
  | decodedWide value => s!"decoded compact {value}"
  | longLength length => s!"length {length} exceeds u32"
  | aboveUnsigned value => s!"{value} exceeds unsigned max"
  | outside value low high => s!"{value} outside [{low}, {high}]"
  | aboveCompactMax value max => s!"{value} exceeds compact max {max}"
  | above value max => s!"{value} exceeds {max}"
  | aboveSigned value => s!"{value} exceeds signed range"
  | negative numeral => s!"{numeral} is negative"
  | overflow numeral target => s!"`{numeral}` overflows {target}"

end RangeFault

inductive Counted where
  | arrayElements
  | arrayIndex
  | structFields
  | tupleFields
  | payload (tag : UInt8)
  | structType (id : TypeId)
  | tupleType (id : TypeId)
  | arrayType (id : TypeId)
  | enumType (id : TypeId)
  | variant (id : TypeId) (tag : Nat)
  | arguments (method : String)
  | constructorArguments
  | values
  deriving DecidableEq, Repr

namespace Counted

def name : Counted → String
  | arrayElements => "array elements"
  | arrayIndex => "array index"
  | structFields => "struct fields"
  | tupleFields => "tuple fields"
  | payload tag => s!"enum variant {tag} payload"
  | structType id => s!"struct type #{id}"
  | tupleType id => s!"tuple type #{id}"
  | arrayType id => s!"array type #{id}"
  | enumType id => s!"enum type #{id}"
  | variant id tag => s!"enum type #{id} variant {tag}"
  | arguments method => s!"method `{method}` arguments"
  | constructorArguments => "constructor arguments"
  | values => "values"

end Counted

inductive Bound where
  | frame | collection | depth | expansion | arrayLength
  deriving DecidableEq, Repr

namespace Bound

def name : Bound → String
  | frame => "max_frame_size"
  | collection => "max_collection_len"
  | depth => "max_depth"
  | expansion => "max_expansion"
  | arrayLength => "array_len"

end Bound

/-- Why a schema is refused; of a document that cannot be read its reader gives the details. -/
inductive SchemaFault where
  | malformed (detail : String)
  | unnamedPrimitive (id : TypeId)
  | elementCount (kind : String) (id : TypeId) (found : Nat)
  | noArrayLength (id : TypeId)
  | noVariants (id : TypeId)
  | idGap (id : TypeId) (position : Nat)
  | longArray (id : TypeId) (length : Nat)
  | variantCount (id : TypeId) (found : Nat)
  | cycle (id : TypeId)
  | tooManyNodes (id : TypeId) (nodes : Nat)
  | namelessMethod
  | duplicateMethod (name : String)
  | enumVariants (found : Nat)
  deriving DecidableEq, Repr

namespace SchemaFault

def message : SchemaFault → String
  | malformed detail => detail
  | unnamedPrimitive id => s!"primitive type {id} has no `primitive` name"
  | elementCount kind id found =>
    s!"{kind} type {id} must declare exactly one element field, found {found}"
  | noArrayLength id => s!"array type {id} has no `array_len`"
  | noVariants id => s!"enum type {id} has no `variants`"
  | idGap id position =>
    s!"type ids must be unique and contiguous from 0; found #{id} at position {position}"
  | longArray id length =>
    s!"array type #{id} declares {length} elements, at most {maxArrayLength} allowed"
  | variantCount id found =>
    s!"enum type #{id} declares {found} variants, expected 1..={maxVariants}"
  | cycle id => s!"type #{id} participates in a reference cycle"
  | tooManyNodes id nodes =>
    s!"type #{id} expands to {nodes} template nodes, at most {maxTypeNodes} allowed"
  | namelessMethod => "method name must not be empty; the empty name denotes the constructor"
  | duplicateMethod name => s!"duplicate method `{name}`"
  | enumVariants found => s!"enum must declare 1..={maxVariants} variants, found {found}"

end SchemaFault

inductive SectionFault where
  | longName (bytes : Nat)
  | longBody (length : Nat)
  | shortHeader (available : Nat)
  | badLength (declared available : Nat)
  | nameOverrun (name declared : Nat)
  | nameText (fault : Utf8Fault)
  deriving DecidableEq, Repr

namespace SectionFault

def message : SectionFault → String
  | longName bytes => s!"section name is {bytes} bytes, at most {maxSectionName} allowed"
  | longBody length => s!"section length {length} exceeds u32"
  | shortHeader available => s!"section header needs 6 bytes, {available} available"
  | badLength declared available =>
    s!"declared section length {declared} does not fit {available} available bytes"
  | nameOverrun name declared =>
    s!"section name of {name} bytes overruns declared length {declared}"
  | nameText fault => s!"section name is not UTF-8: {fault.message}"

end SectionFault

inductive SettingsFault where
  | malformed (detail : String)
  | longSectionName (bytes : Nat)
  deriving DecidableEq, Repr

namespace SettingsFault

def message : SettingsFault → String
  | malformed detail => detail
  | longSectionName bytes =>
    s!"constructor_section.name is {bytes} bytes, at most {maxSectionName} allowed"

end SettingsFault

/-- Everything that can go wrong, by cause. -/
inductive Fault where
  | outOfRange (width : Width) (cause : RangeFault)
  | typeMismatch (expected found : String)
  | unknownMethod (name : String)
  | unknownType (id : TypeId)
  | arityMismatch (what : Counted) (expected found : Nat)
  | truncated (needed remaining : Nat)
  | unsupportedType (name : String)
  | invalidLiteral (target literal : String)
  | invalidBool (byte : UInt8)
  | invalidUtf8 (cause : Utf8Fault)
  | invalidEnumTag (tag : Nat) (variants : Nat)
  | trailingBytes (remaining : Nat)
  | limitExceeded (bound : Bound) (value max : Nat)
  | invalidSchema (cause : SchemaFault)
  | invalidSection (cause : SectionFault)
  | invalidSettings (cause : SettingsFault)
  deriving DecidableEq, Repr

namespace Fault

/-- A name for the kind of fault that outlives any change of wording. -/
def code : Fault → String
  | outOfRange .. => "compact.out_of_range"
  | typeMismatch .. => "compact.type_mismatch"
  | unknownMethod .. => "compact.unknown_method"
  | unknownType .. => "compact.unknown_type"
  | arityMismatch .. => "compact.arity_mismatch"
  | truncated .. => "compact.truncated_input"
  | unsupportedType .. => "compact.unsupported_type"
  | invalidLiteral .. => "compact.invalid_literal"
  | invalidBool .. => "compact.invalid_bool"
  | invalidUtf8 .. => "compact.invalid_utf8"
  | invalidEnumTag .. => "compact.invalid_enum_tag"
  | trailingBytes .. => "compact.trailing_bytes"
  | limitExceeded .. => "compact.limit_exceeded"
  | invalidSchema .. => "compact.invalid_schema"
  | invalidSection .. => "compact.invalid_section"
  | invalidSettings .. => "compact.invalid_config"

def hexByte (b : UInt8) : String :=
  String.ofList [Nat.digitChar (b.toNat / 16), Nat.digitChar (b.toNat % 16)]

def message : Fault → String
  | outOfRange width cause => s!"value out of range for {width.label}: {cause.message}"
  | typeMismatch expected found => s!"type mismatch: expected {expected}, found {found}"
  | unknownMethod name => s!"method `{name}` is not declared in the abi"
  | unknownType id => s!"type id {id} is not declared in the abi"
  | arityMismatch what expected found =>
    s!"{what.name}: expected {expected} items, found {found}"
  | truncated needed remaining =>
    s!"truncated input: needed {needed} bytes, {remaining} remaining"
  | unsupportedType name => s!"unsupported type `{name}`"
  | invalidLiteral target literal => s!"cannot parse `{literal}` as {target}"
  | invalidBool byte => s!"invalid bool byte 0x{hexByte byte}"
  | invalidUtf8 cause => s!"string payload is not valid UTF-8: {cause.message}"
  | invalidEnumTag tag variants =>
    s!"enum tag {tag} is outside the {variants} declared variants"
  | trailingBytes remaining => s!"{remaining} trailing bytes left after decoding"
  | limitExceeded bound value max => s!"{bound.name} limit exceeded: {value} > {max}"
  | invalidSchema cause => s!"invalid abi schema: {cause.message}"
  | invalidSection cause => s!"invalid section frame: {cause.message}"
  | invalidSettings cause => s!"invalid codec configuration: {cause.message}"

end Fault

end CallWire
