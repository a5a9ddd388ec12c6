import CallWire.Primitive
import CallWire.Word
import CallWire.Varint

namespace CallWire

/-- A value of the wire format. Vectors and arrays keep the blank element they are made of, and
enums the blank payload of every variant, so that a value alone says how to read another one. -/
inductive Value where
  | bool (b : Bool)
  | text (s : String)
  | word (n : Word)
  | varint (n : Varint)
  | vector (element : Value) (items : List Value)
  | array (element : Value) (length : Nat) (items : List Value)
  | struct (fields : List Value)
  | tuple (fields : List Value)
  | enum (variants : List (List Value)) (tag : UInt8) (payload : List Value)

namespace Value

mutual

def beq : Value → Value → Bool
  | bool a, bool b => a == b
  | text a, text b => a == b
  | word a, word b => a == b
  | varint a, varint b => a == b
  | vector t xs, vector u ys => beq t u && beqAll xs ys
  | array t m xs, array u n ys => beq t u && m == n && beqAll xs ys
  | struct xs, struct ys => beqAll xs ys
  | tuple xs, tuple ys => beqAll xs ys
  | enum vs s xs, enum ws t ys => beqVariants vs ws && s == t && beqAll xs ys
  | _, _ => false

def beqAll : List Value → List Value → Bool
  | [], [] => true
  | x :: xs, y :: ys => beq x y && beqAll xs ys
  | _, _ => false

def beqVariants : List (List Value) → List (List Value) → Bool
  | [], [] => true
  | x :: xs, y :: ys => beqAll x y && beqVariants xs ys
  | _, _ => false

end

mutual

theorem beq_iff (a b : Value) : beq a b = true ↔ a = b := by
  cases a <;> cases b <;>
    simp [beq, beq_iff, beqAll_iff, beqVariants_iff, and_assoc]

theorem beqAll_iff (xs ys : List Value) : beqAll xs ys = true ↔ xs = ys := by
  cases xs <;> cases ys <;> simp [beqAll, beq_iff, beqAll_iff]

theorem beqVariants_iff (xs ys : List (List Value)) : beqVariants xs ys = true ↔ xs = ys := by
  cases xs <;> cases ys <;> simp [beqVariants, beqAll_iff, beqVariants_iff]

end

instance : DecidableEq Value := fun a b => decidable_of_iff _ (beq_iff a b)

def kind : Value → Kind
  | bool _ => .primitive .bool
  | text _ => .primitive .text
  | word n => .primitive (.word n.width n.signed)
  | varint n => .primitive (.varint n.width)
  | vector .. => .vector
  | array .. => .array
  | struct _ => .struct
  | tuple _ => .tuple
  | enum .. => .enum

def spine : Value → List Kind
  | vector t _ => .vector :: spine t
  | array t _ _ => .array :: spine t
  | v => [v.kind]

def ofPrimitive : Primitive → Value
  | .bool => bool false
  | .text => text ""
  | .word width signed => word (Word.zero width signed)
  | .varint width => varint (Varint.zero width)

mutual

/-- The empty value of the same shape. -/
def blank : Value → Value
  | bool _ => bool false
  | text _ => text ""
  | word n => word (Word.zero n.width n.signed)
  | varint n => varint (Varint.zero n.width)
  | vector t _ => vector t []
  | array t n items => array t n (List.replicate items.length (blank t))
  | struct fields => struct (blankAll fields)
  | tuple fields => tuple (blankAll fields)
  | enum variants _ _ => enum variants 0 (variants.headD [])

def blankAll : List Value → List Value
  | [] => []
  | v :: vs => blank v :: blankAll vs

end

mutual

def sameShape : Value → Value → Bool
  | vector t _, vector u _ => sameShape t u
  | array t m _, array u n _ => m == n && sameShape t u
  | struct xs, struct ys => sameShapes xs ys
  | tuple xs, tuple ys => sameShapes xs ys
  | enum vs _ _, enum ws _ _ => sameVariants vs ws
  | bool _, bool _ => true
  | text _, text _ => true
  | word a, word b => a.width == b.width && a.signed == b.signed
  | varint a, varint b => a.width == b.width
  | _, _ => false

def sameShapes : List Value → List Value → Bool
  | [], [] => true
  | x :: xs, y :: ys => sameShape x y && sameShapes xs ys
  | _, _ => false

def sameVariants : List (List Value) → List (List Value) → Bool
  | [], [] => true
  | x :: xs, y :: ys => sameShapes x y && sameVariants xs ys
  | _, _ => false

end

mutual

/-- The shape of a value as text; an enum says only how many variants it has. -/
def shape : Value → String
  | vector t _ => s!"vec<{shape t}>"
  | array t n _ => s!"[{shape t}; {n}]"
  | struct fields => "struct(" ++ ", ".intercalate (shapes fields) ++ ")"
  | tuple fields => "(" ++ ", ".intercalate (shapes fields) ++ ")"
  | enum variants _ _ => s!"enum[{variants.length} variants]"
  | bool _ => "bool"
  | text _ => "str"
  | word n => Primitive.wordName n.width n.signed
  | varint n => (Primitive.varint n.width).name

def shapes : List Value → List String
  | [] => []
  | v :: vs => shape v :: shapes vs

end

def requireShape (v expected : Value) : Except Fault Unit :=
  if v.sameShape expected then .ok () else .error (.typeMismatch expected.shape v.shape)

def requireShapes : List Value → List Value → Except Fault Unit
  | v :: vs, e :: es => do
    v.requireShape e
    requireShapes vs es
  | _, _ => .ok ()

mutual

/-- The fewest bytes that a value of this shape takes. -/
def minSize : Value → Nat
  | bool _ => 1
  | text _ => 1
  | word n => n.width.bytes
  | varint _ => 1
  | vector .. => 1
  | array t n _ => Count.mul n (minSize t)
  | struct fields => minSizes fields 0
  | tuple fields => minSizes fields 0
  | enum .. => 1

def minSizes : List Value → Nat → Nat
  | [], total => total
  | v :: vs, total => minSizes vs (Count.add total (minSize v))

end

mutual

/-- How many values a value is made of, itself and its blanks included. -/
def nodes : Value → Nat
  | bool _ => 1
  | text _ => 1
  | word _ => 1
  | varint _ => 1
  | vector t items => Count.add (Count.add (nodes t) (nodesAll items 0)) 1
  | array t _ items => Count.add (Count.add (nodes t) (nodesAll items 0)) 1
  | struct fields => Count.add (nodesAll fields 0) 1
  | tuple fields => Count.add (nodesAll fields 0) 1
  | enum variants _ payload => Count.add (nodesVariants variants (nodesAll payload 0)) 1

def nodesAll : List Value → Nat → Nat
  | [], total => total
  | v :: vs, total => nodesAll vs (Count.add total (nodes v))

def nodesVariants : List (List Value) → Nat → Nat
  | [], total => total
  | fields :: vs, total => nodesVariants vs (Count.add total (nodesAll fields 0))

end

end Value

end CallWire
