import Acton.ToMathlib.OrderedMap

/-!
# JSON encoding and decoding

The encoder makes a document tree of yyjson from a value, and the decoder makes a value from a
document tree. Each is a pair of mutually recursive functions, one over dicts and objects and one
over lists and arrays. Writing the tree as text and reading the text is left to yyjson
(`Yyjson`).

* `encodeDict`, `encodeListInto`: trees of values
* `decodeObj`, `decodeArr`: values of trees
* `encode`, `decode`, `encodeList`, `decodeList`: the functions of the module `json`
-/

namespace Acton.Json

/-- The characters of a `str`. -/
abbrev Str := List Char

/-- The characters that C reads of a `str`: a C string ends at the first NUL. -/
def cString (s : Str) : Str := s.takeWhile (· ≠ Char.ofNat 0)

/-- The values that the encoder tells apart by their class; `F` are the doubles that JSON can
express. A dict has its items in the order of insertion. -/
inductive Value (F : Type) where
  | none
  /-- The classes `int` and `i64` are the same. -/
  | int (val : BitVec 64)
  | float (val : F)
  | bool (val : Bool)
  | str (s : Str)
  | list (data : List (Value F))
  | dict (items : List (Str × Value F))
  | i8 (val : BitVec 8)
  | i16 (val : BitVec 16)
  | i32 (val : BitVec 32)
  | u1 (val : BitVec 1)
  | u8 (val : BitVec 8)
  | u16 (val : BitVec 16)
  | u32 (val : BitVec 32)
  | u64 (val : BitVec 64)
  /-- A value of any other class, with the name of the class. -/
  | other (gcinfo : String)

/-- Document trees of yyjson. -/
inductive Node (F : Type) where
  | null
  | bool (b : Bool)
  | uint (n : BitVec 64)
  | sint (n : BitVec 64)
  | real (x : F)
  | str (s : Str)
  | arr (vals : List (Node F))
  | obj (members : List (Str × Node F))

variable {F : Type}

/-! ## Encoding -/

mutual
/-- The `switch` over the class of a value; `unknown` is the message for other classes. -/
def encodeValue (unknown : String → String) : Value F → Except String (Node F)
  | .none => .ok .null
  | .int val => .ok (.sint val)
  | .float val => .ok (.real val)
  | .bool val => .ok (.bool val)
  | .str s => .ok (.str (cString s))
  | .list data => (encodeListInto data).map .arr
  | .dict items => (encodeDict items).map .obj
  | .i8 val => .ok (.sint (val.signExtend 64))
  | .i16 val => .ok (.sint (val.signExtend 64))
  | .i32 val => .ok (.sint (val.signExtend 64))
  | .u1 val => .ok (.uint (val.setWidth 64))
  | .u8 val => .ok (.uint (val.setWidth 64))
  | .u16 val => .ok (.uint (val.setWidth 64))
  | .u32 val => .ok (.uint (val.setWidth 64))
  | .u64 val => .ok (.uint val)
  | .other gcinfo => .error (unknown gcinfo)

/-- The members for the items of a dict; `yyjson_mut_obj_add` does not look for equal keys. -/
def encodeDict : List (Str × Value F) → Except String (List (Str × Node F))
  | [] => .ok []
  | (key, v) :: items => do
    let node ← encodeValue (fun gcinfo => "jsonQ_encode_dict: for key "
      ++ String.ofList (cString key) ++ " unknown type: " ++ gcinfo) v
    let members ← encodeDict items
    return (cString key, node) :: members

def encodeListInto : List (Value F) → Except String (List (Node F))
  | [] => .ok []
  | v :: data => do
    let node ← encodeValue (fun gcinfo => "jsonQ_encode_list: unknown type: " ++ gcinfo) v
    let vals ← encodeListInto data
    return node :: vals
end

/-! ## Decoding -/

/-- `yyjson_get_int` returns a C `int`, which becomes an `int64_t` again. -/
def getInt (n : BitVec 64) : BitVec 64 := (n.setWidth 32).signExtend 64

mutual
/-- The `switch` over the type of a node. -/
def decodeValue : Node F → Value F
  | .null => .none
  | .bool b => .bool b
  | .uint n => .int (getInt n)
  | .sint n => .int (getInt n)
  | .real x => .float x
  | .str s => .str (cString s)
  | .arr vals => .list (decodeArr [] vals)
  | .obj members => .dict (decodeObj [] members)

/-- Set an item of `res` for each member of an object. -/
def decodeObj (res : List (Str × Value F)) : List (Str × Node F) → List (Str × Value F)
  | [] => res
  | (key, val) :: members =>
    decodeObj (OrderedMap.insert (· == ·) res (cString key) (decodeValue val)) members

def decodeArr (res : List (Value F)) : List (Node F) → List (Value F)
  | [] => res
  | val :: vals => decodeArr (res ++ [decodeValue val]) vals
end

/-! ## Texts -/

mutual
/-- The document tree after writing and reading: numbers have no class in a text, they are `uint`
if they have no sign. -/
def Node.reread : Node F → Node F
  | .null => .null
  | .bool b => .bool b
  | .uint n => .uint n
  | .sint n => if n.msb then .sint n else .uint n
  | .real x => .real x
  | .str s => .str s
  | .arr vals => .arr (rereadArr vals)
  | .obj members => .obj (rereadObj members)

def rereadObj : List (Str × Node F) → List (Str × Node F)
  | [] => []
  | (key, val) :: members => (key, val.reread) :: rereadObj members

def rereadArr : List (Node F) → List (Node F)
  | [] => []
  | val :: vals => val.reread :: rereadArr vals
end

/-- What yyjson reports if it cannot read a text. -/
structure ReadErr where
  msg : String
  code : ℕ
  pos : ℕ

def ReadErr.text (err : ReadErr) : String :=
  -- the buffer of `snprintf` has 1024 bytes
  String.ofList (("JSON parsing error: " ++ err.msg ++ " (" ++ toString err.code ++ ") at position "
    ++ toString err.pos).toList.take 1023)

/-- The part of yyjson that writes and reads texts, with the assumption that it reads what it has
written. -/
structure Yyjson (F Text : Type) where
  mutWriteOpts (pretty : Bool) : Node F → Text
  readOpts : Text → Except ReadErr (Node F)
  readOpts_mutWriteOpts : ∀ pretty doc, readOpts (mutWriteOpts pretty doc) = .ok doc.reread

/-- Texts that are the trees themselves. -/
def Yyjson.ofTree (F : Type) : Yyjson F (Node F) where
  mutWriteOpts _ doc := doc
  readOpts text := .ok text.reread
  readOpts_mutWriteOpts _ _ := rfl

namespace Yyjson
variable {Text : Type} (yy : Yyjson F Text)

def encode (data : List (Str × Value F)) (pretty : Bool) : Except String Text := do
  let members ← encodeDict data
  return yy.mutWriteOpts pretty (.obj members)

def encodeList (data : List (Value F)) (pretty : Bool) : Except String Text := do
  let vals ← encodeListInto data
  return yy.mutWriteOpts pretty (.arr vals)

/-- A root that is no object has no members to iterate over. -/
def decode (data : Text) : Except String (List (Str × Value F)) :=
  match yy.readOpts data with
  | .error err => .error err.text
  | .ok (.obj members) => .ok (decodeObj [] members)
  | .ok _ => .ok []

def decodeList (data : Text) : Except String (List (Value F)) :=
  match yy.readOpts data with
  | .error err => .error err.text
  | .ok (.arr vals) => .ok (decodeArr [] vals)
  | .ok _ => .error "JSON root is not an array"

end Yyjson
end Acton.Json
