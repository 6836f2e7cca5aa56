import Ds4.Lib.Cursor

/-!
# The GGUF loader

`model_open` maps a file and reads its directory: the metadata, of which only keys, types and the positions of the values are
kept, and the tensor descriptors. The accessors decode a value when it is asked for. A fatal error is its text. Files are
shorter than 2^63 bytes, so that positions in them are not cut.
-/

namespace Ds4.Gguf
open C Cursor

def maxU64 : Nat := 2 ^ 64 - 1

abbrev Reader := Cursor String

def cursorError (msg : String) (pos : Nat) : String := msg ++ " at byte " ++ toString pos

def truncated : Nat → String := cursorError "truncated GGUF file"

def die (msg : String) : Reader α := fail fun _ => msg

def cursorRead (n : Nat) : Reader Bytes := bytes truncated n

def cursorSkip (n : Nat) : Reader Unit := do
  let _ ← bytes truncated n
  return ()

def cursorU32 : Reader Nat := uint truncated 4

def cursorU64 : Reader Nat := uint truncated 8

def cursorString : Reader Bytes := do
  let len ← cursorU64
  bytes truncated len

def alignUp (value alignment : Nat) : Nat :=
  let rem := value % alignment
  if rem = 0 then value else value + alignment - rem

/-! ## Metadata -/

/-- `GGUF_VALUE_STRING`, `GGUF_VALUE_ARRAY` and the types of numbers. -/
def typeUint8 : Nat := 0
def typeInt8 : Nat := 1
def typeUint16 : Nat := 2
def typeInt16 : Nat := 3
def typeUint32 : Nat := 4
def typeInt32 : Nat := 5
def typeFloat32 : Nat := 6
def typeBool : Nat := 7
def typeString : Nat := 8
def typeArray : Nat := 9
def typeUint64 : Nat := 10
def typeInt64 : Nat := 11
def typeFloat64 : Nat := 12

def scalarValueSize (type : Nat) : Nat :=
  if type = typeUint8 ∨ type = typeInt8 ∨ type = typeBool then 1
  else if type = typeUint16 ∨ type = typeInt16 then 2
  else if type = typeUint32 ∨ type = typeInt32 ∨ type = typeFloat32 then 4
  else if type = typeUint64 ∨ type = typeInt64 ∨ type = typeFloat64 then 8
  else 0

/-- `levels` are those that are left below a depth of nine. -/
def skipValue : Nat → Nat → Reader Unit
  | 0, _ => fail (cursorError "metadata array nesting is too deep")
  | levels + 1, type =>
    let scalar := scalarValueSize type
    if scalar ≠ 0 then cursorSkip scalar
    else if type = typeString then do
      let _ ← cursorString
      return ()
    else if type = typeArray then do
      let itemType ← cursorU32
      let len ← cursorU64
      let itemSize := scalarValueSize itemType
      if itemSize ≠ 0 then
        if len > maxU64 / itemSize then fail (cursorError "metadata array is too large")
        else cursorSkip (len * itemSize)
      else do
        let _ ← times (skipValue levels itemType) len
        return ()
    else fail (cursorError "unknown GGUF metadata type")

/-- `ds4_kv` -/
structure Kv where
  key : Bytes
  type : Nat
  valuePos : Nat
  deriving DecidableEq, Repr

/-- A reader at another position. -/
def readAt (pos : Nat) (file : Bytes) (r : Reader α) : Option α :=
  match r file pos with
  | .ok (a, _) => some a
  | .error _ => none

/-- The alignment behind an entry. -/
def noteAlignment (file : Bytes) (kv : Kv) (alignment : Nat) : Nat :=
  if kv.key = lit "general.alignment" ∧ kv.type = typeUint32 then
    match readAt kv.valuePos file cursorU32 with
    | some a => if a ≠ 0 then a else alignment
    | none => alignment
  else alignment

def parseKv : Reader Kv := do
  let key ← cursorString
  let type ← cursorU32
  let valuePos ← position
  skipValue 9 type
  return ⟨key, type, valuePos⟩

/-- A count that is larger than what is left of the file is refused. -/
def checkCount (n : Nat) (msg : String) : Reader Unit := fun file pos =>
  if n > file.length - pos then .error msg else .ok ((), pos)

def parseMetadata (nKv : Nat) : Reader (List Kv) := do
  checkCount nKv "GGUF metadata count exceeds file size"
  times parseKv nKv

/-! ## Tensors -/

/-- `gguf_type_info` -/
structure TypeInfo where
  name : String
  blockElems : Nat
  blockBytes : Nat
  deriving DecidableEq, Repr

/-- `gguf_types` -/
def tensorType : Nat → Option TypeInfo
  | 0 => some ⟨"f32", 1, 4⟩
  | 1 => some ⟨"f16", 1, 2⟩
  | 2 => some ⟨"q4_0", 32, 18⟩
  | 3 => some ⟨"q4_1", 32, 20⟩
  | 6 => some ⟨"q5_0", 32, 22⟩
  | 7 => some ⟨"q5_1", 32, 24⟩
  | 8 => some ⟨"q8_0", 32, 34⟩
  | 9 => some ⟨"q8_1", 32, 40⟩
  | 10 => some ⟨"q2_k", 256, 84⟩
  | 11 => some ⟨"q3_k", 256, 110⟩
  | 12 => some ⟨"q4_k", 256, 144⟩
  | 13 => some ⟨"q5_k", 256, 176⟩
  | 14 => some ⟨"q6_k", 256, 210⟩
  | 15 => some ⟨"q8_k", 256, 292⟩
  | 16 => some ⟨"iq2_xxs", 256, 66⟩
  | 17 => some ⟨"iq2_xs", 256, 74⟩
  | 18 => some ⟨"iq3_xxs", 256, 98⟩
  | 19 => some ⟨"iq1_s", 256, 110⟩
  | 20 => some ⟨"iq4_nl", 256, 50⟩
  | 21 => some ⟨"iq3_s", 256, 110⟩
  | 22 => some ⟨"iq2_s", 256, 82⟩
  | 23 => some ⟨"iq4_xs", 256, 136⟩
  | 24 => some ⟨"i8", 1, 1⟩
  | 25 => some ⟨"i16", 1, 2⟩
  | 26 => some ⟨"i32", 1, 4⟩
  | 27 => some ⟨"i64", 1, 8⟩
  | 28 => some ⟨"f64", 1, 8⟩
  | 29 => some ⟨"iq1_m", 256, 56⟩
  | 30 => some ⟨"bf16", 1, 2⟩
  | 39 => some ⟨"mxfp4", 32, 17⟩
  | _ => none

/-- The addition is made in 64 bits. -/
def tensorNbytes (type elements : Nat) : Option Nat :=
  match tensorType type with
  | none => none
  | some info =>
    let blocks := ((elements + info.blockElems - 1) % 2 ^ 64) / info.blockElems
    if blocks > maxU64 / info.blockBytes then none else some (blocks * info.blockBytes)

/-- `ds4_tensor` -/
structure Tensor where
  name : Bytes
  dims : List Nat
  type : Nat
  relOffset : Nat
  absOffset : Nat
  elements : Nat
  bytes : Nat
  deriving DecidableEq, Repr

def ds4MaxDims : Nat := 8

/-- The dimensions and the number of elements. -/
def parseDims : Nat → Nat → Reader (List Nat × Nat)
  | 0, elements => return ([], elements)
  | n + 1, elements => do
    let d ← cursorU64
    if d ≠ 0 ∧ elements > maxU64 / d then die "tensor element count overflow"
    else do
      let (ds, elements) ← parseDims n (elements * d)
      return (d :: ds, elements)

/-- A type that is not known leaves the number of bytes at zero. -/
def parseTensor : Reader Tensor := do
  let name ← cursorString
  let ndim ← cursorU32
  if ndim = 0 ∨ ndim > ds4MaxDims then die "tensor has an unsupported number of dimensions"
  else do
    let (dims, elements) ← parseDims ndim 1
    let type ← cursorU32
    let relOffset ← cursorU64
    return ⟨name, dims, type, relOffset, 0, elements, (tensorNbytes type elements).getD 0⟩

/-- The absolute offset of a tensor, checked against the size of the file. -/
def placeTensor (dataPos size : Nat) (t : Tensor) : Except String Tensor :=
  if t.relOffset > maxU64 - dataPos then .error "tensor offset overflow"
  else
    let t := { t with absOffset := dataPos + t.relOffset }
    if t.bytes ≠ 0 ∧ (t.absOffset > size ∨ t.bytes > size - t.absOffset) then .error "tensor points outside GGUF file"
    else .ok t

def placeTensors (dataPos size : Nat) : List Tensor → Except String (List Tensor)
  | [] => .ok []
  | t :: ts => do
    let t ← placeTensor dataPos size t
    let ts ← placeTensors dataPos size ts
    return t :: ts

/-- `ds4_model` -/
structure Model where
  map : Bytes
  alignment : Nat
  tensorDataPos : Nat
  maxTensorBytes : Nat
  kv : List Kv
  tensors : List Tensor
  deriving DecidableEq, Repr

/-- The tensor descriptors and the position of the tensor data. -/
def parseTensors (nTensors alignment : Nat) : Reader (List Tensor × Nat) := do
  checkCount nTensors "GGUF tensor count exceeds file size"
  let ts ← times parseTensor nTensors
  let pos ← position
  return (ts, alignUp pos alignment)

def ggufMagic : Nat := 0x46554747

/-- The metadata and the tensor descriptors, with the alignment and the position of the tensor data. -/
def readEntries (nTensors nKv : Nat) : Reader (List Kv × List Tensor × Nat × Nat) := do
  let kv ← parseMetadata nKv
  let map ← file
  let alignment := kv.foldl (fun alignment kv => noteAlignment map kv alignment) 32
  let (ts, dataPos) ← parseTensors nTensors alignment
  return (kv, ts, alignment, dataPos)

/-- What is read before the offsets of the tensors are checked. -/
def readDirectory : Reader (List Kv × List Tensor × Nat × Nat) := do
  let magic ← cursorU32
  if magic ≠ ggufMagic then die "model is not a GGUF file"
  else do
    let version ← cursorU32
    let nTensors ← cursorU64
    let nKv ← cursorU64
    if version ≠ 3 then die "only GGUF v3 is supported"
    else readEntries nTensors nKv

def modelOpen (map : Bytes) : Except String Model := do
  if map.length < 32 then .error "model file is too small to be GGUF"
  else
    let ((kv, ts, alignment, dataPos), _) ← readDirectory map 0
    let tensors ← placeTensors dataPos map.length ts
    return ⟨map, alignment, dataPos, tensors.foldl (fun n t => max n t.bytes) 0, kv, tensors⟩

/-! ## Accessors -/

namespace Model

variable (m : Model)

def findKv (key : Bytes) : Option Kv := m.kv.find? fun kv => kv.key = key

/-- A value is decoded at its position. -/
def read (kv : Kv) (r : Reader α) : Option α := readAt kv.valuePos m.map r

def getString (key : Bytes) : Option Bytes := do
  let kv ← m.findKv key
  if kv.type = typeString then m.read kv cursorString else none

def getU32 (key : Bytes) : Option Nat := do
  let kv ← m.findKv key
  if kv.type = typeUint32 then m.read kv cursorU32 else none

/-- The number that `k` bytes are in two's complement. -/
def signedOf (k n : Nat) : Int := if 2 * n < 256 ^ k then n else (n : Int) - 256 ^ k

def intMax : Nat := 2 ^ 31 - 1

def getTokenId (key : Bytes) : Option Nat := do
  let kv ← m.findKv key
  if kv.type = typeUint32 then (m.read kv cursorU32).filter fun v => v ≤ intMax
  else if kv.type = typeInt32 then (m.read kv cursorU32).filter fun v => 0 ≤ signedOf 4 v
  else if kv.type = typeUint64 then (m.read kv cursorU64).filter fun v => v ≤ intMax
  else if kv.type = typeInt64 then (m.read kv cursorU64).filter fun v => 0 ≤ signedOf 8 v ∧ signedOf 8 v ≤ intMax
  else none

def getU64Compat (key : Bytes) : Option Nat := do
  let kv ← m.findKv key
  if kv.type = typeUint64 then m.read kv cursorU64
  else if kv.type = typeUint32 then m.read kv cursorU32
  else none

def getBool (key : Bytes) : Option Bool := do
  let kv ← m.findKv key
  if kv.type = typeBool then (m.read kv (uint truncated 1)).map fun v => v ≠ 0 else none

/-- `ds4_array_ref` -/
structure ArrayRef where
  type : Nat
  len : Nat
  dataPos : Nat
  deriving DecidableEq, Repr

def readArray : Reader ArrayRef := do
  let type ← cursorU32
  let len ← cursorU64
  let dataPos ← position
  return ⟨type, len, dataPos⟩

def getArray (key : Bytes) : Option ArrayRef := do
  let kv ← m.findKv key
  if kv.type = typeArray then m.read kv readArray else none

end Model

end Ds4.Gguf
