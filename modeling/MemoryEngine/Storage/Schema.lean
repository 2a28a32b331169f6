import MemoryEngine.Library.ByteMemory

/-! Record schemas and compound keys (`storage/RecordSchema.h`,
`storage/DynamicCompoundKey.h`).

A record is the concatenation of its columns.  A key is the concatenation of the
primary columns, compared column by column according to their types. -/
namespace MemoryEngine.Storage

open ByteMemory

inductive ValueType where
  | int
  | int8
  | int16
  | int32
  | int64
  | uint32
  | uint64
  | double
  | float
  | fixchar
  | metadata
  deriving DecidableEq, Repr

structure ColumnInfo where
  columnType : ValueType
  columnSize : Nat
  deriving DecidableEq, Repr

structure RecordSchema where
  columns : List ColumnInfo
  primaryColIds : List Nat
  deriving DecidableEq, Repr

namespace RecordSchema

variable (schema : RecordSchema)

def getColumnOffset (columnId : Nat) : Nat :=
  ((schema.columns.take columnId).map ColumnInfo.columnSize).sum

def getColumnSize (columnId : Nat) : Nat :=
  (schema.columns[columnId]?.map ColumnInfo.columnSize).getD 0

def getRecordTotalSize : Nat := (schema.columns.map ColumnInfo.columnSize).sum

def primaryColumns : List ColumnInfo :=
  schema.primaryColIds.filterMap fun columnId => schema.columns[columnId]?

def getPrimaryKeyLength : Nat := (schema.primaryColumns.map ColumnInfo.columnSize).sum

end RecordSchema

/-! ### Keys -/

def signedLE (width : Nat) (bytes : List UInt8) : Int :=
  Int.bmod (ofLE (bytes.take width)) (256 ^ width)

/-- The position of a floating-point number in the order of its type, `none` for a
number that is not comparable.  Magnitudes are ordered as their bit patterns. -/
def floatPosition (exponentBits fractionBits : Nat) (bits : Nat) : Option Int :=
  let magnitude := bits % 2 ^ (exponentBits + fractionBits)
  if (2 ^ exponentBits - 1) * 2 ^ fractionBits < magnitude then none
  else if bits < 2 ^ (exponentBits + fractionBits) then some magnitude
  else some (-magnitude)

/-- `va != vb` and then `va < vb ? -1 : 1`. -/
def compareFloat (exponentBits fractionBits : Nat) (a b : Nat) : Ordering :=
  match floatPosition exponentBits fractionBits a, floatPosition exponentBits fractionBits b with
  | some va, some vb => compare va vb
  | _, _ => .gt

/-- `memcmp` on two blocks of the same size. -/
def memcmp : List UInt8 → List UInt8 → Ordering
  | a :: as, b :: bs => (compare a.toNat b.toNat).then (memcmp as bs)
  | _, _ => .eq

variable (column : ColumnInfo)

def compareField (a b : List UInt8) : Ordering :=
  match column.columnType with
  | .int | .int32 => compare (signedLE 4 a) (signedLE 4 b)
  | .int8 => compare (signedLE 1 a) (signedLE 1 b)
  | .int16 => compare (signedLE 2 a) (signedLE 2 b)
  | .int64 => compare (signedLE 8 a) (signedLE 8 b)
  | .uint32 => compare (ofLE (a.take 4)) (ofLE (b.take 4))
  | .uint64 => compare (ofLE (a.take 8)) (ofLE (b.take 8))
  | .float => compareFloat 8 23 (ofLE (a.take 4)) (ofLE (b.take 4))
  | .double => compareFloat 11 52 (ofLE (a.take 8)) (ofLE (b.take 8))
  | .fixchar | .metadata => memcmp (a.take column.columnSize) (b.take column.columnSize)

def compareFields : List ColumnInfo → List UInt8 → List UInt8 → Ordering
  | [], _, _ => .eq
  | column :: columns, a, b =>
      (compareField column a b).then
        (compareFields columns (a.drop column.columnSize) (b.drop column.columnSize))

structure DynamicCompoundKey (schema : RecordSchema) where
  bytes : List UInt8
  length_eq : bytes.length = schema.getPrimaryKeyLength
  deriving DecidableEq

def DynamicCompoundKey.compare {schema : RecordSchema} (a b : DynamicCompoundKey schema) :
    Ordering :=
  compareFields schema.primaryColumns a.bytes b.bytes

/-- Only the `memcmp` of an empty column reads nothing. -/
def ColumnInfo.reads : Bool :=
  match column.columnType with
  | .fixchar | .metadata => 0 < column.columnSize
  | _ => true

/-- `compare` with a key that was never bound to a buffer; `none` is the null dereference. -/
def DynamicCompoundKey.compareUnbound {schema : RecordSchema} (_ : DynamicCompoundKey schema) :
    Option Ordering :=
  if schema.primaryColumns.any ColumnInfo.reads then none else some .eq

/-! ### Sentinels -/

def writeMinField : List UInt8 :=
  match column.columnType with
  | .int | .int32 => natLE 4 (2 ^ 31)
  | .int64 => natLE 8 (2 ^ 63)
  | .uint32 => natLE 4 0
  | .uint64 => natLE 8 0
  | .float => natLE 4 0xFF800000
  | .double => natLE 8 0xFFF0000000000000
  | .int8 | .int16 | .fixchar | .metadata => List.replicate column.columnSize 0x00

def writeMaxField : List UInt8 :=
  match column.columnType with
  | .int | .int32 => natLE 4 (2 ^ 31 - 1)
  | .int64 => natLE 8 (2 ^ 63 - 1)
  | .uint32 => natLE 4 (2 ^ 32 - 1)
  | .uint64 => natLE 8 (2 ^ 64 - 1)
  | .float => natLE 4 0x7F800000
  | .double => natLE 8 0x7FF0000000000000
  | .int8 | .int16 | .fixchar | .metadata => List.replicate column.columnSize 0xFF

def encodePrimary (writeField : ColumnInfo → List UInt8) :
    List ColumnInfo → Nat → Memory → Memory
  | [], _, buffer => buffer
  | column :: columns, offset, buffer =>
      encodePrimary writeField columns (offset + column.columnSize)
        (write buffer offset (writeField column))

variable (schema : RecordSchema)

def sentinel (writeField : ColumnInfo → List UInt8) :
    DynamicCompoundKey schema where
  bytes := read (encodePrimary writeField schema.primaryColumns 0 fun _ => 0) 0
    schema.getPrimaryKeyLength
  length_eq := read_length _ _ _

def DynamicCompoundKey.minValue : DynamicCompoundKey schema :=
  sentinel schema writeMinField

def DynamicCompoundKey.maxValue : DynamicCompoundKey schema :=
  sentinel schema writeMaxField

end MemoryEngine.Storage
