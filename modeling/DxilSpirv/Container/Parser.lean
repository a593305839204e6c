import DxilSpirv.Container.MemoryStream

/-!
# The container parser

A container is a header, a table of part offsets, and the parts: the DXIL program, the signatures of
the inputs and the outputs, and the runtime data with its tables of subobjects.
-/

namespace DxilSpirv.Container

open DxilSpirv.Program MemoryStream

/-- Four characters as a `uint32_t`. -/
def fourcc (a b c d : Char) : Nat := a.toNat + b.toNat * 2 ^ 8 + c.toNat * 2 ^ 16 + d.toNat * 2 ^ 24

namespace FourCC

def container : Nat := fourcc 'D' 'X' 'B' 'C'
def inputSignature : Nat := fourcc 'I' 'S' 'G' '1'
def outputSignature : Nat := fourcc 'O' 'S' 'G' '1'
def shaderStatistics : Nat := fourcc 'S' 'T' 'A' 'T'
def dxil : Nat := fourcc 'D' 'X' 'I' 'L'
def shdr : Nat := fourcc 'S' 'H' 'D' 'R'
def shex : Nat := fourcc 'S' 'H' 'E' 'X'
def runtimeData : Nat := fourcc 'R' 'D' 'A' 'T'

end FourCC

/-- The kinds of subobjects. -/
inductive SubobjectKind
  | stateObjectConfig
  | globalRootSignature
  | localRootSignature
  | subobjectToExportsAssociation
  | raytracingShaderConfig
  | raytracingPipelineConfig
  | hitGroup
  | raytracingPipelineConfig1
  deriving DecidableEq

/-- The kind of a number; the parser skips the records of other kinds. -/
def SubobjectKind.ofNat? : Nat → Option SubobjectKind
  | 0 => some .stateObjectConfig
  | 1 => some .globalRootSignature
  | 2 => some .localRootSignature
  | 8 => some .subobjectToExportsAssociation
  | 9 => some .raytracingShaderConfig
  | 10 => some .raytracingPipelineConfig
  | 11 => some .hitGroup
  | 12 => some .raytracingPipelineConfig1
  | _ => none

/-- The parts of the runtime data that the parser looks at. -/
inductive RuntimeDataPartType
  | stringBuffer
  | indexArrays
  | rawBytes
  | subobjectTable
  deriving DecidableEq

/-- The part type of a number; the parser skips the others. -/
def RuntimeDataPartType.ofNat? : Nat → Option RuntimeDataPartType
  | 1 => some .stringBuffer
  | 2 => some .indexArrays
  | 5 => some .rawBytes
  | 6 => some .subobjectTable
  | _ => none

/-- An element of a signature. -/
structure IOElement where
  semanticName : List Byte
  streamIndex : Nat
  semanticIndex : Nat
  systemValueSemantic : Nat
  componentType : Nat
  registerIndex : Nat
  mask : Nat
  minPrecision : Nat
  deriving DecidableEq

/-- A subobject of the runtime data; its strings and its payload point into the blob. -/
structure RDATSubobject where
  kind : SubobjectKind
  subobjectName : Pointer
  hitGroupType : Nat := 0
  exports : List Pointer := []
  args : Nat × Nat := (0, 0)
  payload : Pointer := none
  payloadSize : Nat := 0
  deriving DecidableEq

/-- The range of bytes a root signature names, and the size of the raw bytes at that point. -/
structure RootRange where
  byteOffset : Nat
  byteSize : Nat
  rawSize : Nat
  deriving DecidableEq

/-- What the runtime data recorded: the subobjects, and in the same order the ranges that root
signatures name. -/
structure Subobjects where
  rdatSubobjects : List RDATSubobject := []
  rootRanges : List RootRange := []
  deriving DecidableEq

/-- Append a subobject that is no root signature. -/
def Subobjects.push (o : Subobjects) (elem : RDATSubobject) : Subobjects :=
  { o with rdatSubobjects := o.rdatSubobjects ++ [elem] }

/-- What a parser recorded. -/
structure DXILContainerParser where
  dxilBlob : List Byte := []
  inputElements : List IOElement := []
  outputElements : List IOElement := []
  subobjects : Subobjects := {}
  dxbcBinary : Bool := false
  deriving DecidableEq

/-- The field of a structure that was read: the `uint32_t` at a byte offset. -/
def field (buffer : List Byte) (offset : Nat) : Nat := littleEndian ((buffer.drop offset).take 4)

/-- A `uint32_t`. -/
def uint32 (n : Nat) : Nat := n % 2 ^ 32

variable (b : Blob)

/-- The bytes of the program header from its magic number on. -/
def dxilMagicPad : Nat := 24 - 8

/-- Parse a part that holds a DXIL program. -/
def parseDxil (stream : MemoryStream) : Run (List Byte) := do
  let (programHeader, stream) ← stream.read b 24
  if field programHeader 8 ≠ FourCC.dxil then rejected
  else if field programHeader 16 < dxilMagicPad then rejected
  else
    let offset := b.sizeT (stream.blobOffset + field programHeader 16 - dxilMagicPad)
    let substream ← stream.createSubstreamBitcodeSize b offset (field programHeader 20)
    let (dxilBlob, _) ← substream.read b substream.blobSize
    pure dxilBlob

/-- Parse one element of a signature. -/
def parseIOElement (stream : MemoryStream) : Run (IOElement × MemoryStream) := do
  let (streamIndex, stream) ← stream.readU32 b
  let (stringOffset, stream) ← stream.readU32 b
  let (semanticIndex, stream) ← stream.readU32 b
  let (systemValueSemantic, stream) ← stream.readU32 b
  let (componentType, stream) ← stream.readU32 b
  let (registerIndex, stream) ← stream.readU32 b
  let (mask, stream) ← stream.readU32 b
  let (minPrecision, stream) ← stream.readU32 b
  let offset := stream.blobOffset
  let stream ← stream.seek stringOffset
  let (name, stream) ← stream.mapStringIterate b
  let semanticName ← b.copyString name
  let stream ← stream.seek offset
  pure ({
    semanticName, streamIndex, semanticIndex, systemValueSemantic, componentType,
      registerIndex, mask, minPrecision }, stream)

/-- Parse some elements of a signature. -/
def parseIOElements : Nat → MemoryStream → Run (List IOElement)
  | 0, _ => pure []
  | count + 1, stream => do
    let (element, stream) ← parseIOElement b stream
    let rest ← parseIOElements count stream
    pure (element :: rest)

/-- Parse a signature. -/
def parseIosg1 (stream : MemoryStream) : Run (List IOElement) := do
  let (elementCount, stream) ← stream.readU32 b
  let stream ← stream.skip b 4
  parseIOElements b elementCount stream

/-- Read some numbers one after the other. -/
def readTable : Nat → MemoryStream → Run (List Nat × MemoryStream)
  | 0, stream => pure ([], stream)
  | count + 1, stream => do
    let (entry, stream) ← stream.readU32 b
    let (rest, stream) ← readTable count stream
    pure (entry :: rest, stream)

/-- Read the offset of a string, and map the string. -/
def mapName (record stringBuffer : MemoryStream) : Run (Pointer × MemoryStream) := do
  let (nameOffset, record) ← record.readU32 b
  let name ← stringBuffer.mapStringAbsolute b nameOffset
  pure (name, record)

/-- Map the names of some exports. -/
def mapExports (stringBuffer : MemoryStream) : Nat → MemoryStream → Run (List Pointer)
  | 0, _ => pure []
  | count + 1, stream => do
    let (name, stream) ← mapName b stream stringBuffer
    let rest ← mapExports stringBuffer count stream
    pure (name :: rest)

/-- The streams that the parts of the runtime data set. -/
structure RdatStreams where
  stringBuffer : MemoryStream := {}
  indexBuffer : MemoryStream := {}
  rawBytes : MemoryStream := {}
  deriving DecidableEq

/-- Parse the record of a state object config. -/
def parseStateObjectConfig (t : RdatStreams) (record : MemoryStream) (o : Subobjects) :
    Run Subobjects := do
  let (name, record) ← mapName b record t.stringBuffer
  let (flag, _) ← record.readU32 b
  pure (o.push { kind := .stateObjectConfig, subobjectName := name, args := (flag, 0) })

/-- Parse the record of a raytracing shader config. -/
def parseRaytracingShaderConfig (t : RdatStreams) (record : MemoryStream) (o : Subobjects) :
    Run Subobjects := do
  let (name, record) ← mapName b record t.stringBuffer
  let (maxPayloadSize, record) ← record.readU32 b
  let (maxAttributeSize, _) ← record.readU32 b
  pure (o.push
    { kind := .raytracingShaderConfig, subobjectName := name,
      args := (maxPayloadSize, maxAttributeSize) })

/-- Parse the record of a raytracing pipeline config, with its flags where the kind has them. -/
def parseRaytracingPipelineConfig (t : RdatStreams) (kind : SubobjectKind) (record : MemoryStream)
    (o : Subobjects) : Run Subobjects := do
  let (name, record) ← mapName b record t.stringBuffer
  let (maxRecursionDepth, record) ← record.readU32 b
  let (flags, _) ← (if kind = .raytracingPipelineConfig1 then record.readU32 b
    else pure (0, record))
  pure (o.push { kind, subobjectName := name, args := (maxRecursionDepth, flags) })

/-- Parse the record of a hit group. -/
def parseHitGroup (t : RdatStreams) (record : MemoryStream) (o : Subobjects) : Run Subobjects := do
  let (hgName, record) ← mapName b record t.stringBuffer
  let (hitGroupType, record) ← record.readU32 b
  let (ahitNameOffset, record) ← record.readU32 b
  let (chitNameOffset, record) ← record.readU32 b
  let (intersectionNameOffset, _) ← record.readU32 b
  let ahit ← t.stringBuffer.mapStringAbsolute b ahitNameOffset
  let chit ← t.stringBuffer.mapStringAbsolute b chitNameOffset
  let intersection ← t.stringBuffer.mapStringAbsolute b intersectionNameOffset
  pure (o.push
    { kind := .hitGroup, subobjectName := hgName, hitGroupType,
      exports := [ahit, chit, intersection] })

/-- Parse the record of an association of a subobject with exports. -/
def parseSubobjectToExportsAssociation (t : RdatStreams) (record : MemoryStream) (o : Subobjects) :
    Run Subobjects := do
  let (name, record) ← mapName b record t.stringBuffer
  let (objectName, record) ← mapName b record t.stringBuffer
  let (indexOffset, _) ← record.readU32 b
  let indexSubstream := t.indexBuffer.createSubstreamToEnd (b.sizeT (4 * indexOffset))
  let (count, indexSubstream) ← indexSubstream.readU32 b
  let exports ← mapExports b t.stringBuffer count indexSubstream
  pure (o.push { kind := .subobjectToExportsAssociation, subobjectName := name, exports :=
    objectName :: exports })

/-- Parse the record of a root signature. -/
def parseRootSignature (t : RdatStreams) (kind : SubobjectKind) (record : MemoryStream)
    (o : Subobjects) :
    Run Subobjects := do
  let (name, record) ← mapName b record t.stringBuffer
  let (byteOffset, record) ← record.readU32 b
  let (byteSize, _) ← record.readU32 b
  let nameSubstream ← t.rawBytes.createSubstream b byteOffset byteSize
  let (data, _) ← nameSubstream.mapRead b byteSize
  pure
    { rdatSubobjects := o.rdatSubobjects ++
        [{ kind, subobjectName := name, payload := data, payloadSize := byteSize }]
      rootRanges := o.rootRanges ++ [⟨byteOffset, byteSize, t.rawBytes.blobSize⟩] }

/-- Parse a record of the subobject table. -/
def parseRecord (t : RdatStreams) (record : MemoryStream) (o : Subobjects) : Run Subobjects := do
  let (kind, record) ← record.readU32 b
  match SubobjectKind.ofNat? kind with
  | some .stateObjectConfig => parseStateObjectConfig b t record o
  | some .raytracingShaderConfig => parseRaytracingShaderConfig b t record o
  | some .raytracingPipelineConfig =>
    parseRaytracingPipelineConfig b t .raytracingPipelineConfig record o
  | some .raytracingPipelineConfig1 =>
    parseRaytracingPipelineConfig b t .raytracingPipelineConfig1 record o
  | some .hitGroup => parseHitGroup b t record o
  | some .subobjectToExportsAssociation => parseSubobjectToExportsAssociation b t record o
  | some .globalRootSignature => parseRootSignature b t .globalRootSignature record o
  | some .localRootSignature => parseRootSignature b t .localRootSignature record o
  | none => pure o

/-- Parse the records of the subobject table, from a number on. -/
def parseRecords (t : RdatStreams) (table : MemoryStream) (stride : Nat) :
    Nat → Nat → Subobjects → Run Subobjects
  | 0, _, o => pure o
  | left + 1, record, o => do
    let recordStream ← table.createSubstream b
      (b.sizeT (table.blobOffset + uint32 (record * stride))) stride
    let o ← parseRecord b t recordStream o
    parseRecords t table stride left (record + 1) o

/-- Parse a part of the runtime data. -/
def parseRdatPart (t : RdatStreams) (substream : MemoryStream) (o : Subobjects) :
    Run (RdatStreams × Subobjects) := do
  let (type, substream) ← substream.readU32 b
  let (subpartLength, substream) ← substream.readU32 b
  if b.sizeT (subpartLength + 2 * 4) > substream.blobSize then rejected
  else match RuntimeDataPartType.ofNat? type with
    | some .stringBuffer => do
      let window ← substream.createSubstream b substream.blobOffset subpartLength
      pure ({ t with stringBuffer := window }, o)
    | some .indexArrays => do
      let window ← substream.createSubstream b substream.blobOffset subpartLength
      pure ({ t with indexBuffer := window }, o)
    | some .rawBytes => do
      let window ← substream.createSubstream b substream.blobOffset subpartLength
      pure ({ t with rawBytes := window }, o)
    | some .subobjectTable => do
      let (recordCount, substream) ← substream.readU32 b
      let (recordStride, substream) ← substream.readU32 b
      let o ← parseRecords b t substream recordStride recordCount 0 o
      pure (t, o)
    | none => pure (t, o)

/-- The size of a part of the runtime data: up to the next part, or to the end. -/
def partSize (stream : MemoryStream) (offset : Nat) : List Nat → Nat
  | next :: _ => uint32 (next + 2 ^ 32 - offset)
  | [] => uint32 (b.sizeT (stream.blobSize + 2 ^ b.sizeBits - offset))

/-- Parse the parts of the runtime data at their offsets. -/
def parseRdatParts (stream : MemoryStream) : List Nat → RdatStreams → Subobjects → Run Subobjects
  | [], _, o => pure o
  | offset :: rest, t, o =>
    if b.sizeT (offset + 2 * 4) > stream.blobSize then rejected
    else do
      let substream ← stream.createSubstream b offset (partSize b stream offset rest)
      let (t, o) ← parseRdatPart b t substream o
      parseRdatParts stream rest t o

/-- The version of the runtime data. -/
def rdatVersion : Nat := 0x10

/-- Parse the runtime data. -/
def parseRdat (stream : MemoryStream) (o : Subobjects) : Run Subobjects := do
  let (version, stream) ← stream.readU32 b
  let (partCount, stream) ← stream.readU32 b
  if version ≠ rdatVersion then rejected
  else do
    let (offsets, stream) ← readTable b partCount stream
    parseRdatParts b stream offsets {} o

/-- The first loop over the parts: is there legacy bytecode. -/
def findDxbc : List Nat → MemoryStream → Bool → Run (Bool × MemoryStream)
  | [], stream, dxbcBinary => pure (dxbcBinary, stream)
  | offset :: rest, stream, dxbcBinary => do
    let stream ← stream.seek offset
    let (partHeader, stream) ← stream.read b 8
    let kind := field partHeader 0
    findDxbc rest stream (dxbcBinary || kind == FourCC.shdr || kind == FourCC.shex)

/-- Parse a part, at the offset after its header. -/
def parsePart (reflection : Bool) (stream : MemoryStream) (kind size : Nat)
    (p : DXILContainerParser) :
    Run DXILContainerParser :=
  if kind = FourCC.dxil ∨ kind = FourCC.shaderStatistics then
    let expected := if reflection then FourCC.shaderStatistics else FourCC.dxil
    if expected ≠ kind ∨ p.dxbcBinary then pure p
    else do
      let substream ← stream.createSubstream b stream.blobOffset size
      let dxilBlob ← parseDxil b substream
      pure { p with dxilBlob }
  else if kind = FourCC.inputSignature then do
    let substream ← stream.createSubstream b stream.blobOffset size
    let inputElements ← parseIosg1 b substream
    pure { p with inputElements }
  else if kind = FourCC.outputSignature then do
    let substream ← stream.createSubstream b stream.blobOffset size
    let outputElements ← parseIosg1 b substream
    pure { p with outputElements }
  else if kind = FourCC.runtimeData then do
    let substream ← stream.createSubstream b stream.blobOffset size
    let subobjects ← parseRdat b substream p.subobjects
    pure { p with subobjects }
  else pure p

/-- The second loop over the parts. -/
def parseParts (reflection : Bool) :
    List Nat → MemoryStream → DXILContainerParser → Run DXILContainerParser
  | [], _, p => pure p
  | offset :: rest, stream, p => do
    let stream ← stream.seek offset
    let (partHeader, stream) ← stream.read b 8
    let p ← parsePart b reflection stream (field partHeader 0) (field partHeader 4) p
    parseParts reflection rest stream p

/-- Parse a container. -/
def parseContainer (reflection : Bool) : Run DXILContainerParser := do
  let stream : MemoryStream := { blob := some 0, blobSize := b.bytes.length }
  let (containerHeader, stream) ← stream.read b 32
  if field containerHeader 0 ≠ FourCC.container then rejected
  else if field containerHeader 24 > b.bytes.length then rejected
  else do
    let (parts, stream) ← readTable b (field containerHeader 28) stream
    let (dxbcBinary, stream) ← findDxbc b parts stream false
    parseParts b reflection parts stream { dxbcBinary }

end DxilSpirv.Container
