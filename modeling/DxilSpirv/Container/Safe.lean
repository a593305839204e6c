import DxilSpirv.Container.Parser
import DxilSpirv.Container.Streams

/-!
# The container parser stays inside the blob

As far as no sum of a bounds check wraps around, the parser reads only the blob, and every name it
recorded lies in the blob; a payload lies in the blob unless a root signature names a range outside
the raw bytes, which is recorded as a null payload with a size.
-/

namespace DxilSpirv.Container

open DxilSpirv.Program

/-- The name of an element was copied from a C string in the blob. -/
def IOElement.Recorded (b : Blob) (e : IOElement) : Prop :=
  ∃ p, (0 : Byte) ∉ e.semanticName ∧ e.semanticName ++ [0] <+: b.bytes.drop p

/-- The names of a subobject lie in the blob, and so does its payload when there is one. -/
structure RDATSubobject.Mapped (b : Blob) (o : RDATSubobject) : Prop where
  name : b.HasString o.subobjectName
  exports : ∀ e ∈ o.exports, b.HasString e
  payload : ∀ p, o.payload = some p → p + o.payloadSize ≤ b.bytes.length

/-- A payload with a size that is not there. -/
def RDATSubobject.NullPayload (o : RDATSubobject) : Prop := o.payload = none ∧ o.payloadSize ≠ 0

/-- The range that a root signature names is not empty and leaves the raw bytes. -/
def RootRange.Misfits (r : RootRange) : Prop :=
  r.byteSize ≠ 0 ∧ r.rawSize < r.byteOffset + r.byteSize

/-- Everything recorded lies inside the blob with its stated length. -/
structure DXILContainerParser.Recorded (b : Blob) (p : DXILContainerParser) : Prop where
  inputs : ∀ e ∈ p.inputElements, e.Recorded b
  outputs : ∀ e ∈ p.outputElements, e.Recorded b
  mapped : ∀ o ∈ p.subobjects.rdatSubobjects, o.Mapped b
  payloads : ∀ o ∈ p.subobjects.rdatSubobjects, ¬ o.NullPayload

/-- A run reads only bytes inside the blob, and what it recorded when it returns `true` lies inside
the blob. -/
structure Blob.Safe (b : Blob) (m : Run DXILContainerParser) : Prop where
  inside : m.result ≠ .error .outside
  recorded : ∀ p, m.result = .ok p → p.Recorded b

/-- What holds of the subobjects at every point of the run: they are mapped, and a payload is
missing exactly where a root signature misfits. -/
structure Subobjects.Mapped (b : Blob) (o : Subobjects) : Prop where
  mapped : ∀ elem ∈ o.rdatSubobjects, elem.Mapped b
  payloads : (∃ elem ∈ o.rdatSubobjects, elem.NullPayload) ↔ ∃ r ∈ o.rootRanges, r.Misfits

/-- What holds of the streams of the runtime data at every point of the run. -/
structure RdatStreams.Inside (b : Blob) (t : RdatStreams) : Prop where
  stringBuffer : t.stringBuffer.Inside b
  indexBuffer : t.indexBuffer.Inside b
  rawBytes : t.rawBytes.Inside b

/-- What holds of the parser at every point of the run. -/
structure DXILContainerParser.Mapped (b : Blob) (p : DXILContainerParser) : Prop where
  inputs : ∀ e ∈ p.inputElements, e.Recorded b
  outputs : ∀ e ∈ p.outputElements, e.Recorded b
  subobjects : p.subobjects.Mapped b

variable {b : Blob}

/-- Two 32-bit numbers add up in 64 bits. -/
theorem Blob.Ample.add_lt (ample : b.Ample) {m n : Nat} (hm : m < 2 ^ 63) (hn : n < 2 ^ 63) :
    m + n < 2 ^ b.sizeBits := by
  rw [ample.1]
  omega

/-- A field of a structure is below `2 ^ 32`. -/
theorem field_lt (buffer : List Byte) (offset : Nat) : field buffer offset < 2 ^ 32 := by
  refine (littleEndian_lt _).trans_le (Nat.pow_le_pow_right (by decide) ?_)
  rw [List.length_take]
  omega

theorem uint32_lt (n : Nat) : uint32 n < 2 ^ 32 := Nat.mod_lt _ (by decide)

/-- A DXIL program is copied from inside the blob. -/
theorem parseDxil_spec {stream : MemoryStream} (inside : stream.Inside b) :
    b.Spec (parseDxil b stream) fun _ => True := by
  refine Checked.Spec.bind (inside.read (inside.ample_add (by norm_num))) ?_
  rintro ⟨header, stream⟩ ⟨_, inside, _⟩
  dsimp only
  split_ifs
  · exact Blob.spec_rejected
  · exact Blob.spec_rejected
  · have small : b.Ample → b.sizeT (stream.blobOffset + field header 16 - dxilMagicPad) +
      field header 20 < 2 ^ b.sizeBits := by
      intro ample
      have offset : b.sizeT (stream.blobOffset + field header 16 - dxilMagicPad) ≤
          stream.blobOffset + field header 16 :=
        (Nat.mod_le _ _).trans (Nat.sub_le _ _)
      have start : stream.blobOffset ≤ 2 ^ 63 :=
        inside.offset_le.trans (inside.size_le.trans ample.2)
      have bitcodeOffset := field_lt header 16
      have bitcodeSize := field_lt header 20
      rw [ample.1]
      omega
    refine Checked.Spec.bind (inside.createSubstreamBitcodeSize small) ?_
    rintro substream ⟨inside', start⟩
    refine Checked.Spec.bind (inside'.read ?_) ?_
    · intro ample
      rw [start, Nat.zero_add]
      exact inside'.size_le.trans_lt b.size_lt
    · rintro ⟨blob, _⟩ _
      exact Checked.Spec.done trivial

/-- An element of a signature is recorded. -/
theorem parseIOElement_spec {stream : MemoryStream} (inside : stream.Inside b) :
    b.Spec (parseIOElement b stream) fun r => r.1.Recorded b ∧ r.2.Inside b := by
  refine Checked.Spec.bind inside.readU32 ?_
  rintro ⟨streamIndex, stream⟩ ⟨_, inside, _⟩
  refine Checked.Spec.bind inside.readU32 ?_
  rintro ⟨stringOffset, stream⟩ ⟨_, inside, _⟩
  refine Checked.Spec.bind inside.readU32 ?_
  rintro ⟨semanticIndex, stream⟩ ⟨_, inside, _⟩
  refine Checked.Spec.bind inside.readU32 ?_
  rintro ⟨systemValueSemantic, stream⟩ ⟨_, inside, _⟩
  refine Checked.Spec.bind inside.readU32 ?_
  rintro ⟨componentType, stream⟩ ⟨_, inside, _⟩
  refine Checked.Spec.bind inside.readU32 ?_
  rintro ⟨registerIndex, stream⟩ ⟨_, inside, _⟩
  refine Checked.Spec.bind inside.readU32 ?_
  rintro ⟨mask, stream⟩ ⟨_, inside, _⟩
  refine Checked.Spec.bind inside.readU32 ?_
  rintro ⟨minPrecision, stream⟩ ⟨_, inside, _⟩
  refine Checked.Spec.bind (inside.seek stringOffset) ?_
  rintro moved ⟨inside, _⟩
  refine Checked.Spec.bind inside.mapStringIterate ?_
  rintro ⟨name, after⟩ ⟨holds, inside, _⟩
  refine Checked.Spec.bind holds.copyString ?_
  rintro semanticName recorded
  refine Checked.Spec.bind (inside.seek stream.blobOffset) ?_
  rintro back ⟨inside, _⟩
  exact Checked.Spec.done ⟨recorded, inside⟩

/-- The elements of a signature are recorded. -/
theorem parseIOElements_spec (count : Nat) {stream : MemoryStream} (inside : stream.Inside b) :
    b.Spec (parseIOElements b count stream) fun r => ∀ e ∈ r, e.Recorded b := by
  induction count generalizing stream with
  | zero => exact Checked.Spec.done fun e mem => absurd mem List.not_mem_nil
  | succ count ih =>
    refine Checked.Spec.bind (parseIOElement_spec inside) ?_
    rintro ⟨element, stream⟩ ⟨recorded, inside⟩
    refine Checked.Spec.bind (ih inside) fun rest all => Checked.Spec.done ?_
    exact List.forall_mem_cons.2 ⟨recorded, all⟩

/-- A signature is recorded. -/
theorem parseIosg1_spec {stream : MemoryStream} (inside : stream.Inside b) :
    b.Spec (parseIosg1 b stream) fun r => ∀ e ∈ r, e.Recorded b := by
  refine Checked.Spec.bind inside.readU32 ?_
  rintro ⟨elementCount, stream⟩ ⟨_, inside, _⟩
  refine Checked.Spec.bind (inside.skip 4) ?_
  rintro stream ⟨inside, _⟩
  exact parseIOElements_spec elementCount inside

/-- A table of numbers is read inside the blob. -/
theorem readTable_spec (count : Nat) {stream : MemoryStream} (inside : stream.Inside b) :
    b.Spec (readTable b count stream) fun r => (∀ n ∈ r.1, n < 2 ^ 32) ∧ r.2.Inside b := by
  induction count generalizing stream with
  | zero => exact Checked.Spec.done ⟨fun n mem => absurd mem List.not_mem_nil, inside⟩
  | succ count ih =>
    refine Checked.Spec.bind inside.readU32 ?_
    rintro ⟨entry, stream⟩ ⟨small, inside, _⟩
    refine Checked.Spec.bind (ih inside) ?_
    rintro ⟨rest, stream⟩ ⟨all, inside⟩
    exact Checked.Spec.done ⟨List.forall_mem_cons.2 ⟨small, all⟩, inside⟩

/-- A name lies in the blob. -/
theorem mapName_spec {record stringBuffer : MemoryStream} (inside : record.Inside b)
    (strings : stringBuffer.Inside b) :
    b.Spec (mapName b record stringBuffer) fun r => b.HasString r.1 ∧ r.2.Inside b := by
  refine Checked.Spec.bind inside.readU32 ?_
  rintro ⟨nameOffset, record⟩ ⟨_, inside, _⟩
  refine Checked.Spec.bind (strings.mapStringAbsolute nameOffset) fun name holds => ?_
  exact Checked.Spec.done ⟨holds, inside⟩

/-- The names of the exports lie in the blob. -/
theorem mapExports_spec {stringBuffer : MemoryStream} (strings : stringBuffer.Inside b)
    (count : Nat) {stream : MemoryStream} (inside : stream.Inside b) :
    b.Spec (mapExports b stringBuffer count stream) fun r => ∀ e ∈ r, b.HasString e := by
  induction count generalizing stream with
  | zero => exact Checked.Spec.done fun e mem => absurd mem List.not_mem_nil
  | succ count ih =>
    refine Checked.Spec.bind (mapName_spec inside strings) ?_
    rintro ⟨name, stream⟩ ⟨holds, inside⟩
    refine Checked.Spec.bind (ih inside) fun rest all => Checked.Spec.done ?_
    exact List.forall_mem_cons.2 ⟨holds, all⟩

/-- A subobject may be appended, with the range it names where it is a root signature. -/
theorem Subobjects.Mapped.append {o : Subobjects} (mapped : o.Mapped b) {elem : RDATSubobject}
    (holds : elem.Mapped b) (ranges : List RootRange)
    (payload : elem.NullPayload ↔ ∃ r ∈ ranges, r.Misfits) :
    Subobjects.Mapped b ⟨o.rdatSubobjects ++ [elem], o.rootRanges ++ ranges⟩ := by
  constructor
  · exact List.forall_mem_append.2 ⟨mapped.mapped, List.forall_mem_singleton.2 holds⟩
  · simp only [List.mem_append, List.mem_singleton, or_and_right, exists_or, exists_eq_left]
    exact or_congr mapped.payloads payload

/-- A subobject without payload may be appended. -/
theorem Subobjects.Mapped.push {o : Subobjects} (mapped : o.Mapped b) {elem : RDATSubobject}
    (name : b.HasString elem.subobjectName) (exports : ∀ e ∈ elem.exports, b.HasString e)
    (null : elem.payload = none) (empty : elem.payloadSize = 0) : (o.push elem).Mapped b := by
  have holds : elem.Mapped b := ⟨name, exports, fun p pointer => by
    rw [null] at pointer
    cases pointer⟩
  have all := mapped.append holds [] (iff_of_false (fun h => h.2 empty) (by
    rintro ⟨r, mem, _⟩
    exact absurd mem List.not_mem_nil))
  rwa [List.append_nil] at all

/-- A subobject without exports and payload may be appended. -/
theorem Subobjects.Mapped.pushArgs {o : Subobjects} (mapped : o.Mapped b) (kind : SubobjectKind)
    {name : Pointer} (holds : b.HasString name) (args : Nat × Nat) :
    (o.push { kind, subobjectName := name, args }).Mapped b :=
  mapped.push holds (fun _ mem => absurd mem List.not_mem_nil) rfl rfl

variable {t : RdatStreams} {record : MemoryStream} {o : Subobjects}

/-- The record of a state object config keeps what holds of the subobjects. -/
theorem parseStateObjectConfig_spec (streams : t.Inside b) (inside : record.Inside b)
    (mapped : o.Mapped b) :
    b.Spec (parseStateObjectConfig b t record o) (·.Mapped b) := by
  refine Checked.Spec.bind (mapName_spec inside streams.stringBuffer) ?_
  rintro ⟨name, record⟩ ⟨holds, inside⟩
  refine Checked.Spec.bind inside.readU32 ?_
  rintro ⟨flag, _⟩ _
  exact Checked.Spec.done (mapped.pushArgs _ holds _)

/-- The record of a raytracing shader config keeps what holds of the subobjects. -/
theorem parseRaytracingShaderConfig_spec (streams : t.Inside b) (inside : record.Inside b)
    (mapped : o.Mapped b) : b.Spec (parseRaytracingShaderConfig b t record o) (·.Mapped b) := by
  refine Checked.Spec.bind (mapName_spec inside streams.stringBuffer) ?_
  rintro ⟨name, record⟩ ⟨holds, inside⟩
  refine Checked.Spec.bind inside.readU32 ?_
  rintro ⟨maxPayloadSize, record⟩ ⟨_, inside, _⟩
  refine Checked.Spec.bind inside.readU32 ?_
  rintro ⟨maxAttributeSize, _⟩ _
  exact Checked.Spec.done (mapped.pushArgs _ holds _)

/-- The record of a raytracing pipeline config keeps what holds of the subobjects. -/
theorem parseRaytracingPipelineConfig_spec (streams : t.Inside b) (kind : SubobjectKind)
    (inside : record.Inside b) (mapped : o.Mapped b) :
    b.Spec (parseRaytracingPipelineConfig b t kind record o) (·.Mapped b) := by
  refine Checked.Spec.bind (mapName_spec inside streams.stringBuffer) ?_
  rintro ⟨name, record⟩ ⟨holds, inside⟩
  refine Checked.Spec.bind inside.readU32 ?_
  rintro ⟨maxRecursionDepth, record⟩ ⟨_, inside, _⟩
  have flags : b.Spec (if kind = .raytracingPipelineConfig1 then record.readU32 b
    else pure (0, record)) fun _ => True := by
    split_ifs
    · exact inside.readU32.mono fun _ _ => trivial
    · exact Checked.Spec.done trivial
  refine Checked.Spec.bind flags ?_
  rintro ⟨flags, _⟩ _
  exact Checked.Spec.done (mapped.pushArgs _ holds _)

/-- The record of a hit group keeps what holds of the subobjects. -/
theorem parseHitGroup_spec (streams : t.Inside b) (inside : record.Inside b) (mapped : o.Mapped b) :
    b.Spec (parseHitGroup b t record o) (·.Mapped b) := by
  refine Checked.Spec.bind (mapName_spec inside streams.stringBuffer) ?_
  rintro ⟨hgName, record⟩ ⟨holds, inside⟩
  refine Checked.Spec.bind inside.readU32 ?_
  rintro ⟨hitGroupType, record⟩ ⟨_, inside, _⟩
  refine Checked.Spec.bind inside.readU32 ?_
  rintro ⟨ahitNameOffset, record⟩ ⟨_, inside, _⟩
  refine Checked.Spec.bind inside.readU32 ?_
  rintro ⟨chitNameOffset, record⟩ ⟨_, inside, _⟩
  refine Checked.Spec.bind inside.readU32 ?_
  rintro ⟨intersectionNameOffset, record⟩ _
  refine Checked.Spec.bind (streams.stringBuffer.mapStringAbsolute _) fun ahit ahitHolds => ?_
  refine Checked.Spec.bind (streams.stringBuffer.mapStringAbsolute _) fun chit chitHolds => ?_
  refine Checked.Spec.bind (streams.stringBuffer.mapStringAbsolute _)
    fun intersection intersectionHolds => ?_
  refine Checked.Spec.done (mapped.push holds ?_ rfl rfl)
  simpa only [List.forall_mem_cons, List.not_mem_nil, IsEmpty.forall_iff, implies_true, and_true]
    using ⟨ahitHolds, chitHolds, intersectionHolds⟩

/-- The record of an association keeps what holds of the subobjects. -/
theorem parseSubobjectToExportsAssociation_spec (streams : t.Inside b) (inside : record.Inside b)
    (mapped : o.Mapped b) :
    b.Spec (parseSubobjectToExportsAssociation b t record o) (·.Mapped b) := by
  refine Checked.Spec.bind (mapName_spec inside streams.stringBuffer) ?_
  rintro ⟨name, record⟩ ⟨holds, inside⟩
  refine Checked.Spec.bind (mapName_spec inside streams.stringBuffer) ?_
  rintro ⟨objectName, record⟩ ⟨objectHolds, inside⟩
  refine Checked.Spec.bind inside.readU32 ?_
  rintro ⟨indexOffset, _⟩ _
  refine Checked.Spec.bind (streams.indexBuffer.createSubstreamToEnd _).readU32 ?_
  rintro ⟨count, indexSubstream⟩ ⟨_, indices, _⟩
  refine Checked.Spec.bind (mapExports_spec streams.stringBuffer count indices) fun exports all =>
    ?_
  exact Checked.Spec.done (mapped.push holds (List.forall_mem_cons.2 ⟨objectHolds, all⟩) rfl rfl)

/-- Nothing can be mapped from a window of a size that is not zero exactly where the range leaves
the stream. -/
theorem window_null_iff {s window : MemoryStream} (inside : s.Inside b) {offset size : Nat}
    (cases : (s.blobSize ≤ offset ∨ s.blobSize < offset + size) ∧ window = {} ∨
      offset < s.blobSize ∧ offset + size ≤ s.blobSize ∧
        window = { blob := s.blob.map (· + offset), blobSize := size }) :
    (window.blob = none ∨ window.blobSize < window.blobOffset + size) ∧ size ≠ 0 ↔
      size ≠ 0 ∧ s.blobSize < offset + size := by
  rcases cases with ⟨leaves, rfl⟩ | ⟨start, le, rfl⟩
  · simp only [true_or, true_and]
    omega
  · obtain ⟨p, pointer⟩ := inside.pointer (Nat.zero_lt_of_lt start)
    simp only [pointer, Option.map_some, reduceCtorEq, false_or]
    omega

/-- The record of a root signature keeps what holds of the subobjects: its payload is null exactly
where its range leaves the raw bytes. -/
theorem parseRootSignature_spec (streams : t.Inside b) (kind : SubobjectKind)
    (inside : record.Inside b) (mapped : o.Mapped b) :
    b.Spec (parseRootSignature b t kind record o) (·.Mapped b) := by
  refine Checked.Spec.bind (mapName_spec inside streams.stringBuffer) ?_
  rintro ⟨name, record⟩ ⟨holds, inside⟩
  refine Checked.Spec.bind inside.readU32 ?_
  rintro ⟨byteOffset, record⟩ ⟨offset_lt, inside, _⟩
  refine Checked.Spec.bind inside.readU32 ?_
  rintro ⟨byteSize, _⟩ ⟨size_lt, _⟩
  have small : b.Ample → byteOffset + byteSize < 2 ^ b.sizeBits := fun ample =>
    ample.add_lt (offset_lt.trans (by norm_num)) (size_lt.trans (by norm_num))
  refine Checked.Spec.bind (MemoryStream.createSubstream_spec small) ?_
  intro window cases
  have start : window.Inside b ∧ window.blobOffset = 0 := by
    rcases cases with ⟨_, rfl⟩ | ⟨_, le, rfl⟩
    · exact ⟨MemoryStream.inside_null, rfl⟩
    · exact ⟨streams.rawBytes.narrowed le, rfl⟩
  refine Checked.Spec.bind (start.1.mapRead (start.1.ample_add (size_lt.trans (by norm_num)))) ?_
  rintro ⟨data, _⟩ ⟨within, null⟩
  refine Checked.Spec.done (mapped.append ⟨holds, ?_, within⟩ [_] ?_)
  · exact fun _ mem => absurd mem List.not_mem_nil
  · simp only [List.mem_singleton, exists_eq_left]
    exact (and_congr_left fun _ => null).trans (window_null_iff streams.rawBytes cases)

/-- A record keeps what holds of the subobjects. -/
theorem parseRecord_spec (streams : t.Inside b) (inside : record.Inside b) (mapped : o.Mapped b) :
    b.Spec (parseRecord b t record o) (·.Mapped b) := by
  refine Checked.Spec.bind inside.readU32 ?_
  rintro ⟨kind, record⟩ ⟨_, inside, _⟩
  dsimp only
  cases SubobjectKind.ofNat? kind with
  | none => exact Checked.Spec.done mapped
  | some kind =>
    cases kind with
    | stateObjectConfig => exact parseStateObjectConfig_spec streams inside mapped
    | globalRootSignature => exact parseRootSignature_spec streams _ inside mapped
    | localRootSignature => exact parseRootSignature_spec streams _ inside mapped
    | subobjectToExportsAssociation =>
      exact parseSubobjectToExportsAssociation_spec streams inside mapped
    | raytracingShaderConfig => exact parseRaytracingShaderConfig_spec streams inside mapped
    | raytracingPipelineConfig => exact parseRaytracingPipelineConfig_spec streams _ inside mapped
    | hitGroup => exact parseHitGroup_spec streams inside mapped
    | raytracingPipelineConfig1 => exact parseRaytracingPipelineConfig_spec streams _ inside mapped

/-- The records of the table keep what holds of the subobjects. -/
theorem parseRecords_spec (streams : t.Inside b) {table : MemoryStream} (inside : table.Inside b)
    {stride : Nat} (small : stride < 2 ^ 32) (left record : Nat) (mapped : o.Mapped b) :
    b.Spec (parseRecords b t table stride left record o) (·.Mapped b) := by
  induction left generalizing record o with
  | zero => exact Checked.Spec.done mapped
  | succ left ih =>
    have fits : b.Ample → b.sizeT (table.blobOffset + uint32 (record * stride)) + stride <
        2 ^ b.sizeBits := by
      intro ample
      have offset : b.sizeT (table.blobOffset + uint32 (record * stride)) ≤
          table.blobOffset + uint32 (record * stride) :=
        Nat.mod_le _ _
      have start : table.blobOffset ≤ 2 ^ 63 :=
        inside.offset_le.trans (inside.size_le.trans ample.2)
      have product := uint32_lt (record * stride)
      rw [ample.1]
      omega
    refine Checked.Spec.bind (inside.createSubstream fits) ?_
    rintro recordStream ⟨inside', _⟩
    exact Checked.Spec.bind (parseRecord_spec streams inside' mapped) fun o' mapped' =>
      ih (record + 1) mapped'

/-- The window that a part hands to the records that follow. -/
theorem subpart_spec {substream : MemoryStream} (inside : substream.Inside b) {length : Nat}
    (small : length < 2 ^ 32) :
    b.Spec (substream.createSubstream b substream.blobOffset length) (·.Inside b) :=
  (inside.createSubstream (inside.ample_add (small.trans (by norm_num)))).mono fun _ window =>
    window.1

/-- A part of the runtime data keeps what holds of the streams and the subobjects. -/
theorem parseRdatPart_spec (streams : t.Inside b) {substream : MemoryStream}
    (inside : substream.Inside b) (mapped : o.Mapped b) :
    b.Spec (parseRdatPart b t substream o) fun r => r.1.Inside b ∧ r.2.Mapped b := by
  refine Checked.Spec.bind inside.readU32 ?_
  rintro ⟨type, substream⟩ ⟨_, inside, _⟩
  refine Checked.Spec.bind inside.readU32 ?_
  rintro ⟨subpartLength, substream⟩ ⟨small, inside, _⟩
  dsimp only
  split_ifs
  · exact Blob.spec_rejected
  · cases RuntimeDataPartType.ofNat? type with
    | none => exact Checked.Spec.done ⟨streams, mapped⟩
    | some type =>
      cases type with
      | stringBuffer =>
        refine Checked.Spec.bind (subpart_spec inside small) fun window inside' => ?_
        exact Checked.Spec.done ⟨⟨inside', streams.indexBuffer, streams.rawBytes⟩, mapped⟩
      | indexArrays =>
        refine Checked.Spec.bind (subpart_spec inside small) fun window inside' => ?_
        exact Checked.Spec.done ⟨⟨streams.stringBuffer, inside', streams.rawBytes⟩, mapped⟩
      | rawBytes =>
        refine Checked.Spec.bind (subpart_spec inside small) fun window inside' => ?_
        exact Checked.Spec.done ⟨⟨streams.stringBuffer, streams.indexBuffer, inside'⟩, mapped⟩
      | subobjectTable =>
        refine Checked.Spec.bind inside.readU32 ?_
        rintro ⟨recordCount, substream⟩ ⟨_, inside, _⟩
        refine Checked.Spec.bind inside.readU32 ?_
        rintro ⟨recordStride, substream⟩ ⟨stride_lt, inside, _⟩
        refine Checked.Spec.bind (parseRecords_spec streams inside stride_lt _ _ mapped)
          fun o' mapped' => ?_
        exact Checked.Spec.done ⟨streams, mapped'⟩

theorem partSize_lt (stream : MemoryStream) (offset : Nat) (rest : List Nat) :
    partSize b stream offset rest < 2 ^ 32 := by
  cases rest with
  | nil => exact uint32_lt _
  | cons => exact uint32_lt _

/-- The parts of the runtime data keep what holds of the subobjects. -/
theorem parseRdatParts_spec {stream : MemoryStream} (inside : stream.Inside b) {offsets : List Nat}
    (small : ∀ n ∈ offsets, n < 2 ^ 32) (streams : t.Inside b) (mapped : o.Mapped b) :
    b.Spec (parseRdatParts b stream offsets t o) (·.Mapped b) := by
  induction offsets generalizing t o with
  | nil => exact Checked.Spec.done mapped
  | cons offset rest ih =>
    have part := (partSize_lt (b := b) stream offset rest).trans (by norm_num : 2 ^ 32 < 2 ^ 63)
    have offset_lt := (small offset List.mem_cons_self).trans (by norm_num : 2 ^ 32 < 2 ^ 63)
    unfold parseRdatParts
    split_ifs
    · exact Blob.spec_rejected
    · refine Checked.Spec.bind (inside.createSubstream fun ample => ample.add_lt offset_lt part) ?_
      rintro substream ⟨inside', _⟩
      refine Checked.Spec.bind (parseRdatPart_spec streams inside' mapped) ?_
      rintro ⟨t, o⟩ ⟨streams, mapped⟩
      exact ih (fun n mem => small n (List.mem_cons_of_mem _ mem)) streams mapped

/-- The runtime data keeps what holds of the subobjects. -/
theorem parseRdat_spec {stream : MemoryStream} (inside : stream.Inside b) (mapped : o.Mapped b) :
    b.Spec (parseRdat b stream o) (·.Mapped b) := by
  refine Checked.Spec.bind inside.readU32 ?_
  rintro ⟨version, stream⟩ ⟨_, inside, _⟩
  refine Checked.Spec.bind inside.readU32 ?_
  rintro ⟨partCount, stream⟩ ⟨_, inside, _⟩
  dsimp only
  split_ifs
  · exact Blob.spec_rejected
  · refine Checked.Spec.bind (readTable_spec partCount inside) ?_
    rintro ⟨offsets, stream⟩ ⟨small, inside⟩
    exact parseRdatParts_spec inside small
      ⟨MemoryStream.inside_null, MemoryStream.inside_null, MemoryStream.inside_null⟩ mapped

/-- The first loop over the parts stays inside the blob. -/
theorem findDxbc_spec (offsets : List Nat) {stream : MemoryStream} (inside : stream.Inside b)
    (found : Bool) :
    b.Spec (findDxbc b offsets stream found) fun r => r.2.Inside b := by
  induction offsets generalizing stream found with
  | nil => exact Checked.Spec.done inside
  | cons offset rest ih =>
    refine Checked.Spec.bind (inside.seek offset) ?_
    rintro stream ⟨inside, _⟩
    refine Checked.Spec.bind (inside.read (inside.ample_add (by norm_num))) ?_
    rintro ⟨header, stream⟩ ⟨_, inside, _⟩
    exact ih inside _

/-- A part keeps what holds of the parser. -/
theorem parsePart_spec (reflection : Bool) {stream : MemoryStream} (inside : stream.Inside b)
    (kind : Nat) {size : Nat} (small : size < 2 ^ 32) {p : DXILContainerParser}
    (mapped : p.Mapped b) :
    b.Spec (parsePart b reflection stream kind size p) (·.Mapped b) := by
  unfold parsePart
  split
  · dsimp only
    by_cases skipped : (if reflection then FourCC.shaderStatistics else FourCC.dxil) ≠ kind ∨
      p.dxbcBinary
    · rw [if_pos skipped]
      exact Checked.Spec.done mapped
    · rw [if_neg skipped]
      refine Checked.Spec.bind (subpart_spec inside small) fun substream inside' => ?_
      refine Checked.Spec.bind (parseDxil_spec inside') fun dxilBlob _ => ?_
      exact Checked.Spec.done ⟨mapped.inputs, mapped.outputs, mapped.subobjects⟩
  · split_ifs
    · refine Checked.Spec.bind (subpart_spec inside small) fun substream inside' => ?_
      refine Checked.Spec.bind (parseIosg1_spec inside') fun inputElements inputs => ?_
      exact Checked.Spec.done ⟨inputs, mapped.outputs, mapped.subobjects⟩
    · refine Checked.Spec.bind (subpart_spec inside small) fun substream inside' => ?_
      refine Checked.Spec.bind (parseIosg1_spec inside') fun outputElements outputs => ?_
      exact Checked.Spec.done ⟨mapped.inputs, outputs, mapped.subobjects⟩
    · refine Checked.Spec.bind (subpart_spec inside small) fun substream inside' => ?_
      refine Checked.Spec.bind (parseRdat_spec inside' mapped.subobjects) fun subobjects mapped' =>
        ?_
      exact Checked.Spec.done ⟨mapped.inputs, mapped.outputs, mapped'⟩
    · exact Checked.Spec.done mapped

/-- The second loop over the parts keeps what holds of the parser. -/
theorem parseParts_spec (reflection : Bool) (offsets : List Nat) {stream : MemoryStream}
    (inside : stream.Inside b) {p : DXILContainerParser} (mapped : p.Mapped b) :
    b.Spec (parseParts b reflection offsets stream p) (·.Mapped b) := by
  induction offsets generalizing stream p with
  | nil => exact Checked.Spec.done mapped
  | cons offset rest ih =>
    refine Checked.Spec.bind (inside.seek offset) ?_
    rintro stream ⟨inside, _⟩
    refine Checked.Spec.bind (inside.read (inside.ample_add (by norm_num))) ?_
    rintro ⟨header, stream⟩ ⟨_, inside, _⟩
    exact Checked.Spec.bind (parsePart_spec reflection inside _ (field_lt _ _) mapped)
        fun p' mapped' =>
      ih inside mapped'

/-- A run of the parser stays inside the blob and keeps what holds of the parser. -/
theorem parseContainer_spec (b : Blob) (reflection : Bool) :
    b.Spec (parseContainer b reflection) (·.Mapped b) := by
  have inside : MemoryStream.Inside b { blob := some 0, blobSize := b.bytes.length } :=
    ⟨Nat.zero_le _, fun null => absurd null (Option.some_ne_none 0), by
      rintro p ⟨⟩
      exact (Nat.zero_add _).le⟩
  refine Checked.Spec.bind (inside.read (inside.ample_add (by norm_num))) ?_
  rintro ⟨header, stream⟩ ⟨_, inside, _⟩
  dsimp only
  split_ifs
  · exact Blob.spec_rejected
  · exact Blob.spec_rejected
  · refine Checked.Spec.bind (readTable_spec _ inside) ?_
    rintro ⟨parts, stream⟩ ⟨_, inside⟩
    refine Checked.Spec.bind (findDxbc_spec parts inside false) ?_
    rintro ⟨dxbcBinary, stream⟩ inside
    refine parseParts_spec reflection parts inside ⟨?_, ?_, ?_, ?_⟩
    · exact fun _ mem => absurd mem List.not_mem_nil
    · exact fun _ mem => absurd mem List.not_mem_nil
    · exact fun _ mem => absurd mem List.not_mem_nil
    · simp

/-- A parse stays inside the blob and records only what lies inside it exactly when, where it
returns `true`, every root signature names an empty range or a range of the raw bytes: always in a
64-bit build with a blob of at most half the address space, and in any build where no bounds check
that lets an access through wraps around. -/
theorem parseContainer_safe_iff (b : Blob) (reflection : Bool) :
    (b.Ample → ∀ c ∈ (parseContainer b reflection).log, c.Fits b) ∧
    ((∀ c ∈ (parseContainer b reflection).log, c.Fits b) →
      (b.Safe (parseContainer b reflection) ↔
        ∀ p, (parseContainer b reflection).result = .ok p → ∀ r ∈ p.subobjects.rootRanges,
          ¬ r.Misfits)) := by
  have spec := parseContainer_spec b reflection
  refine ⟨fun ample => (spec (Or.inl ample)).1, fun fits => ?_⟩
  obtain ⟨_, faultless, mapped⟩ := spec (Or.inr fits)
  constructor
  · rintro safe p value r mem misfits
    obtain ⟨o, recorded, null⟩ := (mapped p value).subobjects.payloads.2 ⟨r, mem, misfits⟩
    exact (safe.recorded p value).payloads o recorded null
  · intro ranges
    refine ⟨fun stopped => faultless _ stopped rfl, fun p value => ?_⟩
    obtain ⟨inputs, outputs, subobjects⟩ := mapped p value
    refine ⟨inputs, outputs, subobjects.mapped, fun o recorded null => ?_⟩
    obtain ⟨r, mem, misfits⟩ := subobjects.payloads.1 ⟨o, recorded, null⟩
    exact ranges p value r mem misfits

/-- The bytes of a `uint32_t`. -/
def uint32Bytes (n : Nat) : List Byte :=
  [BitVec.ofNat 8 n, BitVec.ofNat 8 (n / 2 ^ 8), BitVec.ofNat 8 (n / 2 ^ 16),
    BitVec.ofNat 8 (n / 2 ^ 24)]

/-- A container with one part, given the kind of the part, its stated size and its bytes. -/
def onePartContainer (kind size : Nat) (part : List Byte) : List Byte :=
  [FourCC.container, 0, 0, 0, 0, 1, 44 + part.length, 1, 36, kind, size].flatMap uint32Bytes ++ part

/-- Runtime data with a string buffer and a root signature of four bytes, but without raw bytes. -/
def rootSignatureData : List Byte :=
  [rdatVersion, 2, 16, 28, 1, 4, 'a'.toNat, 6, 24, 1, 16, 1, 0, 0, 4].flatMap uint32Bytes

/-- A container with that runtime data, in a 64-bit build. -/
def rootSignatureBlob : Blob where
  bytes := onePartContainer FourCC.runtimeData rootSignatureData.length rootSignatureData
  sizeBits := 64
  width := Or.inr rfl
  size_lt := by decide

/-- What the parser records of it. -/
def rootSignatureParsed : DXILContainerParser where
  subobjects :=
    { rdatSubobjects :=
      [{ kind := .globalRootSignature, subobjectName := some 68, payloadSize := 4 }]
      rootRanges := [⟨0, 4, 0⟩] }

/-- A root signature without raw bytes is recorded with a null payload of four bytes. -/
theorem parseContainer_not_safe : ¬ ∀ b reflection, Blob.Safe b (parseContainer b reflection) := by
  intro safe
  have parsed : (parseContainer rootSignatureBlob false).result = .ok rootSignatureParsed := rfl
  exact ((safe rootSignatureBlob false).recorded _ parsed).payloads
    _ List.mem_cons_self ⟨rfl, by decide⟩

/-- A container whose input signature states a size that wraps around at 32 bits, in a 32-bit
build. -/
def wrappedBlob : Blob where
  bytes := onePartContainer FourCC.inputSignature (2 ^ 32 - 40) ([1, 0].flatMap uint32Bytes)
  sizeBits := 32
  width := Or.inl rfl
  size_lt := by decide

/-- The sums have to be checked: where one wraps around, the parser reads outside the blob. -/
example : (parseContainer wrappedBlob false).result = .error .outside := rfl

end DxilSpirv.Container
