import DxilSpirv.Spirv.Builder
import DxilSpirv.Spirv.Operands
import Mathlib.Data.Finset.Sort
import Mathlib.Data.List.Lex

/-!
# The binary form of a module

A header of five words, and the instructions of all sections one after the other. The blocks of a
function come in their readable order. A long source text is cut into instructions that have no more
words than can be told.
-/

namespace DxilSpirv.Spv

open Words

/-- `Block::dump`: the label, the local variables and what else the block has. -/
def Block.written (b : Block) : List Instruction :=
  b.instructions.take 1 ++ b.localVariables ++ b.instructions.drop 1

/-- `Function::dump`. -/
def Function.written (m : Module) (f : Function) : Option (List Instruction) := do
  let entry ← f.blocks.head?
  let order ← inReadableOrder m f entry
  some (f.functionInstruction ::
    f.parameterInstructions ++ order.flatMap (fun b => (m.block b).written) ++
    [{ opCode := .functionEnd }])

/-- `maxWordCount`. -/
def maxWordCount : Nat := 0xFFFF

/-- `opSourceWordCount`. -/
def opSourceWordCount : Nat := 4

/-- `nonNullBytesPerInstruction`. -/
def nonNullBytesPerInstruction : Nat := 4 * (maxWordCount - opSourceWordCount) - 1

/-- The pieces of a text, each as long as an instruction can have, from `nextByte` on. What is left
is `(int)sourceText.size() - nextByte`. -/
def sourcePieces (text : List UInt8) (left : Int) : List (List UInt8) :=
  if left ≤ 0 then []
  else text.take nonNullBytesPerInstruction ::
    sourcePieces (text.drop nonNullBytesPerInstruction) (left - nonNullBytesPerInstruction)
termination_by left.toNat
decreasing_by
  unfold nonNullBytesPerInstruction maxWordCount opSourceWordCount
  omega

/-- `(int)sourceText.size()`. -/
def sourceSize (text : List UInt8) : Int := (BitVec.ofNat 32 text.length).toInt

/-- `dumpSourceInstructions`. A text whose size is no positive `int` leaves the source instruction
out too. -/
def Builder.sourceInstructions (b : Builder) : List Instruction :=
  if b.source = 0 then []
  else
    let sourceInst : Instruction := { opCode := .source, operands := [b.source, b.sourceVersion] }
    if b.sourceFileStringId = 0 then [sourceInst]
    else
      let sourceInst := sourceInst.addIdOperand b.sourceFileStringId
      if b.sourceText = [] then [sourceInst]
      else match sourcePieces b.sourceText (sourceSize b.sourceText) with
      | [] => []
      | piece :: pieces => sourceInst.addStringOperand piece ::
          pieces.map (Instruction.addStringOperand { opCode := .sourceContinued })

/-- A set of strings, in the order of their bytes. -/
def sortedStrings (strings : Finset (List UInt8)) : List (List UInt8) :=
  ((strings.image (List.map UInt8.toNat)).sort (· ≤ ·)).map (List.map UInt8.ofNat)

/-- The instructions that `Builder::dump` writes, in its order. -/
def Builder.written (headers : Headers) (b : Builder) : Option (List Instruction) := do
  let functions ← b.module.functions.mapM (Function.written b.module)
  some (((b.capabilities.image headers.capability).sort (· ≤ ·)).map
      (fun cap => Instruction.addImmediateOperand { opCode := .capability } cap) ++
    (sortedStrings b.extensions).map (Instruction.addStringOperand { opCode := .extension }) ++
    b.imports ++
    [{ opCode := .memoryModel, operands := [b.addressModel, b.memoryModel] }] ++
    b.entryPoints ++ b.executionModes ++ b.strings ++
    b.moduleProcesses.map (Instruction.addStringOperand { opCode := .moduleProcessed }) ++
    b.sourceInstructions ++
    b.sourceExtensions.map (Instruction.addStringOperand { opCode := .sourceExtension }) ++
    b.names ++ b.lines ++ b.decorations ++ b.constantsTypesGlobals ++ b.externals ++
    functions.flatten)

/-- `Builder::dump`. -/
def Builder.dump (headers : Headers) (b : Builder) : Option (List Nat) := do
  let written ← b.written headers
  some ([headers.magicNumber, headers.version, b.builderNumber, b.uniqueId + 1, 0] ++
    written.flatMap (Instruction.dump headers))

/-- What the header of a module tells, but for its first word. -/
structure Header where
  version : Nat
  generator : Nat
  bound : Nat
  schema : Nat
  deriving DecidableEq, Repr

/-- The module that words are the binary form of. -/
def readModule (g : Grammar) : List Nat → Option (Header × List Instruction)
  | magicNumber :: version :: generator :: bound :: schema :: words =>
    if magicNumber ≠ g.magicNumber then none
    else (readRecords sizeOfHead (readInstruction g) words).map
      (⟨version, generator, bound, schema⟩, ·)
  | _ => none

variable {g : Grammar} {b : Builder} {i : Instruction} {is : List Instruction} {r : List Nat}

/-- An id that is wanted takes a word. -/
theorem length_of_readId {wanted : Bool} {id : Id} {words rest : List Nat}
    (h : readId wanted words = some (id, rest)) (hid : id ≠ 0 ↔ wanted = true) :
    words.length = (if id ≠ 0 then 1 else 0) + rest.length := by
  unfold readId at h
  by_cases hw : wanted = true
  · rw [if_pos hw] at h
    obtain ⟨w, hhead, hpair⟩ := Option.map_eq_some_iff.mp h
    obtain ⟨rfl, rfl⟩ := Prod.mk.inj hpair
    have := List.length_pos_of_mem (List.mem_of_head? hhead)
    rw [if_pos (hid.mpr hw), List.length_tail]
    omega
  · rw [if_neg hw] at h
    obtain ⟨rfl, rfl⟩ := Prod.mk.inj (Option.some.inj h)
    rw [if_neg fun h => h rfl, Nat.zero_add]

/-- The instruction that a record is read as has as many words. -/
theorem wordCount_of_read (hread : readInstruction g r = some i) (hconforms : i.Conforms g) :
    r.length = i.wordCount := by
  cases r with
  | nil => exact nomatch hread
  | cons head words =>
    obtain ⟨⟨typeId, words₁⟩, htype, hread⟩ := Option.bind_eq_some_iff.mp hread
    obtain ⟨⟨resultId, operands⟩, hresult, hread⟩ := Option.bind_eq_some_iff.mp hread
    obtain rfl := Option.some.inj hread
    have h₁ := length_of_readId htype hconforms.type_iff
    have h₂ := length_of_readId hresult hconforms.result_iff
    change words.length + 1 =
      1 + (if typeId ≠ 0 then 1 else 0) + (if resultId ≠ 0 then 1 else 0) + operands.length
    rw [h₁, h₂]
    omega

/-- Instructions that are written one after the other are read back exactly when all tell their
number of words. -/
theorem readRecords_dump_iff (hconforms : ∀ i ∈ is, i.Conforms g) :
    readRecords sizeOfHead (readInstruction g) (is.flatMap (Instruction.dump g.toHeaders)) =
      some is ↔ ∀ i ∈ is, i.wordCount < 2 ^ 16 := by
  rw [readRecords_flatMap_iff (fun i hi => (hconforms i hi).readInstruction_dump)
      fun i hi r hread =>
    (wordCount_of_read hread (hconforms i hi)).trans Instruction.length_dump.symm]
  exact forall₂_congr fun i hi => Instruction.isRecord_dump_iff (hconforms i hi).number_lt

/-- Functions are written from their entries. -/
theorem exists_written (headers : Headers)
    (hfs : ∀ f ∈ b.module.functions, f.WellFormed b.module ∧ f.blocks ≠ []) :
    ∃ is, b.written headers = some is := by
  have hfunctions : ∃ functions,
      b.module.functions.mapM (Function.written b.module) = some functions := by
    refine exists_mapM_eq fun f hf => ?_
    obtain ⟨hwell, hne⟩ := hfs f hf
    obtain ⟨entry, blocks, hblocks⟩ := List.exists_cons_of_ne_nil hne
    obtain ⟨order, hrun, -⟩ :=
      exists_readableOrder hwell (hblocks ▸ List.mem_cons_self : entry ∈ f.blocks)
    refine Option.isSome_iff_exists.mp ?_
    rw [Function.written, hblocks, List.head?_cons, Option.bind_eq_bind, Option.bind_some, hrun]
    rfl
  obtain ⟨functions, hfunctions⟩ := hfunctions
  refine Option.isSome_iff_exists.mp ?_
  rw [Builder.written, hfunctions]
  rfl

/-- The binary form of a module is read back, section by section and block by block in the readable
order, exactly when no instruction has more words than can be told. -/
theorem dump_reads_iff (hfs : ∀ f ∈ b.module.functions, f.WellFormed b.module ∧ f.blocks ≠ [])
    (hconforms : ∀ is, b.written g.toHeaders = some is → ∀ i ∈ is, i.Conforms g) :
    ∃ is, b.written g.toHeaders = some is ∧
      ((b.dump g.toHeaders).bind (readModule g) =
        some (⟨g.version, b.builderNumber, b.uniqueId + 1, 0⟩, is) ↔
        ∀ i ∈ is, i.wordCount < 2 ^ 16) := by
  obtain ⟨is, hwritten⟩ := exists_written g.toHeaders hfs
  refine ⟨is, hwritten, ?_⟩
  rw [← readRecords_dump_iff (hconforms is hwritten), Builder.dump, hwritten, Option.bind_eq_bind,
    Option.bind_some, Option.bind_some]
  change (if g.magicNumber ≠ g.magicNumber then none else Option.map _ _) = _ ↔ _
  rw [if_neg fun h => h rfl, Option.map_eq_some_iff]
  constructor
  · rintro ⟨is', hread, hpair⟩
    obtain rfl : is' = is := (Prod.mk.inj hpair).2
    exact hread
  · exact fun hread => ⟨is, hread, rfl⟩

/-- The operations of a small module. -/
def sampleGrammar : Grammar where
  magicNumber := 0x07230203
  version := 0x00010600
  number
    | .memoryModel => 14
    | .capability => 17
    | .typeVoid => 19
    | .typeFunction => 33
    | .function => 54
    | .functionEnd => 56
    | .loopMerge => 246
    | .label => 248
    | .other code => code
    | _ => 0
  operation
    | 14 => .memoryModel
    | 17 => .capability
    | 19 => .typeVoid
    | 33 => .typeFunction
    | 54 => .function
    | 56 => .functionEnd
    | 246 => .loopMerge
    | 248 => .label
    | code => .other code
  capability
    | .other code => code
    | _ => 0
  hasType op := op = .function
  hasResult op := op ∈ [.typeVoid, .typeFunction, .function, .label]

/-- A module with a function whose blocks are a loop, and a block out of reach. -/
def sampleBuilder : Builder where
  capabilities := {.other 1}
  module := sampleModule
  uniqueId := 20
  constantsTypesGlobals := [⟨.typeVoid, 5, 0, []⟩, ⟨.typeFunction, 6, 0, [5]⟩]

/-- What is written of the module: the block out of reach is not. -/
def sampleWritten : List Instruction :=
  [⟨.capability, 0, 0, [1]⟩, ⟨.memoryModel, 0, 0, [0, 1]⟩, ⟨.typeVoid, 5, 0,
    []⟩, ⟨.typeFunction, 6, 0, [5]⟩,
    ⟨.function, 16, 5, [0, 6]⟩, ⟨.label, 10, 0, []⟩, ⟨.other 249, 0, 0, [11]⟩, ⟨.label, 11, 0, []⟩,
    ⟨.loopMerge, 0, 0, [14, 13, 0]⟩, ⟨.other 250, 0, 0, [9, 14, 12]⟩, ⟨.label, 12, 0, []⟩,
      ⟨.other 249, 0, 0, [13]⟩,
    ⟨.label, 13, 0, []⟩, ⟨.other 249, 0, 0, [11]⟩, ⟨.label, 14, 0, []⟩, ⟨.other 253, 0, 0, []⟩,
      ⟨.functionEnd, 0, 0, []⟩]

theorem sampleBuilder_written :
    sampleBuilder.written sampleGrammar.toHeaders = some sampleWritten := by
  have hfunctions : [sampleFunction].mapM (Function.written sampleModule) =
    some [sampleWritten.drop 4] := by decide
  have hmodule : sampleBuilder.module.functions.mapM (Function.written sampleBuilder.module) =
      some [sampleWritten.drop 4] := hfunctions
  rw [Builder.written, hmodule]
  simp [sampleBuilder, sortedStrings, sampleGrammar, Builder.sourceInstructions, sampleWritten,
    Instruction.addImmediateOperand]

theorem sampleWritten_conforms : ∀ i ∈ sampleWritten, i.Conforms sampleGrammar := by
  have h : ∀ i ∈ sampleWritten, sampleGrammar.number i.opCode < 2 ^ WordCountShift ∧
      sampleGrammar.operation (sampleGrammar.number i.opCode) = i.opCode ∧
      (i.typeId ≠ 0 ↔ sampleGrammar.hasType i.opCode = true) ∧
      (i.resultId ≠ 0 ↔ sampleGrammar.hasResult i.opCode = true) := by decide
  exact fun i hi => ⟨(h i hi).1, (h i hi).2.1, (h i hi).2.2.1, (h i hi).2.2.2⟩

theorem dump_reads_sample :
    (sampleBuilder.dump sampleGrammar.toHeaders).bind (readModule sampleGrammar) =
      some (⟨0x00010600, 0, 21, 0⟩, sampleWritten) := by
  obtain ⟨is, hwritten, hread⟩ := @dump_reads_iff sampleGrammar sampleBuilder
    (List.forall_mem_singleton.mpr ⟨sampleFunction_wellFormed, List.cons_ne_nil _ _⟩)
    fun is his => Option.some.inj (sampleBuilder_written.symm.trans his) ▸ sampleWritten_conforms
  obtain rfl := Option.some.inj (sampleBuilder_written.symm.trans hwritten)
  exact hread.mpr (by decide)

/-- The text that a source instruction tells, after what comes before it. -/
def readPiece (i : Instruction) : Option (List UInt8) :=
  match i.operands.drop (if i.opCode = .source then 3 else 0) with
  | [] => some []
  | words => (readString words).map Prod.fst

/-- The text that source instructions tell. -/
def readSourceText (is : List Instruction) : Option (List UInt8) :=
  (is.mapM readPiece).map List.flatten

/-- The pieces of a text whose size is told make it up. -/
theorem flatten_sourcePieces {text : List UInt8} {left : Int} (h : text = [] ∨ text.length ≤ left) :
    (sourcePieces text left).flatten = text := by
  induction text, left using sourcePieces.induct with
  | case1 text left hleft =>
    rw [sourcePieces, if_pos hleft, List.flatten_nil]
    refine (h.elim id fun hlen => List.length_eq_zero_iff.mp ?_).symm
    omega
  | case2 text left hleft ih =>
    rw [sourcePieces, if_neg hleft, List.flatten_cons, ih ?_, List.take_append_drop]
    rw [List.drop_eq_nil_iff, List.length_drop]
    rcases h with rfl | hlen
    · exact .inl (Nat.zero_le _)
    · omega

/-- No piece of a text is too long. -/
theorem length_le_of_mem_sourcePieces {text piece : List UInt8} {left : Int}
    (hpiece : piece ∈ sourcePieces text left) :
    piece.length ≤ nonNullBytesPerInstruction := by
  induction text, left using sourcePieces.induct with
  | case1 text left hleft =>
    rw [sourcePieces, if_pos hleft] at hpiece
    exact nomatch hpiece
  | case2 text left hleft ih =>
    rw [sourcePieces, if_neg hleft] at hpiece
    rcases List.mem_cons.mp hpiece with rfl | hrest
    · exact List.length_take_le _ _
    · exact ih hrest

/-- The pieces go past what is left by less than one of them. -/
theorem length_flatten_sourcePieces (text : List UInt8) (left : Int) :
    ((sourcePieces text left).flatten.length : Int) ≤
      max 0 left + nonNullBytesPerInstruction - 1 := by
  induction text, left using sourcePieces.induct with
  | case1 text left hleft =>
    rw [sourcePieces, if_pos hleft, List.flatten_nil, List.length_nil]
    exact (by decide : (0 : Int) ≤ nonNullBytesPerInstruction - 1).trans (by omega)
  | case2 text left hleft ih =>
    have htake := List.length_take_le nonNullBytesPerInstruction text
    rw [sourcePieces, if_neg hleft, List.flatten_cons, List.length_append]
    by_cases hlast : left - nonNullBytesPerInstruction ≤ 0
    · rw [sourcePieces, if_pos hlast, List.flatten_nil, List.length_nil]
      omega
    · omega

/-- The size of a text is told as it is below 2 GiB. -/
theorem sourceSize_eq {text : List UInt8} (h : text.length < 2 ^ 31) :
    sourceSize text = text.length := by
  rw [sourceSize, BitVec.toInt_ofNat', Int.bmod_def]
  omega

/-- A text from 2 GiB on has more bytes than its pieces. -/
theorem length_flatten_lt {text : List UInt8} (h : 2 ^ 31 ≤ text.length) :
    (sourcePieces text (sourceSize text)).flatten.length < text.length := by
  have hlen := length_flatten_sourcePieces text (sourceSize text)
  have hsize : sourceSize text < 2 ^ 31 ∧ (0 < sourceSize text → 2 ^ 32 ≤ text.length) := by
    rw [sourceSize, BitVec.toInt_ofNat', Int.bmod_def]
    omega
  have hbytes : (nonNullBytesPerInstruction : Int) < 2 ^ 31 := by decide
  omega

/-- An instruction with a string has a word for four bytes of it more. -/
theorem wordCount_addStringOperand (i : Instruction) (str : List UInt8) :
    (i.addStringOperand str).wordCount ≤ i.wordCount + (str.length / 4 + 1) := by
  have hcount := wordCount_addOperand i [.string str]
  have hlen : (str.takeWhile (· ≠ 0)).length ≤ str.length := (List.takeWhile_sublist _).length_le
  simp only [List.foldl_cons, List.foldl_nil, Instruction.addOperand, List.map_cons, List.map_nil,
    List.sum_singleton, Operand.trimmed, Operand.wordCount] at hcount
  omega

/-- No source instruction has more words than can be told, however long the text is. -/
theorem wordCount_sourceInstructions {i : Instruction} (hi : i ∈ b.sourceInstructions) :
    i.wordCount ≤ maxWordCount := by
  have hadd {i : Instruction} {piece : List UInt8} (hi : i.wordCount ≤ opSourceWordCount)
      (hpiece : piece ∈ sourcePieces b.sourceText (sourceSize b.sourceText)) :
          (i.addStringOperand piece).wordCount ≤ maxWordCount := by
    have hcount := wordCount_addStringOperand i piece
    have hlen := length_le_of_mem_sourcePieces hpiece
    unfold nonNullBytesPerInstruction maxWordCount opSourceWordCount at *
    omega
  unfold Builder.sourceInstructions at hi
  split_ifs at hi with hsource hfile htext
  · exact nomatch hi
  · rw [List.mem_singleton.mp hi]
    exact (by decide : 3 ≤ maxWordCount)
  · rw [List.mem_singleton.mp hi]
    exact (by decide : 4 ≤ maxWordCount)
  · cases hpieces : sourcePieces b.sourceText (sourceSize b.sourceText) with
    | nil =>
      rw [hpieces] at hi
      exact nomatch hi
    | cons piece pieces =>
      rw [hpieces] at hi hadd
      rcases List.mem_cons.mp hi with rfl | hi
      · exact hadd (by decide : 4 ≤ opSourceWordCount) List.mem_cons_self
      · obtain ⟨piece', hpiece, rfl⟩ := List.mem_map.mp hi
        exact hadd (by decide) (List.mem_cons_of_mem _ hpiece)

/-- The piece of a text is read back up to its first zero byte. -/
theorem readPiece_addStringOperand {i : Instruction}
    (hi : i.operands.length = if i.opCode = .source then 3 else 0) (piece : List UInt8) :
    readPiece (i.addStringOperand piece) = some (piece.takeWhile (· ≠ 0)) := by
  have hread := readString_operand piece []
  rw [List.append_nil] at hread
  unfold readPiece Instruction.addStringOperand
  rw [← hi, List.drop_left]
  cases hwords : Instruction.stringWords [] (piece.takeWhile (· ≠ 0) ++ [0]) with
  | nil =>
    rw [hwords] at hread
    exact nomatch hread
  | cons w words =>
    rw [hwords] at hread
    exact congrArg (Option.map Prod.fst) hread

/-- What is read back of a text: every piece up to its first zero byte. -/
theorem readSourceText_eq (hsource : b.source ≠ 0) (hfile : b.sourceFileStringId ≠ 0) :
    readSourceText b.sourceInstructions =
      some ((sourcePieces b.sourceText (sourceSize b.sourceText)).map
        (List.takeWhile (· ≠ 0))).flatten := by
  unfold readSourceText Builder.sourceInstructions
  rw [if_neg hsource, if_neg hfile]
  split_ifs with htext
  · rw [htext, sourcePieces, if_pos (by decide)]
    rfl
  · cases sourcePieces b.sourceText (sourceSize b.sourceText) with
    | nil => rfl
    | cons piece pieces =>
      refine congrArg (Option.map _) (mapM_eq_some_iff.mpr ?_)
      rw [List.map_cons, List.map_cons, List.map_cons, readPiece_addStringOperand rfl, List.map_map,
        List.map_map]
      exact congrArg _ (List.map_congr_left fun piece _ => readPiece_addStringOperand rfl piece)

/-- Pieces that end at a zero byte are no longer than they were. -/
theorem length_flatten_takeWhile_le (pieces : List (List UInt8)) :
    (pieces.map (List.takeWhile (· ≠ 0))).flatten.length ≤ pieces.flatten.length := by
  induction pieces with
  | nil => exact le_rfl
  | cons piece pieces ih =>
    rw [List.map_cons, List.flatten_cons, List.flatten_cons, List.length_append, List.length_append]
    exact Nat.add_le_add (List.takeWhile_sublist _).length_le ih

/-- The text of a source file is cut into instructions that have no more words than can be told, and
it is read back from them exactly when it has no zero byte and is shorter than 2 GiB. -/
theorem readSourceText_iff (hsource : b.source ≠ 0) (hfile : b.sourceFileStringId ≠ 0) :
    (∀ i ∈ b.sourceInstructions, i.wordCount ≤ maxWordCount) ∧
      (readSourceText b.sourceInstructions = some b.sourceText ↔
        0 ∉ b.sourceText ∧ b.sourceText.length < 2 ^ 31) := by
  refine ⟨fun _ => wordCount_sourceInstructions, ?_⟩
  rw [readSourceText_eq hsource hfile, Option.some.injEq]
  constructor
  · intro htext
    refine ⟨fun hzero => ?_, Nat.lt_of_not_le fun hlong => ?_⟩
    · rw [← htext] at hzero
      obtain ⟨_, hmem, hzero⟩ := List.mem_flatten.mp hzero
      obtain ⟨piece, -, rfl⟩ := List.mem_map.mp hmem
      exact zero_notMem_takeWhile piece hzero
    · have hle := length_flatten_takeWhile_le (sourcePieces b.sourceText (sourceSize b.sourceText))
      rw [htext] at hle
      exact absurd hle (Nat.not_le.mpr (length_flatten_lt hlong))
  · rintro ⟨hzero, hshort⟩
    have hflatten := flatten_sourcePieces (.inr (sourceSize_eq hshort).ge)
    have hpieces : (sourcePieces b.sourceText (sourceSize b.sourceText)).map
      (List.takeWhile (· ≠ 0)) = sourcePieces b.sourceText (sourceSize b.sourceText) := by
      refine (List.map_congr_left fun piece hpiece => ?_).trans (List.map_id _)
      refine takeWhile_eq_self_iff.mpr fun h => hzero ?_
      rw [← hflatten]
      exact List.mem_flatten_of_mem hpiece h
    rw [hpieces, hflatten]

theorem readSourceText_sample :
    (∀ i ∈ Builder.sourceInstructions
        { source := 6, sourceFileStringId := 1, sourceText := bytesOf "void" },
      i.wordCount ≤ maxWordCount) ∧
    (readSourceText (Builder.sourceInstructions
        { source := 6, sourceFileStringId := 1, sourceText := bytesOf "void" }) =
      some (bytesOf "void") ↔ 0 ∉ bytesOf "void" ∧ (bytesOf "void").length < 2 ^ 31) :=
  @readSourceText_iff { source := 6, sourceFileStringId := 1, sourceText := bytesOf "void" }
    (by decide) (by decide)

end DxilSpirv.Spv
