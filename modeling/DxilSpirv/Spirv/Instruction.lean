import DxilSpirv.Words.Records
import DxilSpirv.Words.Strings
import Mathlib.Data.Nat.Bitwise

/-!
# Instructions and their words

The binary form of an instruction: a word with its number of words and its operation, its type and
its result if it has them, and its operands. A string is an operand of as many words as it takes
with the zero byte at its end.
-/

namespace DxilSpirv.Spv

open Words

/-- `Op`: the operations that are named where modules are built, and the others. -/
inductive Op where
  | undef
  | sourceContinued
  | source
  | sourceExtension
  | name
  | memberName
  | string
  | extension
  | extInstImport
  | memoryModel
  | entryPoint
  | executionMode
  | executionModeId
  | capability
  | typeVoid
  | typeBool
  | typeInt
  | typeFloat
  | typeVector
  | typeMatrix
  | typeImage
  | typeSampler
  | typeSampledImage
  | typeArray
  | typeRuntimeArray
  | typeStruct
  | typePointer
  | typeFunction
  | typeUntypedPointerKHR
  | typeCooperativeMatrixKHR
  | typeAccelerationStructureKHR
  | typeRayQueryKHR
  | typeHitObjectNV
  | typeHitObjectEXT
  | constantTrue
  | constantFalse
  | constant
  | constantComposite
  | constantNull
  | constantDataKHR
  | specConstantTrue
  | specConstantFalse
  | specConstant
  | specConstantComposite
  | function
  | functionParameter
  | functionEnd
  | variable
  | decorate
  | memberDecorate
  | label
  | selectionMerge
  | loopMerge
  | moduleProcessed
  | other (code : Nat)
  deriving DecidableEq, Repr

/-- `Capability`: those that types ask for, and the others. -/
inductive Capability where
  | int8
  | int16
  | int64
  | float8EXT
  | float8CooperativeMatrixEXT
  | float16
  | float64
  | cooperativeMatrixKHR
  | longVectorEXT
  | sampledBuffer
  | imageBuffer
  | sampled1D
  | image1D
  | sampledCubeArray
  | imageCubeArray
  | sampledRect
  | imageRect
  | inputAttachment
  | storageImageMultisample
  | imageMSArray
  | other (code : Nat)
  deriving DecidableEq, Repr

/-- `Id`: zero is `NoResult` and `NoType`. -/
abbrev Id := Nat

/-- `WordCountShift`. -/
def WordCountShift : Nat := 16

/-- What comes from the headers of the format: its first word, its version, and the numbers of
operations and capabilities. -/
structure Headers where
  magicNumber : Nat
  version : Nat
  number : Op → Nat
  capability : Capability → Nat

/-- `Instruction`. -/
structure Instruction where
  opCode : Op
  resultId : Id := 0
  typeId : Id := 0
  operands : List Nat := []
  deriving DecidableEq, Repr

namespace Instruction

/-- `getIdOperand` and `getImmediateOperand`, of an operand that is there. -/
def getIdOperand (i : Instruction) (op : Nat) : Nat := i.operands.getD op 0

/-- `addIdOperand`. -/
def addIdOperand (i : Instruction) (id : Id) : Instruction :=
  { i with operands := i.operands ++ [id] }

/-- `addImmediateOperand`. -/
def addImmediateOperand (i : Instruction) (immediate : Nat) : Instruction :=
  { i with operands := i.operands ++ [immediate] }

/-- The words of `addStringOperand`, from the bytes that wait for their word and those that are
still to come. -/
def stringWords (wordString : List UInt8) : List UInt8 → List Nat
  | [] => if wordString = [] then []
      else [ofBytes (wordString ++ List.replicate (4 - wordString.length) 0)]
  | c :: str =>
    if wordString.length + 1 = 4 then ofBytes (wordString ++ [c]) :: stringWords [] str
    else stringWords (wordString ++ [c]) str

/-- `addStringOperand`: the bytes up to the first zero, and that zero. -/
def addStringOperand (i : Instruction) (str : List UInt8) : Instruction :=
  { i with operands := i.operands ++ stringWords [] (str.takeWhile (· ≠ 0) ++ [0]) }

/-- The `wordCount` of an instruction. -/
def wordCount (i : Instruction) : Nat :=
  1 + (if i.typeId ≠ 0 then 1 else 0) + (if i.resultId ≠ 0 then 1 else 0) + i.operands.length

/-- `dump`: a word has 32 bits. -/
def dump (headers : Headers) (i : Instruction) : List Nat :=
  ((i.wordCount <<< WordCountShift ||| headers.number i.opCode) % 2 ^ 32) ::
    (if i.typeId ≠ 0 then [i.typeId] else []) ++
      (if i.resultId ≠ 0 then [i.resultId] else []) ++ i.operands

end Instruction

/-- The operations of the format: their numbers, and whether they have a type and a result. -/
structure Grammar extends Headers where
  operation : Nat → Op
  hasType : Op → Bool
  hasResult : Op → Bool

/-- The operation of an instruction has a number of its own, and a type and a result exactly when
the instruction has. -/
structure Instruction.Conforms (g : Grammar) (i : Instruction) : Prop where
  number_lt : g.number i.opCode < 2 ^ WordCountShift
  operation_eq : g.operation (g.number i.opCode) = i.opCode
  type_iff : i.typeId ≠ 0 ↔ g.hasType i.opCode = true
  result_iff : i.resultId ≠ 0 ↔ g.hasResult i.opCode = true

/-- The word at the front, if one is there and wanted. -/
def readId (wanted : Bool) (words : List Nat) : Option (Id × List Nat) :=
  if wanted then words.head?.map (·, words.tail) else some (0, words)

/-- The instruction that words are the binary form of. -/
def readInstruction (g : Grammar) : List Nat → Option Instruction
  | [] => none
  | head :: words => do
    let opCode := g.operation (head % 2 ^ WordCountShift)
    let (typeId, words) ← readId (g.hasType opCode) words
    let (resultId, operands) ← readId (g.hasResult opCode) words
    some ⟨opCode, resultId, typeId, operands⟩

/-- The number of words that the first word of an instruction tells. -/
def sizeOfHead (head : Nat) : Nat := head >>> WordCountShift % 2 ^ 16

variable {headers : Headers} {g : Grammar} {i : Instruction}

/-- The number of words of the binary form. -/
@[simp] theorem Instruction.length_dump : (i.dump headers).length = i.wordCount := by
  unfold Instruction.dump Instruction.wordCount
  split_ifs <;> simp <;> omega

/-- The first word of an instruction as a sum. -/
theorem head_eq {code : Nat} (hcode : code < 2 ^ WordCountShift) (n : Nat) :
    (n <<< WordCountShift ||| code) % 2 ^ 32 = 2 ^ WordCountShift * (n % 2 ^ 16) + code := by
  have hpow : (2 : Nat) ^ 32 = 2 ^ WordCountShift * 2 ^ 16 := by decide
  rw [Nat.shiftLeft_eq, Nat.mul_comm, ← Nat.two_pow_add_eq_or_of_lt hcode, hpow, Nat.mod_mul,
    Nat.mul_add_mod, Nat.mod_eq_of_lt hcode, Nat.mul_add_div (by decide), Nat.div_eq_of_lt hcode,
      Nat.add_zero,
    Nat.add_comm]

/-- The binary form tells its number of words exactly when there are less than 2^16. -/
theorem Instruction.isRecord_dump_iff (hcode : headers.number i.opCode < 2 ^ WordCountShift) :
    IsRecord sizeOfHead (i.dump headers) ↔ i.wordCount < 2 ^ 16 := by
  have hsize : sizeOfHead ((i.wordCount <<< WordCountShift ||| headers.number i.opCode) % 2 ^ 32) =
      i.wordCount % 2 ^ 16 := by
    rw [sizeOfHead, head_eq hcode, Nat.shiftRight_eq_div_pow, Nat.mul_add_div (by decide),
      Nat.div_eq_of_lt hcode, Nat.add_zero, Nat.mod_mod]
  constructor
  · rintro ⟨head, words, hdump, hhead⟩
    rw [length_dump] at hhead
    obtain ⟨rfl, -⟩ := List.cons.inj hdump
    rw [hsize] at hhead
    exact hhead ▸ Nat.mod_lt _ (by decide)
  · intro hlt
    refine ⟨_, _, rfl, ?_⟩
    rw [hsize, Nat.mod_eq_of_lt hlt]
    exact length_dump.symm

/-- A word that is there when it is wanted is read. -/
theorem readId_append {id : Id} {wanted : Bool} (h : id ≠ 0 ↔ wanted = true) (words : List Nat) :
    readId wanted ((if id ≠ 0 then [id] else []) ++ words) = some (id, words) := by
  unfold readId
  by_cases hid : id ≠ 0
  · rw [if_pos hid, if_pos (h.mp hid)]
    rfl
  · rw [if_neg hid, if_neg fun hw => hid (h.mpr hw), of_not_not hid]
    rfl

/-- An instruction is read back from its binary form. -/
theorem Instruction.Conforms.readInstruction_dump (h : i.Conforms g) :
    readInstruction g (i.dump g.toHeaders) = some i := by
  have hcode : (i.wordCount <<< WordCountShift ||| g.number i.opCode) % 2 ^ 32 %
    2 ^ WordCountShift = g.number i.opCode := by
    rw [head_eq h.number_lt, Nat.mul_add_mod, Nat.mod_eq_of_lt h.number_lt]
  rw [Instruction.dump, List.cons_append, List.cons_append, List.append_assoc, readInstruction,
    hcode, h.operation_eq]
  simp only [readId_append h.type_iff, readId_append h.result_iff, Option.bind_eq_bind,
    Option.bind_some]

end DxilSpirv.Spv
