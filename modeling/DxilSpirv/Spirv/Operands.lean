import DxilSpirv.Spirv.Instruction
import Mathlib.Data.List.TakeWhile

/-!
# Operands

What is added to an instruction and what a reader gets back: an id or an immediate is a word, and a
string is as many words as it takes with the zero byte at its end.
-/

namespace DxilSpirv.Spv

open Words

/-- The kinds of operands. -/
inductive OperandKind where
  | id
  | immediate
  | string
  deriving DecidableEq, Repr

/-- What is added to an instruction. -/
inductive Operand where
  | id (id : Id)
  | immediate (immediate : Nat)
  | string (str : List UInt8)
  deriving DecidableEq, Repr

namespace Operand

/-- The kind of an operand. -/
def kind : Operand → OperandKind
  | id _ => .id
  | immediate _ => .immediate
  | string _ => .string

/-- The number of words of an operand. -/
def wordCount : Operand → Nat
  | id _ => 1
  | immediate _ => 1
  | string str => str.length / 4 + 1

/-- The operand, a string only up to its first zero byte. -/
def trimmed : Operand → Operand
  | string str => string (str.takeWhile (· ≠ 0))
  | op => op

end Operand

/-- `addIdOperand`, `addImmediateOperand` and `addStringOperand`. -/
def Instruction.addOperand (i : Instruction) : Operand → Instruction
  | .id id => i.addIdOperand id
  | .immediate immediate => i.addImmediateOperand immediate
  | .string str => i.addStringOperand str

/-- The operands of some kinds that words are the binary form of. -/
def readOperands : List OperandKind → List Nat → Option (List Operand)
  | [], words => if words = [] then some [] else none
  | .id :: kinds, words => do
    let word ← words.head?
    (readOperands kinds words.tail).map (.id word :: ·)
  | .immediate :: kinds, words => do
    let word ← words.head?
    (readOperands kinds words.tail).map (.immediate word :: ·)
  | .string :: kinds, words => do
    let (str, words) ← readString words
    (readOperands kinds words).map (.string str :: ·)

/-- A string that is put into words is read back, with what waited for its word. -/
theorem readString_stringWords {wordString str : List UInt8} (hlen : wordString.length < 4)
    (hword : 0 ∉ wordString) (hstr : 0 ∉ str) (rest : List Nat) :
    readString (Instruction.stringWords wordString (str ++ [0]) ++ rest) =
      some (wordString ++ str, rest) := by
  induction str generalizing wordString with
  | nil =>
    rw [List.nil_append, List.append_nil, Instruction.stringWords]
    split_ifs with hfull
    · exact readString_last hword hfull _
    · rw [Instruction.stringWords,
        if_neg (List.append_ne_nil_of_right_ne_nil _ (List.cons_ne_nil _ _)),
        List.append_assoc, List.length_append, List.length_singleton]
      obtain ⟨k, hk⟩ : ∃ k, 4 - (wordString.length + 1) = k + 1 := ⟨2 - wordString.length, by omega⟩
      rw [hk]
      exact readString_last hword (by omega) _
  | cons c str ih =>
    obtain ⟨hc, hstr⟩ := not_or.mp (mt List.mem_cons.mpr hstr)
    have hmore : 0 ∉ wordString ++ [c] := fun h => (List.mem_append.mp h).elim hword fun h =>
      hc (List.mem_singleton.mp h)
    have hnext : (wordString ++ [c]).length = wordString.length + 1 := by
      rw [List.length_append, List.length_singleton]
    rw [List.cons_append, Instruction.stringWords]
    split_ifs with hfull
    · rw [List.cons_append, readString_cons (hnext.trans hfull) hmore,
        ih (by decide) List.not_mem_nil hstr,
        Option.map_some, List.nil_append, Prod.map_apply, List.append_cons wordString c str]
      rfl
    · rw [ih (by omega) hmore hstr, List.append_cons wordString c str]

/-- The number of words of a string. -/
theorem length_stringWords {wordString str : List UInt8} (hlen : wordString.length < 4) :
    (Instruction.stringWords wordString str).length = (wordString.length + str.length + 3) / 4 := by
  induction str generalizing wordString with
  | nil =>
    rw [Instruction.stringWords]
    split_ifs with hempty
    · rw [hempty]
      rfl
    · have := List.length_pos_iff.mpr hempty
      rw [List.length_singleton, List.length_nil]
      omega
  | cons c str ih =>
    rw [Instruction.stringWords]
    split_ifs with hfull
    · rw [List.length_cons, ih (by decide), List.length_nil, List.length_cons]
      omega
    · rw [ih (by rw [List.length_append, List.length_singleton]; omega), List.length_append,
        List.length_singleton, List.length_cons]
      omega

/-- A string is cut at its first zero byte, and that is not in what is left. -/
theorem zero_notMem_takeWhile (str : List UInt8) : 0 ∉ str.takeWhile (· ≠ 0) := by
  intro h
  have hne := List.mem_takeWhile_imp (p := fun c : UInt8 => c ≠ 0) h
  exact of_decide_eq_true hne rfl

/-- A string without a zero byte is not cut. -/
theorem takeWhile_eq_self_iff {str : List UInt8} : str.takeWhile (· ≠ 0) = str ↔ 0 ∉ str := by
  rw [List.takeWhile_eq_self_iff]
  exact ⟨fun h hz => of_decide_eq_true (h 0 hz) rfl,
    fun h c hc => decide_eq_true (ne_of_mem_of_not_mem hc h)⟩

/-- A string that is an operand is read back up to its first zero byte. -/
theorem readString_operand (str : List UInt8) (rest : List Nat) :
    readString (Instruction.stringWords [] (str.takeWhile (· ≠ 0) ++ [0]) ++ rest) =
      some (str.takeWhile (· ≠ 0), rest) :=
  readString_stringWords (List.length_nil.trans_lt (by decide)) List.not_mem_nil
    (zero_notMem_takeWhile str) rest

variable {i : Instruction} {op : Operand} {ops : List Operand}

/-- The words of an operand. -/
def Operand.words : Operand → List Nat
  | .id word => [word]
  | .immediate word => [word]
  | .string str => Instruction.stringWords [] (str.takeWhile (· ≠ 0) ++ [0])

/-- An operand is added as its words, and nothing else changes. -/
theorem Instruction.addOperand_eq :
    i.addOperand op = { i with operands := i.operands ++ op.words } := by
  cases op <;> rfl

/-- Operands are added as their words. -/
theorem Instruction.foldl_addOperand :
    ops.foldl addOperand i = { i with operands := i.operands ++ ops.flatMap Operand.words } := by
  induction ops generalizing i with
  | nil => rw [List.foldl_nil, List.flatMap_nil, List.append_nil]
  | cons op ops ih => rw [List.foldl_cons, ih, addOperand_eq, List.flatMap_cons, List.append_assoc]

/-- The number of the words of an operand. -/
theorem Operand.length_words : op.words.length = op.trimmed.wordCount := by
  cases op with
  | id _ => rfl
  | immediate _ => rfl
  | string str =>
    rw [words, length_stringWords (List.length_nil.trans_lt (by decide)), List.length_append,
      List.length_singleton, List.length_nil, trimmed, wordCount]
    omega

/-- The words of operands are read as these operands, their strings cut at the first zero byte. -/
theorem readOperands_words :
    readOperands (ops.map Operand.kind) (ops.flatMap Operand.words) =
      some (ops.map Operand.trimmed) := by
  induction ops with
  | nil => rfl
  | cons op ops ih =>
    rw [List.map_cons, List.map_cons, List.flatMap_cons]
    cases op with
    | id id => exact congrArg (Option.map _) ih
    | immediate immediate => exact congrArg (Option.map _) ih
    | string str =>
      rw [Operand.kind, readOperands, Operand.words, readString_operand]
      exact congrArg (Option.map _) ih

/-- The number of words of an instruction with operands added. -/
theorem wordCount_addOperand (i : Instruction) (ops : List Operand) :
    (ops.foldl Instruction.addOperand i).wordCount =
      i.wordCount + (ops.map (·.trimmed.wordCount)).sum := by
  rw [Instruction.foldl_addOperand, Instruction.wordCount, Instruction.wordCount,
    List.length_append, List.length_flatMap, ← Nat.add_assoc]
  simp only [Operand.length_words]

/-- Operands of any kinds that are added to an instruction one after the other are read back exactly
when no string has a zero byte, and an instruction has a word more for each, or one for four bytes
of a string and its end. -/
theorem readOperands_addOperand_iff (i : Instruction) (ops : List Operand) :
    (readOperands (ops.map Operand.kind)
      ((ops.foldl Instruction.addOperand i).operands.drop i.operands.length) =
      some ops ↔ ∀ str, .string str ∈ ops → 0 ∉ str) ∧
    (ops.foldl Instruction.addOperand i).wordCount =
      i.wordCount + (ops.map (·.trimmed.wordCount)).sum := by
  refine ⟨?_, wordCount_addOperand i ops⟩
  rw [Instruction.foldl_addOperand, List.drop_left, readOperands_words, Option.some.injEq]
  have hmap : ops.map Operand.trimmed = ops ↔ ∀ op ∈ ops, op.trimmed = op := by
    simpa using List.map_inj_left (l := ops) (f := Operand.trimmed) (g := id)
  rw [hmap]
  constructor
  · intro hops str hstr
    exact takeWhile_eq_self_iff.mp (Operand.string.inj (hops _ hstr))
  · intro hstrings op hop
    cases op with
    | id _ => rfl
    | immediate _ => rfl
    | string str => exact congrArg Operand.string (takeWhile_eq_self_iff.mpr (hstrings str hop))

end DxilSpirv.Spv
