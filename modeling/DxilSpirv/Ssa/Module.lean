import Mathlib.Logic.Basic
import DxilSpirv.Cfg.Ir

/-!
# The module under construction

What the passes use of the SPIR-V module: it hands out result ids and keeps the decorations of
ids.
-/

namespace DxilSpirv

/-- The decorations that matter to the passes. -/
inductive Decoration where
  | noContraction | fpFastMathMode | nonUniform
  | other (code : Nat)
  deriving DecidableEq, Repr

/-- The number of a decoration in SPIR-V. -/
def Decoration.code : Decoration → Nat
  | .noContraction => 42
  | .fpFastMathMode => 40
  | .nonUniform => 5300
  | .other code => code

/-- `FPFastMathModeAllowRecipMask`. -/
def allowRecipMask : BitVec 32 := 8

/-- An `OpDecorate`, or an `OpMemberDecorate` when it names a member. -/
structure DecorationInst where
  target : Nat
  member : Option Nat := none
  decoration : Nat
  operands : List (BitVec 32) := []
  deriving DecidableEq, Repr

/-- The operand after the decorated id. -/
def DecorationInst.immediate (i : DecorationInst) : Nat :=
  i.member.getD i.decoration

/-- A SPIR-V module: the next free id and the decorations. -/
structure SpirvModule where
  nextId : Nat
  decorations : List DecorationInst := []
  deriving DecidableEq, Repr

namespace SpirvModule

/-- `SPIRVModule::allocate_id`. -/
def allocateId (m : SpirvModule) : SpirvModule × Nat :=
  ({ m with nextId := m.nextId + 1 }, m.nextId)

/-- `Builder::hasDecoration`. -/
def hasDecoration (m : SpirvModule) (id : Nat) (d : Decoration) : Bool :=
  m.decorations.any fun i => i.target = id && i.immediate = d.code

/-- `Builder::addDecoration`. -/
def addDecoration (m : SpirvModule) (id : Nat) (d : Decoration) (operands : List (BitVec 32)) :
    SpirvModule :=
  { m with decorations := m.decorations ++ [⟨id, none, d.code, operands⟩] }

/-- `Builder::removeDecorations`. -/
def removeDecorations (m : SpirvModule) (ids : List Nat) : SpirvModule :=
  { m with decorations := m.decorations.filter fun i => ¬ (i.member = none ∧ i.target ∈ ids) }

variable (m : SpirvModule) (id x : Nat) (d d' : Decoration) (operands : List (BitVec 32))

theorem hasDecoration_addDecoration :
    (m.addDecoration id d operands).hasDecoration x d' =
      (m.hasDecoration x d' || (id = x && d.code = d'.code)) := by
  simp only [hasDecoration, addDecoration, List.any_append, List.any_cons, List.any_nil,
    Bool.or_false]
  rfl

/-- Ids that were not handed out are not decorated, and members of types are no results. -/
structure Fresh (m : SpirvModule) : Prop where
  lt : ∀ i ∈ m.decorations, i.target < m.nextId

theorem Fresh.hasDecoration {m : SpirvModule} (h : m.Fresh) {x : Nat} (hx : m.nextId ≤ x)
    (d : Decoration) : m.hasDecoration x d = false := by
  rw [SpirvModule.hasDecoration, List.any_eq_false]
  intro i hi
  have := h.lt i hi
  simp only [Bool.and_eq_true, decide_eq_true_eq]
  omega

end SpirvModule

end DxilSpirv
