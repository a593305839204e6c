import Mathlib.Logic.Function.Basic
import Mathlib.Data.List.Forall2
import DxilSpirv.Cfg.Ir

/-!
# What blocks compute

The meaning of a block over any values and memories: the PHIs all read the values at the end of
the block control comes from, the operations run in order, and the terminator picks the next
block. A pass that rewrites blocks is judged by what it makes of this.
-/

namespace DxilSpirv

/-- The meaning of operations and selectors over values `V` and memories `W`. -/
structure Machine (V W : Type) where
  exec : SpvOp → Nat → List (V ⊕ BitVec 32) → W → V × W
  truth : V → Bool
  word : V → BitVec 32

/-- The values of all ids. -/
abbrev Env (V : Type) := Nat → V

/-- The id that a PHI takes when control comes from the block `p`. -/
def PHI.incomingFrom (p : Nat) (phi : PHI) : Option Nat :=
  (phi.incoming.find? fun i => i.block == p).map (·.id)

/-- In a PHI with one entry for each block, the entry of a block is the one that is found. -/
theorem incomingFrom_of_mem {phi : PHI} (h : (phi.incoming.map (·.block)).Nodup) {i : IncomingValue}
    (hi : i ∈ phi.incoming) : phi.incomingFrom i.block = some i.id := by
  unfold PHI.incomingFrom
  revert h hi
  generalize phi.incoming = l
  intro h hi
  induction l with
  | nil => exact absurd hi List.not_mem_nil
  | cons j l ih =>
    rw [List.map_cons, List.nodup_cons] at h
    rw [List.find?_cons]
    rcases List.mem_cons.mp hi with rfl | hmem
    · simp
    · have hne : j.block ≠ i.block := fun he => h.1 (he ▸ List.mem_map_of_mem hmem)
      rw [beq_eq_false_iff_ne.mpr hne]
      exact ih h.2 hmem

/-- Where a PHI has an entry for a block, something arrives from it. -/
theorem incomingFrom_isSome {phi : PHI} {p : Nat} (h : p ∈ phi.incoming.map (·.block)) :
    (phi.incomingFrom p).isSome := by
  obtain ⟨i, hi, rfl⟩ := List.mem_map.mp h
  rw [PHI.incomingFrom, Option.isSome_map, List.find?_isSome]
  exact ⟨i, hi, beq_self_eq_true _⟩

/-- Erasing the entry of a block from a PHI erases the block from its incoming blocks. -/
theorem map_eraseP_block (l : List IncomingValue) (n : Nat) :
    (l.eraseP fun i => i.block == n).map (·.block) = (l.map (·.block)).erase n := by
  induction l with
  | nil => rfl
  | cons i l ih =>
    rw [List.map_cons, List.erase_cons, List.eraseP_cons]
    by_cases hi : i.block = n
    · simp [hi]
    · rw [beq_eq_false_iff_ne.mpr hi, cond_false, List.map_cons, ih]
      rfl

/-- Where the entry of one block is replaced by entries of other blocks, what arrives from the rest
stays. -/
theorem incomingFrom_erase_append {phi phi' : PHI} {n q : Nat} {new : List IncomingValue}
    (hin : phi'.incoming = (phi.incoming.eraseP fun i => i.block == n) ++ new) (hq : q ≠ n)
    (hnew : ∀ i ∈ new, i.block ≠ q) : phi'.incomingFrom q = phi.incomingFrom q := by
  have hnone : new.find? (fun i => i.block == q) = none :=
    List.find?_eq_none.mpr fun i hi hbeq => hnew i hi (beq_iff_eq.mp hbeq)
  have herase : ∀ l : List IncomingValue,
      (l.eraseP fun i => i.block == n).find? (fun i => i.block == q) =
        l.find? fun i => i.block == q := by
    intro l
    induction l with
    | nil => rfl
    | cons i l ih =>
      rw [List.eraseP_cons]
      by_cases hi : i.block = n
      · have hbeq : (i.block == q) = false := beq_eq_false_iff_ne.mpr fun he => hq (he ▸ hi)
        rw [beq_iff_eq.mpr hi, cond_true, List.find?_cons, hbeq]
      · rw [beq_eq_false_iff_ne.mpr hi, cond_false, List.find?_cons, List.find?_cons, ih]
  rw [PHI.incomingFrom, PHI.incomingFrom, hin, List.find?_append, hnone, Option.or_none, herase]

variable {V : Type}

/-- Give one PHI its value in `e'`, read in `e`; `sel` picks the id it takes the value from. -/
def assign (sel : PHI → Option Nat) (e e' : Env V) (phi : PHI) : Env V :=
  match sel phi with
  | some v => Function.update e' phi.id (e v)
  | none => e'

/-- Assign all PHIs of a block at once. -/
def enterWith (sel : PHI → Option Nat) (phis : List PHI) (e : Env V) : Env V :=
  phis.foldl (assign sel e) e

/-- Enter a block from the predecessor `p`. -/
def enter (p : Nat) (phis : List PHI) (e : Env V) : Env V :=
  enterWith (PHI.incomingFrom p) phis e

variable {sel sel' : PHI → Option Nat} {phis phis' : List PHI} {e e' a a' : Env V} {phi : PHI}
  {x v : Nat}

theorem assign_of_ne (h : x ≠ phi.id) : assign sel e a phi x = a x := by
  unfold assign
  cases sel phi with
  | none => rfl
  | some v => exact Function.update_of_ne h _ _

theorem assign_self (h : sel phi = some v) : assign sel e a phi phi.id = e v := by
  simp only [assign, h, Function.update_self]

private theorem foldl_assign_of_notMem (h : x ∉ phis.map (·.id)) :
    phis.foldl (assign sel e) a x = a x := by
  induction phis generalizing a with
  | nil => rfl
  | cons phi phis ih =>
    simp only [List.map_cons, List.mem_cons, not_or] at h
    rw [List.foldl_cons, ih h.2, assign_of_ne h.1]

/-- What the PHIs do not define keeps its value. -/
theorem enterWith_of_notMem (h : x ∉ phis.map (·.id)) : enterWith sel phis e x = e x :=
  foldl_assign_of_notMem h

/-- A PHI has the value that arrives. -/
theorem enterWith_of_mem (h : (phis.map (·.id)).Nodup) (hphi : phi ∈ phis)
    (hv : sel phi = some v) : enterWith sel phis e phi.id = e v := by
  suffices hgen : ∀ a, phis.foldl (assign sel e) a phi.id = e v from hgen e
  induction phis with
  | nil => exact absurd hphi List.not_mem_nil
  | cons psi phis ih =>
    intro a
    rw [List.map_cons, List.nodup_cons] at h
    rw [List.foldl_cons]
    rcases List.mem_cons.mp hphi with rfl | hmem
    · rw [foldl_assign_of_notMem h.1, assign_self hv]
    · exact ih h.2 hmem _

/-- PHIs with the same ids whose arriving values agree leave agreeing values. -/
theorem enterWith_agree
    (h : List.Forall₂ (fun phi phi' =>
      phi'.id = phi.id ∧ (sel' phi').map e' = (sel phi).map e) phis phis')
    (hx : e' x = e x ∨ ∃ phi ∈ phis, phi.id = x ∧ (sel phi).isSome) :
    enterWith sel' phis' e' x = enterWith sel phis e x := by
  suffices hgen : ∀ a a' : Env V, (a' x = a x ∨ ∃ phi ∈ phis, phi.id = x ∧ (sel phi).isSome) →
      phis'.foldl (assign sel' e') a' x = phis.foldl (assign sel e) a x from hgen e e' hx
  clear hx
  induction h with
  | nil =>
    intro a a' hx
    exact hx.resolve_right fun ⟨_, h, _⟩ => absurd h List.not_mem_nil
  | cons hphi htail ih =>
    rename_i phi phi' l l'
    intro a a' hx
    rw [List.foldl_cons, List.foldl_cons]
    apply ih
    obtain ⟨hid, hval⟩ := hphi
    by_cases hpx : x = phi.id
    · cases hs : sel phi with
      | none =>
        -- nothing arrives at this PHI, so it is not the one that sets `x`
        rw [hs, Option.map_none, Option.map_eq_none_iff] at hval
        simp only [assign, hs, hval]
        refine hx.imp_right fun ⟨psi, hpsi, hpx', hsome⟩ => ⟨psi, ?_, hpx', hsome⟩
        rcases List.mem_cons.mp hpsi with rfl | hpsi
        · rw [hs] at hsome
          exact nomatch hsome
        · exact hpsi
      | some v =>
        rw [hs, Option.map_some, Option.map_eq_some_iff] at hval
        obtain ⟨v', hv', hvv⟩ := hval
        left
        rw [hpx, assign_self hs, ← hid, assign_self hv', hvv]
    · rw [assign_of_ne hpx, assign_of_ne (hid ▸ hpx)]
      refine hx.imp_right fun ⟨psi, hpsi, hpx', hsome⟩ => ⟨psi, ?_, hpx', hsome⟩
      rcases List.mem_cons.mp hpsi with rfl | hpsi
      · exact absurd hpx'.symm hpx
      · exact hpsi

variable {W : Type}

/-- The value of an operand. -/
def Argument.value (e : Env V) : Argument → V ⊕ BitVec 32
  | .id i => .inl (e i)
  | .literal w => .inr w

/-- One operation with its operand values, as it is executed. -/
structure Event (V : Type) where
  op : SpvOp
  typeId : Nat
  values : List (V ⊕ BitVec 32)

/-- Values, memory and the operations executed so far. -/
structure Config (V W : Type) where
  env : Env V
  memory : W
  trace : List (Event V) := []

/-- Execute one operation. -/
def Machine.step (m : Machine V W) (s : Config V W) (op : Operation) : Config V W :=
  let values := op.arguments.map (Argument.value s.env)
  let r := m.exec op.op op.typeId values s.memory
  { env := if op.id = 0 then s.env else Function.update s.env op.id r.1
    memory := r.2
    trace := s.trace ++ [⟨op.op, op.typeId, values⟩] }

/-- Execute the operations of a block. -/
def Machine.run (m : Machine V W) (ops : List Operation) (s : Config V W) : Config V W :=
  ops.foldl m.step s

/-- The block that a terminator passes control to. -/
def Machine.next (m : Machine V W) (t : Terminator) (e : Env V) : Option Nat :=
  match t.type with
  | .branch => t.directBlock
  | .condition => if m.truth (e t.conditionalId) then t.trueBlock else t.falseBlock
  | .switch =>
    ((t.cases.find? fun k => !k.isDefault && k.value == m.word (e t.conditionalId)).or
      (t.cases.find? fun k => k.isDefault)).map (·.node)
  | _ => none

/-- The next block depends on the value of the selector only. -/
theorem Machine.next_congr (m : Machine V W) {t t' : Terminator} {e e' : Env V}
    (h : t' = { t with conditionalId := t'.conditionalId })
    (hv : e' t'.conditionalId = e t.conditionalId) : m.next t' e' = m.next t e := by
  rw [h]
  simp only [next, hv]

end DxilSpirv
